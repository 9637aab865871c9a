import Mathlib.Data.List.Basic
import Mathlib.Data.Sym.Sym2

/-!
# Loops that may fail

`mapM` and `foldlM` over `Option`, for loops whose body may read memory it should
not.  A loop whose body always succeeds is the pure loop, and what every
successful round preserves the whole loop preserves.

`pairs` are the index pairs of two nested loops, the inner one starting after
the outer one's position.
-/

namespace JunctionBox.PartialLoops

variable {α β σ : Type*}

theorem mapM_eq_some {f : α → Option β} {g : α → β} {l : List α}
    (h : ∀ a ∈ l, f a = some (g a)) : l.mapM f = some (l.map g) := by
  induction l with
  | nil => rfl
  | cons a l ih =>
      rw [List.mapM_cons, h a (List.mem_cons_self ..),
        ih fun b hb => h b (List.mem_cons_of_mem _ hb)]
      rfl

/-- A loop whose body succeeds everywhere collects what the body returns. -/
theorem exists_mapM {f : α → Option β} {l : List α} (h : ∀ a ∈ l, ∃ b, f a = some b) :
    ∃ r : List β, l.mapM f = some r ∧ r.length = l.length ∧ ∀ i : ℕ, r[i]? = l[i]?.bind f := by
  induction l with
  | nil => exact ⟨[], rfl, rfl, fun _ => rfl⟩
  | cons a l ih =>
      obtain ⟨b, hb⟩ := h a (List.mem_cons_self ..)
      obtain ⟨r, hr, hlen, hget⟩ := ih fun a' ha' => h a' (List.mem_cons_of_mem _ ha')
      refine ⟨b :: r, ?_, by rw [List.length_cons, hlen, List.length_cons], fun i => ?_⟩
      · rw [List.mapM_cons, hb, hr]
        rfl
      · cases i with
        | zero => exact hb.symm
        | succ i => exact hget i

/-- A loop that succeeds, taken apart at its first round. -/
theorem mapM_cons_eq_some {f : α → Option β} {a : α} {l : List α} {r : List β}
    (hrun : (a :: l).mapM f = some r) :
    ∃ b bs, f a = some b ∧ l.mapM f = some bs ∧ r = b :: bs := by
  rw [List.mapM_cons, Option.bind_eq_bind, Option.bind_eq_some_iff] at hrun
  obtain ⟨b, hb, hrest⟩ := hrun
  obtain ⟨bs, hbs, hr⟩ := Option.bind_eq_some_iff.mp hrest
  exact ⟨b, bs, hb, hbs, (Option.some.inj hr).symm⟩

/-- What a loop collects are the results of its body. -/
theorem mem_mapM {f : α → Option β} {l : List α} {r : List β} (hrun : l.mapM f = some r) :
    (∀ b ∈ r, ∃ a ∈ l, f a = some b) ∧ ∀ a ∈ l, ∃ b ∈ r, f a = some b := by
  induction l generalizing r with
  | nil =>
      obtain rfl := Option.some.inj hrun
      simp
  | cons a l ih =>
      obtain ⟨b, bs, hb, hbs, rfl⟩ := mapM_cons_eq_some hrun
      obtain ⟨hsound, hcomplete⟩ := ih hbs
      constructor
      · intro b' hb'
        rcases List.mem_cons.mp hb' with rfl | hb'
        · exact ⟨a, List.mem_cons_self .., hb⟩
        · obtain ⟨a', ha', heq⟩ := hsound b' hb'
          exact ⟨a', List.mem_cons_of_mem _ ha', heq⟩
      · intro a' ha'
        rcases List.mem_cons.mp ha' with rfl | ha'
        · exact ⟨b, List.mem_cons_self .., hb⟩
        · obtain ⟨b', hb', heq⟩ := hcomplete a' ha'
          exact ⟨b', List.mem_cons_of_mem _ hb', heq⟩

/-- What can be seen of the results, when it can be seen before the loop. -/
theorem map_of_mapM {γ : Type*} {f : α → Option β} {φ : β → γ} {ψ : α → γ} {l : List α}
    {r : List β} (hrun : l.mapM f = some r) (h : ∀ a ∈ l, ∀ b, f a = some b → φ b = ψ a) :
    r.map φ = l.map ψ := by
  induction l generalizing r with
  | nil =>
      obtain rfl := Option.some.inj hrun
      rfl
  | cons a l ih =>
      obtain ⟨b, bs, hb, hbs, rfl⟩ := mapM_cons_eq_some hrun
      rw [List.map_cons, List.map_cons, h a (List.mem_cons_self ..) b hb,
        ih hbs fun a' ha' => h a' (List.mem_cons_of_mem _ ha')]

/-- Two loops whose bodies correspond. -/
theorem mapM_transport {γ : Type*} {f : α → Option β} {g : α → Option γ} {φ : β → γ}
    {P : β → Prop} {l : List α} {r : List β} (hrun : l.mapM f = some r)
    (h : ∀ a ∈ l, ∀ b, f a = some b → g a = some (φ b) ∧ P b) :
    l.mapM g = some (r.map φ) ∧ ∀ b ∈ r, P b := by
  induction l generalizing r with
  | nil =>
      obtain rfl := Option.some.inj hrun
      exact ⟨rfl, by simp⟩
  | cons a l ih =>
      obtain ⟨b, bs, hb, hbs, rfl⟩ := mapM_cons_eq_some hrun
      obtain ⟨hhead, hP⟩ := h a (List.mem_cons_self ..) b hb
      obtain ⟨htail, hall⟩ := ih hbs fun a' ha' => h a' (List.mem_cons_of_mem _ ha')
      refine ⟨?_, fun b' hb' => ?_⟩
      · rw [List.mapM_cons, hhead, htail]
        rfl
      · rcases List.mem_cons.mp hb' with rfl | hb'
        · exact hP
        · exact hall b' hb'

/-- Loops over corresponding lists whose rounds keep two states in correspondence. -/
theorem foldlM_transport {τ γ : Type*} {f : σ → α → Option σ} {g : τ → γ → Option τ}
    {φ : α → γ} (rel : σ → τ → Prop) {l : List α} {s s' : σ} {u : τ}
    (hrun : l.foldlM f s = some s') (hrel : rel s u)
    (h : ∀ s u a s', a ∈ l → rel s u → f s a = some s' → ∃ u', g u (φ a) = some u' ∧ rel s' u') :
    ∃ u', (l.map φ).foldlM g u = some u' ∧ rel s' u' := by
  induction l generalizing s u with
  | nil =>
      obtain rfl := Option.some.inj hrun
      exact ⟨u, rfl, hrel⟩
  | cons a l ih =>
      rw [List.foldlM_cons, Option.bind_eq_bind, Option.bind_eq_some_iff] at hrun
      obtain ⟨s₁, hstep, hrest⟩ := hrun
      obtain ⟨u₁, hstep', hrel₁⟩ := h s u a s₁ (List.mem_cons_self ..) hrel hstep
      obtain ⟨u', hrun', hrel'⟩ := ih hrest hrel₁ fun s u b s' hb =>
        h s u b s' (List.mem_cons_of_mem _ hb)
      refine ⟨u', ?_, hrel'⟩
      rw [List.map_cons, List.foldlM_cons, hstep']
      exact hrun'

/-- A view of the state that commutes with the body commutes with the loop. -/
theorem foldlM_view {τ : Type*} {f : σ → α → Option σ} {g : τ → α → Option τ} {φ : σ → τ}
    (h : ∀ s a, (f s a).map φ = g (φ s) a) (l : List α) (s : σ) :
    (l.foldlM f s).map φ = l.foldlM g (φ s) := by
  induction l generalizing s with
  | nil => rfl
  | cons a l ih =>
      rw [List.foldlM_cons, List.foldlM_cons, ← h s a]
      cases f s a with
      | none => rfl
      | some s' => exact ih s'

/-- If the body succeeds from every state the loop can be in, the loop succeeds. -/
theorem foldlM_eq_some {f : σ → α → Option σ} {g : σ → α → σ} {l : List α} {s : σ}
    (inv : σ → Prop) (hs : inv s)
    (h : ∀ s, inv s → ∀ a ∈ l, f s a = some (g s a) ∧ inv (g s a)) :
    l.foldlM f s = some (l.foldl g s) ∧ inv (l.foldl g s) := by
  induction l generalizing s with
  | nil => exact ⟨rfl, hs⟩
  | cons a l ih =>
      obtain ⟨hstep, hinv⟩ := h s hs a (List.mem_cons_self ..)
      rw [List.foldlM_cons, hstep, List.foldl_cons]
      exact ih hinv fun s hs b hb => h s hs b (List.mem_cons_of_mem _ hb)

/-- An invariant of the body is an invariant of the loop. -/
theorem foldlM_invariant {f : σ → α → Option σ} {l : List α} {s s' : σ} (inv : σ → Prop)
    (hrun : l.foldlM f s = some s') (hs : inv s)
    (h : ∀ s a s', a ∈ l → inv s → f s a = some s' → inv s') : inv s' := by
  induction l generalizing s with
  | nil =>
      rw [List.foldlM_nil] at hrun
      exact Option.some.inj hrun ▸ hs
  | cons a l ih =>
      rw [List.foldlM_cons, Option.bind_eq_bind, Option.bind_eq_some_iff] at hrun
      obtain ⟨s₁, hstep, hrest⟩ := hrun
      exact ih hrest (h s a s₁ (List.mem_cons_self ..) hs hstep)
        fun s b s' hb => h s b s' (List.mem_cons_of_mem _ hb)

theorem foldlM_append {f : σ → α → Option σ} (l l' : List α) (s : σ) :
    (l ++ l').foldlM f s = (l.foldlM f s).bind fun s' => l'.foldlM f s' := by
  rw [List.foldlM_append]
  rfl

/-- A loop over the indices of a list. -/
theorem foldlM_range {f : σ → α → Option σ} (l : List α) (s : σ) :
    (List.range l.length).foldlM (fun s (i : ℕ) => l[i]?.bind (f s)) s = l.foldlM f s := by
  induction l generalizing s with
  | nil => rfl
  | cons a l ih =>
      rw [List.length_cons, List.range_succ_eq_map, List.foldlM_cons, List.foldlM_cons]
      simp only [List.getElem?_cons_zero, Option.bind_some]
      congr 1
      funext s'
      rw [List.foldlM_map]
      simp only [List.getElem?_cons_succ]
      exact ih s'

/-- A loop over indices whose rounds give the elements of a list. -/
theorem mapM_range {f : ℕ → Option β} {l : List β} (h : ∀ i (hi : i < l.length), f i = some l[i]) :
    (List.range l.length).mapM f = some l := by
  obtain ⟨r, hrun, -, hget⟩ := exists_mapM (f := f) (l := List.range l.length) fun i hi =>
    ⟨_, h i (List.mem_range.mp hi)⟩
  rw [hrun, Option.some.injEq]
  refine List.ext_getElem? fun i => ?_
  rw [hget]
  by_cases hi : i < l.length
  · rw [List.getElem?_range hi, Option.bind_some, h i hi, List.getElem?_eq_getElem hi]
  · rw [List.getElem?_eq_none (by simpa using hi), List.getElem?_eq_none (by simpa using hi)]
    rfl

/-- Every round of a loop establishes something that no other round destroys. -/
theorem foldl_establishes {f : σ → α → σ} {P : α → σ → Prop} (hset : ∀ s a, P a (f s a))
    (hkeep : ∀ s a b, P b s → P b (f s a)) (l : List α) (s : σ) :
    ∀ a ∈ l, P a (l.foldl f s) := by
  have hrest : ∀ (l : List α) (s : σ) (a : α), P a s → P a (l.foldl f s) := by
    intro l
    induction l with
    | nil => exact fun s a h => h
    | cons b l ih => exact fun s a h => ih _ a (hkeep s b a h)
  induction l generalizing s with
  | nil => exact fun a ha => absurd ha List.not_mem_nil
  | cons b l ih =>
      intro a ha
      rcases List.mem_cons.mp ha with rfl | ha
      · exact hrest l _ a (hset s a)
      · exact ih _ a ha

/-- The pairs of one list element and a later one, in the order of the nested loops. -/
def pairs : List α → List (α × α)
  | [] => []
  | a :: rest => rest.map (fun b => (a, b)) ++ pairs rest

theorem mem_pairs {a b : α} {l : List α} (h : (a, b) ∈ pairs l) : a ∈ l ∧ b ∈ l := by
  induction l with
  | nil => exact absurd h List.not_mem_nil
  | cons c l ih =>
      rcases List.mem_append.mp h with h | h
      · obtain ⟨d, hd, heq⟩ := List.mem_map.mp h
        obtain ⟨rfl, rfl⟩ := Prod.mk.inj heq
        exact ⟨List.mem_cons_self .., List.mem_cons_of_mem _ hd⟩
      · exact ⟨List.mem_cons_of_mem _ (ih h).1, List.mem_cons_of_mem _ (ih h).2⟩

/-- Every two different elements are paired once, in one order or the other. -/
theorem exists_mem_pairs {a b : α} {l : List α} (ha : a ∈ l) (hb : b ∈ l)
    (hne : a ≠ b) : ∃ p ∈ pairs l, s(p.1, p.2) = s(a, b) := by
  induction l with
  | nil => exact absurd ha List.not_mem_nil
  | cons c l ih =>
      rcases List.mem_cons.mp ha with hac | hal <;> rcases List.mem_cons.mp hb with hbc | hbl
      · exact absurd (hac.trans hbc.symm) hne
      · exact ⟨(c, b), List.mem_append_left _ (List.mem_map.mpr ⟨b, hbl, rfl⟩), by rw [hac]⟩
      · refine ⟨(c, a), List.mem_append_left _ (List.mem_map.mpr ⟨a, hal, rfl⟩), ?_⟩
        rw [hbc, Sym2.eq_swap]
      · obtain ⟨p, hp, heq⟩ := ih hal hbl
        exact ⟨p, List.mem_append_right _ hp, heq⟩

/-- No two pairs have the same members. -/
theorem nodup_pairs {l : List α} (hl : l.Nodup) : ((pairs l).map fun p => s(p.1, p.2)).Nodup := by
  induction l with
  | nil => exact List.nodup_nil
  | cons a rest ih =>
      obtain ⟨ha, hrest⟩ := List.nodup_cons.mp hl
      rw [pairs, List.map_append, List.map_map, List.nodup_append]
      refine ⟨hrest.map fun b c heq => Sym2.congr_right.mp heq, ih hrest, ?_⟩
      rintro x hx y hy rfl
      obtain ⟨b, -, rfl⟩ := List.mem_map.mp hx
      obtain ⟨p, hp, heq⟩ := List.mem_map.mp hy
      have hmem := mem_pairs (a := p.1) (b := p.2) hp
      rcases Sym2.eq_iff.mp heq with ⟨hfst, -⟩ | ⟨-, hsnd⟩
      · exact ha ((show p.1 = a from hfst) ▸ hmem.1)
      · exact ha ((show p.2 = a from hsnd) ▸ hmem.2)

end JunctionBox.PartialLoops
