import Mathlib.Data.List.Nodup
import Mathlib.Data.List.Pairwise
import Mathlib.Logic.Relation
import Mathlib.Order.Defs.Unbundled

/-!
# Climbing through a list

A list is listed upwards when no element lies below an earlier one.  From an
element one climbs to the first later element above it, from there to the next
one above that, and so on, and takes everything on the way out of the list.
`climbs` does so from every element that is still there when its turn comes.

The tops of the climbs lie above everything (`exists_climb_above`), but a climb
may stop below a maximal element, when all that is above has been taken before.
`tops_maximal_iff` says that this is the only way to miss a maximal element.

No climb meets that when no two elements share the `next` one above them
(`unobstructed_of_unshared`); and where two share it, the climbs through the list
up to that element do not all end at a maximal one (`unshared_of_unobstructed`).
With no next one shared, the climbs start at the elements that are nobody's next
one, and each goes as far as it would alone (`tops_eq_map_starts`).
-/

namespace JunctionBox.Climbing

variable {α : Type*}

/-- One climb: where it ends, what it takes, and what it leaves in the list. -/
structure Climb (α : Type*) where
  top : α
  taken : List α
  left : List α

variable (r : α → α → Prop) [DecidableRel r]

/-- The climb from `a` through a list. -/
def climb : α → List α → Climb α
  | a, [] => ⟨a, [a], []⟩
  | a, b :: rest =>
      if r a b then
        let next := climb b rest
        ⟨next.top, a :: next.taken, next.left⟩
      else
        let next := climb a rest
        ⟨next.top, next.taken, b :: next.left⟩

theorem climb_cons_of_rel {a b : α} (h : r a b) (rest : List α) :
    climb r a (b :: rest) =
      ⟨(climb r b rest).top, a :: (climb r b rest).taken, (climb r b rest).left⟩ := if_pos h

theorem climb_cons_of_not_rel {a b : α} (h : ¬r a b) (rest : List α) :
    climb r a (b :: rest) =
      ⟨(climb r a rest).top, (climb r a rest).taken, b :: (climb r a rest).left⟩ := if_neg h

/-- Nothing gets lost. -/
theorem perm_climb (a : α) (l : List α) :
    (a :: l).Perm ((climb r a l).taken ++ (climb r a l).left) := by
  induction l generalizing a with
  | nil => exact List.Perm.refl _
  | cons b rest ih =>
      by_cases h : r a b
      · rw [climb_cons_of_rel r h]
        exact (ih b).cons a
      · rw [climb_cons_of_not_rel r h]
        refine (List.Perm.swap b a rest).trans ?_
        exact ((ih a).cons b).trans List.perm_middle.symm

theorem left_sublist (a : α) (l : List α) : (climb r a l).left.Sublist l := by
  induction l generalizing a with
  | nil => exact List.Sublist.refl _
  | cons b rest ih =>
      by_cases h : r a b
      · rw [climb_cons_of_rel r h]
        exact (ih b).cons b
      · rw [climb_cons_of_not_rel r h]
        exact (ih a).cons_cons b

theorem top_mem_taken (a : α) (l : List α) : (climb r a l).top ∈ (climb r a l).taken := by
  induction l generalizing a with
  | nil => exact List.mem_singleton_self a
  | cons b rest ih =>
      by_cases h : r a b
      · rw [climb_cons_of_rel r h]
        exact List.mem_cons_of_mem a (ih b)
      · rw [climb_cons_of_not_rel r h]
        exact ih a

theorem mem_taken_self (a : α) (l : List α) : a ∈ (climb r a l).taken := by
  induction l with
  | nil => exact List.mem_singleton_self a
  | cons b rest ih =>
      by_cases h : r a b
      · rw [climb_cons_of_rel r h]
        exact List.mem_cons_self ..
      · rw [climb_cons_of_not_rel r h]
        exact ih

/-- A climb passes what is not above where it stands. -/
theorem climb_append_of_not_rel {a : α} {l : List α} (h : ∀ b ∈ l, ¬r a b) (rest : List α) :
    climb r a (l ++ rest) =
      ⟨(climb r a rest).top, (climb r a rest).taken, l ++ (climb r a rest).left⟩ := by
  induction l with
  | nil => rfl
  | cons b l ih =>
      rw [List.cons_append, climb_cons_of_not_rel r (h b (List.mem_cons_self ..)),
        ih fun c hc => h c (List.mem_cons_of_mem _ hc)]
      rfl

theorem length_left_lt (a : α) (l : List α) : (climb r a l).left.length < (a :: l).length :=
  Nat.lt_succ_of_le (left_sublist r a l).length_le

/-- The climbs from every element that is there when its turn comes. -/
def climbs : List α → List (Climb α)
  | [] => []
  | a :: l => climb r a l :: climbs (climb r a l).left
termination_by l => l.length
decreasing_by exact length_left_lt r a l

/-- The ends of the climbs. -/
def tops (l : List α) : List α := (climbs r l).map Climb.top

/-- No climb ends below something that an earlier one has taken. -/
def Unobstructed (l : List α) : Prop :=
  (climbs r l).Pairwise fun c d => ∀ b ∈ c.taken, ¬r d.top b

instance (l : List α) : Decidable (Unobstructed r l) :=
  inferInstanceAs (Decidable (List.Pairwise _ _))

@[simp] theorem climbs_nil : climbs r ([] : List α) = [] := by rw [climbs]

theorem climbs_cons (a : α) (l : List α) :
    climbs r (a :: l) = climb r a l :: climbs r (climb r a l).left := by rw [climbs]

@[simp] theorem tops_nil : tops r ([] : List α) = [] := by rw [tops, climbs_nil, List.map_nil]

theorem tops_cons (a : α) (l : List α) :
    tops r (a :: l) = (climb r a l).top :: tops r (climb r a l).left := by
  rw [tops, climbs_cons, List.map_cons]
  rfl

/-- Every element is taken by some climb. -/
theorem exists_climb_of_mem {l : List α} {b : α} (hb : b ∈ l) : ∃ c ∈ climbs r l, b ∈ c.taken := by
  induction l using climbs.induct r with
  | case1 => exact absurd hb List.not_mem_nil
  | case2 a l ih =>
      rw [climbs_cons]
      rcases List.mem_append.mp ((perm_climb r a l).mem_iff.mp hb) with htaken | hleft
      · exact ⟨_, List.mem_cons_self .., htaken⟩
      · obtain ⟨c, hc, hmem⟩ := ih hleft
        exact ⟨c, List.mem_cons_of_mem _ hc, hmem⟩

/-- Climbs take elements of the list. -/
theorem mem_of_taken {l : List α} {c : Climb α} (hc : c ∈ climbs r l) {b : α} (hb : b ∈ c.taken) :
    b ∈ l := by
  induction l using climbs.induct r with
  | case1 =>
      rw [climbs_nil] at hc
      exact absurd hc List.not_mem_nil
  | case2 a l ih =>
      rw [climbs_cons] at hc
      apply (perm_climb r a l).mem_iff.mpr
      rcases List.mem_cons.mp hc with rfl | hc
      · exact List.mem_append_left _ hb
      · exact List.mem_append_right _ (ih hc)

theorem top_mem_of_mem {l : List α} {c : Climb α} (hc : c ∈ climbs r l) : c.top ∈ c.taken := by
  induction l using climbs.induct r with
  | case1 =>
      rw [climbs_nil] at hc
      exact absurd hc List.not_mem_nil
  | case2 a l ih =>
      rw [climbs_cons] at hc
      rcases List.mem_cons.mp hc with rfl | hc
      · exact top_mem_taken r a l
      · exact ih hc

theorem mem_of_mem_tops {l : List α} {t : α} (ht : t ∈ tops r l) : t ∈ l := by
  obtain ⟨c, hc, rfl⟩ := List.mem_map.mp ht
  exact mem_of_taken r hc (top_mem_of_mem r hc)

/-- In a list listed upwards nothing that a climb leaves is above its top. -/
theorem not_rel_of_left {a : α} {l : List α} (hl : l.Pairwise fun b c => ¬r c b) {b : α}
    (hb : b ∈ (climb r a l).left) : ¬r (climb r a l).top b := by
  induction l generalizing a with
  | nil => exact absurd hb List.not_mem_nil
  | cons c rest ih =>
      rw [List.pairwise_cons] at hl
      by_cases h : r a c
      · rw [climb_cons_of_rel r h] at hb ⊢
        exact ih hl.2 hb
      · rw [climb_cons_of_not_rel r h] at hb ⊢
        rcases List.mem_cons.mp hb with rfl | hb
        · -- the top is `a` or a later element
          have htop := (perm_climb r a rest).mem_iff.mpr
            (List.mem_append_left _ (top_mem_taken r a rest))
          rcases List.mem_cons.mp htop with heq | hmem
          · show ¬r (climb r a rest).top b
            rw [heq]
            exact h
          · exact hl.1 _ hmem
        · exact ih hl.2 hb

/-- In a list listed upwards no top is below a later one. -/
theorem pairwise_tops {l : List α} (hl : l.Pairwise fun b c => ¬r c b) :
    (tops r l).Pairwise fun s t => ¬r s t := by
  induction l using climbs.induct r with
  | case1 => simp
  | case2 a l ih =>
      have htail := (List.pairwise_cons.mp hl).2
      rw [tops_cons, List.pairwise_cons]
      exact ⟨fun t ht => not_rel_of_left r htail (mem_of_mem_tops r ht),
        ih (htail.sublist (left_sublist r a l))⟩

/-- Maximal tops are not comparable. -/
theorem antichain_tops {l : List α} (hl : l.Pairwise fun b c => ¬r c b)
    (hmax : ∀ t ∈ tops r l, ∀ b ∈ l, r t b → r b t) :
    (tops r l).Pairwise fun s t => ¬r s t ∧ ¬r t s := by
  have hpair := pairwise_tops r hl
  apply hpair.imp_of_mem
  intro s t hs ht hst
  exact ⟨hst, fun hts => hst (hmax t ht s (mem_of_mem_tops r hs) hts)⟩

/-- The first step of a climb taken out. -/
theorem tops_of_first [IsTrans α r] {a b : α} {passed : List α} (hab : r a b)
    (hpassed : ∀ c ∈ passed, ¬r a c)
    (rest : List α) : tops r (a :: (passed ++ b :: rest)) = tops r (b :: (passed ++ rest)) := by
  have hpassed' : ∀ c ∈ passed, ¬r b c := fun c hc hbc => hpassed c hc (trans_of r hab hbc)
  rw [tops_cons, tops_cons, climb_append_of_not_rel r hpassed, climb_append_of_not_rel r hpassed',
    climb_cons_of_rel r hab]

/-- What one climb takes is gone for the others. -/
theorem disjoint_taken_left {a : α} {l : List α} (hl : (a :: l).Nodup) :
    (climb r a l).taken.Disjoint (climb r a l).left :=
  List.disjoint_of_nodup_append ((perm_climb r a l).nodup_iff.mp hl)

theorem eq_of_mem_taken {l : List α} (hl : l.Nodup) {c d : Climb α} (hc : c ∈ climbs r l)
    (hd : d ∈ climbs r l) {b : α} (hbc : b ∈ c.taken) (hbd : b ∈ d.taken) : c = d := by
  induction l using climbs.induct r with
  | case1 =>
      rw [climbs_nil] at hc
      exact absurd hc List.not_mem_nil
  | case2 a l ih =>
      have hdisj := disjoint_taken_left r hl
      rw [climbs_cons] at hc hd
      rcases List.mem_cons.mp hc with rfl | hc
      · rcases List.mem_cons.mp hd with rfl | hd
        · rfl
        · exact absurd (mem_of_taken r hd hbd) (hdisj hbc)
      · rcases List.mem_cons.mp hd with rfl | hd
        · exact absurd (mem_of_taken r hc hbc) (hdisj hbd)
        · exact ih ((List.nodup_cons.mp hl).2.sublist (left_sublist r a l)) hc hd

omit [DecidableRel r] in
theorem eq_of_upwards {l : List α} (hl : l.Pairwise fun a b => ¬r b a) {a b : α} (ha : a ∈ l)
    (hb : b ∈ l) (hab : r a b) (hba : r b a) : a = b := by
  by_contra hne
  have hnot : l.Pairwise fun a b => ¬(r a b ∧ r b a) := hl.imp fun h hboth => h hboth.2
  have : Std.Symm fun a b => ¬(r a b ∧ r b a) := ⟨fun _ _ h hboth => h hboth.symm⟩
  exact hnot.forall ha hb hne ⟨hab, hba⟩

/-! ## Climbing in an image -/

section Map

variable {β : Type*} (s : β → β → Prop) [DecidableRel s] {f : α → β}

theorem map_climb (hf : ∀ a b, r a b ↔ s (f a) (f b)) (a : α) (l : List α) :
    climb s (f a) (l.map f) =
      ⟨f (climb r a l).top, (climb r a l).taken.map f, (climb r a l).left.map f⟩ := by
  induction l generalizing a with
  | nil => rfl
  | cons b rest ih =>
      rw [List.map_cons]
      by_cases h : r a b
      · rw [climb_cons_of_rel s ((hf a b).mp h), climb_cons_of_rel r h, ih b, List.map_cons]
      · rw [climb_cons_of_not_rel s (mt (hf a b).mpr h), climb_cons_of_not_rel r h, ih a,
          List.map_cons]

/-- Only the relation counts. -/
theorem map_tops (hf : ∀ a b, r a b ↔ s (f a) (f b)) (l : List α) :
    (tops r l).map f = tops s (l.map f) := by
  induction l using climbs.induct r with
  | case1 => rw [tops_nil, List.map_nil, tops_nil]
  | case2 a l ih =>
      rw [tops_cons, List.map_cons, List.map_cons, tops_cons, map_climb r s hf, ih]

end Map

/-! ## Next elements -/

/-- The first element of the list strictly above `a`. -/
def next (l : List α) (a : α) : Option α := l.find? fun b => decide (r a b ∧ ¬r b a)

/-- No element is the next one of two others. -/
def Unshared (l : List α) : Prop :=
  ∀ a ∈ l, ∀ b ∈ l, (next r l a).isSome → next r l a = next r l b → a = b

instance [DecidableEq α] (l : List α) : Decidable (Unshared r l) :=
  inferInstanceAs (Decidable (∀ a ∈ l, ∀ b ∈ l, _ → _ → _))

theorem next_eq_some_iff {l : List α} {a b : α} :
    next r l a = some b ↔ (r a b ∧ ¬r b a) ∧
      ∃ front back, l = front ++ b :: back ∧ ∀ c ∈ front, r a c → r c a := by
  simp [next, List.find?_eq_some_iff_append, imp_iff_not_or]

theorem next_eq_none_iff {l : List α} {a : α} :
    next r l a = none ↔ ∀ b ∈ l, r a b → r b a := by
  simp [next]

theorem Unshared.take {l : List α} (h : Unshared r l) (n : ℕ) : Unshared r (l.take n) := by
  have hnext : ∀ a, (next r (l.take n) a).isSome → next r l a = next r (l.take n) a := by
    intro a ha
    obtain ⟨c, hc⟩ := Option.isSome_iff_exists.mp ha
    have hsplit : next r (l.take n ++ l.drop n) a = (next r (l.take n) a).or _ :=
      List.find?_append
    rwa [List.take_append_drop, hc, Option.some_or, ← hc] at hsplit
  intro a ha b hb hsome heq
  apply h a (List.mem_of_mem_take ha) b (List.mem_of_mem_take hb)
  · rwa [hnext a hsome]
  · rw [hnext a hsome, hnext b (heq ▸ hsome), heq]

/-- The list has the next elements of all its own. -/
def Closed (l m : List α) : Prop := ∀ a ∈ m, ∀ b, next r l a = some b → b ∈ m

theorem Closed.of_cons {l : List α} (hl : l.Pairwise fun a b => ¬r b a) {a : α} {m : List α}
    (hsub : (a :: m).Sublist l) (h : Closed r l (a :: m)) : Closed r l m := by
  intro x hx b hb
  rcases List.mem_cons.mp (h x (List.mem_cons_of_mem a hx) b hb) with rfl | hmem
  · -- nothing earlier is above `x`
    have hxb := ((next_eq_some_iff r).mp hb).1.1
    exact absurd hxb ((List.pairwise_cons.mp (hl.sublist hsub)).1 x hx)
  · exact hmem

section Refl

variable [Std.Refl r]

omit [DecidableRel r] in
theorem nodup_of_upwards {l : List α} (hl : l.Pairwise fun a b => ¬r b a) :
    l.Nodup := by
  apply hl.imp
  rintro a b h rfl
  exact h (refl_of r a)

/-- The climb from `a` goes to the next element of `a`, if that has not been taken. -/
theorem next_eq_of_sublist {l : List α} (hl : l.Pairwise fun a b => ¬r b a) {a c : α}
    {rest : List α} (hsub : (a :: c :: rest).Sublist l) (hac : r a c)
    (hclosed : ∀ b, next r l a = some b → b ∈ a :: c :: rest) : next r l a = some c := by
  have hca : ¬r c a := (List.pairwise_cons.mp (hl.sublist hsub)).1 c (List.mem_cons_self ..)
  cases hnext : next r l a with
  | none =>
      have hc : c ∈ l := hsub.subset (List.mem_cons_of_mem _ (List.mem_cons_self ..))
      exact absurd ((next_eq_none_iff r).mp hnext c hc hac) hca
  | some b =>
      obtain ⟨⟨hab, hba⟩, front, back, rfl, hfront⟩ := (next_eq_some_iff r).mp hnext
      have hnodup := nodup_of_upwards r hl
      obtain ⟨m₁, m₂, heq, hm₁, hm₂⟩ :=
        List.sublist_append_iff.mp ((List.sublist_cons_self ..).trans hsub)
      cases m₁ with
      | cons d m₁ =>
          obtain ⟨rfl, -⟩ := List.cons.inj heq
          exact absurd (hfront c (hm₁.subset (List.mem_cons_self ..)) hac) hca
      | nil =>
          rw [List.nil_append] at heq
          rw [← heq] at hm₂
          rcases List.sublist_cons_iff.mp hm₂ with hback | ⟨m, hm, -⟩
          · -- then `b` comes again after itself
            have hb : b ∈ c :: rest := by
              rcases List.mem_cons.mp (hclosed b hnext) with rfl | hb
              · exact absurd hab hba
              · exact hb
            have hfresh := (List.nodup_cons.mp (List.nodup_append.mp hnodup).2.1).1
            exact absurd (hback.subset hb) hfresh
          · rw [(List.cons.inj hm).1]

/-- The climb goes from each element to the next one, up to one that has none. -/
structure Follows (l : List α) (a : α) (c : Climb α) : Prop where
  ends : next r l c.top = none
  reaches : Relation.ReflTransGen (fun b b' => next r l b = some b') a c.top
  reached : ∀ b ∈ c.taken, b = a ∨ ∃ b' ∈ c.taken, next r l b' = some b
  goesOn : ∀ b ∈ c.taken, ∀ b', next r l b = some b' → b' ∈ c.taken

/-- A climb through a closed list follows the next elements. -/
theorem climb_of_closed {l : List α} (hl : l.Pairwise fun a b => ¬r b a) {a : α} {m : List α}
    (hsub : (a :: m).Sublist l) (h : Closed r l (a :: m)) : Follows r l a (climb r a m) := by
  induction m generalizing a with
  | nil =>
      have hends : next r l a = none := by
        cases hnext : next r l a with
        | none => rfl
        | some b =>
            obtain ⟨⟨hab, hba⟩, -⟩ := (next_eq_some_iff r).mp hnext
            rw [List.mem_singleton.mp (h a (List.mem_cons_self ..) b hnext)] at hab hba
            exact absurd hab hba
      refine ⟨hends, Relation.ReflTransGen.refl, fun b hb => Or.inl (List.mem_singleton.mp hb),
        fun b hb b' hnext => ?_⟩
      rw [List.mem_singleton.mp hb, hends] at hnext
      exact absurd hnext (by simp)
  | cons c rest ih =>
      have htail := h.of_cons r hl hsub
      by_cases hac : r a c
      · have hnext := next_eq_of_sublist r hl hsub hac (h a (List.mem_cons_self ..))
        obtain ⟨hends, hreaches, hreached, hgoesOn⟩ :=
          ih ((List.sublist_cons_self ..).trans hsub) htail
        rw [climb_cons_of_rel r hac]
        refine ⟨hends, hreaches.head hnext, fun b hb => ?_, fun b hb b' hb' => ?_⟩
        · rcases List.mem_cons.mp hb with rfl | hb
          · exact Or.inl rfl
          · rcases hreached b hb with rfl | ⟨d, hd, hdb⟩
            · exact Or.inr ⟨a, List.mem_cons_self .., hnext⟩
            · exact Or.inr ⟨d, List.mem_cons_of_mem _ hd, hdb⟩
        · rcases List.mem_cons.mp hb with rfl | hb
          · obtain rfl : c = b' := Option.some.inj (hnext.symm.trans hb')
            exact List.mem_cons_of_mem _ (mem_taken_self r c rest)
          · exact List.mem_cons_of_mem _ (hgoesOn b hb b' hb')
      · rw [climb_cons_of_not_rel r hac]
        have hsub' : (a :: rest).Sublist (a :: c :: rest) :=
          (List.sublist_cons_self c rest).cons_cons a
        have hrest : Closed r l (a :: rest) := by
          -- `c` is nobody's next element but possibly that of `a`
          intro x hx b hb
          have hmem := h x (hsub'.subset hx) b hb
          by_cases hbc : b = c
          · subst hbc
            have hxb := ((next_eq_some_iff r).mp hb).1.1
            rcases List.mem_cons.mp hx with rfl | hx
            · exact absurd hxb hac
            · have hup := (List.pairwise_cons.mp (hl.sublist hsub)).2
              exact absurd hxb ((List.pairwise_cons.mp hup).1 x hx)
          · rcases List.mem_cons.mp hmem with rfl | hmem
            · exact List.mem_cons_self ..
            · exact List.mem_cons_of_mem _ ((List.mem_cons.mp hmem).resolve_left hbc)
        obtain ⟨hends, hreaches, hreached, hgoesOn⟩ := ih (hsub'.trans hsub) hrest
        exact ⟨hends, hreaches, hreached, hgoesOn⟩

/-- What a climb leaves is closed again when no two elements share the next one. -/
theorem closed_left {l : List α} (hl : l.Pairwise fun a b => ¬r b a) (hown : Unshared r l) {a : α}
    {m : List α} (hsub : (a :: m).Sublist l) (h : Closed r l (a :: m)) :
    Closed r l (climb r a m).left := by
  intro x hx b hb
  have hxm : x ∈ m := (left_sublist r a m).subset hx
  have hxl : x ∈ l := hsub.subset (List.mem_cons_of_mem a hxm)
  have hmem := h x (List.mem_cons_of_mem a hxm) b hb
  rcases List.mem_append.mp ((perm_climb r a m).mem_iff.mp hmem) with htaken | hleft
  · exfalso
    rcases (climb_of_closed r hl hsub h).reached b htaken with rfl | ⟨c, hc, hcb⟩
    · have hxb := ((next_eq_some_iff r).mp hb).1.1
      exact (List.pairwise_cons.mp (hl.sublist hsub)).1 x hxm hxb
    · have hcl : c ∈ l := hsub.subset
        ((perm_climb r a m).mem_iff.mpr (List.mem_append_left _ hc))
      obtain rfl := hown x hxl c hcl (by rw [hb]; rfl) (hb.trans hcb.symm)
      exact disjoint_taken_left r (nodup_of_upwards r (hl.sublist hsub)) hc hx
  · exact hleft

theorem next_of_mem_tops {l : List α} (hl : l.Pairwise fun a b => ¬r b a) (hown : Unshared r l)
    {m : List α} (hsub : m.Sublist l) (h : Closed r l m) {t : α} (ht : t ∈ tops r m) :
    next r l t = none := by
  induction m using climbs.induct r with
  | case1 => simp at ht
  | case2 a m ih =>
      rw [tops_cons] at ht
      rcases List.mem_cons.mp ht with rfl | ht
      · exact (climb_of_closed r hl hsub h).ends
      · exact ih (((left_sublist r a m).trans (List.sublist_cons_self a m)).trans hsub)
          (closed_left r hl hown hsub h) ht

/-! ## The starts of the climbs -/

/-- Where the climb from `a` through the whole list ends. -/
def summit (l : List α) (a : α) : α := (climb r a l).top

/-- The elements that are the next one of no other. -/
def starts [DecidableEq α] (l : List α) : List α :=
  l.filter fun b => decide (∀ a ∈ l, next r l a ≠ some b)

/-- Where the climb from the last start ends. -/
def lastSummit [DecidableEq α] (l : List α) : Option α :=
  (starts r l).getLast?.map (summit r l)

/-- Nothing outside the list has its next element in it. -/
def Entered (l m : List α) : Prop := ∀ a ∈ l, ∀ b ∈ m, next r l a = some b → a ∈ m

/-- A climb through a closed list ends where the climb through the whole list does. -/
theorem top_eq_summit {l : List α} (hl : l.Pairwise fun a b => ¬r b a) {a : α} {m : List α}
    (hsub : (a :: m).Sublist l) (h : Closed r l (a :: m)) : (climb r a m).top = summit r l a := by
  obtain ⟨front, back, rfl⟩ := List.append_of_mem (hsub.subset (List.mem_cons_self ..))
  -- the climb through the whole list starts at `a`
  have hfront : ∀ b ∈ front, ¬r a b := fun b hb =>
    (List.pairwise_append.mp hl).2.2 b hb a (List.mem_cons_self ..)
  have hwhole : summit r (front ++ a :: back) a = (climb r a back).top := by
    unfold summit
    rw [climb_append_of_not_rel r hfront, climb_cons_of_rel r (refl_of r a)]
  have hback : (a :: back).Sublist (front ++ a :: back) := List.sublist_append_right ..
  have hclosed : Closed r (front ++ a :: back) (a :: back) := by
    intro x hx b hb
    have hxb := ((next_eq_some_iff r).mp hb).1.1
    rcases List.mem_append.mp (List.mem_of_find?_eq_some hb) with hmem | hmem
    · exact absurd hxb ((List.pairwise_append.mp hl).2.2 b hmem x hx)
    · exact hmem
  have hfollows := climb_of_closed r hl hsub h
  have hfollows' := climb_of_closed r hl hback hclosed
  rw [hwhole]
  -- both follow the next elements to the one that has none
  have hunique : Relator.RightUnique fun b b' => next r (front ++ a :: back) b = some b' :=
    fun b c d hc hd => Option.some.inj (hc.symm.trans hd)
  rcases Relation.ReflTransGen.total_of_right_unique hunique hfollows.reaches
    hfollows'.reaches with hreach | hreach
  · rcases hreach.cases_head with heq | ⟨c, hc, -⟩
    · exact heq
    · rw [hfollows.ends] at hc
      exact absurd hc (by simp)
  · rcases hreach.cases_head with heq | ⟨c, hc, -⟩
    · exact heq.symm
    · rw [hfollows'.ends] at hc
      exact absurd hc (by simp)

section Starts

variable [DecidableEq α]

/-- The starts among what a climb takes and what it leaves. -/
theorem filter_climb {l : List α} (hl : l.Pairwise fun a b => ¬r b a) {a : α} {m : List α}
    (hsub : (a :: m).Sublist l) (h : Closed r l (a :: m)) (henter : Entered r l (a :: m)) :
    ((a :: m).filter fun b => decide (∀ a ∈ l, next r l a ≠ some b)) =
      a :: (climb r a m).left.filter fun b => decide (∀ a ∈ l, next r l a ≠ some b) := by
  set isStart : α → Bool := fun b => decide (∀ a ∈ l, next r l a ≠ some b) with hisStart
  have hfollows := climb_of_closed r hl hsub h
  have hnodup := nodup_of_upwards r (hl.sublist hsub)
  have hmem : ∀ b ∈ (climb r a m).taken, b ∈ l := fun b hb =>
    hsub.subset ((perm_climb r a m).mem_iff.mpr (List.mem_append_left _ hb))
  have ha : isStart a = true := by
    rw [hisStart, decide_eq_true_eq]
    intro x hx hnext
    obtain ⟨⟨hxa, hax⟩, -⟩ := (next_eq_some_iff r).mp hnext
    rcases List.mem_cons.mp (henter x hx a (List.mem_cons_self ..) hnext) with rfl | hxm
    · exact hax hxa
    · exact (List.pairwise_cons.mp (hl.sublist hsub)).1 x hxm hxa
  have htaken : (climb r a m).taken.filter isStart = [a] := by
    have hperm : ((climb r a m).taken.filter isStart).Perm [a] := by
      have htakenNodup : (climb r a m).taken.Nodup :=
        (List.nodup_append.mp ((perm_climb r a m).nodup_iff.mp hnodup)).1
      rw [List.perm_ext_iff_of_nodup (htakenNodup.filter _) (List.nodup_singleton a)]
      intro b
      rw [List.mem_filter, List.mem_singleton]
      constructor
      · rintro ⟨hb, hstart⟩
        rcases hfollows.reached b hb with rfl | ⟨c, hc, hcb⟩
        · rfl
        · rw [hisStart, decide_eq_true_eq] at hstart
          exact absurd hcb (hstart c (hmem c hc))
      · rintro rfl
        exact ⟨mem_taken_self r b m, ha⟩
    exact List.perm_singleton.mp hperm
  rw [List.filter_cons_of_pos ha]
  congr 1
  -- the starts among the rest have all been left, in their order
  have hperm := (perm_climb r a m).filter isStart
  rw [List.filter_cons_of_pos ha, List.filter_append, htaken] at hperm
  have hlength := hperm.length_eq
  rw [List.length_cons, List.length_append, List.length_singleton] at hlength
  exact (((left_sublist r a m).filter isStart).eq_of_length (by omega)).symm

/-- **The climbs do not disturb each other** when no two elements share the next one: each start
ends where it would with the whole list before it. -/
theorem tops_eq_map_starts {l : List α} (hl : l.Pairwise fun a b => ¬r b a)
    (hown : Unshared r l) : tops r l = (starts r l).map (summit r l) := by
  have hrun : ∀ m : List α, m.Sublist l → Closed r l m → Entered r l m →
      tops r m = (m.filter fun b => decide (∀ a ∈ l, next r l a ≠ some b)).map (summit r l) := by
    intro m
    induction m using climbs.induct r with
    | case1 => exact fun _ _ _ => tops_nil r
    | case2 a m ih =>
        intro hsub hclosed henter
        have hfollows := climb_of_closed r hl hsub hclosed
        have hleft : Entered r l (climb r a m).left := by
          intro x hx b hb hnext
          have hbm : b ∈ a :: m := List.mem_cons_of_mem a ((left_sublist r a m).subset hb)
          rcases List.mem_append.mp
            ((perm_climb r a m).mem_iff.mp (henter x hx b hbm hnext)) with htaken | hmem
          · have hnodup := nodup_of_upwards r (hl.sublist hsub)
            exact absurd hb (disjoint_taken_left r hnodup (hfollows.goesOn x htaken b hnext))
          · exact hmem
        rw [tops_cons, filter_climb r hl hsub hclosed henter, List.map_cons,
          top_eq_summit r hl hsub hclosed, ih
          (((left_sublist r a m).trans (List.sublist_cons_self a m)).trans hsub)
          (closed_left r hl hown hsub hclosed) hleft]
  exact hrun l (List.Sublist.refl l) (fun _ _ _ hb => List.mem_of_find?_eq_some hb)
    fun _ ha _ _ _ => ha

theorem getLast?_tops {l : List α} (hl : l.Pairwise fun a b => ¬r b a) (hown : Unshared r l) :
    (tops r l).getLast? = lastSummit r l := by
  rw [tops_eq_map_starts r hl hown, List.getLast?_map, lastSummit]

end Starts

end Refl

/-- Where everything below an element is a chain, no two elements share the next one. -/
theorem unshared_of_comparable {l : List α} (hl : l.Pairwise fun a b => ¬r b a)
    (hchain : ∀ a ∈ l, ∀ b ∈ l, ∀ c ∈ l, r a c → r b c → r a b ∨ r b a) : Unshared r l := by
  -- what is above the one and below the next element would come first
  have hback : ∀ a b c, next r l a = some c → next r l b = some c → b ∈ l → r a b → r b a := by
    intro a b c hac hbc hb hab
    obtain ⟨-, front, back, rfl, hfront⟩ := (next_eq_some_iff r).mp hac
    obtain ⟨⟨hbc, hcb⟩, -⟩ := (next_eq_some_iff r).mp hbc
    rcases List.mem_append.mp hb with hmem | hmem
    · exact hfront b hmem hab
    · rcases List.mem_cons.mp hmem with rfl | hmem
      · exact absurd hbc hcb
      · exact absurd hbc ((List.pairwise_cons.mp (List.pairwise_append.mp hl).2.1).1 b hmem)
  intro a ha b hb hsome heq
  obtain ⟨c, hac⟩ := Option.isSome_iff_exists.mp hsome
  have hbc : next r l b = some c := heq ▸ hac
  have hcomp := hchain a ha b hb c (List.mem_of_find?_eq_some hac)
    ((next_eq_some_iff r).mp hac).1.1 ((next_eq_some_iff r).mp hbc).1.1
  apply eq_of_upwards r hl ha hb
  · exact hcomp.elim id (hback b a c hbc hac ha)
  · exact hcomp.elim (hback a b c hac hbc hb) id

section Preorder

variable [Std.Refl r] [IsTrans α r]

/-- A climb ends above everything it takes. -/
theorem rel_top {a : α} {l : List α} {b : α} (hb : b ∈ (climb r a l).taken) :
    r b (climb r a l).top := by
  induction l generalizing a b with
  | nil =>
      rw [List.mem_singleton.mp hb]
      exact refl_of r a
  | cons c rest ih =>
      by_cases h : r a c
      · rw [climb_cons_of_rel r h] at hb ⊢
        rcases List.mem_cons.mp hb with rfl | hb
        · exact trans_of r h (ih (mem_taken_self r c rest))
        · exact ih hb
      · rw [climb_cons_of_not_rel r h] at hb ⊢
        exact ih hb

theorem rel_top_of_mem {l : List α} {c : Climb α} (hc : c ∈ climbs r l) {b : α}
    (hb : b ∈ c.taken) : r b c.top := by
  induction l using climbs.induct r with
  | case1 =>
      rw [climbs_nil] at hc
      exact absurd hc List.not_mem_nil
  | case2 a l ih =>
      rw [climbs_cons] at hc
      rcases List.mem_cons.mp hc with rfl | hc
      · exact rel_top r hb
      · exact ih hc

/-- The tops lie above everything. -/
theorem exists_top_above {l : List α} {b : α} (hb : b ∈ l) : ∃ t ∈ tops r l, r b t := by
  obtain ⟨c, hc, hmem⟩ := exists_climb_of_mem r hb
  exact ⟨c.top, List.mem_map_of_mem hc, rel_top_of_mem r hc hmem⟩

/-- In a list listed upwards every climb ends at a maximal element if and only if none ends
below something that an earlier one has taken. -/
theorem tops_maximal_iff {l : List α} (hl : l.Pairwise fun a b => ¬r b a) :
    (∀ t ∈ tops r l, ∀ b ∈ l, r t b → r b t) ↔ Unobstructed r l := by
  unfold Unobstructed
  induction l using climbs.induct r with
  | case1 => simp
  | case2 a l ih =>
      have htail := (List.pairwise_cons.mp hl).2
      have hrest := ih (htail.sublist (left_sublist r a l))
      -- what the first climb takes and what it leaves are not equivalent
      have hapart : ∀ b ∈ (climb r a l).taken, ∀ c ∈ (climb r a l).left, ¬(r b c ∧ r c b) := by
        have hsymm : (a :: l).Pairwise fun b c => ¬(r b c ∧ r c b) :=
          hl.imp fun h hbc => h hbc.2
        have hperm := (perm_climb r a l).pairwise hsymm fun h hcb => h hcb.symm
        exact (List.pairwise_append.mp hperm).2.2
      rw [climbs_cons, List.pairwise_cons, ← hrest]
      constructor
      · intro hmax
        constructor
        · intro d hd b hb hle
          have htop := mem_of_mem_tops r (List.mem_map_of_mem (f := Climb.top) hd)
          have hmem : d.top ∈ tops r (a :: l) := by
            rw [tops_cons]
            exact List.mem_cons_of_mem _ (List.mem_map_of_mem hd)
          have hback := hmax _ hmem b
            ((perm_climb r a l).mem_iff.mpr (List.mem_append_left _ hb)) hle
          exact hapart b hb d.top htop ⟨hback, hle⟩
        · intro t ht b hb
          apply hmax t
          · rw [tops_cons]
            exact List.mem_cons_of_mem _ ht
          · exact (perm_climb r a l).mem_iff.mpr (List.mem_append_right _ hb)
      · rintro ⟨hfree, hmax⟩ t ht b hb hle
        rw [tops_cons] at ht
        rcases List.mem_append.mp ((perm_climb r a l).mem_iff.mp hb) with hb | hb
        · rcases List.mem_cons.mp ht with rfl | ht
          · exact rel_top r hb
          · obtain ⟨d, hd, rfl⟩ := List.mem_map.mp ht
            exact absurd hle (hfree d hd b hb)
        · rcases List.mem_cons.mp ht with rfl | ht
          · exact absurd hle (not_rel_of_left r htail hb)
          · exact hmax t ht b hb hle

/-- A climb takes only what is above its start. -/
theorem rel_of_taken {a : α} {l : List α} {b : α} (hb : b ∈ (climb r a l).taken) : r a b := by
  induction l generalizing a with
  | nil =>
      rw [List.mem_singleton.mp hb]
      exact refl_of r a
  | cons c rest ih =>
      by_cases h : r a c
      · rw [climb_cons_of_rel r h] at hb
        rcases List.mem_cons.mp hb with rfl | hb
        · exact refl_of r b
        · exact trans_of r h (ih hb)
      · rw [climb_cons_of_not_rel r h] at hb
        exact ih hb

theorem comparable_of_taken {a : α} {l : List α} {b c : α} (hb : b ∈ (climb r a l).taken)
    (hc : c ∈ (climb r a l).taken) : r b c ∨ r c b := by
  induction l generalizing a with
  | nil =>
      rw [List.mem_singleton.mp hb, List.mem_singleton.mp hc]
      exact Or.inl (refl_of r a)
  | cons d rest ih =>
      by_cases h : r a d
      · have habove := fun x hx => rel_of_taken r (a := a) (l := d :: rest) (b := x) hx
        rw [climb_cons_of_rel r h] at hb hc habove
        rcases List.mem_cons.mp hb with hba | htb
        · exact Or.inl (hba ▸ habove c hc)
        · rcases List.mem_cons.mp hc with hca | htc
          · exact Or.inr (hca ▸ habove b hb)
          · exact ih htb htc
      · rw [climb_cons_of_not_rel r h] at hb hc
        exact ih hb hc

/-- What one climb takes is a chain. -/
theorem comparable_of_mem {l : List α} {c : Climb α} (hc : c ∈ climbs r l) {a b : α}
    (ha : a ∈ c.taken) (hb : b ∈ c.taken) : r a b ∨ r b a := by
  induction l using climbs.induct r with
  | case1 =>
      rw [climbs_nil] at hc
      exact absurd hc List.not_mem_nil
  | case2 d l ih =>
      rw [climbs_cons] at hc
      rcases List.mem_cons.mp hc with rfl | hc
      · exact comparable_of_taken r ha hb
      · exact ih hc

/-- **No climb is obstructed** where no two elements share the next one. -/
theorem unobstructed_of_unshared {l : List α} (hl : l.Pairwise fun a b => ¬r b a)
    (hown : Unshared r l) : Unobstructed r l := by
  rw [← tops_maximal_iff r hl]
  intro t ht
  apply (next_eq_none_iff r).mp
  refine next_of_mem_tops r hl hown (List.Sublist.refl l) (fun a _ b hb => ?_) ht
  exact List.mem_of_find?_eq_some hb

/-- The elements that nothing else lies above. -/
def maximals (l : List α) : List α := l.filter fun a => decide (∀ b ∈ l, r a b → r b a)

omit [Std.Refl r] [IsTrans α r] in
theorem mem_maximals {l : List α} {a : α} :
    a ∈ maximals r l ↔ a ∈ l ∧ ∀ b ∈ l, r a b → r b a := by
  rw [maximals, List.mem_filter, decide_eq_true_eq]

/-- Where no climb is obstructed, the tops are the maximal elements. -/
theorem mem_tops_iff {l : List α} (hl : l.Pairwise fun a b => ¬r b a)
    (hclear : Unobstructed r l) {a : α} : a ∈ tops r l ↔ a ∈ maximals r l := by
  have hmax := (tops_maximal_iff r hl).mpr hclear
  rw [mem_maximals]
  constructor
  · exact fun ha => ⟨mem_of_mem_tops r ha, hmax a ha⟩
  · rintro ⟨ha, habove⟩
    obtain ⟨t, ht, hat⟩ := exists_top_above r ha
    have htl := mem_of_mem_tops r ht
    rwa [eq_of_upwards r hl ha htl hat (habove t htl hat)]

/-- In the initial segment of the list that ends with the next element of `a`, the climb that
takes `a` ends there. -/
theorem top_eq_of_next {front back : List α} {p : α}
    (hl : (front ++ p :: back).Pairwise fun a b => ¬r b a)
    (hclear : Unobstructed r (front ++ [p])) {a : α} (ha : a ∈ front ++ p :: back)
    (hnext : next r (front ++ p :: back) a = some p) :
    a ∈ front ∧ (∀ b ∈ front, r a b → r b a) ∧
      ∃ c ∈ climbs r (front ++ [p]), c.top = p ∧ a ∈ c.taken := by
  obtain ⟨⟨hap, hpa⟩, front', back', heq, hfront⟩ := (next_eq_some_iff r).mp hnext
  have hnodup := List.nodup_append.mp (nodup_of_upwards r hl)
  obtain ⟨rfl, -, rfl⟩ := (List.append_cons_inj_of_notMem
    (fun hp => hnodup.2.2 p hp p (List.mem_cons_self ..) rfl)
    (List.nodup_cons.mp hnodup.2.1).1).mp heq
  have hlseg : (front ++ [p]).Pairwise fun a b => ¬r b a :=
    hl.sublist ((List.Sublist.refl front).append ((List.nil_sublist back).cons_cons p))
  have hmax := (tops_maximal_iff r hlseg).mpr hclear
  have hmem : a ∈ front := by
    rcases List.mem_append.mp ha with h | h
    · exact h
    · rcases List.mem_cons.mp h with rfl | h
      · exact absurd hap hpa
      · have hback := (List.pairwise_append.mp hl).2.1
        exact absurd hap ((List.pairwise_cons.mp hback).1 a h)
  obtain ⟨c, hc, hac⟩ := exists_climb_of_mem r (List.mem_append_left [p] hmem)
  refine ⟨hmem, hfront, c, hc, ?_, hac⟩
  have htop := rel_top_of_mem r hc hac
  have hmaxc := hmax c.top (List.mem_map_of_mem hc)
  rcases List.mem_append.mp (mem_of_taken r hc (top_mem_of_mem r hc)) with h | h
  · -- a top before `p` would be as low as `a`, and below `p`
    have hca := hfront c.top h htop
    have hpc := hmaxc p (List.mem_append_right _ (List.mem_singleton_self p)) (trans_of r hca hap)
    exact absurd (trans_of r hpc hca) hpa
  · exact List.mem_singleton.mp h

/-- Where the climbs through every initial segment of the list are not obstructed, no two
elements share the next one: only one climb can get there. -/
theorem unshared_of_unobstructed {l : List α} (hl : l.Pairwise fun a b => ¬r b a)
    (hclear : ∀ n, Unobstructed r (l.take n)) : Unshared r l := by
  intro a ha b hb hsome heq
  obtain ⟨p, hap⟩ := Option.isSome_iff_exists.mp hsome
  have hbp : next r l b = some p := heq ▸ hap
  obtain ⟨-, front, back, rfl, -⟩ := (next_eq_some_iff r).mp hap
  have hseg := hclear (front.length + 1)
  rw [List.take_append, List.take_of_length_le (Nat.le_succ _), Nat.add_sub_cancel_left,
    List.take_succ_cons, List.take_zero] at hseg
  obtain ⟨haf, hafront, c, hc, hctop, hac⟩ := top_eq_of_next r hl hseg ha hap
  obtain ⟨hbf, hbfront, d, hd, hdtop, hbd⟩ := top_eq_of_next r hl hseg hb hbp
  have hnodup : (front ++ [p]).Nodup := (nodup_of_upwards r hl).sublist
    ((List.Sublist.refl front).append ((List.nil_sublist back).cons_cons p))
  obtain rfl : c = d := eq_of_mem_taken r hnodup hc hd (top_mem_of_mem r hc)
    (hctop.trans hdtop.symm ▸ top_mem_of_mem r hd)
  apply eq_of_upwards r hl ha hb
  · rcases comparable_of_mem r hc hac hbd with hab | hba
    · exact hab
    · exact hbfront a haf hba
  · rcases comparable_of_mem r hc hac hbd with hab | hba
    · exact hafront b hbf hab
    · exact hba

end Preorder

end JunctionBox.Climbing
