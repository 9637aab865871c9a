import JunctionBox.Foundations.Climbing
import JunctionBox.JunctionTree.Elimination
import Mathlib.Data.List.ReduceOption
import Mathlib.Order.Minimal

/-!
# The loop that removes non-cliques

`ElimSetCollection_RemoveNonCliques` is a double loop over an array that it
changes on the way: after a replacement the inner index becomes a flag that
makes the outer one step back.  `removeLoop` is that loop with the indices of the
source, in which every access outside the array and every loop that goes on for
too long is `none`.  `removeLoop_eq` says that it ends for every collection,
without such an access, with sets that cover all the others.

A slot is compared with later slots only.  The loop climbs (`removeFrom_tops`):
from the set in a slot to the first larger set that is still there, and on from
there.  A set all of whose supersets have been climbed to from earlier slots is
never compared with them again and stays.  `keepsMaximal_iff` says that this is
the only way in which the loop can leave a set that is not maximal, and
`keepsMaximal_of_nested` that it does not happen when the sets inside any one
set are nested, as they would be if `GatherElimSets` filled the graph in.
-/

namespace JunctionBox

variable {o : VariableOrdering}

/-! ## The loop -/

/-- `this->elim_sets[indx]`. -/
def getSlot (slots : List (Option (ElimSet o))) (indx : ℤ) : Option (Option (ElimSet o)) :=
  if 0 ≤ indx then slots[indx.toNat]? else none

/-- `this->elim_sets[indx] = es`. -/
def setSlot (slots : List (Option (ElimSet o))) (indx : ℤ) (es : Option (ElimSet o)) :
    Option (List (Option (ElimSet o))) :=
  if 0 ≤ indx ∧ indx.toNat < slots.length then some (slots.set indx.toNat es) else none

/-- `ElimSetCollection_ReMap`. -/
def reMapSlots (slots : List (Option (ElimSet o))) (oldIndx newIndx : ℤ) :
    Option (List (Option (ElimSet o))) := do
  let es ← getSlot slots oldIndx
  let slots ← setSlot slots newIndx es
  setSlot slots oldIndx none

/-- The inner loop, with the index it leaves in `j`. -/
def innerLoop (i : ℤ) (possiblyContained : ElimSet o) :
    ℕ → ℤ → List (Option (ElimSet o)) → Option (ℤ × List (Option (ElimSet o)))
  | 0, _, _ => none
  | rounds + 1, j, slots =>
      if j < slots.length then do
        let possiblyContains ← getSlot slots j
        if i = j then innerLoop i possiblyContained rounds (j + 1) slots
        else
          match possiblyContains with
          | none => innerLoop i possiblyContained rounds (j + 1) slots
          | some possiblyContains =>
              if possiblyContains.contains possiblyContained then do
                let slots ← reMapSlots slots j i
                return (-1, slots)
              else innerLoop i possiblyContained rounds (j + 1) slots
      else some (j, slots)

/-- The outer loop. -/
def removeLoop : ℕ → ℤ → List (Option (ElimSet o)) → Option (List (Option (ElimSet o)))
  | 0, _, _ => none
  | rounds + 1, i, slots =>
      if i < slots.length then do
        match ← getSlot slots i with
        | none => removeLoop rounds (i + 1) slots
        | some possiblyContained =>
            let inner ← innerLoop i possiblyContained (rounds + 1) (i + 1) slots
            let i := if inner.1 = -1 then i - 1 else i
            removeLoop rounds (i + 1) inner.2
      else some slots

/-! ## It ends -/

@[simp] theorem getSlot_natCast (slots : List (Option (ElimSet o))) (k : ℕ) :
    getSlot slots k = slots[k]? := by
  rw [getSlot, if_pos (Int.natCast_nonneg k), Int.toNat_natCast]

theorem setSlot_natCast {slots : List (Option (ElimSet o))} {k : ℕ} (hk : k < slots.length)
    (es : Option (ElimSet o)) : setSlot slots k es = some (slots.set k es) := by
  rw [setSlot, Int.toNat_natCast, if_pos ⟨Int.natCast_nonneg k, hk⟩]

theorem length_reMap (slots : List (Option (ElimSet o))) (j i : ℕ) :
    (reMap slots j i).length = slots.length := by
  rw [reMap, List.length_set, List.length_set]

theorem reMapSlots_natCast {slots : List (Option (ElimSet o))} {i j : ℕ} (hi : i < slots.length)
    (hj : j < slots.length) : reMapSlots slots j i = some (reMap slots j i) := by
  have hj' : j < (slots.set i slots[j]).length := by rwa [List.length_set]
  unfold reMapSlots reMap
  rw [getSlot_natCast, List.getElem?_eq_getElem hj]
  simp only [Option.bind_eq_bind, Option.bind_some, Option.join_some, setSlot_natCast hi,
    setSlot_natCast hj']

/-- The slot at which the inner loop stops when it starts at `j`. -/
def absorberFrom (slots : List (Option (ElimSet o))) (possiblyContained : ElimSet o) (j : ℕ) :
    Option ℕ :=
  (List.range' j (slots.length - j)).find? fun k =>
    match slots[k]? with
    | some (some possiblyContains) => possiblyContains.contains possiblyContained
    | _ => false

theorem absorberFrom_of_length_le {slots : List (Option (ElimSet o))} {es : ElimSet o} {j : ℕ}
    (hj : slots.length ≤ j) : absorberFrom slots es j = none := by
  rw [absorberFrom, Nat.sub_eq_zero_of_le hj]
  rfl

theorem absorberFrom_of_lt {slots : List (Option (ElimSet o))} {es : ElimSet o} {j : ℕ}
    (hj : j < slots.length) :
    absorberFrom slots es j =
      if (slots[j].map fun es' => es'.contains es) = some true then some j
      else absorberFrom slots es (j + 1) := by
  have hlen : slots.length - j = slots.length - (j + 1) + 1 := by omega
  unfold absorberFrom
  rw [hlen, List.range'_succ, List.find?_cons, List.getElem?_eq_getElem hj]
  cases slots[j] with
  | none => rfl
  | some es' => cases hcontains : es'.contains es <;> simp [hcontains]

/-- The inner loop runs to the absorber or to the end. -/
theorem innerLoop_eq {slots : List (Option (ElimSet o))} {i : ℕ} (es : ElimSet o) :
    ∀ (rounds j : ℕ), i < j → j ≤ slots.length → slots.length - j < rounds →
      innerLoop i es rounds j slots =
        some (match absorberFrom slots es j with
          | some k => (-1, reMap slots k i)
          | none => ((slots.length : ℤ), slots)) := by
  intro rounds
  induction rounds with
  | zero => exact fun _ _ _ h => absurd h (Nat.not_lt_zero _)
  | succ rounds ih =>
      intro j hij hj hrounds
      unfold innerLoop
      rcases hj.eq_or_lt with rfl | hlt
      · rw [if_neg (lt_irrefl _), absorberFrom_of_length_le le_rfl]
      · have hne : (i : ℤ) ≠ j := by omega
        have hnext := ih (j + 1) (by omega) hlt (by omega)
        rw [Nat.cast_succ] at hnext
        rw [if_pos (Int.ofNat_lt.mpr hlt), getSlot_natCast, List.getElem?_eq_getElem hlt,
          absorberFrom_of_lt hlt]
        simp only [Option.bind_eq_bind, Option.bind_some, if_neg hne]
        cases slots[j] with
        | none => simpa using hnext
        | some es' =>
            dsimp only
            by_cases hcontains : es'.contains es = true
            · rw [if_pos hcontains, reMapSlots_natCast (hij.trans hlt) hlt, Option.map_some,
                hcontains, if_pos rfl]
              rfl
            · rw [if_neg hcontains, hnext, Option.map_some, if_neg (by simpa using hcontains)]

/-- The loop of the source does what `removeFrom` does. -/
theorem removeLoop_eq_removeFrom :
    ∀ (rounds i : ℕ) (slots : List (Option (ElimSet o))), i ≤ slots.length →
      slots.length - i + numSets slots < rounds →
      removeLoop rounds i slots = removeFrom rounds i slots := by
  intro rounds
  induction rounds with
  | zero => exact fun _ _ _ h => absurd h (Nat.not_lt_zero _)
  | succ rounds ih =>
      intro i slots hle hrounds
      unfold removeLoop removeFrom
      by_cases hlt : i < slots.length
      · have hnext := ih (i + 1) slots hlt (by omega)
        rw [Nat.cast_succ] at hnext
        rw [if_pos hlt, if_pos (Int.ofNat_lt.mpr hlt), getSlot_natCast]
        cases hslot : slots[i]? with
        | none => exact absurd (List.getElem?_eq_none_iff.mp hslot) (Nat.not_le.mpr hlt)
        | some slot =>
            cases slot with
            | none => exact hnext
            | some es =>
                have hinner := innerLoop_eq es (rounds + 1) (i + 1) (Nat.lt_succ_self i)
                  hlt (by omega)
                have habsorber : absorber slots i es = absorberFrom slots es (i + 1) := rfl
                rw [Nat.cast_succ] at hinner
                simp only [Option.bind_eq_bind, Option.bind_some, hinner, Option.join_some]
                rw [habsorber]
                cases hfound : absorberFrom slots es (i + 1) with
                | none =>
                    have hflag : (slots.length : ℤ) ≠ -1 := by omega
                    simp only [if_neg hflag]
                    exact hnext
                | some j =>
                    obtain ⟨hij, es', hj, -⟩ := absorber_eq_some hfound
                    have hlen : (reMap slots j i).length = slots.length := length_reMap slots j i
                    have hnum := numSets_reMap hslot hij hj
                    simp only [if_true, sub_add_cancel]
                    exact ih i (reMap slots j i) (by omega) (by omega)
      · rw [if_neg hlt, if_neg (by omega)]

/-- One round: the loop is over, or it goes on from some slot with slots of the same number. -/
theorem removeFrom_round (i : ℕ) (slots : List (Option (ElimSet o))) :
    (∀ rounds, removeFrom (rounds + 1) i slots = some slots) ∨
      ∃ i' slots₁, slots₁.length = slots.length ∧
        ∀ rounds, removeFrom (rounds + 1) i slots = removeFrom rounds i' slots₁ := by
  by_cases hlt : i < slots.length
  · right
    cases hslot : slots[i]?.join with
    | none =>
        refine ⟨i + 1, slots, rfl, fun rounds => ?_⟩
        rw [removeFrom, if_pos hlt, hslot]
    | some es =>
        cases hfound : absorber slots i es with
        | none =>
            refine ⟨i + 1, slots, rfl, fun rounds => ?_⟩
            rw [removeFrom, if_pos hlt, hslot]
            simp only [hfound]
        | some j =>
            refine ⟨i, reMap slots j i, length_reMap slots j i, fun rounds => ?_⟩
            rw [removeFrom, if_pos hlt, hslot]
            simp only [hfound]
  · left
    intro rounds
    rw [removeFrom, if_neg hlt]

/-- More rounds change nothing. -/
theorem removeFrom_succ {rounds i : ℕ} {slots slots' : List (Option (ElimSet o))}
    (h : removeFrom rounds i slots = some slots') :
    removeFrom (rounds + 1) i slots = some slots' := by
  induction rounds generalizing i slots with
  | zero => exact absurd h (by simp [removeFrom])
  | succ rounds ih =>
      rcases removeFrom_round i slots with hend | ⟨i', slots₁, -, hround⟩
      · rw [hend] at h ⊢
        exact h
      · rw [hround] at h ⊢
        exact ih h

theorem length_of_removeFrom {rounds i : ℕ} {slots slots' : List (Option (ElimSet o))}
    (h : removeFrom rounds i slots = some slots') : slots'.length = slots.length := by
  induction rounds generalizing i slots with
  | zero => exact absurd h (by simp [removeFrom])
  | succ rounds ih =>
      rcases removeFrom_round i slots with hend | ⟨i', slots₁, hlen, hround⟩
      · rw [hend] at h
        rw [← Option.some.inj h]
      · rw [hround] at h
        exact (ih h).trans hlen

/-- The rounds that `removeNonCliques` allows are enough for the loop of the source. -/
theorem removeLoop_of_removeNonCliques {this esc : ElimSetCollection o}
    (h : removeNonCliques this = some esc) :
    ∀ rounds ≥ 2 * this.elimSets.length + 1,
      removeLoop rounds 0 this.elimSets = some esc.elimSets := by
  obtain ⟨slots, hrun, rfl⟩ := Option.map_eq_some_iff.mp h
  have hnum : numSets this.elimSets ≤ this.elimSets.length := List.countP_le_length
  have hloop : ∀ rounds ≥ 2 * this.elimSets.length + 1,
      removeLoop rounds 0 this.elimSets = removeFrom rounds 0 this.elimSets := fun rounds hrounds =>
    removeLoop_eq_removeFrom rounds 0 this.elimSets (Nat.zero_le _) (by omega)
  intro rounds hrounds
  rw [hloop rounds hrounds]
  induction rounds, hrounds using Nat.le_induction with
  | base => exact hrun
  | succ rounds _ ih => exact removeFrom_succ ih

/-- **The double loop ends** without leaving the array, with sets that cover all the sets
there were. -/
theorem removeLoop_eq (this : ElimSetCollection o) :
    ∃ esc, removeNonCliques this = some esc ∧
      (∀ rounds ≥ 2 * this.elimSets.length + 1,
        removeLoop rounds 0 this.elimSets = some esc.elimSets) ∧
      esc.elimSets.length = this.elimSets.length ∧ Absorbed this.elimSets esc.elimSets := by
  obtain ⟨esc, hrun, habs⟩ := removeNonCliques_eq this
  obtain ⟨slots, hslots, hesc⟩ := Option.map_eq_some_iff.mp hrun
  refine ⟨esc, hrun, removeLoop_of_removeNonCliques hrun, ?_, habs⟩
  rw [← hesc]
  exact length_of_removeFrom hslots

/-! ## What it keeps -/

/-- `ElimSet_Contains` the other way round. -/
def Below (es es' : ElimSet o) : Prop := es'.contains es = true

instance : DecidableRel (Below (o := o)) := fun es es' =>
  inferInstanceAs (Decidable (es'.contains es = true))

theorem below_iff {es es' : ElimSet o} : Below es es' ↔ es.vars ⊆ es'.vars :=
  ElimSet.contains_iff es' es

instance : Std.Refl (Below (o := o)) := ⟨fun _ => below_iff.mpr (Finset.Subset.refl _)⟩

instance : IsTrans (ElimSet o) Below :=
  ⟨fun _ _ _ h h' => below_iff.mpr ((below_iff.mp h).trans (below_iff.mp h'))⟩

/-- The inner loop stops at the first set above. -/
theorem absorberFrom_append (es : ElimSet o) (front suf : List (Option (ElimSet o))) :
    match absorberFrom (front ++ suf) es front.length with
    | none => ∀ c ∈ suf.reduceOption, ¬Below es c
    | some j => ∃ mid es' post, suf = mid ++ some es' :: post ∧ j = front.length + mid.length ∧
        Below es es' ∧ ∀ c ∈ mid.reduceOption, ¬Below es c := by
  induction suf generalizing front with
  | nil =>
      rw [List.append_nil, absorberFrom_of_length_le le_rfl]
      exact fun c hc => absurd hc List.not_mem_nil
  | cons slot suf ih =>
      have hlt : front.length < (front ++ slot :: suf).length := by simp
      have hslot : (front ++ slot :: suf)[front.length] = slot := by simp
      have hnext := ih (front ++ [slot])
      rw [List.append_assoc, List.singleton_append, List.length_append, List.length_singleton]
        at hnext
      rw [absorberFrom_of_lt hlt, hslot]
      cases slot with
      | none =>
          rw [Option.map_none, if_neg (by simp)]
          cases hfound : absorberFrom (front ++ none :: suf) es (front.length + 1) with
          | none =>
              rw [hfound] at hnext
              exact hnext
          | some j =>
              rw [hfound] at hnext
              obtain ⟨mid, es', post, rfl, hj, hbelow, hmid⟩ := hnext
              refine ⟨none :: mid, es', post, rfl, ?_, hbelow, hmid⟩
              rw [hj, List.length_cons]
              omega
      | some c =>
          by_cases hbelow : Below es c
          · have htest : Option.map (fun es' => es'.contains es) (some c) = some true :=
              congrArg some hbelow
            rw [if_pos htest]
            exact ⟨[], c, suf, rfl, rfl, hbelow, fun c hc => absurd hc List.not_mem_nil⟩
          · have htest : ¬Option.map (fun es' => es'.contains es) (some c) = some true :=
              fun h => hbelow (Option.some.inj h)
            rw [if_neg htest]
            cases hfound : absorberFrom (front ++ some c :: suf) es (front.length + 1) with
            | none =>
                rw [hfound] at hnext
                rw [List.reduceOption_cons_of_some]
                exact List.forall_mem_cons.mpr ⟨hbelow, hnext⟩
            | some j =>
                rw [hfound] at hnext
                obtain ⟨mid, es', post, rfl, hj, hbelow', hmid⟩ := hnext
                refine ⟨some c :: mid, es', post, rfl, ?_, hbelow', ?_⟩
                · rw [hj, List.length_cons]
                  omega
                · rw [List.reduceOption_cons_of_some]
                  exact List.forall_mem_cons.mpr ⟨hbelow, hmid⟩

theorem reMap_append (pre mid post : List (Option (ElimSet o))) (slot : Option (ElimSet o))
    (es : ElimSet o) :
    reMap (pre ++ slot :: (mid ++ some es :: post)) (pre.length + 1 + mid.length) pre.length =
      pre ++ some es :: (mid ++ none :: post) := by
  have hget : (pre ++ slot :: (mid ++ some es :: post))[pre.length + 1 + mid.length]? =
      some (some es) := by
    rw [List.getElem?_append_right (by omega), Nat.add_assoc, Nat.add_sub_cancel_left, Nat.add_comm,
      List.getElem?_cons_succ, List.getElem?_append_right le_rfl, Nat.sub_self,
      List.getElem?_cons_zero]
  unfold reMap
  rw [hget, Option.join_some, List.set_append_right _ _ le_rfl, Nat.sub_self, List.set_cons_zero,
    List.set_append_right _ _ (by omega), Nat.add_assoc, Nat.add_sub_cancel_left, Nat.add_comm,
    List.set_cons_succ, List.set_append_right _ _ le_rfl, Nat.sub_self, List.set_cons_zero]

/-- What is left, in its order, are the ends of the climbs. -/
theorem removeFrom_tops :
    ∀ (rounds : ℕ) (pre suf out : List (Option (ElimSet o))),
      removeFrom rounds pre.length (pre ++ suf) = some out →
      ∃ suf', out = pre ++ suf' ∧ suf'.reduceOption = Climbing.tops Below suf.reduceOption := by
  intro rounds
  induction rounds with
  | zero => exact fun _ _ _ h => absurd h (by simp [removeFrom])
  | succ rounds ih =>
      intro pre suf out h
      rw [removeFrom] at h
      cases suf with
      | nil =>
          rw [List.append_nil, if_neg (lt_irrefl _)] at h
          exact ⟨[], by rw [← Option.some.inj h, List.append_nil], by simp⟩
      | cons slot suf =>
          have hlt : pre.length < (pre ++ slot :: suf).length := by simp
          have hslot : (pre ++ slot :: suf)[pre.length]? = some slot := by simp
          have hnext := ih (pre ++ [slot]) suf out
          rw [List.append_assoc, List.singleton_append, List.length_append, List.length_singleton]
            at hnext
          rw [if_pos hlt, hslot, Option.join_some] at h
          cases slot with
          | none =>
              obtain ⟨suf', rfl, htops⟩ := hnext h
              exact ⟨none :: suf', List.append_assoc .., htops⟩
          | some es =>
              have hstop := absorberFrom_append es (pre ++ [some es]) suf
              rw [List.append_assoc, List.singleton_append, List.length_append,
                List.length_singleton] at hstop
              have habsorber : absorber (pre ++ some es :: suf) pre.length es =
                absorberFrom (pre ++ some es :: suf) es (pre.length + 1) := rfl
              simp only [habsorber] at h
              rw [List.reduceOption_cons_of_some]
              cases hfound : absorberFrom (pre ++ some es :: suf) es (pre.length + 1) with
              | none =>
                  rw [hfound] at h hstop
                  obtain ⟨suf', rfl, htops⟩ := hnext h
                  refine ⟨some es :: suf', List.append_assoc .., ?_⟩
                  have hstay := Climbing.climb_append_of_not_rel Below hstop []
                  rw [List.append_nil] at hstay
                  rw [List.reduceOption_cons_of_some, htops, Climbing.tops_cons, hstay]
                  simp [Climbing.climb]
              | some j =>
                  rw [hfound] at h hstop
                  obtain ⟨mid, es', post, rfl, rfl, hbelow, hmid⟩ := hstop
                  simp only [reMap_append] at h
                  obtain ⟨suf', hout, htops⟩ := ih pre _ out h
                  refine ⟨suf', hout, htops.trans ?_⟩
                  rw [List.reduceOption_cons_of_some, List.reduceOption_append,
                    List.reduceOption_append, List.reduceOption_cons_of_none,
                    List.reduceOption_cons_of_some]
                  exact (Climbing.tops_of_first Below hbelow hmid post.reduceOption).symm

/-- Every set contains the variable of the vertex whose rank is its place, and otherwise only
variables of vertices of lower rank. -/
structure Ranked (vo : VertexOrdering) (sets : List (ElimSet o)) : Prop where
  own : ∀ i (hi : i < sets.length), ∃ j ∈ sets[i].vars, vo.vertices[i]? = some (o.vbl j).label
  lower : ∀ i (hi : i < sets.length), ∀ j ∈ sets[i].vars,
    vo.vertices[i]? = some (o.vbl j).label ∨ vo.getVertexRankByLabel (o.vbl j).label < i

/-- No set lies in an earlier one. -/
theorem Ranked.not_below {vo : VertexOrdering} (hvo : vo.vertices.Nodup)
    {sets : List (ElimSet o)} (h : Ranked vo sets) : sets.Pairwise fun es es' => ¬Below es' es := by
  rw [List.pairwise_iff_getElem]
  intro i k hi hk hik hbelow
  obtain ⟨j, hj, hown⟩ := h.own k hk
  rcases h.lower i hi j (below_iff.mp hbelow hj) with hsame | hlt
  · obtain ⟨hi', hival⟩ := List.getElem?_eq_some_iff.mp hsame
    obtain ⟨hk', hkval⟩ := List.getElem?_eq_some_iff.mp hown
    exact hik.ne (hvo.getElem_inj_iff.mp (hival.trans hkval.symm))
  · rw [VertexOrdering.getVertexRankByLabel_eq hvo hown] at hlt
    omega

/-- `GatherElimSets` produces ranked sets. -/
theorem ranked_of_isElimSet {moral : Graph} {vo : VertexOrdering} {sets : List (ElimSet o)}
    (hvo : ∀ v ∈ vo.vertices, v ∈ o.labels)
    (h : ∀ i es, sets[i]? = some es → IsElimSet moral vo i es) : Ranked vo sets where
  own i hlt := by
    obtain ⟨v, hi, hmem⟩ := h i _ (List.getElem?_eq_getElem hlt)
    obtain ⟨j, hj⟩ :=
      VariableOrdering.getVariableRankByLabel_isSome (hvo v (List.mem_of_getElem? hi))
    refine ⟨j, (hmem j).mpr ⟨v, hj, Or.inl rfl⟩, ?_⟩
    rw [hi, (VariableOrdering.getVariableRankByLabel_lt hj).2]
  lower i hlt j hj := by
    obtain ⟨v, hi, hmem⟩ := h i _ (List.getElem?_eq_getElem hlt)
    obtain ⟨l, hrank, hl⟩ := (hmem j).mp hj
    rw [(VariableOrdering.getVariableRankByLabel_lt hrank).2]
    rcases hl with rfl | ⟨-, hlt⟩
    · exact Or.inl hi
    · exact Or.inr hlt

/-- `RemoveNonCliques` leaves no set inside another, and of the sets there were exactly the
maximal ones, each once. -/
def KeepsMaximal (sets : List (ElimSet o)) : Prop :=
  ∃ esc, removeNonCliques ⟨sets.map some⟩ = some esc ∧
    esc.elimSets.reduceOption.Pairwise (fun es es' => ¬Below es es' ∧ ¬Below es' es) ∧
    (esc.elimSets.reduceOption.map ElimSet.vars).Nodup ∧
    ∀ A, A ∈ esc.elimSets.reduceOption.map ElimSet.vars ↔
      Maximal (fun B => B ∈ sets.map ElimSet.vars) A

theorem reduceOption_removeNonCliques (sets : List (ElimSet o)) :
    ∃ esc, removeNonCliques ⟨sets.map some⟩ = some esc ∧
      esc.elimSets.reduceOption = Climbing.tops Below sets := by
  obtain ⟨esc, hrun, -⟩ := removeNonCliques_eq ⟨sets.map some⟩
  obtain ⟨slots, hslots, hesc⟩ := Option.map_eq_some_iff.mp hrun
  obtain ⟨suf', rfl, htops⟩ := removeFrom_tops _ [] _ _ hslots
  refine ⟨esc, hrun, ?_⟩
  have hsets : (sets.map some).reduceOption = sets := by
    rw [List.reduceOption, List.filterMap_map]
    exact List.filterMap_some
  rw [← hesc]
  exact htops.trans (by rw [hsets])

/-- When no climb is obstructed, the ends of the climbs are the maximal sets. -/
theorem keepsMaximal_of_unobstructed {vo : VertexOrdering} (hvo : vo.vertices.Nodup)
    {sets : List (ElimSet o)} (h : Ranked vo sets) (hclear : Climbing.Unobstructed Below sets) :
    KeepsMaximal sets := by
  have hup := h.not_below hvo
  have hmax := (Climbing.tops_maximal_iff Below hup).mpr hclear
  obtain ⟨esc, hrun, htops⟩ := reduceOption_removeNonCliques sets
  have hanti := Climbing.antichain_tops Below hup hmax
  rw [← htops] at hanti hmax
  refine ⟨esc, hrun, hanti, ?_, fun A => ⟨fun hA => ?_, fun hA => ?_⟩⟩
  · apply List.Pairwise.map ElimSet.vars _ hanti
    intro es es' hnot heq
    exact hnot.1 (below_iff.mpr heq.subset)
  · obtain ⟨t, ht, rfl⟩ := List.mem_map.mp hA
    have hmem : t ∈ sets := Climbing.mem_of_mem_tops Below (htops ▸ ht)
    refine ⟨List.mem_map_of_mem hmem, fun B hB hle => ?_⟩
    obtain ⟨es, hes, rfl⟩ := List.mem_map.mp hB
    exact below_iff.mp (hmax t ht es hes (below_iff.mpr hle))
  · obtain ⟨es, hes, rfl⟩ := List.mem_map.mp hA.1
    obtain ⟨t, ht, hbelow⟩ := Climbing.exists_top_above Below hes
    have hmem := Climbing.mem_of_mem_tops Below ht
    have hback := hA.2 (List.mem_map_of_mem hmem) (below_iff.mp hbelow)
    rw [(below_iff.mp hbelow).antisymm hback]
    exact List.mem_map_of_mem (htops ▸ ht)

/-- The ends of the climbs are the maximal sets if and only if no climb is obstructed. -/
theorem keepsMaximal_iff_unobstructed {vo : VertexOrdering} (hvo : vo.vertices.Nodup)
    {sets : List (ElimSet o)} (h : Ranked vo sets) :
    KeepsMaximal sets ↔ Climbing.Unobstructed Below sets := by
  refine ⟨fun hkeeps => ?_, keepsMaximal_of_unobstructed hvo h⟩
  rw [← Climbing.tops_maximal_iff Below (h.not_below hvo)]
  obtain ⟨esc, hrun, htops⟩ := reduceOption_removeNonCliques sets
  obtain ⟨esc', hrun', -, -, hmax⟩ := hkeeps
  intro t ht es hes hbelow
  obtain rfl : esc = esc' := Option.some.inj (hrun.symm.trans hrun')
  rw [htops] at hmax
  have hmaximal := (hmax t.vars).mp (List.mem_map_of_mem ht)
  exact below_iff.mpr (hmaximal.2 (List.mem_map_of_mem hes) (below_iff.mp hbelow))

/-- The lowest-ranked set of the collection that properly contains the given one. -/
def lowestSuperset (sets : List (ElimSet o)) (es : ElimSet o) : Option (ElimSet o) :=
  sets.find? fun es' => decide (es.vars ⊂ es'.vars)

/-- No two sets of the collection have the same lowest-ranked proper superset in it. -/
def OwnSupersets (sets : List (ElimSet o)) : Prop :=
  ∀ es ∈ sets, ∀ es' ∈ sets, (lowestSuperset sets es).isSome →
    lowestSuperset sets es = lowestSuperset sets es' → es = es'

instance (sets : List (ElimSet o)) : Decidable (OwnSupersets sets) :=
  inferInstanceAs (Decidable (∀ es ∈ sets, ∀ es' ∈ sets, _ → _ → _))

theorem next_eq_lowestSuperset (sets : List (ElimSet o)) (es : ElimSet o) :
    Climbing.next Below sets es = lowestSuperset sets es := by
  unfold Climbing.next lowestSuperset
  congr 1
  funext es'
  rw [decide_eq_decide, below_iff, below_iff, Finset.ssubset_def]

theorem unshared_iff {sets : List (ElimSet o)} :
    Climbing.Unshared Below sets ↔ OwnSupersets sets := by
  simp only [Climbing.Unshared, OwnSupersets, next_eq_lowestSuperset]

theorem Ranked.take {vo : VertexOrdering} {sets : List (ElimSet o)} (h : Ranked vo sets) (n : ℕ) :
    Ranked vo (sets.take n) where
  own i hi := by
    rw [List.getElem_take]
    exact h.own i (hi.trans_le (List.length_take_le' n sets))
  lower i hi := by
    rw [List.getElem_take]
    exact h.lower i (hi.trans_le (List.length_take_le' n sets))

theorem keepsMaximal_of_ownSupersets {vo : VertexOrdering} (hvo : vo.vertices.Nodup)
    {sets : List (ElimSet o)} (h : Ranked vo sets) (hown : OwnSupersets sets) :
    KeepsMaximal sets := by
  apply keepsMaximal_of_unobstructed hvo h
  exact Climbing.unobstructed_of_unshared Below (h.not_below hvo) (unshared_iff.mpr hown)

/-- Where the sets inside any one set are nested in each other, as they are when the graph has
been filled in, only the maximal sets stay. -/
theorem keepsMaximal_of_nested {vo : VertexOrdering} (hvo : vo.vertices.Nodup)
    {sets : List (ElimSet o)} (h : Ranked vo sets)
    (hnested : ∀ a ∈ sets, ∀ b ∈ sets, ∀ c ∈ sets, a.vars ⊆ c.vars → b.vars ⊆ c.vars →
      a.vars ⊆ b.vars ∨ b.vars ⊆ a.vars) : KeepsMaximal sets := by
  apply keepsMaximal_of_ownSupersets hvo h
  rw [← unshared_iff]
  apply Climbing.unshared_of_comparable Below (h.not_below hvo)
  simpa only [below_iff] using hnested

/-- **Only the maximal sets stay** where no two sets have the same lowest proper superset.
Where two have, the loop goes wrong on the collection up to that superset: the first of the two
takes it away, and the other one has nothing left to be absorbed by. -/
theorem keepsMaximal_iff {vo : VertexOrdering} (hvo : vo.vertices.Nodup)
    {sets : List (ElimSet o)} (h : Ranked vo sets) :
    (OwnSupersets sets → KeepsMaximal sets) ∧
      (OwnSupersets sets ↔ ∀ n, KeepsMaximal (sets.take n)) := by
  have hup := h.not_below hvo
  refine ⟨keepsMaximal_of_ownSupersets hvo h, fun hown n => ?_, fun hkeeps => ?_⟩
  · apply keepsMaximal_of_ownSupersets hvo (h.take n)
    exact unshared_iff.mp ((unshared_iff.mpr hown).take Below n)
  · rw [← unshared_iff]
    apply Climbing.unshared_of_unobstructed Below hup
    exact fun n => (keepsMaximal_iff_unobstructed hvo (h.take n)).mp (hkeeps n)

/-- Three variables. -/
def vOrdering : VariableOrdering := ⟨[⟨['a'], 2⟩, ⟨['b'], 2⟩, ⟨['c'], 2⟩]⟩

/-- The set of the variables with the given labels. -/
def elimSetOf (labels : List CString) : ElimSet vOrdering :=
  labels.foldl ElimSet.add (ElimSet.create vOrdering)

/-- The elimination sets of `a - b - c`. -/
def pathSets : List (ElimSet vOrdering) :=
  [elimSetOf [['a']], elimSetOf [['a'], ['b']], elimSetOf [['b'], ['c']]]

theorem ranked_pathSets : Ranked ⟨vOrdering.labels⟩ pathSets :=
  ⟨by decide +kernel, by decide +kernel⟩

theorem keepsMaximal_pathSets :
    KeepsMaximal pathSets ∧ ∀ n, KeepsMaximal (pathSets.take n) := by
  have hown : OwnSupersets pathSets := by decide +kernel
  obtain ⟨hkeeps, hiff⟩ := keepsMaximal_iff (by decide) ranked_pathSets
  exact ⟨hkeeps hown, hiff.mp hown⟩

/-- The elimination sets of `a - c - b` without the edge that eliminating `c` fills in. -/
def vSets : List (ElimSet vOrdering) :=
  [elimSetOf [['a']], elimSetOf [['b']], elimSetOf [['a'], ['b'], ['c']]]

/-- The set of `a` takes in that of `c`, and the set of `b` has nothing left to climb to. -/
theorem not_keepsMaximal_vSets :
    (⟨vOrdering.labels⟩ : VertexOrdering).vertices.Nodup ∧ Ranked ⟨vOrdering.labels⟩ vSets ∧
      removeNonCliques ⟨vSets.map some⟩ =
        some ⟨[some (elimSetOf [['a'], ['b'], ['c']]), some (elimSetOf [['b']]), none]⟩ ∧
      ¬KeepsMaximal vSets := by
  have hrun : removeNonCliques ⟨vSets.map some⟩ =
      some ⟨[some (elimSetOf [['a'], ['b'], ['c']]), some (elimSetOf [['b']]), none]⟩ := by
    decide +kernel
  refine ⟨by decide, ⟨by decide +kernel, by decide +kernel⟩, hrun, ?_⟩
  rintro ⟨esc, hesc, hanti, -⟩
  rw [← Option.some.inj (hrun.symm.trans hesc)] at hanti
  revert hanti
  decide +kernel

end JunctionBox
