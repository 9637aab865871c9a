import JunctionBox.Foundations.Slots
import JunctionBox.Pot.VariableSet

/-!
# The arrays of `IndexCross`

`fix_vbls_indices` and `IndexCross` once more, with the arrays that the source
has.  Both lists of ranks are relabelled in place, while the part behind the
offsets is still compared, and the rows are filled through the relabelled arrays.
Every access is checked: a run that reads or writes past the end of an array, or
reads a slot that was not written, is `none`, and so is a loop that is not done
after as many rounds as it is given.

`fixVblsIndicesInPlace_eq` says that the arrays end up as the lists of
`fixVblsIndices`, and `fixVblsIndices_eq` that these are the positions in the
merge.  From both follows `indexCross_merges`: the relabelled arrays are a
permutation of all positions, and every row is the union of two assignments.
-/

namespace JunctionBox

open Slots

namespace VariableSet

variable {o : VariableOrdering} {V : Type}

/-! ## Definitions -/

/-- `check_vbl_indx_bnds`. -/
def checkVblIndxBnds (i fstOff scndOff numFstVbls numScndVbls : ℕ) : Bool :=
  if numFstVbls ≤ fstOff then false
  else if numScndVbls ≤ scndOff then false
  else if numFstVbls + numScndVbls ≤ i then false
  else true

/-- The arrays and the counters of `fix_vbls_indices`. -/
structure Relabelling where
  fstVbls : List (Option ℕ)
  scndVbls : List (Option ℕ)
  i : ℕ
  fstOff : ℕ
  scndOff : ℕ

namespace Relabelling

/-- A round of the main loop. -/
def round (this : Relabelling) : Option Relabelling := do
  if (← read this.fstVbls this.fstOff) < (← read this.scndVbls this.scndOff) then
    let fstVbls ← write this.fstVbls this.fstOff this.i
    return { this with fstVbls := fstVbls, fstOff := this.fstOff + 1, i := this.i + 1 }
  else
    let scndVbls ← write this.scndVbls this.scndOff this.i
    return { this with scndVbls := scndVbls, scndOff := this.scndOff + 1, i := this.i + 1 }

/-- The main loop. -/
def mainLoop (numFstVbls numScndVbls : ℕ) : ℕ → Relabelling → Option Relabelling
  | 0, this =>
      if checkVblIndxBnds this.i this.fstOff this.scndOff numFstVbls numScndVbls then none
      else some this
  | rounds + 1, this =>
      if checkVblIndxBnds this.i this.fstOff this.scndOff numFstVbls numScndVbls then
        this.round.bind (mainLoop numFstVbls numScndVbls rounds)
      else some this

/-- The loops at the end, `while(off < num) vbls[off++] = i++`. -/
def labelRest (num : ℕ) : ℕ → List (Option ℕ) → ℕ → ℕ → Option (List (Option ℕ))
  | 0, vbls, off, _ => if off < num then none else some vbls
  | rounds + 1, vbls, off, i =>
      if off < num then
        (write vbls off i).bind fun vbls => labelRest num rounds vbls (off + 1) (i + 1)
      else some vbls

/-- What follows the main loop. -/
def finish (numFstVbls numScndVbls : ℕ) (this : Relabelling) :
    Option (List (Option ℕ) × List (Option ℕ)) := do
  if numFstVbls + numScndVbls ≤ this.i then
    return (this.fstVbls, this.scndVbls)
  else if numFstVbls ≤ this.fstOff then
    return (this.fstVbls, ← labelRest numScndVbls numScndVbls this.scndVbls this.scndOff this.i)
  else
    return (← labelRest numFstVbls numFstVbls this.fstVbls this.fstOff this.i, this.scndVbls)

end Relabelling

/-- `fix_vbls_indices` on the arrays. -/
def fixVblsIndicesInPlace (fstVbls scndVbls : List (Option ℕ)) (numFstVbls numScndVbls : ℕ) :
    Option (List (Option ℕ) × List (Option ℕ)) :=
  (Relabelling.mainLoop numFstVbls numScndVbls (numFstVbls + numScndVbls)
    ⟨fstVbls, scndVbls, 0, 0, 0⟩).bind (Relabelling.finish numFstVbls numScndVbls)

/-- The loop of `IndexCross` that finds out where the variables of a set live: the array, and
the place of the next one. -/
def findVbls (this : VariableSet o) : Option (List (Option ℕ) × ℕ) :=
  (List.range o.size).foldlM (fun (found : List (Option ℕ) × ℕ) i =>
    if this.bv.on i then do return (← write found.1 found.2 i, found.2 + 1) else some found)
    (alloc this.getNumVbls, 0)

/-- The loops of `IndexCross` that fill a part of a row. -/
def fillRow (num : ℕ) (vblsIndices : List (Option ℕ)) (indices : ℕ → Option V) (row : Row V) :
    Option (Row V) :=
  (List.range num).foldlM (fun row j => do row.write (← read vblsIndices j) (← indices j)) row

/-- `IndexCross` on the arrays. -/
def indexCrossInPlace (first : VariableSet o) (firstIndices : List V) (second : VariableSet o)
    (secondIndicesSet : List (List V)) (secondSampleCard : ℕ) : Option (List (Row V)) := do
  let numFirstVbls := first.getNumVbls
  let numSecondVbls := second.getNumVbls
  let (firstVblsIndices, _) ← first.findVbls
  let (secondVblsIndices, _) ← second.findVbls
  let (firstVblsIndices, secondVblsIndices) ←
    fixVblsIndicesInPlace firstVblsIndices secondVblsIndices numFirstVbls numSecondVbls
  (List.range secondSampleCard).mapM fun i => do
    let ret := Row.alloc (numFirstVbls + numSecondVbls)
    let ret ← fillRow numFirstVbls firstVblsIndices (fun j => firstIndices[j]?) ret
    fillRow numSecondVbls secondVblsIndices
      (fun j => secondIndicesSet[i]?.bind fun indices => indices[j]?) ret

/-- Values for the variables of a set, one for each, in rank order. -/
structure ValueList (this : VariableSet o) (V : Type) where
  values : List V
  length_values : values.length = this.ranks.length

/-- The value that the variable of rank `rank` has. -/
def ValueList.valueOf {this : VariableSet o} (a : ValueList this V) (rank : ℕ) : Option V :=
  a.values[this.ranks.idxOf rank]?

/-- The row has values for the variables of `all` that restrict to `a` and to `b`, and each of its
positions was written once. -/
structure Merges (all : VariableSet o) {first second : VariableSet o} (a : ValueList first V)
    (b : ValueList second V) (row : Row V) : Prop where
  restricts : ∃ c : ValueList all V, row.slots = c.values.map some ∧
    (∀ rank ∈ first.ranks, c.valueOf rank = a.valueOf rank) ∧
    ∀ rank ∈ second.ranks, c.valueOf rank = b.valueOf rank
  written_perm : row.written.Perm (List.range (first.getNumVbls + second.getNumVbls))

/-! ## The relabelling -/

theorem checkVblIndxBnds_iff {i fstOff scndOff numFstVbls numScndVbls : ℕ} :
    checkVblIndxBnds i fstOff scndOff numFstVbls numScndVbls = true ↔
      fstOff < numFstVbls ∧ scndOff < numScndVbls ∧ i < numFstVbls + numScndVbls := by
  unfold checkVblIndxBnds
  split_ifs with hfst hscnd hi
  · exact iff_of_false not_false fun h => absurd h.1 (Nat.not_lt.mpr hfst)
  · exact iff_of_false not_false fun h => absurd h.2.1 (Nat.not_lt.mpr hscnd)
  · exact iff_of_false not_false fun h => absurd h.2.2 (Nat.not_lt.mpr hi)
  · exact iff_of_true rfl ⟨Nat.lt_of_not_le hfst, Nat.lt_of_not_le hscnd, Nat.lt_of_not_le hi⟩

/-- Once one side is used up, the other one is counted to its end. -/
theorem fixVblsIndices_of_nil (fuel i : ℕ) {fst scnd : List ℕ} (h : fst = [] ∨ scnd = []) :
    fixVblsIndices fuel i fst scnd = (List.range' i fst.length, List.range' i scnd.length) := by
  rcases h with rfl | rfl
  · rw [fixVblsIndices]
    rfl
  · cases fst with
    | nil =>
        rw [fixVblsIndices]
        rfl
    | cons f fst =>
        rw [fixVblsIndices]
        · rfl
        · simp

namespace Relabelling

/-- Where the main loop can be: the parts before the offsets are labelled, those behind them are
still ranks. -/
def partway (fstDone scndDone : List (Option ℕ)) (fst scnd : List ℕ) : Relabelling where
  fstVbls := fstDone ++ fst.map some
  scndVbls := scndDone ++ scnd.map some
  i := fstDone.length + scndDone.length
  fstOff := fstDone.length
  scndOff := scndDone.length

variable {numFstVbls numScndVbls rounds : ℕ} (fstDone scndDone : List (Option ℕ))
  (fst scnd : List ℕ)

/-- A round takes the smaller of the two ranks at the offsets. -/
theorem round_partway (f s : ℕ) :
    (partway fstDone scndDone (f :: fst) (s :: scnd)).round =
      some (if f < s then
        partway (fstDone ++ [some (fstDone.length + scndDone.length)]) scndDone fst (s :: scnd)
      else
        partway fstDone (scndDone ++ [some (fstDone.length + scndDone.length)]) (f :: fst)
          scnd) := by
  unfold round partway
  simp only [List.map_cons, read_append_cons, write_append_cons, Option.bind_eq_bind,
    Option.bind_some, Option.pure_def, List.length_append, List.length_singleton,
    List.append_assoc, List.singleton_append, Nat.add_right_comm _ 1, Nat.add_assoc]
  split <;> rfl

/-- The main loop goes on as long as there are ranks on both sides. -/
theorem check_partway_iff (hfst : fstDone.length + fst.length = numFstVbls)
    (hscnd : scndDone.length + scnd.length = numScndVbls) :
    checkVblIndxBnds (partway fstDone scndDone fst scnd).i
        (partway fstDone scndDone fst scnd).fstOff (partway fstDone scndDone fst scnd).scndOff
        numFstVbls numScndVbls = true ↔ fst ≠ [] ∧ scnd ≠ [] := by
  rw [checkVblIndxBnds_iff, ← List.length_pos_iff, ← List.length_pos_iff]
  simp only [partway]
  omega

theorem mainLoop_of_not_check {this : Relabelling}
    (h : ¬ checkVblIndxBnds this.i this.fstOff this.scndOff numFstVbls numScndVbls) :
    mainLoop numFstVbls numScndVbls rounds this = some this := by
  cases rounds with
  | zero => rw [mainLoop, if_neg h]
  | succ rounds => rw [mainLoop, if_neg h]

/-- The remaining ranks of one array are labelled in a row. -/
theorem labelRest_eq (i : ℕ) {num : ℕ} (done : List (Option ℕ)) (rest : List ℕ)
    (hnum : done.length + rest.length = num) (hrounds : rest.length ≤ rounds) :
    labelRest num rounds (done ++ rest.map some) done.length i =
      some (done ++ (List.range' i rest.length).map some) := by
  induction rest generalizing done rounds i with
  | nil =>
      have hnot : ¬ done.length < num := by
        rw [← hnum]
        exact Nat.lt_irrefl _
      cases rounds with
      | zero =>
          rw [labelRest, if_neg hnot]
          rfl
      | succ rounds =>
          rw [labelRest, if_neg hnot]
          rfl
  | cons r rest ih =>
      cases rounds with
      | zero => exact absurd hrounds (Nat.not_succ_le_zero _)
      | succ rounds =>
          rw [List.length_cons] at hnum hrounds
          have hdone : (done ++ [some i]).length = done.length + 1 := List.length_append
          have hrest := ih (i + 1) (done ++ [some i]) (by omega) (Nat.le_of_succ_le_succ hrounds)
          rw [hdone, List.append_assoc, List.append_assoc] at hrest
          rw [labelRest, if_pos (by omega), List.map_cons, write_append_cons, Option.bind_some,
            List.length_cons, List.range'_succ, List.map_cons]
          exact hrest

/-- Once one side is used up, the other one is labelled to its end. -/
theorem finish_partway (hfst : fstDone.length + fst.length = numFstVbls)
    (hscnd : scndDone.length + scnd.length = numScndVbls) (h : fst = [] ∨ scnd = []) :
    finish numFstVbls numScndVbls (partway fstDone scndDone fst scnd) =
      some (fstDone ++ (List.range' (fstDone.length + scndDone.length) fst.length).map some,
        scndDone ++ (List.range' (fstDone.length + scndDone.length) scnd.length).map some) := by
  rw [partway, finish]
  simp only
  rcases h with rfl | rfl
  · rw [List.length_nil, Nat.add_zero] at hfst
    by_cases hall : numFstVbls + numScndVbls ≤ fstDone.length + scndDone.length
    · have hnil : scnd = [] := List.length_eq_zero_iff.mp (by omega)
      rw [if_pos hall, hnil]
      rfl
    · rw [if_neg hall, if_pos hfst.ge, labelRest_eq _ scndDone scnd hscnd (by omega)]
      rfl
  · rw [List.length_nil, Nat.add_zero] at hscnd
    by_cases hall : numFstVbls + numScndVbls ≤ fstDone.length + scndDone.length
    · have hnil : fst = [] := List.length_eq_zero_iff.mp (by omega)
      rw [if_pos hall, hnil]
      rfl
    · rw [if_neg hall, if_neg (by omega), labelRest_eq _ fstDone fst hfst (by omega)]
      rfl

theorem finish_mainLoop_of_nil (hfst : fstDone.length + fst.length = numFstVbls)
    (hscnd : scndDone.length + scnd.length = numScndVbls) (h : fst = [] ∨ scnd = []) (fuel : ℕ) :
    (mainLoop numFstVbls numScndVbls rounds (partway fstDone scndDone fst scnd)).bind
        (finish numFstVbls numScndVbls) =
      some (fstDone ++
          (fixVblsIndices fuel (fstDone.length + scndDone.length) fst scnd).1.map some,
        scndDone ++
          (fixVblsIndices fuel (fstDone.length + scndDone.length) fst scnd).2.map some) := by
  have hcheck := (check_partway_iff fstDone scndDone fst scnd hfst hscnd).not.mpr
    (not_and_or.mpr (h.imp not_not.mpr not_not.mpr))
  rw [mainLoop_of_not_check hcheck, Option.bind_some,
    finish_partway fstDone scndDone fst scnd hfst hscnd h, fixVblsIndices_of_nil _ _ h]

/-- The main loop and what follows it, from any state the loop can be in. -/
theorem finish_mainLoop (hfst : fstDone.length + fst.length = numFstVbls)
    (hscnd : scndDone.length + scnd.length = numScndVbls)
    (hrounds : fst.length + scnd.length ≤ rounds) :
    (mainLoop numFstVbls numScndVbls rounds (partway fstDone scndDone fst scnd)).bind
        (finish numFstVbls numScndVbls) =
      some (fstDone ++
          (fixVblsIndices rounds (fstDone.length + scndDone.length) fst scnd).1.map some,
        scndDone ++
          (fixVblsIndices rounds (fstDone.length + scndDone.length) fst scnd).2.map some) := by
  induction rounds generalizing fstDone scndDone fst scnd with
  | zero =>
      have hnil : fst = [] := List.length_eq_zero_iff.mp (by omega)
      exact finish_mainLoop_of_nil _ _ _ _ hfst hscnd (Or.inl hnil) _
  | succ rounds ih =>
      rcases fst with _ | ⟨f, fst⟩
      · exact finish_mainLoop_of_nil _ _ _ _ hfst hscnd (Or.inl rfl) _
      rcases scnd with _ | ⟨s, scnd⟩
      · exact finish_mainLoop_of_nil _ _ _ _ hfst hscnd (Or.inr rfl) _
      have hcheck := (check_partway_iff fstDone scndDone (f :: fst) (s :: scnd) hfst hscnd).mpr
        ⟨List.cons_ne_nil _ _, List.cons_ne_nil _ _⟩
      rw [mainLoop, if_pos hcheck, round_partway, Option.bind_some, fixVblsIndices]
      -- the label goes behind what is done on the side that the rank is taken from
      have hdone : ∀ done : List (Option ℕ),
          (done ++ [some (fstDone.length + scndDone.length)]).length = done.length + 1 :=
        fun done => List.length_append
      simp only [List.length_cons] at hfst hscnd hrounds
      by_cases hlt : f < s
      · have hrest := ih (fstDone ++ [some (fstDone.length + scndDone.length)]) scndDone fst
          (s :: scnd) (by rw [hdone]; omega) hscnd (by rw [List.length_cons]; omega)
        rw [hdone, Nat.add_right_comm, List.append_assoc] at hrest
        rw [if_pos hlt, if_pos hlt]
        exact hrest
      · have hrest := ih fstDone (scndDone ++ [some (fstDone.length + scndDone.length)])
          (f :: fst) scnd hfst (by rw [hdone]; omega) (by rw [List.length_cons]; omega)
        rw [hdone, ← Nat.add_assoc, List.append_assoc] at hrest
        rw [if_neg hlt, if_neg hlt]
        exact hrest

end Relabelling

/-- `fix_vbls_indices` on the arrays does what it does on the lists. -/
theorem fixVblsIndicesInPlace_eq (fst scnd : List ℕ) :
    fixVblsIndicesInPlace (fst.map some) (scnd.map some) fst.length scnd.length =
      some ((fixVblsIndices (fst.length + scnd.length) 0 fst scnd).1.map some,
        (fixVblsIndices (fst.length + scnd.length) 0 fst scnd).2.map some) :=
  Relabelling.finish_mainLoop [] [] fst scnd (Nat.zero_add _) (Nat.zero_add _) le_rfl

/-- The lists of the comment in the source. -/
example : fixVblsIndicesInPlace [some 1, some 3, some 7, some 11] [some 2, some 6, some 9] 4 3 =
    some ([some 0, some 2, some 4, some 6], [some 1, some 3, some 5]) := by decide

/-! ## The rows -/

/-- The loop finds the ranks of the set, as many as there are slots. -/
theorem findVbls_eq (this : VariableSet o) :
    this.findVbls = some (this.ranks.map some, this.ranks.length) := by
  have hrun : ∀ (l : List ℕ) (done : List (Option ℕ)),
      l.foldlM (fun (found : List (Option ℕ) × ℕ) i =>
        if this.bv.on i then do return (← write found.1 found.2 i, found.2 + 1) else some found)
        (done ++ alloc (l.filter this.bv.on).length, done.length) =
      some (done ++ (l.filter this.bv.on).map some,
        done.length + (l.filter this.bv.on).length) := by
    intro l
    induction l with
    | nil => exact fun done => rfl
    | cons i l ih =>
        intro done
        rw [List.foldlM_cons]
        by_cases hon : this.bv.on i = true
        · have hrest := ih (done ++ [some i])
          simp only [List.length_append, List.length_cons, List.length_nil, List.append_assoc,
            List.cons_append, List.nil_append, Nat.zero_add,
            Nat.add_right_comm _ 1 (l.filter this.bv.on).length] at hrest
          rw [if_pos hon, List.filter_cons_of_pos hon, List.length_cons, alloc,
            List.replicate_succ, write_append_cons, List.map_cons]
          exact hrest
        · rw [if_neg hon, List.filter_cons_of_neg hon]
          exact ih done
  have hall := hrun (List.range o.size) []
  simp only [List.nil_append, List.length_nil, Nat.zero_add] at hall
  rw [findVbls, getNumVbls_eq]
  exact hall

/-- A part of a row is filled by scattering the values over their places. -/
theorem fillRow_eq (places : List ℕ) {values : List V} (h : values.length = places.length)
    (row : Row V) :
    fillRow places.length (places.map some) (fun j => values[j]?) row =
      row.scatter (places.zip values) := by
  have hlength : (places.zip values).length = places.length := by
    rw [List.length_zip, h, Nat.min_self]
  rw [fillRow, Row.scatter, ← PartialLoops.foldlM_range (places.zip values), hlength]
  congr 1
  funext row j
  rw [read_map_some, List.zip, List.getElem?_zipWith]
  cases places[j]? with
  | none => rfl
  | some place =>
      cases values[j]? with
      | none => rfl
      | some value => rfl

section Rows

variable {first second all : VariableSet o}

/-- The writes that fill a row: the values with the positions of their variables in `all`. -/
def crossWrites (all : VariableSet o) (a : ValueList first V) (b : ValueList second V) :
    List (ℕ × V) :=
  (first.ranks.map all.ranks.idxOf).zip a.values ++ (second.ranks.map all.ranks.idxOf).zip b.values

theorem map_fst_crossWrites (a : ValueList first V) (b : ValueList second V) :
    (crossWrites all a b).map Prod.fst = (first.ranks ++ second.ranks).map all.ranks.idxOf := by
  rw [crossWrites, List.map_append, List.map_append, List.map_fst_zip, List.map_fst_zip]
  · rw [List.length_map, b.length_values]
  · rw [List.length_map, a.length_values]

/-- The positions of all variables are a permutation of the places of the row. -/
theorem positions_perm (hdisj : Disjoint first.vars second.vars)
    (hall : all.vars = first.vars ∪ second.vars) :
    ((first.ranks ++ second.ranks).map all.ranks.idxOf).Perm
      (List.range (first.getNumVbls + second.getNumVbls)) := by
  have hperm := ranks_perm hdisj hall
  have hrange := range'_eq_map_idxOf 0 all.ranks_nodup
  simp only [Nat.zero_add] at hrange
  have hlength : all.ranks.length = first.getNumVbls + second.getNumVbls := by
    rw [getNumVbls_eq, getNumVbls_eq, ← hperm.length_eq, List.length_append]
  rw [← hlength, List.range_eq_range', hrange]
  exact hperm.map _

/-- What `fix_vbls_indices` makes of the ranks of two sets. -/
theorem fixVblsIndicesInPlace_ranks (hdisj : Disjoint first.vars second.vars)
    (hall : all.vars = first.vars ∪ second.vars) :
    fixVblsIndicesInPlace (first.ranks.map some) (second.ranks.map some) first.getNumVbls
        second.getNumVbls =
      some ((first.ranks.map all.ranks.idxOf).map some,
        (second.ranks.map all.ranks.idxOf).map some) := by
  have hnodup := (ranks_perm hdisj hall).nodup_iff.mpr all.ranks_nodup
  rw [getNumVbls_eq, getNumVbls_eq, fixVblsIndicesInPlace_eq,
    fixVblsIndices_eq _ _ _ _ le_rfl hnodup, ← ranks_eq_merge hdisj hall]
  simp only [Nat.zero_add]

/-- The row that these writes make. -/
def crossRow (all : VariableSet o) (a : ValueList first V) (b : ValueList second V) : Row V :=
  ⟨setAll (alloc (first.getNumVbls + second.getNumVbls)) (crossWrites all a b),
    ((crossWrites all a b).map Prod.fst).reverse⟩

theorem lt_of_mem_crossWrites (hdisj : Disjoint first.vars second.vars)
    (hall : all.vars = first.vars ∪ second.vars) {a : ValueList first V}
    {b : ValueList second V} {w : ℕ × V} (hw : w ∈ crossWrites all a b) :
    w.1 < first.getNumVbls + second.getNumVbls := by
  have hmem := List.mem_map_of_mem (f := Prod.fst) hw
  rw [map_fst_crossWrites, (positions_perm hdisj hall).mem_iff] at hmem
  exact List.mem_range.mp hmem

/-- Both parts of a row are filled. -/
theorem fillRow_crossRow (hdisj : Disjoint first.vars second.vars)
    (hall : all.vars = first.vars ∪ second.vars) (a : ValueList first V)
    (b : ValueList second V) :
    ((fillRow first.getNumVbls ((first.ranks.map all.ranks.idxOf).map some)
        (fun j => a.values[j]?) (Row.alloc (first.getNumVbls + second.getNumVbls))).bind
      (fillRow second.getNumVbls ((second.ranks.map all.ranks.idxOf).map some)
        fun j => b.values[j]?)) = some (crossRow all a b) := by
  have hfirst := fillRow_eq (first.ranks.map all.ranks.idxOf)
    (a.length_values.trans (List.length_map ..).symm)
  have hsecond := fillRow_eq (second.ranks.map all.ranks.idxOf)
    (b.length_values.trans (List.length_map ..).symm)
  rw [List.length_map, ← getNumVbls_eq] at hfirst hsecond
  rw [hfirst, funext hsecond, ← Row.scatter_append, Row.scatter_eq]
  · rw [crossRow, Row.alloc, List.append_nil]
    rfl
  · intro w hw
    exact (lt_of_mem_crossWrites hdisj hall hw).trans_eq (List.length_replicate ..).symm

/-- `IndexCross` makes all its rows. -/
theorem indexCrossInPlace_eq (hdisj : Disjoint first.vars second.vars)
    (hall : all.vars = first.vars ∪ second.vars) (a : ValueList first V)
    (bs : List (ValueList second V)) :
    indexCrossInPlace first a.values second (bs.map ValueList.values) bs.length =
      some (bs.map (crossRow all a)) := by
  unfold indexCrossInPlace
  simp only [findVbls_eq, Option.bind_eq_bind, Option.bind_some,
    fixVblsIndicesInPlace_ranks hdisj hall]
  rw [← List.length_map (crossRow all a)]
  refine PartialLoops.mapM_range fun i hi => ?_
  have hlt : i < bs.length := by rwa [List.length_map] at hi
  rw [List.getElem?_map, List.getElem?_eq_getElem hlt, List.getElem_map]
  simp only [Option.map_some, Option.bind_some]
  exact fillRow_crossRow hdisj hall a bs[i]

/-- The rows on the arrays are the rows on the lists. -/
theorem map_slots_indexCrossInPlace (hdisj : Disjoint first.vars second.vars)
    (hall : all.vars = first.vars ∪ second.vars) (a : ValueList first V)
    (bs : List (ValueList second V)) :
    (indexCrossInPlace first a.values second (bs.map ValueList.values) bs.length).map
        (List.map Row.slots) =
      some (indexCross first a.values second (bs.map ValueList.values)) := by
  have hnodup := (ranks_perm hdisj hall).nodup_iff.mpr all.ranks_nodup
  have hrelabelled := fixVblsIndices_eq _ 0 first.ranks second.ranks le_rfl hnodup
  simp only [Nat.zero_add, ← ranks_eq_merge hdisj hall] at hrelabelled
  rw [indexCrossInPlace_eq hdisj hall, indexCross, getNumVbls_eq, getNumVbls_eq, hrelabelled,
    Option.map_some, List.map_map, List.map_map]
  congr 1
  refine List.map_congr_left fun b _ => ?_
  simp only [Function.comp_apply, crossRow, writeAll_append, getNumVbls_eq]
  rfl

/-- The value of a variable is among the values that are written, next to its place. -/
theorem ValueList.exists_valueOf {this : VariableSet o} (a : ValueList this V) (place : ℕ → ℕ)
    {rank : ℕ} (hrank : rank ∈ this.ranks) :
    ∃ value, a.valueOf rank = some value ∧
      (place rank, value) ∈ (this.ranks.map place).zip a.values := by
  have hlt := List.idxOf_lt_length_of_mem hrank
  have hlt' := hlt.trans_eq a.length_values.symm
  refine ⟨a.values[this.ranks.idxOf rank], List.getElem?_eq_getElem hlt', ?_⟩
  rw [List.mem_iff_getElem]
  refine ⟨this.ranks.idxOf rank, ?_, ?_⟩
  · rw [List.length_zip, List.length_map]
    exact lt_min hlt hlt'
  · rw [List.getElem_zip, List.getElem_map, List.getElem_idxOf hlt]

/-- Each value is read back from the row at the position of its variable. -/
theorem read_crossRow (hdisj : Disjoint first.vars second.vars)
    (hall : all.vars = first.vars ∪ second.vars) {a : ValueList first V}
    {b : ValueList second V} {place : ℕ} {value : V}
    (hmem : (place, value) ∈ crossWrites all a b) :
    read (crossRow all a b).slots place = some value := by
  refine read_setAll ?_ hmem ?_
  · rw [map_fst_crossWrites, (positions_perm hdisj hall).nodup_iff]
    exact List.nodup_range
  · exact (lt_of_mem_crossWrites hdisj hall hmem).trans_eq (List.length_replicate ..).symm

theorem merges_crossRow (hdisj : Disjoint first.vars second.vars)
    (hall : all.vars = first.vars ∪ second.vars) (a : ValueList first V)
    (b : ValueList second V) : Merges all a b (crossRow all a b) := by
  have hperm := positions_perm hdisj hall
  have hlength : (crossRow all a b).slots.length = first.getNumVbls + second.getNumVbls :=
    (length_setAll ..).trans (List.length_replicate ..)
  obtain ⟨values, hvalues⟩ : ∃ values : List V, (crossRow all a b).slots = values.map some := by
    refine exists_values fun place hplace => ?_
    rw [hlength, ← List.mem_range, ← hperm.mem_iff, ← map_fst_crossWrites a b] at hplace
    obtain ⟨w, hw, rfl⟩ := List.mem_map.mp hplace
    exact ⟨w.2, read_crossRow hdisj hall hw⟩
  have hcard : values.length = all.ranks.length := by
    rw [← List.length_map some, ← hvalues, hlength, getNumVbls_eq, getNumVbls_eq,
      ← List.length_append, (ranks_perm hdisj hall).length_eq]
  -- what was written at the position of a variable is its value in the row
  have hvalue : ∀ {rank : ℕ} {value : V}, (all.ranks.idxOf rank, value) ∈ crossWrites all a b →
      ValueList.valueOf ⟨values, hcard⟩ rank = some value := by
    intro rank value hmem
    rw [ValueList.valueOf, ← read_map_some, ← hvalues]
    exact read_crossRow hdisj hall hmem
  refine ⟨⟨⟨values, hcard⟩, hvalues, fun rank hrank => ?_, fun rank hrank => ?_⟩, ?_⟩
  · obtain ⟨value, heq, hmem⟩ := a.exists_valueOf all.ranks.idxOf hrank
    rw [heq, hvalue (List.mem_append_left _ hmem)]
  · obtain ⟨value, heq, hmem⟩ := b.exists_valueOf all.ranks.idxOf hrank
    rw [heq, hvalue (List.mem_append_right _ hmem)]
  · rw [crossRow, map_fst_crossWrites]
    exact (List.reverse_perm _).trans hperm

/-- **`IndexCross` merges assignments**: the ranks of two disjoint sets become the positions of
their variables in the union, which are a permutation of all positions; and each row is the union
of the first assignment with one of the second set, with every position written once. -/
theorem indexCross_merges (hdisj : Disjoint first.vars second.vars)
    (hall : all.vars = first.vars ∪ second.vars) (a : ValueList first V)
    (bs : List (ValueList second V)) :
    fixVblsIndicesInPlace (first.ranks.map some) (second.ranks.map some) first.getNumVbls
          second.getNumVbls =
        some ((first.ranks.map all.ranks.idxOf).map some,
          (second.ranks.map all.ranks.idxOf).map some) ∧
      (first.ranks.map all.ranks.idxOf ++ second.ranks.map all.ranks.idxOf).Perm
        (List.range (first.getNumVbls + second.getNumVbls)) ∧
      ∃ rows, indexCrossInPlace first a.values second (bs.map ValueList.values) bs.length =
          some rows ∧ List.Forall₂ (fun b row => Merges all a b row) bs rows := by
  refine ⟨fixVblsIndicesInPlace_ranks hdisj hall, ?_, _, indexCrossInPlace_eq hdisj hall a bs, ?_⟩
  · rw [← List.map_append]
    exact positions_perm hdisj hall
  · rw [List.forall₂_map_right_iff, List.forall₂_same]
    exact fun b _ => merges_crossRow hdisj hall a b

end Rows

/-- An ordering of three variables. -/
def threeVariables : VariableOrdering := ⟨[⟨['A'], 3⟩, ⟨['B'], 3⟩, ⟨['C'], 2⟩]⟩

/-- The second of them. -/
def middleOfThree : VariableSet threeVariables := ⟨⟨[2#8], rfl⟩⟩

/-- The other two. -/
def endsOfThree : VariableSet threeVariables := ⟨⟨[5#8], rfl⟩⟩

/-- All of them. -/
def allThree : VariableSet threeVariables := ⟨⟨[7#8], rfl⟩⟩

/-- A value of `B` with two pairs of values of `A` and `C`. -/
theorem indexCross_merges_allThree :
    ∃ rows, indexCrossInPlace middleOfThree [2] endsOfThree [[0, 0], [2, 1]] 2 = some rows ∧
      List.Forall₂ (fun b row => Merges allThree (⟨[2], rfl⟩ : ValueList middleOfThree ℕ) b row)
        [(⟨[0, 0], rfl⟩ : ValueList endsOfThree ℕ), ⟨[2, 1], rfl⟩] rows := by
  have hall : allThree.vars = middleOfThree.vars ∪ endsOfThree.vars := by decide
  exact (indexCross_merges (by decide) hall ⟨[2], rfl⟩ [⟨[0, 0], rfl⟩, ⟨[2, 1], rfl⟩]).2.2

end VariableSet

end JunctionBox
