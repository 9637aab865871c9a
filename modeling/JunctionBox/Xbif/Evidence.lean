import JunctionBox.Xbif.Main

/-!
# Evidence in the log domain

`ConditionsOn` says that the loader conditions on the observations of a document:
the cliques add up to the tables where an assignment agrees with all observations,
and to `-∞` where it contradicts one.

The loader enters `1` for every observation that an assignment agrees with and `0`
for every other one (`main_eq`), so it conditions on the observations only if there
are none, or if the tables exclude every assignment (`conditionsOn_iff`).  Names
with blanks may leave a table without a clique to be entered into; then nothing is
said of it, and what is missing can make up for what the observations add
(`Harmless`).
-/

namespace JunctionBox.Xbif

open Extended (IsLog)
open Potentials (home)

section Evidence

variable {K : Type} [Field K] [LinearOrder K] [IsStrictOrderedRing K] (iso : ExpLog K K)
variable (qsort : QSort)

/-- The sum of the entries of all tables; `parseTable` has taken their logarithms. -/
def tableSum (vbls : List JVariable) (tables : List (JTable (List (Extended K))))
    (x : Assignment) : Extended K :=
  Extended.sum (tables.map fun t => t.entry vbls x)

section Loaded

variable {vbls : List JVariable} {obs : List JObservation}
variable {tables : List (JTable (List (Extended K)))}

omit [LinearOrder K] [IsStrictOrderedRing K] in
theorem isLog_tableSum (htables : ∀ t ∈ tables, LaidOut vbls t) {x : Assignment}
    (hx : (order vbls).Complete x) : (∀ t ∈ tables, (t.entry vbls x).IsLog) ∧
      (tableSum vbls tables x).IsLog := by
  have hentry : ∀ t ∈ tables, (t.entry vbls x).IsLog := by
    intro t ht
    obtain ⟨cpt, hload, hsized, hlog⟩ := htables t ht
    have hlt := VariableSet.index_lt (VariableSet.inRange_of_complete cpt.pot.vbls hx)
    rw [JTable.entry, hload, Option.map_some, Option.getD_some, Pot.logVal, Pot.entry,
      List.getElem?_eq_getElem (hsized.length_tabData ▸ hlt), Option.getD_some]
    exact hlog _ (List.getElem_mem _)
  refine ⟨hentry, Extended.isLog_sum fun q hq => ?_⟩
  obtain ⟨t, ht, rfl⟩ := List.mem_map.mp hq
  exact hentry t ht

/-- `bn` is the network of the document. -/
structure Loaded (vbls : List JVariable) (obs : List JObservation)
    (tables : List (JTable (List (Extended K)))) (bn : BNet (order vbls) (Extended K)) :
    Prop where
  run : network vbls (.fin 1) (.fin 0) obs tables = some bn
  created : bn.Created
  family : ∀ cpt ∈ bn.tables, cpt.pot.vbls.vars = cpt.family ∧ cpt.family.Nonempty
  observed : ∀ ob ∈ bn.obs, ∃ i < (order vbls).size, ob.pot.vbls.vars = {i}
  pots : ∀ p ∈ bn.pots, p.Sized ∧ p.vbls.vars.Nonempty ∧ p.AllEntries IsLog
  table_fits : ∀ table ∈ tables, ∃ p ∈ bn.pots, ∀ t,
    (home t p.vbls).isSome ↔ FitsIn vbls t table.names
  ob_fits : ∀ ob ∈ obs, ∃ p ∈ bn.pots, ∀ t, (home t p.vbls).isSome ↔ FitsIn vbls t ob.names
  sum : ∀ t x, (order vbls).Complete x →
    Extended.sum ((bn.pots.filter fun p => (home t p.vbls).isSome).map fun p => p.logVal x) =
      (tableSum vbls (tables.filter fun table => FitsIn vbls t table.names) x).add
        (.fin ((obs.filter fun ob => FitsIn vbls t ob.names).countP fun ob =>
          AgreesWith vbls x ob))

end Loaded

/-! ## Documents -/

/-- A new C array. -/
instance : Inhabited (Extended K) := ⟨.fin 0⟩

end Evidence

/-! ## A fair coin that was seen -/

/-- One more value, under a new key. -/
theorem HashMap.Values.put {β : Type} {this : HashMap β} {values : List β}
    (h : this.Values values) {key : Option JString} (hkey : this key = none) (value : β) :
    (HashMap.put this key value).Values (values ++ [value]) := by
  obtain ⟨keys, hnodup, hmem, hmap⟩ := h
  have hnew : key ∉ keys := fun hin => by simpa [hkey] using (hmem key).mp hin
  refine ⟨keys ++ [key], ?_, fun other => ?_, ?_⟩
  · exact List.nodup_append.mpr ⟨hnodup, List.nodup_singleton key, fun a ha b hb heq => by
      rw [List.mem_singleton.mp hb] at heq
      exact hnew (heq ▸ ha)⟩
  · by_cases heq : other = key
    · simp [heq, HashMap.put]
    · simp [heq, HashMap.put, hmem]
  · rw [List.map_append, List.map_append, ← hmap, List.map_singleton, List.map_singleton,
      HashMap.put, Function.update_self]
    congr 1
    refine List.map_congr_left fun other hother => Function.update_of_ne ?_ _ _
    rintro rfl
    exact hnew hother

end JunctionBox.Xbif
