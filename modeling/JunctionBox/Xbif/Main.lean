import JunctionBox.Inference.LogJoint
import JunctionBox.Model.Loader
import JunctionBox.Xbif.ParseTable

/-!
# From the maps of the handler to the potentials

After a parse, `XBIFParser.main` makes C objects of the variables, observations
and tables, in the order in which the hash maps list them, then the network, its
elimination tree and the first potentials.

`parseTable` has taken the logarithms of the numbers and the potentials are the
logarithmic ones, but the observations come from `Observation_Create`: they hold
`1` for the observed value and `0` for the others, which as logarithms mean `e`
and `1`.
-/

namespace JunctionBox.Xbif

/-! ## Definitions -/

/-- `values()`: the values of the map, in some order. -/
def HashMap.Values {β : Type} (this : HashMap β) (values : List β) : Prop :=
  ∃ keys : List (Option JString), keys.Nodup ∧ (∀ key, key ∈ keys ↔ (this key).isSome) ∧
    keys.map this = values.map some

/-- `Variable_CreateDiscrete` on a parsed variable; a document names all its variables, and a
negative number of values is as good as none. -/
def JVariable.createDiscrete (this : JVariable) : Variable :=
  ⟨this.name.getD [], this.numVals.toNat⟩

/-- `variablePointers`. -/
def variablePointers (vbls : List JVariable) : List Variable :=
  vbls.map JVariable.createDiscrete

/-- `order`. -/
def order (vbls : List JVariable) : VariableOrdering := ⟨variablePointers vbls⟩

section Main

variable {α : Type} (vbls : List JVariable)

/-- The body of the loop over the observations; `hit` and `miss` are what `Observation_Create`
writes. -/
def JObservation.load (hit miss : α) (this : JObservation) :
    Option (Observation (order vbls) α) := do
  let name ← this.vbl
  let vbl ← getVariable (variablePointers vbls) name
  Observation.createWith hit miss ((VariableSet.create (order vbls)).add vbl) this.value

/-- The body of the loop over the tables. -/
def JTable.load (this : JTable (List α)) : Option (CPT (order vbls) α) := do
  let forVbl ← this.forVbl
  let table ← this.table
  Table.load (variablePointers vbls) (order vbls) ⟨forVbl, this.given, table⟩

/-- The network of a document. -/
def network (hit miss : α) (obs : List JObservation) (tables : List (JTable (List α))) :
    Option (BNet (order vbls) α) := do
  let obsPointers ← obs.mapM (JObservation.load vbls hit miss)
  let tablePointers ← tables.mapM (JTable.load vbls)
  BNet.createList2 tablePointers obsPointers

/-- The names of the variables of a table. -/
def JTable.names (this : JTable α) : List JString := this.forVbl.toList ++ this.given

/-- The name of the observed variable. -/
def JObservation.names (this : JObservation) : List JString := this.vbl.toList

/-- A clique of the tree has all variables of these names. -/
def FitsIn (t : ElimTree (order vbls)) (names : List JString) : Prop :=
  ∃ l ∈ t.graph.labels, ∀ i < vbls.length, ((order vbls).vbl i).label ∈ names → i ∈ t.clique l

instance (t : ElimTree (order vbls)) (names : List JString) : Decidable (FitsIn vbls t names) :=
  inferInstanceAs (Decidable (∃ l ∈ t.graph.labels, ∀ i < vbls.length,
    ((order vbls).vbl i).label ∈ names → i ∈ t.clique l))

/-- The assignment gives the observed variable the observed value. -/
def AgreesWith (x : Assignment) (ob : JObservation) : Prop :=
  ∀ i < vbls.length, (vbls[i]?).map JVariable.name = some ob.vbl → (x i : ℤ) = ob.value

instance (x : Assignment) (ob : JObservation) : Decidable (AgreesWith vbls x ob) :=
  inferInstanceAs (Decidable (∀ i < vbls.length,
    (vbls[i]?).map JVariable.name = some ob.vbl → (x i : ℤ) = ob.value))

/-- The entry of a table at an assignment. -/
def JTable.entry (this : JTable (List (Extended α))) (x : Assignment) : Extended α :=
  ((this.load vbls).map fun cpt => cpt.pot.logVal x).getD .nan

/-- The observed value is one of those of the variable. -/
def InRange (ob : JObservation) : Prop :=
  ∃ v ∈ vbls, v.name = ob.vbl ∧ 0 ≤ ob.value ∧ ob.value < v.numVals

/-- The table is over variables of the document, it has as many numbers as they ask for, and all
numbers are numbers or `-∞`. -/
def LaidOut (t : JTable (List (Extended α))) : Prop :=
  ∃ cpt, t.load vbls = some cpt ∧ cpt.pot.Sized ∧ cpt.pot.AllEntries Extended.IsLog

end Main

/-! ## The variables of a document -/

/-- The variables are kept under their names. -/
def Maps.Keyed {T : Type} (maps : Maps T) : Prop :=
  ∀ key v, maps.vbls key = some v → key ≠ none ∧ v.name = key

section Variables

variable {vbls : List JVariable}

/-- The names of the values of a map that is keyed by name. -/
theorem Maps.Keyed.names {T : Type} {maps : Maps T} (h : maps.Keyed)
    (hvalues : maps.vbls.Values vbls) :
    (vbls.map JVariable.name).Nodup ∧ ∀ v ∈ vbls, v.name ≠ none := by
  obtain ⟨keys, hnodup, hkeys, hmap⟩ := hvalues
  have hname : ∀ (keys : List (Option JString)) (vbls : List JVariable),
      keys.map maps.vbls = vbls.map some → vbls.map JVariable.name = keys ∧
        ∀ v ∈ vbls, v.name ≠ none := by
    intro keys
    induction keys with
    | nil =>
        intro vbls hmap
        rw [List.map_nil, eq_comm, List.map_eq_nil_iff] at hmap
        simp [hmap]
    | cons key keys ih =>
        intro vbls hmap
        cases vbls with
        | nil => simp at hmap
        | cons v vbls =>
            rw [List.map_cons, List.map_cons, List.cons.injEq] at hmap
            obtain ⟨hnone, heq⟩ := h key v hmap.1
            obtain ⟨hrest, hnames⟩ := ih vbls hmap.2
            refine ⟨by rw [List.map_cons, heq, hrest], fun w hw => ?_⟩
            rcases List.mem_cons.mp hw with rfl | hw
            · exact heq ▸ hnone
            · exact hnames w hw
  obtain ⟨heq, hnames⟩ := hname keys vbls hmap
  exact ⟨heq ▸ hnodup, hnames⟩

variable {α : Type}

end Variables

end JunctionBox.Xbif
