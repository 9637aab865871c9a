import JunctionBox.Foundations.Blocks
import JunctionBox.Inference.Messages

/-!
# The memory behind the elimination tree

`Potentials` keeps the potentials of the tree by value.  In the source they are
blocks: a `Pot` points at its label and at its table, a vertex and an edge of the
tree at their `Pot`.  `BNet_InitializePotentials` labels the potential of a
clique with the vertex's own string and that of a separator with the edge's own
key; `MessagePass` labels the new separator with a string of its own and calls
`Pot_DestroyTabular` on the old one, which frees structure, table and label.

Blocks of different types never overlap, so strings, tables and structures are
three memories.  A call that reads or frees a dead block, or follows a pointer
that was never set, is `none`.
-/

namespace JunctionBox

open Propagation

/-- `VariableSet_GetLabel`. -/
def VariableSet.getLabel {o : VariableOrdering} (this : VariableSet o) : CString :=
  this.ranks.flatMap fun i => (o.vbl i).label ++ [' ']

/-- The holders of a potential: the vertices of the tree, by label, and the edges, by key. -/
inductive Place where
  | clique (label : CString)
  | sep (srcSink : CString)
deriving DecidableEq

/-- What `Vertex_GetLabel` and `Edge_GetSrcSink` read. -/
def Place.text : Place → CString
  | clique label => label
  | sep srcSink => srcSink

/-- The vertices and then the edges, in the order of `cliquePots` and `seperatorPots`. -/
def ElimTree.places {o : VariableOrdering} (t : ElimTree o) : List Place :=
  t.graph.labels.map .clique ++ t.graph.edgeList.map fun e => .sep e.srcSink

/-- `struct Pot`. -/
structure PotCell (o : VariableOrdering) where
  label : ℕ
  vbls : VariableSet o
  tabData : ℕ
  tableSize : ℕ

/-- The blocks of the potentials, and the pointers of the vertices and edges: `name` is the
label of a vertex and the key of an edge. -/
structure TreeMemory (o : VariableOrdering) (α : Type) where
  strings : Blocks CString
  tables : Blocks (List α)
  pots : Blocks (PotCell o)
  name : Place → ℕ
  pot : Place → Option ℕ
  margMemo : CString → MulMemo o (Option (MulInd o))
  mulMemo : CString → MulMemo o (MulInd o)

namespace TreeMemory

variable {o : VariableOrdering} {α : Type}

/-! ## Potentials -/

/-- The potential that a pointer leads to. -/
def potAt (mem : TreeMemory o α) (p : ℕ) : Option (Pot o α) := do
  let this ← mem.pots.load p
  let tabData ← mem.tables.load this.tabData
  return ⟨this.vbls, tabData, this.tableSize⟩

/-- A new structure and its table: `Pot_CreateTabular`, `Pot_CreateTabularUnity`,
`Pot_CreateTabularUnityLog` and `Pot_CreateTabularUnInit`. -/
def createTabular (mem : TreeMemory o α) (label : ℕ) (pot : Pot o α) : ℕ × TreeMemory o α :=
  let tabData := mem.tables.alloc pot.tabData
  let ret := mem.pots.alloc ⟨label, pot.vbls, tabData.1, pot.tableSize⟩
  (ret.1, { mem with tables := tabData.2, pots := ret.2 })

/-- `Pot_DestroyTabular`. -/
def destroyTabular (mem : TreeMemory o α) (p : ℕ) : Option (TreeMemory o α) := do
  let this ← mem.pots.load p
  let strings ← mem.strings.free this.label
  let tables ← mem.tables.free this.tabData
  let pots ← mem.pots.free p
  return { mem with strings := strings, tables := tables, pots := pots }

section Arithmetic

variable (A : Arith α)

/-- `Pot_ProductTabular`, `Pot_ProductTabularLog`: `q` is multiplied in place. -/
def productTabular (mem : TreeMemory o α) (p : Pot o α) (q : ℕ) (mi : Option (MulInd o)) :
    Option (TreeMemory o α) := do
  let this ← mem.pots.load q
  let pot ← Pot.Arithmetic.productTabular A p (← mem.potAt q) mi
  let tables ← mem.tables.store this.tabData pot.tabData
  return { mem with tables := tables }

/-- `Pot_UpdateRatioTabular`, `Pot_UpdateRatioTabularLog`: the ratio has the label of the new
separator. -/
def updateRatioTabular (mem : TreeMemory o α) (newSep oldSep : ℕ) :
    Option (ℕ × TreeMemory o α) := do
  let this ← mem.pots.load newSep
  let ratio ← Pot.Arithmetic.updateRatioTabular A (← mem.potAt newSep) (← mem.potAt oldSep)
  return mem.createTabular this.label ratio

/-- `Pot_SumMarginTabular`, `Pot_SumMarginTabularLog`. -/
def sumMarginTabular (mem : TreeMemory o α) (p : ℕ) (mi : MulInd o) :
    Option (ℕ × TreeMemory o α) := do
  let marg ← Pot.Arithmetic.sumMarginTabular A (← mem.potAt p) mi
  let label := mem.strings.alloc mi.vbls.getLabel
  return { mem with strings := label.2 }.createTabular label.1 marg

end Arithmetic

/-- The structure at a place. -/
def cell (mem : TreeMemory o α) (a : Place) : Option (PotCell o) := do
  mem.pots.load (← mem.pot a)

/-- The potential at a place. -/
def read (mem : TreeMemory o α) (a : Place) : Option (Pot o α) := do
  mem.potAt (← mem.pot a)

/-- `curEdge->pot = p`, `curVertex->pot = p`. -/
def setPot (mem : TreeMemory o α) (a : Place) (p : ℕ) : TreeMemory o α :=
  { mem with pot := Function.update mem.pot a (some p) }

theorem pot_setPot_self (mem : TreeMemory o α) (a : Place) (p : ℕ) :
    (mem.setPot a p).pot a = some p := Function.update_self ..

theorem pot_setPot_of_ne (mem : TreeMemory o α) {a b : Place} (hne : b ≠ a) (p : ℕ) :
    (mem.setPot a p).pot b = mem.pot b := Function.update_of_ne hne ..

/-- The vertex's memo after a look-up. -/
def setMargMemo (mem : TreeMemory o α) (v : CString) (memo : MulMemo o (Option (MulInd o))) :
    TreeMemory o α := { mem with margMemo := Function.update mem.margMemo v memo }

/-- The separator's memo after a look-up. -/
def setMulMemo (mem : TreeMemory o α) (sep : Edge) (memo : MulMemo o (MulInd o)) :
    TreeMemory o α := { mem with mulMemo := Function.update mem.mulMemo sep.srcSink memo }

section Inference

variable (A : Arith α) (t : ElimTree o)

/-! ## Initialisation -/

/-- The body of the first two loops of `BNet_InitializePotentials`: a potential with the
holder's own string for a label. -/
def createAt (mem : TreeMemory o α) (a : Place) (vbls : VariableSet o) : TreeMemory o α :=
  let ret := mem.createTabular (mem.name a) (Pot.Arithmetic.createTabularUnity A vbls)
  ret.2.setPot a ret.1

/-- The separator's potential and memo. -/
def createSeparator (mem : TreeMemory o α) (curEdge : Edge) : TreeMemory o α :=
  let vbls := (t.sepSet curEdge.srcSink).toVariableSet
  (mem.createAt A (.sep curEdge.srcSink) vbls).setMulMemo curEdge MulMemo.create

/-- The clique's potential and memo. -/
def createClique (mem : TreeMemory o α) (curVertex : CString) : TreeMemory o α :=
  let vbls := (t.elimSet curVertex).toVariableSet
  (mem.createAt A (.clique curVertex) vbls).setMargMemo curVertex MulMemo.create

/-- The first two loops of `BNet_InitializePotentials`. -/
def createAll (mem : TreeMemory o α) : TreeMemory o α :=
  t.graph.labels.foldl (createClique A t) (t.graph.edgeList.foldl (createSeparator A t) mem)

/-- The inner loop of the last two loops. -/
def findClique (mem : TreeMemory o α) (curVbls : VariableSet o) :
    List CString → Option (Option CString)
  | [] => some none
  | l :: ls => do
    let curClique ← mem.cell (.clique l)
    if curVbls.containedIn curClique.vbls then return some l
    else mem.findClique curVbls ls

/-- One round of the last two loops. -/
def multiplyIn (mem : TreeMemory o α) (curTable : Pot o α) : Option (TreeMemory o α) := do
  match ← mem.findClique curTable.vbls t.graph.labels with
  | none => return mem
  | some curVertex => do
    let curClique ← mem.cell (.clique curVertex)
    let mi ← (mem.margMemo curVertex).getMargInd curClique.vbls curTable.vbls
    (mem.setMargMemo curVertex mi.2).productTabular A curTable (← mem.pot (.clique curVertex)) mi.1

/-- `BNet_InitializePotentials` and `BNet_InitializePotentialsLog`. -/
def initializePotentials (this : BNet o α) (mem : TreeMemory o α) : Option (TreeMemory o α) := do
  let mem := mem.createAll A t
  let mem ← (this.tables.map CPT.pot).foldlM (multiplyIn A t) mem
  (this.obs.map Observation.pot).foldlM (multiplyIn A t) mem

/-! ## Messages -/

/-- `find_marg_indices` and `find_mul_indices`. -/
def findIndices (mem : TreeMemory o α) (v : CString) (sep : Edge) :
    Option (MulInd o × MulMemo o (MulInd o)) := do
  let vbls ← mem.cell (.sep sep.srcSink)
  let target ← mem.cell (.clique v)
  (mem.mulMemo sep.srcSink).getMulInd vbls.vbls target.vbls

/-- `MessagePass` and `MessagePassLog` up to the product: the new separator. -/
def multiplyMessage (mem : TreeMemory o α) (receiver caller : CString) (sep : Edge) :
    Option (ℕ × TreeMemory o α) := do
  let margInd ← mem.findIndices caller sep
  let mem := mem.setMulMemo sep margInd.2
  let marg ← mem.sumMarginTabular A (← mem.pot (.clique caller)) margInd.1
  let updateRatio ← marg.2.updateRatioTabular A marg.1 (← marg.2.pot (.sep sep.srcSink))
  let mem := updateRatio.2
  let mulInd ← mem.findIndices receiver sep
  let mem := mem.setMulMemo sep mulInd.2
  let mem ← mem.productTabular A (← mem.potAt updateRatio.1) (← mem.pot (.clique receiver))
    (some mulInd.1)
  return (marg.1, mem)

/-- `MessagePass` and `MessagePassLog`. -/
def messagePass (mem : TreeMemory o α) (receiver caller : CString) (sep : Edge) :
    Option (TreeMemory o α) := do
  let marg ← mem.multiplyMessage A receiver caller sep
  let mem ← marg.2.destroyTabular (← marg.2.pot (.sep sep.srcSink))
  return mem.setPot (.sep sep.srcSink) marg.1

/-! ## Reading labels and keys -/

/-- What `Pot_ToString` and `Pot_ToStringLog` read of a potential. -/
def potToString (mem : TreeMemory o α) (p : ℕ) : Option (CString × List α) := do
  let this ← mem.pots.load p
  let label ← mem.strings.load this.label
  let tabData ← mem.tables.load this.tabData
  return (label, tabData)

/-- `Print_BNet` and `Print_BNetLog`: the potentials of the cliques, then those of the
separators. -/
def printBNet (mem : TreeMemory o α) : Option (List (CString × List α)) :=
  t.places.mapM fun a => do mem.potToString (← mem.pot a)

/-- `EdgeMap_Get`, which compares the keys in turn. -/
def edgeMapGet (mem : TreeMemory o α) (srcSink : CString) : List Edge → Option (Option Edge)
  | [] => some none
  | e :: es => do
    let id ← mem.strings.load (mem.name (.sep e.srcSink))
    if id = srcSink then return some e
    else mem.edgeMapGet srcSink es

/-- `Graph_GetEdge` on the tree. -/
def getEdge (mem : TreeMemory o α) (src sink : CString) : Option (Option Edge) :=
  mem.edgeMapGet (srcsink src sink) t.graph.edgeList

end Inference

end TreeMemory

/-- A call on the network once its tree has been built. -/
inductive TreeCall where
  | initializePotentials
  | messagePass (m : Message CString Edge)
  | printBNet
  | getEdge (src sink : CString)

/-- What the calls do to the potentials by value. -/
def Potentials.call {o : VariableOrdering} {α : Type} (A : Arith α) (this : BNet o α)
    (t : ElimTree o) (v : Potentials o α) : TreeCall → Option (Potentials o α)
  | .initializePotentials => this.initializePotentialsWith A t v
  | .messagePass m => v.messagePassWith A m.receiver m.sender m.sep
  | .printBNet => some v
  | .getEdge _ _ => some v

namespace TreeMemory

variable {o : VariableOrdering} {α : Type} (A : Arith α) (this : BNet o α) (t : ElimTree o)

/-- The memory after a call. -/
def call (mem : TreeMemory o α) : TreeCall → Option (TreeMemory o α)
  | .initializePotentials => mem.initializePotentials A t this
  | .messagePass m => mem.messagePass A m.receiver m.sender m.sep
  | .printBNet => (mem.printBNet t).map fun _ => mem
  | .getEdge src sink => (mem.getEdge t src sink).map fun _ => mem

/-- The memory after a sequence of calls. -/
def run (mem : TreeMemory o α) (calls : List TreeCall) : Option (TreeMemory o α) :=
  calls.foldlM (call A this t) mem

end TreeMemory

end JunctionBox
