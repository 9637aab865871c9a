import JunctionBox.Foundations.CStrings
import JunctionBox.JunctionTree.ElimTree

/-!
# The functions that build strings

Seven functions count the characters of a text, take a block of that size from
`jballoc` and fill it.  Here each does so on a block with whatever was there
before, and every write is checked; where `malloc` fails, `jballoc` returns
`NULL`, and the run ends at the first access.

`StringBuilder.builds_iff` says exactly when the block ends up with the intended
text and its terminator.  `Edge_Create`, `ElimSet_GetLabel` and
`ElimSetCollection_ToString` do it for every text whose size can be computed.
`Variable_Create` has no room for the terminator, `VertexMap_ContentPrinter` is
one short as well, `BitVector_ToString` puts the terminator one place too far,
and `Map_ToString` appends to whatever string the block happens to hold.
-/

namespace JunctionBox

open CStrings

/-- Text without a NUL inside. -/
abbrev NulFree : Type := {text : CString // nul ∉ text}

/-- The labels of the variables are C strings. -/
def VariableOrdering.NulFreeLabels (o : VariableOrdering) : Prop := ∀ v ∈ o.vbls, nul ∉ v.label

namespace StringBuilders

variable {o : VariableOrdering}

/-! ## Definitions -/

/-- `Variable_Create`, the copy of the label. -/
def variableCreate (former : ℕ → Char) (label : CString) : Option (List Char) := do
  let ret ← malloc former (← strlen (terminated label))
  strcpy ret (terminated label)

/-- `Edge_Create`, the key. -/
def edgeCreate (former : ℕ → Char) (srcname sinkname : CString) : Option (List Char) := do
  let srclength ← strlen (terminated srcname)
  let sinklength ← strlen (terminated sinkname)
  let ret ← malloc former (sizeT ((srclength + sinklength + 2 : ℕ) : ℤ))
  let ret ← write ret 0 [nul]
  let ret ← strcat ret (terminated srcname)
  let ret ← strcat ret (terminated [' '])
  strcat ret (terminated sinkname)

/-- `VertexMap_ContentPrinter`. -/
def vertexMapContentPrinter (former : ℕ → Char) (id vertexName : CString) :
    Option (List Char) := do
  let idlength ← strlen (terminated id)
  let namelength ← strlen (terminated vertexName)
  let ret ← malloc former (sizeT ((idlength + namelength + 4 : ℕ) : ℤ))
  sprintf ret [terminated id, terminated [' ', '\t', ' '], terminated vertexName,
    terminated ['\n']]

/-- The first pass of `ElimSet_GetLabel`; `length` is an `int`. -/
def labelLength (this : ElimSet o) : Option ℤ :=
  this.bv.onIndices.foldlM (fun (length : ℤ) i => do
    return CInt.wrap (length + (((← strlen (terminated (o.vbl i).label)) + 1 : ℕ) : ℤ))) 0

/-- The second pass of `ElimSet_GetLabel`. -/
def appendLabels (this : ElimSet o) (ret : List Char) : Option (List Char) :=
  this.bv.onIndices.foldlM (fun ret i => do
    let ret ← strcat ret (terminated (o.vbl i).label)
    strcat ret (terminated [' '])) ret

/-- `ElimSet_GetLabel`, which is `ElimSet_ToString` as well. -/
def elimSetGetLabel (former : ℕ → Char) (this : ElimSet o) : Option (List Char) := do
  let length ← labelLength this
  let ret ← malloc former (sizeT (length + 1))
  let ret ← write ret 0 [nul]
  appendLabels this ret

/-- The strings that `ElimSetCollection_ToString` joins; the block number 0 is the one that it
returns. -/
def labelStrings (former : ℕ → ℕ → Char) (this : ElimSetCollection o) :
    Option (List (List Char)) :=
  this.elimSets.reduceOption.zipIdx.mapM fun es => elimSetGetLabel (former (es.2 + 1)) es.1

/-- The loop that adds up lengths in an `int`, with `extra` for each string. -/
def stringLength (extra : ℕ) (strings : List (List Char)) : Option ℤ :=
  strings.foldlM (fun (stringLength : ℤ) curstr => do
    return CInt.wrap (stringLength + (((← strlen curstr) + extra : ℕ) : ℤ))) 0

/-- `ElimSetCollection_ToString`. -/
def elimSetCollectionToString (former : ℕ → ℕ → Char) (this : ElimSetCollection o) :
    Option (List Char) := do
  let strings ← labelStrings former this
  let stringLength ← stringLength 1 strings
  let ret ← malloc (former 0) (sizeT (CInt.wrap (stringLength + 1)))
  let ret ← write ret 0 [nul]
  strings.foldlM (fun ret curstr => do
    let ret ← strcat ret curstr
    strcat ret (terminated ['\n'])) ret

/-- `BitVector_ToString`. -/
def bitVectorToString {size : ℕ} (former : ℕ → Char) (this : BitVector size) :
    Option (List Char) := do
  let last := CInt.wrap ((size + 1 : ℕ) : ℤ)
  let ret ← malloc former (sizeT last)
  let ret ← (BitVector.bitPositions size).foldlM (fun ret position =>
    write ret (position.1 * charBit + position.2)
      [if this.maskedByte position != 0 then '1' else '0']) ret
  write ret (sizeT last) [nul]

/-- `Map_ToString`. -/
def mapToString {α : Type} (former : ℕ → Char) (this : Map α)
    (cntntPrinter : CString × α → CString) : Option (List Char) := do
  let strings := this.first.map fun me => terminated (cntntPrinter me)
  let stringLength ← stringLength 0 strings
  let ret ← malloc former (sizeT (CInt.wrap (stringLength + 1)))
  strings.foldlM (fun ret curstr => strcat ret curstr) ret

end StringBuilders

/-- The calls, with their arguments. -/
inductive StringBuilder : Type 1
  | variableCreate (label : NulFree)
  | edgeCreate (srcname sinkname : NulFree)
  | vertexMapContentPrinter (id vertexName : NulFree)
  | elimSetGetLabel {o : VariableOrdering} (labels : o.NulFreeLabels) (this : ElimSet o)
  | elimSetCollectionToString {o : VariableOrdering} (labels : o.NulFreeLabels)
      (this : ElimSetCollection o)
  | bitVectorToString {size : ℕ} (this : BitVector size)
  | mapToString {α : Type} (this : Map α) (cntntPrinter : CString × α → NulFree)

namespace StringBuilder

/-- The block that the call returns; `former k` is what the block number `k` held before. -/
def run (former : ℕ → ℕ → Char) : StringBuilder → Option (List Char)
  | variableCreate label => StringBuilders.variableCreate (former 0) label
  | edgeCreate srcname sinkname => StringBuilders.edgeCreate (former 0) srcname sinkname
  | vertexMapContentPrinter id vertexName =>
      StringBuilders.vertexMapContentPrinter (former 0) id vertexName
  | elimSetGetLabel _ this => StringBuilders.elimSetGetLabel (former 0) this
  | elimSetCollectionToString _ this => StringBuilders.elimSetCollectionToString former this
  | bitVectorToString this => StringBuilders.bitVectorToString (former 0) this
  | mapToString this cntntPrinter =>
      StringBuilders.mapToString (former 0) this fun me => cntntPrinter me

/-- The text that the call is for. -/
def text : StringBuilder → CString
  | variableCreate label => label
  | edgeCreate srcname sinkname => srcsink srcname sinkname
  | vertexMapContentPrinter id vertexName =>
      id.1 ++ [' ', '\t', ' '] ++ vertexName.1 ++ ['\n']
  | elimSetGetLabel _ this => this.getLabel
  | elimSetCollectionToString _ this =>
      this.elimSets.reduceOption.flatMap fun es => es.getLabel ++ ['\n']
  | @bitVectorToString size this =>
      (List.range size).map fun i => if this.on i then '1' else '0'
  | mapToString this cntntPrinter => this.first.flatMap fun me => (cntntPrinter me).1

/-- The call stays inside its blocks, and what it returns is the text and right after it a NUL. -/
def Builds (former : ℕ → ℕ → Char) (b : StringBuilder) : Prop :=
  (b.run former).bind content = some b.text

/-- What a call that is right needs. -/
def Fits (former : ℕ → ℕ → Char) (b : StringBuilder) : Prop :=
  match b with
  | edgeCreate .. => b.text.length < ptrdiffMax
  | elimSetGetLabel .. => b.text.length < 2 ^ 31
  | elimSetCollectionToString .. => b.text.length + 1 < 2 ^ 31
  | mapToString .. => former 0 0 = nul ∧ b.text.length + 1 < 2 ^ 31
  | variableCreate .. | vertexMapContentPrinter .. | bitVectorToString .. => False

end StringBuilder

namespace StringBuilders

/-! ## One builder after another -/

/-- The label has no room for its terminator. -/
theorem variableCreate_eq_none (former : ℕ → Char) {label : CString} (h : nul ∉ label) :
    variableCreate former label = none := by
  unfold variableCreate malloc strcpy
  simp only [strlen_terminated h, content_terminated h, Option.bind_eq_bind, Option.bind_some]
  split
  · rw [Option.bind_some]
    exact write_eq_none (by simp) (by simp)
  · rfl

theorem builds_edgeCreate_iff (former : ℕ → Char) {srcname sinkname : CString}
    (hsrc : nul ∉ srcname) (hsink : nul ∉ sinkname) :
    (edgeCreate former srcname sinkname).bind content = some (srcsink srcname sinkname) ↔
      (srcsink srcname sinkname).length < ptrdiffMax := by
  have happends := (appends_strcat (content_terminated hsrc)).bind
    ((appends_strcat (content_terminated (show nul ∉ [' '] by decide))).bind
      (appends_strcat (content_terminated hsink)))
  have hlength : srcname.length + sinkname.length + 2 = (srcsink srcname sinkname).length + 1 := by
    simp only [srcsink, List.length_append, List.length_cons]
    omega
  unfold edgeCreate
  simp only [strlen_terminated hsrc, strlen_terminated hsink, Option.bind_eq_bind,
    Option.bind_some, hlength]
  exact happends.fresh_iff.trans (sizeT_fits_iff _)

/-- One place is missing. -/
theorem vertexMapContentPrinter_eq_none (former : ℕ → Char) {id vertexName : CString}
    (hid : nul ∉ id) (hname : nul ∉ vertexName) :
    vertexMapContentPrinter former id vertexName = none := by
  have hpieces : [terminated id, terminated [' ', '\t', ' '], terminated vertexName,
      terminated ['\n']].mapM content = some [id, [' ', '\t', ' '], vertexName, ['\n']] := by
    simp [List.mapM_cons, content_terminated hid, content_terminated hname,
      content_terminated (show nul ∉ [' ', '\t', ' '] by decide),
      content_terminated (show nul ∉ ['\n'] by decide)]
  unfold vertexMapContentPrinter malloc sprintf
  simp only [strlen_terminated hid, strlen_terminated hname, hpieces, Option.bind_eq_bind,
    Option.bind_some]
  split
  · rw [Option.bind_some]
    refine write_eq_none (by simp) ?_
    have hle := sizeT_natCast_le (id.length + vertexName.length + 4)
    simp only [List.length_map, List.length_range, List.flatten_cons, List.flatten_nil,
      List.length_append, List.length_cons, List.length_nil]
    omega
  · rfl

section Labels

variable {o : VariableOrdering}

theorem nul_notMem_label (labels : o.NulFreeLabels) {i : ℕ} (hi : i < o.size) :
    nul ∉ (o.vbl i).label :=
  labels _ (VariableOrdering.vbl_mem hi)

theorem appends_appendLabels (labels : o.NulFreeLabels) (this : ElimSet o) :
    Appends (appendLabels this) this.getLabel :=
  appends_foldlM fun _ hi =>
    (appends_strcat (content_terminated
      (nul_notMem_label labels (BitVector.mem_onIndices.mp hi).1))).bind
      (appends_strcat (content_terminated (by decide)))

theorem labelLength_eq (labels : o.NulFreeLabels) (this : ElimSet o) :
    labelLength this = some (CInt.wrap this.getLabel.length) := by
  have hlength : (this.bv.onIndices.map fun i => (o.vbl i).label.length + 1).sum =
      this.getLabel.length := by
    rw [ElimSet.getLabel, List.length_flatMap]
    simp
  rw [labelLength, foldlM_length 1 fun i (hi : i ∈ this.bv.onIndices) =>
    content_terminated (nul_notMem_label labels (BitVector.mem_onIndices.mp hi).1), hlength]

theorem elimSetGetLabel_eq (labels : o.NulFreeLabels) (former : ℕ → Char) (this : ElimSet o) :
    elimSetGetLabel former this =
      (malloc former (sizeT (CInt.wrap this.getLabel.length + 1))).bind fun ret =>
        (write ret 0 [nul]).bind (appendLabels this) := by
  rw [elimSetGetLabel, labelLength_eq labels, Option.bind_eq_bind, Option.bind_some]
  rfl

theorem builds_elimSetGetLabel_iff (labels : o.NulFreeLabels) (former : ℕ → Char)
    (this : ElimSet o) : (elimSetGetLabel former this).bind content = some this.getLabel ↔
      this.getLabel.length < 2 ^ 31 := by
  rw [elimSetGetLabel_eq labels]
  exact (appends_appendLabels labels this).fresh_iff.trans (sizeT_wrap_add_one_fits_iff _)

theorem content_elimSetGetLabel (labels : o.NulFreeLabels) {former : ℕ → Char}
    {this : ElimSet o} {ret : List Char} (hrun : elimSetGetLabel former this = some ret) :
    content ret = some this.getLabel := by
  rw [elimSetGetLabel_eq labels] at hrun
  exact (appends_appendLabels labels this).content_fresh hrun

/-- The labels that are built are the labels of the sets. -/
theorem content_of_labelStrings (labels : o.NulFreeLabels) {former : ℕ → ℕ → Char}
    {this : ElimSetCollection o} {strings : List (List Char)}
    (hrun : labelStrings former this = some strings) :
    ∃ g : List Char → CString, (∀ s ∈ strings, content s = some (g s)) ∧
      strings.map g = this.elimSets.reduceOption.map ElimSet.getLabel := by
  refine ⟨fun s => (content s).getD [], fun s hs => ?_, ?_⟩
  · obtain ⟨es, -, hes⟩ := (PartialLoops.mem_mapM hrun).1 s hs
    have hlabel := content_elimSetGetLabel labels hes
    simp only [hlabel, Option.getD_some]
  · have hmap : strings.map (fun s => (content s).getD []) =
        this.elimSets.reduceOption.zipIdx.map fun es => es.1.getLabel :=
      PartialLoops.map_of_mapM hrun fun es _ s hes => by
        have hlabel := content_elimSetGetLabel labels hes
        simp only [hlabel, Option.getD_some]
    have hfst := congrArg (List.map ElimSet.getLabel)
      (List.zipIdx_map_fst 0 this.elimSets.reduceOption)
    rw [List.map_map] at hfst
    exact hmap.trans hfst

/-- Labels that are short enough are all built. -/
theorem exists_labelStrings (labels : o.NulFreeLabels) (former : ℕ → ℕ → Char)
    {this : ElimSetCollection o}
    (h : ∀ es ∈ this.elimSets.reduceOption, es.getLabel.length < 2 ^ 31) :
    ∃ strings, labelStrings former this = some strings := by
  have hlabel : ∀ es ∈ this.elimSets.reduceOption.zipIdx,
      ∃ ret, elimSetGetLabel (former (es.2 + 1)) es.1 = some ret := by
    intro es hes
    have hfits := (builds_elimSetGetLabel_iff labels (former (es.2 + 1)) es.1).mpr
      (h es.1 (List.fst_mem_of_mem_zipIdx hes))
    obtain ⟨ret, hret, -⟩ := Option.bind_eq_some_iff.mp hfits
    exact ⟨ret, hret⟩
  obtain ⟨strings, hrun, -⟩ := PartialLoops.exists_mapM hlabel
  exact ⟨strings, hrun⟩

/-- What `ElimSetCollection_ToString` does once the labels are there. -/
theorem builds_join_iff (former : ℕ → Char) {strings : List (List Char)}
    {g : List Char → CString} (hcontent : ∀ s ∈ strings, content s = some (g s)) :
    ((stringLength 1 strings).bind fun stringLength =>
      (malloc former (sizeT (CInt.wrap (stringLength + 1)))).bind fun ret =>
        (write ret 0 [nul]).bind fun ret => strings.foldlM (fun ret curstr => do
          let ret ← strcat ret curstr
          strcat ret (terminated ['\n'])) ret).bind content =
        some (strings.flatMap fun s => g s ++ ['\n']) ↔
      (strings.flatMap fun s => g s ++ ['\n']).length + 1 < 2 ^ 31 := by
  have hlength : (strings.map fun s => (g s).length + 1).sum =
      (strings.flatMap fun s => g s ++ ['\n']).length := by
    rw [List.length_flatMap]
    simp
  have happends := appends_foldlM fun s hs =>
    (appends_strcat (hcontent s hs)).bind
      (appends_strcat (content_terminated (show nul ∉ ['\n'] by decide)))
  rw [stringLength, foldlM_length 1 hcontent, hlength, Option.bind_some, wrap_add_one]
  exact happends.fresh_iff.trans (sizeT_wrap_fits_iff _)

theorem builds_elimSetCollectionToString_iff (labels : o.NulFreeLabels) (former : ℕ → ℕ → Char)
    (this : ElimSetCollection o) :
    (elimSetCollectionToString former this).bind content =
        some (this.elimSets.reduceOption.flatMap fun es => es.getLabel ++ ['\n']) ↔
      (this.elimSets.reduceOption.flatMap fun es => es.getLabel ++ ['\n']).length + 1 < 2 ^ 31 := by
  unfold elimSetCollectionToString
  cases hstrings : labelStrings former this with
  | none =>
      -- a label that does not fit is a part of the text
      simp only [Option.bind_eq_bind, Option.bind_none, reduceCtorEq, false_iff]
      intro hlt
      have hshort : ∀ es ∈ this.elimSets.reduceOption, es.getLabel.length < 2 ^ 31 := by
        intro es hes
        have hle := (List.sublist_flatten_of_mem
          (List.mem_map_of_mem (f := fun es => es.getLabel ++ ['\n']) hes)).length_le
        rw [← List.flatMap_def, List.length_append, List.length_singleton] at hle
        omega
      obtain ⟨strings, hsome⟩ := exists_labelStrings labels former hshort
      rw [hstrings] at hsome
      exact absurd hsome (by simp)
  | some strings =>
      obtain ⟨g, hcontent, hmap⟩ := content_of_labelStrings labels hstrings
      have htext : (this.elimSets.reduceOption.flatMap fun es => es.getLabel ++ ['\n']) =
          strings.flatMap fun s => g s ++ ['\n'] := by
        have hjoin := congrArg (fun l : List CString => l.flatMap fun s => s ++ ['\n']) hmap
        simp only [List.flatMap_map] at hjoin
        exact hjoin.symm
      rw [htext]
      exact builds_join_iff (former 0) hcontent

end Labels

theorem length_of_writes {α : Type} {items : List α} {place : α → ℕ} {text : α → List Char}
    {ret ret' : List Char}
    (hrun : items.foldlM (fun ret a => write ret (place a) (text a)) ret = some ret') :
    ret'.length = ret.length :=
  PartialLoops.foldlM_invariant (fun dest => dest.length = ret.length) hrun rfl
    fun _ _ _ _ hlength hwrite => (length_write hwrite).trans hlength

/-- The terminator goes to the place after the last one. -/
theorem bitVectorToString_eq_none {size : ℕ} (former : ℕ → Char) (this : BitVector size) :
    bitVectorToString former this = none := by
  unfold bitVectorToString malloc
  simp only [Option.bind_eq_bind]
  split
  · rw [Option.bind_some, Option.bind_eq_none_iff]
    intro ret hloop
    refine write_eq_none (by simp) ?_
    rw [length_of_writes hloop, List.length_map, List.length_range, List.length_singleton]
    exact Nat.lt_succ_self _
  · rfl

theorem mapToString_eq {α : Type} (former : ℕ → Char) (this : Map α)
    {cntntPrinter : CString × α → CString} (h : ∀ me, nul ∉ cntntPrinter me) :
    mapToString former this cntntPrinter =
      (malloc former
          (sizeT (CInt.wrap (((this.first.flatMap cntntPrinter).length + 1 : ℕ) : ℤ)))).bind
        fun ret =>
          this.first.foldlM (fun ret me => strcat ret (terminated (cntntPrinter me))) ret := by
  have hlength : (this.first.map fun me => (cntntPrinter me).length + 0).sum =
      (this.first.flatMap cntntPrinter).length := by
    rw [List.length_flatMap]
    rfl
  have hcount : stringLength 0 (this.first.map fun me => terminated (cntntPrinter me)) =
      some (CInt.wrap (this.first.flatMap cntntPrinter).length) := by
    rw [stringLength, List.foldlM_map,
      foldlM_length 0 fun me (_ : me ∈ this.first) => content_terminated (h me), hlength]
  rw [mapToString, hcount, Option.bind_eq_bind, Option.bind_some, wrap_add_one]
  simp only [List.foldlM_map, Option.bind_eq_bind]

theorem builds_mapToString_iff {α : Type} (former : ℕ → Char) (this : Map α)
    {cntntPrinter : CString × α → CString} (h : ∀ me, nul ∉ cntntPrinter me) :
    (mapToString former this cntntPrinter).bind content = some (this.first.flatMap cntntPrinter) ↔
      former 0 = nul ∧ (this.first.flatMap cntntPrinter).length + 1 < 2 ^ 31 := by
  have happends := appends_foldlM fun me (_ : me ∈ this.first) =>
    appends_strcat (content_terminated (h me))
  rw [mapToString_eq former this h, happends.uninitialised_iff, sizeT_wrap_fits_iff]

end StringBuilders

namespace StringBuilder

/-! ## All of them -/

theorem not_builds_variableCreate (former : ℕ → ℕ → Char) (label : NulFree) :
    ¬ (variableCreate label).Builds former := by
  rw [Builds, run, StringBuilders.variableCreate_eq_none _ label.2]
  exact nofun

theorem not_builds_vertexMapContentPrinter (former : ℕ → ℕ → Char) (id vertexName : NulFree) :
    ¬ (vertexMapContentPrinter id vertexName).Builds former := by
  rw [Builds, run, StringBuilders.vertexMapContentPrinter_eq_none _ id.2 vertexName.2]
  exact nofun

theorem not_builds_bitVectorToString {size : ℕ} (former : ℕ → ℕ → Char) (this : BitVector size) :
    ¬ (bitVectorToString this).Builds former := by
  rw [Builds, run, StringBuilders.bitVectorToString_eq_none]
  exact nofun

theorem builds_mapToString_iff {α : Type} (former : ℕ → ℕ → Char) (this : Map α)
    (cntntPrinter : CString × α → NulFree) :
    (mapToString this cntntPrinter).Builds former ↔
      former 0 0 = nul ∧ (mapToString this cntntPrinter).text.length + 1 < 2 ^ 31 :=
  StringBuilders.builds_mapToString_iff _ this fun me => (cntntPrinter me).2

/-- **The builders**: a call builds its text, whatever its blocks held before, if and only if it
fits. -/
theorem builds_iff (former : ℕ → ℕ → Char) (b : StringBuilder) :
    b.Builds former ↔ b.Fits former := by
  cases b with
  | variableCreate label => exact iff_of_false (not_builds_variableCreate former label) id
  | edgeCreate srcname sinkname =>
      exact StringBuilders.builds_edgeCreate_iff _ srcname.2 sinkname.2
  | vertexMapContentPrinter id vertexName =>
      exact iff_of_false (not_builds_vertexMapContentPrinter former id vertexName) fun h => h
  | elimSetGetLabel labels this => exact StringBuilders.builds_elimSetGetLabel_iff labels _ this
  | elimSetCollectionToString labels this =>
      exact StringBuilders.builds_elimSetCollectionToString_iff labels former this
  | bitVectorToString this => exact iff_of_false (not_builds_bitVectorToString former this) id
  | mapToString this cntntPrinter => exact builds_mapToString_iff former this cntntPrinter

/-- A label, an entry, a vector of one bit and a map without elements, in blocks that held something
else. -/
theorem not_builds :
    ¬ (variableCreate ⟨['a'], by decide⟩).Builds (fun _ _ => 'x') ∧
      ¬ (vertexMapContentPrinter ⟨['a'], by decide⟩ ⟨['b'], by decide⟩).Builds (fun _ _ => 'x') ∧
      ¬ (bitVectorToString (BitVector.create 1 false)).Builds (fun _ _ => 'x') ∧
      ¬ (mapToString (Map.create : Map Unit) fun _ => ⟨[], by decide⟩).Builds
        (fun _ _ => 'x') := by
  refine ⟨not_builds_variableCreate _ _, not_builds_vertexMapContentPrinter _ _ _,
    not_builds_bitVectorToString _ _, fun hbuilds => ?_⟩
  have hfirst := ((builds_mapToString_iff _ _ _).mp hbuilds).1
  exact absurd hfirst (by decide)

end StringBuilder

end JunctionBox
