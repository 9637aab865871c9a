import JunctionBox.Xbif.Reading

/-!
# The numbers of a table

`parseTable` cuts the text of a table into pieces, keeps those that are numbers,
and fills a C array with them; while it does not know how many there are, it
keeps them in buffers of fixed size.  `parseTable_eq` says that the array holds
just the numbers of the text, in order.

The handler has replaced the newlines of the text by blanks.  `parseTable_map`
says that this changes no number, so the handler reads the document itself
(`parse_document`).
-/

namespace JunctionBox.Xbif

open XBIFParser (lineToBlank)

/-! ## Definitions -/

/-- The characters that the pattern `\s` matches. -/
def isSpace (c : Char) : Bool :=
  c = ' ' ∨ c = '\t' ∨ c = '\n' ∨ c = '\x0b' ∨ c = '\x0c' ∨ c = '\r'

/-- `String.split` at the pattern `\s`: the whole string where the pattern matches nowhere, else
the pieces without the empty ones at the end. -/
def splitSpaces (s : JString) : List JString :=
  if s.any isSpace then (s.splitOnP isSpace).rdropWhile List.isEmpty else [s]

section ParseTable

variable {D : Type}

/-- `bufSize`. -/
def bufSize : ℕ := 1024

/-- The buffers of `parseTable`: full ones, and the one that is being filled, as far as it is
filled. -/
structure Buffers (D : Type) where
  doubles : List (List D)
  buf : List D

namespace Buffers

/-- A number goes into the last buffer, or into a new one when the last is full. -/
def push (this : Buffers D) (d : D) : Buffers D :=
  if bufSize ≤ this.buf.length then ⟨this.doubles ++ [this.buf], [d]⟩
  else ⟨this.doubles, this.buf ++ [d]⟩

/-- `finalSize`. -/
def finalSize (this : Buffers D) : ℕ := this.doubles.length * bufSize + this.buf.length

end Buffers

/-- The loops that copy one buffer, to the places from `start` on. -/
def setItems (retDouble : List D) (start : ℕ) (dub : List D) : List D :=
  dub.zipIdx.foldl (fun (retDouble : List D) (item : D × ℕ) =>
    retDouble.set (start + item.2) item.1) retDouble

/-- The C array with the numbers of the buffers; a new array holds some number everywhere. -/
def Buffers.toArray [Inhabited D] (this : Buffers D) : List D :=
  let retDouble := List.replicate this.finalSize default
  let retDouble := this.doubles.zipIdx.foldl (fun (retDouble : List D) (dub : List D × ℕ) =>
    setItems retDouble (dub.2 * bufSize) dub.1) retDouble
  setItems retDouble (this.doubles.length * bufSize) this.buf

variable (parseDouble : JString → Option D) (log : D → D) (applyLogTransform : Bool)

/-- The number of one piece; what is no number is passed over. -/
def readPiece (p : JString) : Option D :=
  (parseDouble (trim p)).map fun d => if applyLogTransform then log d else d

/-- `parseTable`. -/
def parseTable [Inhabited D] (s : JString) : List D :=
  let buffers := (splitSpaces s).foldl (fun (buffers : Buffers D) p =>
    match readPiece parseDouble log applyLogTransform p with
    | some d => buffers.push d
    | none => buffers) ⟨[], []⟩
  buffers.toArray

end ParseTable

/-! ## The buffers -/

section Buffers

variable {D : Type}

/-- Copying to the middle of an array. -/
theorem setItems_append (before middle after dub : List D) (h : middle.length = dub.length) :
    setItems (before ++ middle ++ after) before.length dub = before ++ dub ++ after := by
  have hloop : ∀ (k : ℕ) (filled rest dub : List D), filled.length = k →
      rest.length = dub.length →
      (dub.zipIdx k).foldl (fun (retDouble : List D) (item : D × ℕ) =>
        retDouble.set (before.length + item.2) item.1) (before ++ (filled ++ rest) ++ after) =
        before ++ (filled ++ dub) ++ after := by
    intro k filled rest dub
    induction dub generalizing k filled rest with
    | nil =>
        intro _ hrest
        rw [List.length_eq_zero_iff.mp hrest]
        rfl
    | cons d dub ih =>
        intro hfilled hrest
        obtain ⟨r, rest, rfl⟩ := List.exists_cons_of_length_eq_add_one hrest
        have hset : (before ++ (filled ++ r :: rest) ++ after).set (before.length + k) d =
            before ++ ((filled ++ [d]) ++ rest) ++ after := by
          rw [← hfilled]
          simp
        rw [List.zipIdx_cons, List.foldl_cons, hset,
          ih (k + 1) (filled ++ [d]) rest (by simp [hfilled]) (by simpa using hrest)]
        simp
  exact hloop 0 [] middle dub rfl h

namespace Buffers

/-- The numbers in the buffers. -/
def numbers (this : Buffers D) : List D := this.doubles.flatten ++ this.buf

/-- All buffers but the last are full. -/
def Filled (this : Buffers D) : Prop := ∀ dub ∈ this.doubles, dub.length = bufSize

theorem push_spec {this : Buffers D} (hfilled : this.Filled) (hlast : this.buf.length ≤ bufSize)
    (d : D) : (this.push d).Filled ∧ (this.push d).buf.length ≤ bufSize ∧
      (this.push d).numbers = this.numbers ++ [d] := by
  unfold push
  split
  · next hfull =>
      refine ⟨fun dub hdub => ?_, by simp [bufSize], by simp [numbers]⟩
      rcases List.mem_append.mp hdub with hdub | hdub
      · exact hfilled dub hdub
      · rw [List.mem_singleton.mp hdub]
        omega
  · next hroom =>
      refine ⟨hfilled, ?_, by simp [numbers]⟩
      rw [List.length_append, List.length_singleton]
      omega

/-- Full buffers together. -/
theorem length_flatten_full {doubles : List (List D)}
    (hfilled : ∀ dub ∈ doubles, dub.length = bufSize) :
    doubles.flatten.length = doubles.length * bufSize := by
  have hlengths : doubles.map List.length = List.replicate doubles.length bufSize := by
    rw [List.eq_replicate_iff, List.length_map]
    refine ⟨rfl, fun n hn => ?_⟩
    obtain ⟨dub, hdub, rfl⟩ := List.mem_map.mp hn
    exact hfilled dub hdub
  rw [List.length_flatten, hlengths, List.sum_replicate_nat]

/-- The loop that copies the full buffers. -/
theorem copy_full (doubles : List (List D)) (hfilled : ∀ dub ∈ doubles, dub.length = bufSize)
    (k : ℕ) (before room after : List D) (hbefore : before.length = k * bufSize)
    (hroom : room.length = doubles.length * bufSize) :
    (doubles.zipIdx k).foldl (fun (retDouble : List D) (dub : List D × ℕ) =>
      setItems retDouble (dub.2 * bufSize) dub.1) (before ++ room ++ after) =
      before ++ doubles.flatten ++ after := by
  induction doubles generalizing k before room with
  | nil =>
      have hnil : room = [] := List.length_eq_zero_iff.mp (by simpa using hroom)
      rw [hnil]
      rfl
  | cons dub doubles ih =>
      have hdub : dub.length = bufSize := hfilled dub (List.mem_cons_self ..)
      have hsplit : before ++ room ++ after =
          before ++ room.take bufSize ++ (room.drop bufSize ++ after) := by
        rw [List.append_assoc before (room.take bufSize), ← List.append_assoc (room.take bufSize),
          List.take_append_drop, List.append_assoc]
      have hlen : (doubles.length + 1) * bufSize = doubles.length * bufSize + bufSize :=
        Nat.succ_mul ..
      rw [List.length_cons, hlen] at hroom
      have hset : setItems (before ++ room ++ after) (k * bufSize) dub =
          (before ++ dub) ++ room.drop bufSize ++ after := by
        rw [hsplit, ← hbefore, setItems_append _ _ _ _ (by rw [List.length_take]; omega)]
        simp
      rw [List.zipIdx_cons, List.foldl_cons, hset,
        ih (fun d hd => hfilled d (List.mem_cons_of_mem _ hd)) (k + 1) (before ++ dub)
          (room.drop bufSize)]
      · simp
      · rw [List.length_append, hbefore, hdub, Nat.succ_mul]
      · rw [List.length_drop]
        omega

theorem toArray_eq [Inhabited D] {this : Buffers D} (hfilled : this.Filled) :
    this.toArray = this.numbers := by
  have hroom : List.replicate this.finalSize (default : D) =
      [] ++ List.replicate (this.doubles.length * bufSize) default ++
        List.replicate this.buf.length default := by
    rw [List.nil_append, ← List.replicate_add]
    rfl
  have hflat := length_flatten_full hfilled
  have hcopy := copy_full this.doubles hfilled 0 []
    (List.replicate (this.doubles.length * bufSize) default)
    (List.replicate this.buf.length default) (by simp) (by simp)
  unfold toArray
  rw [hroom]
  simp only
  rw [hcopy, List.nil_append, ← hflat]
  have hlast := setItems_append this.doubles.flatten
    (List.replicate this.buf.length default) [] this.buf (by simp)
  rw [List.append_nil, List.append_nil] at hlast
  exact hlast

end Buffers

variable (parseDouble : JString → Option D) (log : D → D) (applyLogTransform : Bool)

/-- The array holds the numbers of the pieces. -/
theorem parseTable_eq [Inhabited D] (s : JString) :
    parseTable parseDouble log applyLogTransform s =
      (splitSpaces s).filterMap (readPiece parseDouble log applyLogTransform) := by
  have hloop : ∀ (parts : List JString) (buffers : Buffers D), buffers.Filled →
      buffers.buf.length ≤ bufSize →
      (parts.foldl (fun (buffers : Buffers D) p =>
        match readPiece parseDouble log applyLogTransform p with
        | some d => buffers.push d
        | none => buffers) buffers).toArray =
        buffers.numbers ++ parts.filterMap (readPiece parseDouble log applyLogTransform) := by
    intro parts
    induction parts with
    | nil =>
        intro buffers hfilled _
        rw [List.foldl_nil, Buffers.toArray_eq hfilled, List.filterMap_nil, List.append_nil]
    | cons p parts ih =>
        intro buffers hfilled hlast
        rw [List.foldl_cons, List.filterMap_cons]
        cases readPiece parseDouble log applyLogTransform p with
        | none => exact ih buffers hfilled hlast
        | some d =>
            obtain ⟨hfilled', hlast', hnumbers⟩ := Buffers.push_spec hfilled hlast d
            simp only
            rw [ih _ hfilled' hlast', hnumbers, List.append_assoc]
            rfl
  exact hloop _ _ (fun dub hdub => absurd hdub List.not_mem_nil) (Nat.zero_le _)

/-! ## Newlines and blanks -/

theorem splitOnP_map {α β : Type} (p : β → Bool) (f : α → β) (l : List α) :
    (l.map f).splitOnP p = (l.splitOnP (p ∘ f)).map (List.map f) := by
  induction l with
  | nil => rfl
  | cons a l ih =>
      rw [List.map_cons, List.splitOnP_cons_eq_if_modifyHead,
        List.splitOnP_cons_eq_if_modifyHead, ih]
      by_cases ha : p (f a)
      · simp [ha]
      · have hne := List.splitOnP_ne_nil (p ∘ f) l
        obtain ⟨w, ws, hw⟩ := List.exists_cons_of_ne_nil hne
        simp [ha, hw]

/-- The pieces between the separators contain none. -/
theorem not_of_mem_splitOnP {α : Type} {p : α → Bool} {l w : List α} (hw : w ∈ l.splitOnP p) :
    ∀ a ∈ w, p a = false := by
  induction l generalizing w with
  | nil =>
      rw [List.splitOnP_nil, List.mem_singleton] at hw
      simp [hw]
  | cons a l ih =>
      rw [List.splitOnP_cons_eq_if_modifyHead] at hw
      split at hw
      · rcases List.mem_cons.mp hw with rfl | hw
        · simp
        · exact ih hw
      · next ha =>
          obtain ⟨v, vs, hv⟩ := List.exists_cons_of_ne_nil (List.splitOnP_ne_nil p l)
          rw [hv, List.modifyHead_cons] at hw
          rcases List.mem_cons.mp hw with rfl | hw
          · intro b hb
            rcases List.mem_cons.mp hb with rfl | hb
            · simpa using ha
            · exact ih (hv ▸ List.mem_cons_self ..) b hb
          · exact ih (hv ▸ List.mem_cons_of_mem _ hw)

theorem isSpace_lineToBlank (c : Char) : isSpace (lineToBlank c) = isSpace c := by
  by_cases hc : c = '\n'
  · subst hc
    decide
  · simp [lineToBlank, hc]

/-- Text without spaces stays. -/
theorem map_lineToBlank {s : JString} (h : ∀ c ∈ s, isSpace c = false) :
    s.map lineToBlank = s := by
  have heq : ∀ c ∈ s, lineToBlank c = c := by
    intro c hc
    have hspace := h c hc
    unfold lineToBlank
    split
    · next hline =>
        subst hline
        exact absurd hspace (by decide)
    · rfl
  rw [List.map_congr_left heq, List.map_id']

theorem splitSpaces_map (s : JString) : splitSpaces (s.map lineToBlank) = splitSpaces s := by
  have hcomp : isSpace ∘ lineToBlank = isSpace := funext isSpace_lineToBlank
  have hany : (s.map lineToBlank).any isSpace = s.any isSpace := by
    rw [List.any_map, hcomp]
  unfold splitSpaces
  rw [hany]
  split
  · rw [splitOnP_map, hcomp]
    congr 1
    have heq : ∀ w ∈ s.splitOnP isSpace, w.map lineToBlank = w := fun w hw =>
      map_lineToBlank (not_of_mem_splitOnP hw)
    rw [List.map_congr_left heq, List.map_id']
  · next hnone =>
      rw [map_lineToBlank]
      simpa using hnone

/-- The newlines make no difference. -/
theorem parseTable_map [Inhabited D] (s : JString) :
    parseTable parseDouble log applyLogTransform (s.map lineToBlank) =
      parseTable parseDouble log applyLogTransform s := by
  rw [parseTable_eq, parseTable_eq, splitSpaces_map]

/-! ## The document -/

/-- For every document and however its texts are cut: a new handler throws if a number is none,
and otherwise it ends in state `0` with the variables, observations and tables of the document;
the text of a table is given to `parseTable` with blanks for newlines, which for the function
of the source is the same as the text itself. -/
theorem parse_document [Inhabited D] (parseInt : JString → Option ℤ) (document : Document) :
    (∀ (T : Type) (anyTable : JString → T),
      ((XBIFParser.new T).parse parseInt anyTable document.events).toOption.map
          (fun p => (p.parserState, p.maps)) =
        (document.read parseInt fun t => anyTable (t.map lineToBlank)).map
          fun maps => (.outside, maps)) ∧
    ((XBIFParser.new (List D)).parse parseInt (parseTable parseDouble log applyLogTransform)
        document.events).toOption.map (fun p => (p.parserState, p.maps)) =
      (document.read parseInt (parseTable parseDouble log applyLogTransform)).map
        fun maps => (.outside, maps) := by
  have hread := toOption_parse parseInt (parseTable parseDouble log applyLogTransform) document
  have hsame : (fun t => parseTable parseDouble log applyLogTransform (t.map lineToBlank)) =
      parseTable parseDouble log applyLogTransform :=
    funext (parseTable_map parseDouble log applyLogTransform)
  rw [hsame] at hread
  exact ⟨fun T anyTable => toOption_parse parseInt anyTable document, hread⟩

end Buffers

end JunctionBox.Xbif
