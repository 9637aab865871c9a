import Mathlib.Algebra.BigOperators.Group.List.Basic
import JunctionBox.Foundations.PartialLoops
import JunctionBox.Xbif.ParseTable

/-!
# The arrays of `parseTable`

`parseTable` once more, with the arrays that the source has: buffers of `bufSize`
places whatever they hold, the count of the places in use, and an array of
`finalSize` places from C.  Each access is checked; a run that reads or writes
past the end of an array is `none`.
-/

namespace JunctionBox.Xbif

/-! ## Definitions -/

section Arrays

variable {D : Type}

/-- Writing one place of an array. -/
def setItem (array : List D) (i : ℕ) (d : D) : Option (List D) :=
  if i < array.length then some (array.set i d) else none

/-- The buffers of `parseTable`, with the `doubleCount` of the last one. -/
structure TableBuffers (D : Type) where
  doubles : List (List D)
  buf : List D
  doubleCount : ℕ

/-- `new double[bufSize]`. -/
def newBuffer (zero : D) : List D := List.replicate bufSize zero

namespace TableBuffers

/-- Before the first number. -/
def new (zero : D) : TableBuffers D := ⟨[], newBuffer zero, 0⟩

/-- A number is stored in `buf`, which a new buffer replaces when it is full. -/
def store (zero : D) (this : TableBuffers D) (d : D) : Option (TableBuffers D) := do
  let this :=
    if this.buf.length ≤ this.doubleCount then
      ⟨this.doubles ++ [this.buf], newBuffer zero, 0⟩
    else this
  let buf ← setItem this.buf this.doubleCount d
  return { this with buf := buf, doubleCount := this.doubleCount + 1 }

/-- `finalSize`. -/
def finalSize (this : TableBuffers D) : ℕ := this.doubles.length * bufSize + this.doubleCount

end TableBuffers

/-- `new_doubleArray`: the places of a new array hold whatever was there. -/
def newDoubleArray (old : ℕ → D) (nelements : ℕ) : List D := (List.range nelements).map old

/-- The loop that copies `n` places of `dub` to the places from `dubIdx * bufSize` on. -/
def copyItems (retDouble : List D) (dubIdx : ℕ) (dub : List D) (n : ℕ) : Option (List D) :=
  (List.range n).foldlM (fun retDouble i => do
    setItem retDouble (dubIdx * bufSize + i) (← dub[i]?)) retDouble

/-- The end of `parseTable`: the full buffers, then the used part of the last one. -/
def TableBuffers.toArray (old : ℕ → D) (this : TableBuffers D) : Option (List D) := do
  let retDouble := newDoubleArray old this.finalSize
  let (retDouble, dubIdx) ← this.doubles.foldlM (fun (ret : List D × ℕ) dub => do
    return (← copyItems ret.1 ret.2 dub dub.length, ret.2 + 1)) (retDouble, 0)
  copyItems retDouble dubIdx this.buf this.doubleCount

variable (parseDouble : JString → Option D) (log : D → D) (applyLogTransform : Bool)

/-- `parseTable`, from the pieces of its text to the array it returns. -/
def parseTableArray (zero : D) (old : ℕ → D) (s : JString) : Option (List D) := do
  let buffers ← (splitSpaces s).foldlM (fun (buffers : TableBuffers D) p =>
    match readPiece parseDouble log applyLogTransform p with
    | some d => buffers.store zero d
    | none => some buffers) (.new zero)
  buffers.toArray old

end Arrays

/-- The words of a text: its longest parts without spaces. -/
def words (s : JString) : List JString := (s.splitOnP isSpace).filter fun w => !w.isEmpty

/-! ## Storing -/

section Arrays

variable {D : Type}

theorem setItem_of_lt {array : List D} {i : ℕ} (h : i < array.length) (d : D) :
    setItem array i d = some (array.set i d) := if_pos h

namespace TableBuffers

/-- The numbers that the buffers hold: all of the full ones, and the used part of the last. -/
structure Holds (this : TableBuffers D) (numbers : List D) : Prop where
  full : ∀ dub ∈ this.doubles, dub.length = bufSize
  last : this.buf.length = bufSize
  count : this.doubleCount ≤ bufSize
  numbers_eq : this.doubles.flatten ++ this.buf.take this.doubleCount = numbers

theorem holds_new (zero : D) : (new zero).Holds [] where
  full _ hdub := absurd hdub List.not_mem_nil
  last := List.length_replicate ..
  count := Nat.zero_le _
  numbers_eq := rfl

/-- While there is room, a number goes to the first place that is not in use. -/
theorem Holds.setItem {this : TableBuffers D} {numbers : List D} (h : this.Holds numbers)
    (hroom : this.doubleCount < bufSize) (d : D) :
    ∃ buf, setItem this.buf this.doubleCount d = some buf ∧
      Holds ⟨this.doubles, buf, this.doubleCount + 1⟩ (numbers ++ [d]) := by
  have hlt : this.doubleCount < this.buf.length := by
    rw [h.last]
    exact hroom
  refine ⟨_, setItem_of_lt hlt d, h.full, ?_, hroom, ?_⟩
  · rw [List.length_set]
    exact h.last
  · have htake : (this.buf.set this.doubleCount d).take (this.doubleCount + 1) =
        this.buf.take this.doubleCount ++ [d] := by
      rw [List.take_succ_eq_append_getElem (by rw [List.length_set]; exact hlt),
        List.take_set_of_le (Nat.le_refl _), List.getElem_set_self]
    simp only
    rw [htake, ← List.append_assoc, h.numbers_eq]

/-- A full buffer is put with the others. -/
theorem Holds.newBuffer {this : TableBuffers D} {numbers : List D} (h : this.Holds numbers)
    (hfull : this.buf.length ≤ this.doubleCount) (zero : D) :
    Holds ⟨this.doubles ++ [this.buf], newBuffer zero, 0⟩ numbers where
  full dub hdub := by
    rcases List.mem_append.mp hdub with hdub | hdub
    · exact h.full dub hdub
    · rw [List.mem_singleton.mp hdub]
      exact h.last
  last := List.length_replicate ..
  count := Nat.zero_le _
  numbers_eq := by
    have hnumbers := h.numbers_eq
    rw [List.take_of_length_le hfull] at hnumbers
    simpa using hnumbers

/-- Storing writes within the buffer, and keeps what is there. -/
theorem Holds.store {this : TableBuffers D} {numbers : List D} (h : this.Holds numbers)
    (zero d : D) : ∃ next, this.store zero d = some next ∧ next.Holds (numbers ++ [d]) := by
  by_cases hfull : this.buf.length ≤ this.doubleCount
  · obtain ⟨buf, hrun, hholds⟩ := (h.newBuffer hfull zero).setItem (Nat.zero_lt_succ _) d
    refine ⟨_, ?_, hholds⟩
    simp only [TableBuffers.store, if_pos hfull]
    rw [hrun]
    rfl
  · have hroom : this.doubleCount < bufSize := by
      rw [← h.last]
      omega
    obtain ⟨buf, hrun, hholds⟩ := h.setItem hroom d
    refine ⟨_, ?_, hholds⟩
    simp only [TableBuffers.store, if_neg hfull]
    rw [hrun]
    rfl

theorem Holds.finalSize {this : TableBuffers D} {numbers : List D} (h : this.Holds numbers) :
    this.finalSize = numbers.length := by
  rw [← h.numbers_eq, List.length_append, Buffers.length_flatten_full h.full,
    List.length_take_of_le (h.last ▸ h.count)]
  rfl

end TableBuffers

/-! ## Copying -/

theorem length_setItems (retDouble dub : List D) (start : ℕ) :
    (setItems retDouble start dub).length = retDouble.length := by
  unfold setItems
  generalize dub.zipIdx = items
  induction items generalizing retDouble with
  | nil => rfl
  | cons item items ih => rw [List.foldl_cons, ih, List.length_set]

/-- The loop of `copyItems` stays within both arrays. -/
theorem copyItems_eq {retDouble dub : List D} {dubIdx n : ℕ} (hn : n ≤ dub.length)
    (hfit : dubIdx * bufSize + n ≤ retDouble.length) :
    copyItems retDouble dubIdx dub n =
      some (setItems retDouble (dubIdx * bufSize) (dub.take n)) := by
  induction n with
  | zero => rfl
  | succ n ih =>
      have hlt : n < dub.length := hn
      have hloop := ih (Nat.le_of_succ_le hn) (by omega)
      unfold copyItems at hloop ⊢
      rw [List.range_succ, PartialLoops.foldlM_append, hloop]
      simp only [Option.bind_some, List.foldlM_cons, List.foldlM_nil]
      rw [List.getElem?_eq_getElem hlt]
      simp only [Option.bind_eq_bind, Option.bind_some]
      rw [setItem_of_lt (by rw [length_setItems]; omega)]
      have hsnoc : (dub.take (n + 1)).zipIdx = (dub.take n).zipIdx ++ [(dub[n], n)] := by
        rw [List.take_succ_eq_append_getElem hlt, List.zipIdx_append,
          List.length_take_of_le hlt.le]
        simp
      unfold setItems
      rw [hsnoc, List.foldl_append]
      rfl

/-- The copying loop over the full buffers. -/
theorem copyFull_eq (doubles : List (List D)) (hfull : ∀ dub ∈ doubles, dub.length = bufSize)
    (dubIdx : ℕ) (retDouble : List D)
    (hfit : (dubIdx + doubles.length) * bufSize ≤ retDouble.length) :
    doubles.foldlM (fun (ret : List D × ℕ) dub => do
      return (← copyItems ret.1 ret.2 dub dub.length, ret.2 + 1)) (retDouble, dubIdx) =
      some ((doubles.zipIdx dubIdx).foldl (fun (retDouble : List D) (dub : List D × ℕ) =>
        setItems retDouble (dub.2 * bufSize) dub.1) retDouble, dubIdx + doubles.length) := by
  induction doubles generalizing dubIdx retDouble with
  | nil => rfl
  | cons dub doubles ih =>
      have hdub : dub.length = bufSize := hfull dub (List.mem_cons_self ..)
      rw [List.length_cons] at hfit ⊢
      have hsum : (dubIdx + (doubles.length + 1)) * bufSize =
          dubIdx * bufSize + bufSize + doubles.length * bufSize := by ring
      have hcopy : copyItems retDouble dubIdx dub dub.length =
          some (setItems retDouble (dubIdx * bufSize) dub) := by
        rw [copyItems_eq (Nat.le_refl _) (by omega), List.take_length]
      have hrest := ih (fun d hd => hfull d (List.mem_cons_of_mem _ hd)) (dubIdx + 1)
        (setItems retDouble (dubIdx * bufSize) dub) (by
          rw [length_setItems]
          calc (dubIdx + 1 + doubles.length) * bufSize =
                (dubIdx + (doubles.length + 1)) * bufSize := by ring
            _ ≤ retDouble.length := hfit)
      rw [List.foldlM_cons, List.zipIdx_cons, List.foldl_cons, hcopy]
      simp only [Option.bind_eq_bind, Option.bind_some, Option.pure_def] at hrest ⊢
      rw [hrest]
      congr 2
      omega

/-- Every write of the copying loops is within the array, and fills it with the numbers. -/
theorem TableBuffers.Holds.toArray {this : TableBuffers D} {numbers : List D}
    (h : this.Holds numbers) (old : ℕ → D) : this.toArray old = some numbers := by
  have hlength : (newDoubleArray old this.finalSize).length =
      this.doubles.length * bufSize + this.doubleCount := by
    rw [newDoubleArray, List.length_map, List.length_range]
    rfl
  have hflat : this.doubles.flatten.length = this.doubles.length * bufSize := by
    have hsize := h.finalSize
    rw [← h.numbers_eq, List.length_append, List.length_take_of_le (h.last ▸ h.count)] at hsize
    exact (Nat.add_right_cancel hsize).symm
  obtain ⟨room, after, hsplit, hroom, hafter⟩ :
      ∃ room after, newDoubleArray old this.finalSize = room ++ after ∧
        room.length = this.doubles.length * bufSize ∧ after.length = this.doubleCount := by
    refine ⟨_, _, (List.take_append_drop (this.doubles.length * bufSize) _).symm, ?_, ?_⟩
    · rw [List.length_take, hlength]
      omega
    · rw [List.length_drop, hlength]
      omega
  have hfilled := Buffers.copy_full this.doubles h.full 0 [] room after (by simp) hroom
  rw [List.nil_append, List.nil_append] at hfilled
  have hcopy := copyFull_eq this.doubles h.full 0 (room ++ after) (by
    rw [Nat.zero_add, List.length_append, hroom]
    exact Nat.le_add_right _ _)
  rw [Nat.zero_add, hfilled] at hcopy
  have hlast := setItems_append this.doubles.flatten after [] (this.buf.take this.doubleCount)
    (by rw [hafter, List.length_take_of_le (h.last ▸ h.count)])
  rw [List.append_nil, List.append_nil, hflat, h.numbers_eq] at hlast
  unfold TableBuffers.toArray
  rw [hsplit]
  simp only
  rw [hcopy]
  simp only [Option.bind_eq_bind, Option.bind_some]
  rw [copyItems_eq (h.last ▸ h.count) (by rw [List.length_append, hflat, hafter]), hlast]

/-! ## The whole sequence -/

variable (parseDouble : JString → Option D) (log : D → D) (applyLogTransform : Bool)

/-- The pieces leave their numbers in the buffers. -/
theorem holds_pieces (zero : D) (parts : List JString) {buffers : TableBuffers D}
    {numbers : List D} (h : buffers.Holds numbers) :
    ∃ filled, parts.foldlM (fun (buffers : TableBuffers D) p =>
        match readPiece parseDouble log applyLogTransform p with
        | some d => buffers.store zero d
        | none => some buffers) buffers = some filled ∧
      filled.Holds (numbers ++ parts.filterMap (readPiece parseDouble log applyLogTransform)) := by
  induction parts generalizing buffers numbers with
  | nil => exact ⟨buffers, rfl, by rwa [List.filterMap_nil, List.append_nil]⟩
  | cons p parts ih =>
      rw [List.foldlM_cons, List.filterMap_cons]
      cases readPiece parseDouble log applyLogTransform p with
      | none => exact ih h
      | some d =>
          obtain ⟨next, hstore, hnext⟩ := h.store zero d
          obtain ⟨filled, hrun, hfilled⟩ := ih hnext
          refine ⟨filled, ?_, ?_⟩
          · simp only
            rw [hstore]
            exact hrun
          · rw [List.append_assoc] at hfilled
            exact hfilled

theorem parseTableArray_eq (zero : D) (old : ℕ → D) (s : JString) :
    parseTableArray parseDouble log applyLogTransform zero old s =
      some ((splitSpaces s).filterMap (readPiece parseDouble log applyLogTransform)) := by
  obtain ⟨filled, hrun, hfilled⟩ := holds_pieces parseDouble log applyLogTransform zero
    (splitSpaces s) (TableBuffers.holds_new zero)
  unfold parseTableArray
  rw [hrun, Option.bind_eq_bind, Option.bind_some, hfilled.toArray old, List.nil_append]

/-- The parser takes the text for a number. -/
def IsNumber (token : JString) : Bool := (parseDouble (trim token)).isSome

theorem isSome_readPiece (token : JString) :
    (readPiece parseDouble log applyLogTransform token).isSome = IsNumber parseDouble token :=
  Option.isSome_map

/-- What a partial function collects, place by place. -/
theorem getElem?_filterMap {α β : Type} (f : α → Option β) (l : List α) (k : ℕ) :
    (l.filterMap f)[k]? = (l.filter fun a => (f a).isSome)[k]?.bind f := by
  induction l generalizing k with
  | nil => rfl
  | cons a l ih =>
      cases ha : f a with
      | none =>
          rw [List.filterMap_cons_none ha, List.filter_cons_of_neg (by simp [ha])]
          exact ih k
      | some b =>
          rw [List.filterMap_cons_some ha, List.filter_cons_of_pos (by simp [ha])]
          cases k with
          | zero => exact ha.symm
          | succ k => exact ih k

/-! ## Words -/

theorem filter_rdropWhile {α : Type} {p q : α → Bool} (h : ∀ a, p a → q a = false)
    (l : List α) : (l.rdropWhile p).filter q = l.filter q := by
  induction l using List.reverseRecOn with
  | nil => rfl
  | append_singleton l a ih =>
      rw [List.rdropWhile_concat]
      split
      · next ha =>
          rw [ih, List.filter_append, List.filter_cons_of_neg (by simp [h a ha])]
          simp
      · rfl

/-- Between the separators lies the rest of the text. -/
theorem flatten_splitOnP {α : Type} (p : α → Bool) (l : List α) :
    (l.splitOnP p).flatten = l.filter fun a => !p a := by
  induction l with
  | nil => rfl
  | cons a l ih =>
      rw [List.splitOnP_cons_eq_if_modifyHead]
      by_cases ha : p a
      · rw [if_pos ha, List.filter_cons_of_neg (by simp [ha])]
        exact ih
      · obtain ⟨w, ws, hw⟩ := List.exists_cons_of_ne_nil (List.splitOnP_ne_nil p l)
        rw [if_neg ha, List.filter_cons_of_pos (by simp [ha]), ← ih, hw]
        rfl

/-- Words have characters, so there are no more of them than characters. -/
theorem length_words_le (s : JString) : (words s).length ≤ s.length := by
  have hflat : (words s).flatten.length ≤ s.length := by
    have hnonempty : (words s).flatten = (s.splitOnP isSpace).flatten :=
      List.flatten_filter_not_isEmpty
    rw [hnonempty, flatten_splitOnP]
    exact List.length_filter_le ..
  have hword : ∀ w ∈ words s, 1 ≤ w.length := by
    intro w hw
    have hne := (List.mem_filter.mp hw).2
    cases w with
    | nil => exact absurd hne (by simp)
    | cons c w => exact Nat.succ_pos _
  calc (words s).length = ((words s).map List.length).length := (List.length_map ..).symm
    _ ≤ ((words s).map List.length).sum := List.length_le_sum_of_one_le _ fun n hn => by
        obtain ⟨w, hw, rfl⟩ := List.mem_map.mp hn
        exact hword w hw
    _ = (words s).flatten.length := List.length_flatten.symm
    _ ≤ s.length := hflat

/-- If the empty text is no number, the numbers among the pieces are those among the words. -/
theorem filter_splitSpaces (hempty : parseDouble [] = none) (s : JString) :
    (splitSpaces s).filter (IsNumber parseDouble) = (words s).filter (IsNumber parseDouble) := by
  have hnone : ∀ w : JString, w.isEmpty → IsNumber parseDouble w = false := by
    intro w hw
    have htrim : trim ([] : JString) = [] := rfl
    rw [List.isEmpty_iff.mp hw, IsNumber, htrim, hempty]
    rfl
  have hwords : (words s).filter (IsNumber parseDouble) =
      (s.splitOnP isSpace).filter (IsNumber parseDouble) := by
    unfold words
    rw [List.filter_filter]
    refine List.filter_congr fun w _ => ?_
    by_cases hw : w.isEmpty
    · rw [hnone w hw, Bool.false_and]
    · simp [hw]
  rw [hwords]
  unfold splitSpaces
  split
  · exact filter_rdropWhile hnone _
  · next hspace =>
      rw [List.splitOnP_eq_singleton fun c hc => ?_]
      simpa using fun h => hspace (List.any_eq_true.mpr ⟨c, hc, h⟩)

/-- **The whole sequence**: for every text, number parser and logarithm, and whatever is in the
array before, each read and write is within its array, and the array has the numbers of the text
in order, all of them.  The tokens are the pieces between two spaces; when the empty text is no
number, these are the words, and their count is bounded by the length of the text. -/
theorem parseTableArray_wholeSequence (zero : D) (old : ℕ → D) (s : JString) :
    ∃ array, parseTableArray parseDouble log applyLogTransform zero old s = some array ∧
      array.length = ((splitSpaces s).filter (IsNumber parseDouble)).length ∧
      (∀ (k : ℕ) (token : JString),
        ((splitSpaces s).filter (IsNumber parseDouble))[k]? = some token →
        ∃ d, parseDouble (trim token) = some d ∧
          array[k]? = some (if applyLogTransform then log d else d)) ∧
      (parseDouble [] = none →
        (splitSpaces s).filter (IsNumber parseDouble) = (words s).filter (IsNumber parseDouble) ∧
        array.length ≤ s.length) := by
  have hfilter : (splitSpaces s).filter (IsNumber parseDouble) =
      (splitSpaces s).filter fun token =>
        (readPiece parseDouble log applyLogTransform token).isSome :=
    List.filter_congr fun token _ => (isSome_readPiece parseDouble log applyLogTransform token).symm
  have hlength : ((splitSpaces s).filterMap (readPiece parseDouble log applyLogTransform)).length =
      ((splitSpaces s).filter (IsNumber parseDouble)).length := by
    rw [hfilter, List.length_filterMap_eq_countP, List.countP_eq_length_filter]
  refine ⟨_, parseTableArray_eq parseDouble log applyLogTransform zero old s, hlength, ?_, ?_⟩
  · intro k token htoken
    have hnumber : IsNumber parseDouble token :=
      (List.mem_filter.mp (List.mem_of_getElem? htoken)).2
    obtain ⟨d, hd⟩ := Option.isSome_iff_exists.mp hnumber
    refine ⟨d, hd, ?_⟩
    rw [getElem?_filterMap, ← hfilter, htoken, Option.bind_some, readPiece, hd]
    rfl
  · intro hempty
    have hwords := filter_splitSpaces parseDouble hempty s
    refine ⟨hwords, ?_⟩
    rw [hlength, hwords]
    exact (List.length_filter_le ..).trans (length_words_le s)

end Arrays

end JunctionBox.Xbif
