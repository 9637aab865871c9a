import JunctionBox.Foundations.CInt
import JunctionBox.Foundations.PartialLoops

/-!
# C strings in buffers

A buffer is the list of the characters in it.  The string at its start ends at
the first NUL; who looks for the end of a string in a buffer without NUL leaves
the buffer, so there is no string (`content`).  Writes are checked: a run that
writes past the end of a buffer is `none`.

Strings are built by appending piece by piece.  `Appends` says what a step, a
sequence of steps or a loop does to the string in a buffer and when it stays
inside.  A step that appends builds its piece exactly if it starts from the empty
string and the buffer is longer than the piece (`Appends.bind_content_iff`).

The size of a fresh buffer is a `size_t`, often computed as an `int`; the last
section says for which texts the size is right.
-/

namespace JunctionBox.CStrings

/-! ## Definitions -/

/-- The terminator. -/
def nul : Char := '\x00'

/-- The string at the start of a buffer; `none` where it has no end there. -/
def content : List Char → Option (List Char)
  | [] => none
  | c :: rest => if c = nul then some [] else (content rest).map fun text => c :: text

/-- Writing characters to places in a row. -/
def write : List Char → ℕ → List Char → Option (List Char)
  | dest, _, [] => some dest
  | dest, place, c :: text =>
      if place < dest.length then write (dest.set place c) (place + 1) text else none

/-- `strlen`. -/
def strlen (s : List Char) : Option ℕ := (content s).map List.length

/-- `strcpy`. -/
def strcpy (dest src : List Char) : Option (List Char) := do
  write dest 0 ((← content src) ++ [nul])

/-- `strcat`. -/
def strcat (dest src : List Char) : Option (List Char) := do
  write dest (← strlen dest) ((← content src) ++ [nul])

/-- `sprintf`; the pieces are the arguments of `%s` and the texts between them. -/
def sprintf (dest : List Char) (pieces : List (List Char)) : Option (List Char) := do
  write dest 0 ((← pieces.mapM content).flatten ++ [nul])

/-- The array of a string. -/
def terminated (text : List Char) : List Char := text ++ [nul]

/-- `PTRDIFF_MAX`, the size of the largest object. -/
def ptrdiffMax : ℕ := 2 ^ 63 - 1

/-- `malloc`: a block of `amt` characters, whatever they were before. -/
def malloc (former : ℕ → Char) (amt : ℕ) : Option (List Char) :=
  if amt ≤ ptrdiffMax then some ((List.range amt).map former) else none

/-- The conversion to `size_t`. -/
def sizeT (x : ℤ) : ℕ := (x % 2 ^ 64).toNat

/-! ## Reading and writing -/

variable {dest src text piece : List Char}

theorem content_append (h : nul ∉ text) (rest : List Char) :
    content (text ++ nul :: rest) = some text := by
  induction text with
  | nil => simp [content]
  | cons c text ih =>
      rw [List.mem_cons, not_or] at h
      rw [List.cons_append, content, if_neg (Ne.symm h.1), ih h.2]
      rfl

theorem content_terminated (h : nul ∉ text) : content (terminated text) = some text :=
  content_append h []

/-- A string in a buffer, its terminator, and whatever comes after. -/
theorem exists_rest (h : content dest = some text) :
    nul ∉ text ∧ ∃ rest, dest = text ++ nul :: rest := by
  induction dest generalizing text with
  | nil => exact absurd h (by simp [content])
  | cons c dest ih =>
      rw [content] at h
      split at h
      · next hc =>
          obtain rfl := Option.some.inj h
          exact ⟨List.not_mem_nil, dest, by rw [hc, List.nil_append]⟩
      · next hc =>
          obtain ⟨text', htext, rfl⟩ := Option.map_eq_some_iff.mp h
          obtain ⟨hnul, rest, rfl⟩ := ih htext
          refine ⟨fun hmem => ?_, rest, rfl⟩
          rcases List.mem_cons.mp hmem with heq | hmem
          · exact hc heq.symm
          · exact hnul hmem

theorem length_lt_of_content (h : content dest = some text) : text.length < dest.length := by
  obtain ⟨-, rest, rfl⟩ := exists_rest h
  rw [List.length_append, List.length_cons]
  omega

theorem strlen_terminated (h : nul ∉ text) : strlen (terminated text) = some text.length := by
  rw [strlen, content_terminated h]
  rfl

theorem length_write {place : ℕ} {dest' : List Char} (h : write dest place text = some dest') :
    dest'.length = dest.length := by
  induction text generalizing dest place with
  | nil => rw [Option.some.inj h]
  | cons c text ih =>
      rw [write] at h
      split at h
      · rw [ih h, List.length_set]
      · exact absurd h (by simp)

/-- Writing over what follows a part of a buffer. -/
theorem write_append (before room rest : List Char) (hroom : room.length = text.length) :
    write (before ++ room ++ rest) before.length text = some (before ++ text ++ rest) := by
  induction text generalizing before room with
  | nil => rw [write, List.length_eq_zero_iff.mp hroom]
  | cons c text ih =>
      obtain ⟨d, room, rfl⟩ := List.exists_of_length_succ room hroom
      have hlt : before.length < (before ++ d :: room ++ rest).length := by
        simp only [List.length_append, List.length_cons]
        omega
      have hset : (before ++ d :: room ++ rest).set before.length c =
          (before ++ [c]) ++ room ++ rest := by simp
      have hstep := ih (before ++ [c]) room (Nat.succ.inj hroom)
      rw [List.length_append, List.length_singleton] at hstep
      rw [write, if_pos hlt, hset, hstep]
      simp

theorem write_eq_none {place : ℕ} (hne : text ≠ []) (h : dest.length < place + text.length) :
    write dest place text = none := by
  induction text generalizing dest place with
  | nil => exact absurd rfl hne
  | cons c text ih =>
      rw [write]
      split
      · next hlt =>
          rw [List.length_cons] at h
          apply ih
          · rintro rfl
            rw [List.length_nil] at h
            omega
          · rw [List.length_set]
            omega
      · rfl

/-! ## Appending -/

/-- A step that appends `piece` to the string in a buffer if the buffer is long enough, and leaves
the buffer if it is not. -/
structure Appends (step : List Char → Option (List Char)) (piece : List Char) : Prop where
  content_eq : ∀ {dest dest' text}, content dest = some text → step dest = some dest' →
    content dest' = some (text ++ piece)
  length_eq : ∀ {dest dest'}, step dest = some dest' → dest'.length = dest.length
  isSome_iff : ∀ {dest text}, content dest = some text →
    ((step dest).isSome ↔ text.length + piece.length < dest.length)
  unterminated : ∀ {dest}, content dest = none → (step dest).bind content = none

theorem strcat_eq_write (hdest : content dest = some text) (hsrc : content src = some piece) :
    strcat dest src = write dest text.length (piece ++ [nul]) := by
  simp only [strcat, strlen, hdest, hsrc, Option.map_some, Option.bind_eq_bind, Option.bind_some]

theorem strcat_eq_none (hdest : content dest = some text) (hsrc : content src = some piece)
    (hle : dest.length ≤ text.length + piece.length) : strcat dest src = none := by
  rw [strcat_eq_write hdest hsrc]
  refine write_eq_none (List.append_ne_nil_of_right_ne_nil _ (List.cons_ne_nil _ _)) ?_
  rw [List.length_append, List.length_singleton]
  omega

/-- Where there is room, the string and what is appended are followed by the terminator. -/
theorem exists_strcat (hdest : content dest = some text) (hsrc : content src = some piece)
    (hlt : text.length + piece.length < dest.length) :
    ∃ rest, strcat dest src = some (text ++ piece ++ nul :: rest) := by
  rw [strcat_eq_write hdest hsrc]
  obtain ⟨-, after, rfl⟩ := exists_rest hdest
  rw [List.length_append, List.length_cons] at hlt
  refine ⟨(nul :: after).drop (piece.length + 1), ?_⟩
  have hroom : ((nul :: after).take (piece.length + 1)).length = (piece ++ [nul]).length := by
    rw [List.length_take_of_le, List.length_append, List.length_singleton]
    rw [List.length_cons]
    omega
  have hwrite := write_append text _ ((nul :: after).drop (piece.length + 1)) hroom
  rw [List.append_assoc, List.take_append_drop] at hwrite
  rw [hwrite]
  simp

theorem appends_strcat (h : content src = some piece) :
    Appends (fun dest => strcat dest src) piece := by
  refine ⟨fun {dest dest' text} hdest hrun => ?_, fun {dest dest'} hrun => ?_,
    fun {dest text} hdest => ⟨fun hsome => ?_, fun hlt => ?_⟩, fun {dest} hnone => ?_⟩
  · have hlt : text.length + piece.length < dest.length := by
      by_contra hle
      rw [strcat_eq_none hdest h (not_lt.mp hle)] at hrun
      exact absurd hrun (by simp)
    obtain ⟨rest, hrun'⟩ := exists_strcat hdest h hlt
    rw [hrun] at hrun'
    obtain rfl := Option.some.inj hrun'
    refine content_append (fun hmem => ?_) rest
    rcases List.mem_append.mp hmem with hmem | hmem
    · exact (exists_rest hdest).1 hmem
    · exact (exists_rest h).1 hmem
  · cases hdest : content dest with
    | none => simp [strcat, strlen, hdest] at hrun
    | some text =>
        rw [strcat_eq_write hdest h] at hrun
        exact length_write hrun
  · by_contra hle
    rw [strcat_eq_none hdest h (not_lt.mp hle)] at hsome
    exact absurd hsome (by simp)
  · obtain ⟨rest, hrun⟩ := exists_strcat hdest h hlt
    rw [hrun]
    rfl
  · simp [strcat, strlen, hnone]

/-- Nothing is appended by doing nothing. -/
theorem appends_some : Appends some [] where
  content_eq hdest hrun := by
    obtain rfl := Option.some.inj hrun
    rw [hdest, List.append_nil]
  length_eq hrun := by rw [Option.some.inj hrun]
  isSome_iff hdest := by simpa using length_lt_of_content hdest
  unterminated hnone := hnone

/-- One step after another. -/
theorem Appends.bind {step step' : List Char → Option (List Char)} {piece' : List Char}
    (h : Appends step piece) (h' : Appends step' piece') :
    Appends (fun dest => (step dest).bind step') (piece ++ piece') := by
  refine ⟨fun {dest dest' text} hdest hrun => ?_, fun {dest dest'} hrun => ?_,
    fun {dest text} hdest => ?_, fun {dest} hnone => ?_⟩
  · obtain ⟨mid, hmid, hrun⟩ := Option.bind_eq_some_iff.mp hrun
    rw [h'.content_eq (h.content_eq hdest hmid) hrun, List.append_assoc]
  · obtain ⟨mid, hmid, hrun⟩ := Option.bind_eq_some_iff.mp hrun
    rw [h'.length_eq hrun, h.length_eq hmid]
  · rw [List.length_append]
    cases hmid : step dest with
    | none =>
        have hle := (h.isSome_iff hdest).not.mp (by rw [hmid]; exact Bool.false_ne_true)
        simp only [Option.bind_none, Option.isSome_none, Bool.false_eq_true, false_iff]
        omega
    | some mid =>
        have hmidtext := h.content_eq hdest hmid
        have hlength := h.length_eq hmid
        rw [Option.bind_some, h'.isSome_iff hmidtext, List.length_append, hlength]
        omega
  · cases hmid : step dest with
    | none => rfl
    | some mid =>
        have hmidnone := h.unterminated hnone
        rw [hmid, Option.bind_some] at hmidnone
        exact h'.unterminated hmidnone

/-- A loop whose rounds append. -/
theorem appends_foldlM {α : Type*} {items : List α} {round : α → List Char → Option (List Char)}
    {g : α → List Char} (h : ∀ a ∈ items, Appends (round a) (g a)) :
    Appends (fun dest => items.foldlM (fun dest a => round a dest) dest) (items.flatMap g) := by
  induction items with
  | nil => exact appends_some
  | cons a items ih =>
      have hstep := (h a (List.mem_cons_self ..)).bind
        (ih fun b hb => h b (List.mem_cons_of_mem _ hb))
      simp only [List.foldlM_cons, List.flatMap_cons]
      exact hstep

/-- **What a step that appends builds**: its piece, if and only if it starts from the empty string
and the buffer is longer than the piece. -/
theorem Appends.bind_content_iff {step : List Char → Option (List Char)} (h : Appends step piece) :
    (step dest).bind content = some piece ↔
      content dest = some [] ∧ piece.length < dest.length := by
  cases hdest : content dest with
  | none =>
      rw [h.unterminated hdest]
      simp
  | some text =>
      have hsome := h.isSome_iff hdest
      cases hrun : step dest with
      | none =>
          rw [hrun, Option.isSome_none] at hsome
          have hle := hsome.not.mp Bool.false_ne_true
          simp only [Option.bind_none, reduceCtorEq, Option.some.injEq, false_iff, not_and]
          rintro rfl
          simpa using hle
      | some dest' =>
          rw [hrun] at hsome
          have hlt := hsome.mp rfl
          rw [Option.bind_some, h.content_eq hdest hrun, Option.some.injEq, Option.some.injEq]
          constructor
          · intro heq
            have hnil : text = [] := List.append_left_eq_self.mp heq
            exact ⟨hnil, by rw [hnil, List.length_nil] at hlt; omega⟩
          · rintro ⟨rfl, -⟩
            rfl

/-! ## Fresh buffers -/

/-- Writing the terminator at the start of a fresh buffer makes it an empty string. -/
theorem content_write_nul {amt : ℕ} (former : ℕ → Char) (h : 0 < amt) :
    ∃ dest, write ((List.range amt).map former) 0 [nul] = some dest ∧ content dest = some [] ∧
      dest.length = amt := by
  obtain ⟨n, rfl⟩ : ∃ n, amt = n + 1 := ⟨amt - 1, by omega⟩
  rw [List.range_succ_eq_map, List.map_cons]
  refine ⟨_, rfl, rfl, ?_⟩
  simp

theorem content_malloc_eq_nil_iff {amt : ℕ} {former : ℕ → Char} :
    content ((List.range amt).map former) = some [] ↔ former 0 = nul ∧ 0 < amt := by
  cases amt with
  | zero => simp [content]
  | succ n =>
      rw [List.range_succ_eq_map, List.map_cons, content]
      split
      · next h => simp [h]
      · next h => simp [h]

section Fresh

variable {step : List Char → Option (List Char)} {amt : ℕ} {former : ℕ → Char}

/-- A string built in a fresh buffer that is made empty first. -/
theorem Appends.fresh_iff (h : Appends step piece) :
    ((malloc former amt).bind fun ret => (write ret 0 [nul]).bind step).bind content = some piece ↔
      piece.length < amt ∧ amt ≤ ptrdiffMax := by
  unfold malloc
  by_cases hmax : amt ≤ ptrdiffMax
  · rw [if_pos hmax, Option.bind_some, and_iff_left hmax]
    rcases Nat.eq_zero_or_pos amt with rfl | hpos
    · simp [write]
    · obtain ⟨dest, hwrite, hcontent, hlength⟩ := content_write_nul former hpos
      rw [hwrite, Option.bind_some, h.bind_content_iff, hcontent, hlength, and_iff_right rfl]
  · rw [if_neg hmax]
    simp [hmax]

/-- Whatever is built there is the piece. -/
theorem Appends.content_fresh (h : Appends step piece) {ret : List Char}
    (hrun : ((malloc former amt).bind fun ret => (write ret 0 [nul]).bind step) = some ret) :
    content ret = some piece := by
  obtain ⟨block, hblock, hbuild⟩ := Option.bind_eq_some_iff.mp hrun
  obtain ⟨dest, hwrite, hstep⟩ := Option.bind_eq_some_iff.mp hbuild
  obtain ⟨-, hblock⟩ := Option.ite_none_right_eq_some.mp hblock
  obtain rfl := Option.some.inj hblock
  rcases Nat.eq_zero_or_pos amt with rfl | hpos
  · simp [write] at hwrite
  · obtain ⟨dest', hwrite', hcontent, -⟩ := content_write_nul former hpos
    obtain rfl := Option.some.inj (hwrite.symm.trans hwrite')
    exact h.content_eq hcontent hstep

/-- A string built in a fresh buffer as it is. -/
theorem Appends.uninitialised_iff (h : Appends step piece) :
    ((malloc former amt).bind step).bind content = some piece ↔
      former 0 = nul ∧ piece.length < amt ∧ amt ≤ ptrdiffMax := by
  unfold malloc
  by_cases hmax : amt ≤ ptrdiffMax
  · rw [if_pos hmax, Option.bind_some, h.bind_content_iff, content_malloc_eq_nil_iff,
      List.length_map, List.length_range, and_iff_left hmax, and_assoc]
    refine and_congr_right fun _ => and_iff_right_of_imp fun hlt => ?_
    exact Nat.zero_lt_of_lt hlt
  · rw [if_neg hmax]
    simp [hmax]

end Fresh

/-! ## Sizes -/

theorem sizeT_natCast_le (n : ℕ) : sizeT n ≤ n := by
  unfold sizeT
  norm_num
  omega

/-- A size with room for `n` characters and a terminator, counted as a `size_t`. -/
theorem sizeT_fits_iff (n : ℕ) :
    (n < sizeT ((n + 1 : ℕ) : ℤ) ∧ sizeT ((n + 1 : ℕ) : ℤ) ≤ ptrdiffMax) ↔ n < ptrdiffMax := by
  unfold sizeT ptrdiffMax
  norm_num
  omega

/-- The same, with the characters counted as an `int`. -/
theorem sizeT_wrap_add_one_fits_iff (n : ℕ) :
    (n < sizeT (CInt.wrap n + 1) ∧ sizeT (CInt.wrap n + 1) ≤ ptrdiffMax) ↔ n < 2 ^ 31 := by
  unfold sizeT ptrdiffMax CInt.wrap
  rw [Int.bmod_def]
  norm_num
  omega

/-- The same, with the terminator counted as well. -/
theorem sizeT_wrap_fits_iff (n : ℕ) :
    (n < sizeT (CInt.wrap ((n + 1 : ℕ) : ℤ)) ∧
      sizeT (CInt.wrap ((n + 1 : ℕ) : ℤ)) ≤ ptrdiffMax) ↔ n + 1 < 2 ^ 31 := by
  unfold sizeT ptrdiffMax CInt.wrap
  rw [Int.bmod_def]
  norm_num
  omega

/-- Counting the terminator after the characters. -/
theorem wrap_add_one (n : ℕ) :
    CInt.wrap (CInt.wrap n + 1) = CInt.wrap ((n + 1 : ℕ) : ℤ) := by
  rw [CInt.wrap, CInt.wrap, Int.bmod_add_bmod, Nat.cast_add, Nat.cast_one]
  rfl

/-- A first pass that adds up the lengths of all pieces in an `int`, each with `extra` more. -/
theorem foldlM_length_from {α : Type*} {items : List α} {f g : α → List Char} (extra start : ℕ)
    (h : ∀ a ∈ items, content (f a) = some (g a)) :
    items.foldlM (fun (length : ℤ) a => do
        return CInt.wrap (length + (((← strlen (f a)) + extra : ℕ) : ℤ))) (CInt.wrap start) =
      some (CInt.wrap ((start + (items.map fun a => (g a).length + extra).sum : ℕ) : ℤ)) := by
  induction items generalizing start with
  | nil => rfl
  | cons a items ih =>
      have hstrlen : strlen (f a) = some (g a).length := by
        rw [strlen, h a (List.mem_cons_self ..)]
        rfl
      have hadd : CInt.wrap (CInt.wrap start + (((g a).length + extra : ℕ) : ℤ)) =
          CInt.wrap ((start + ((g a).length + extra) : ℕ) : ℤ) := by
        rw [CInt.wrap, CInt.wrap, Int.bmod_add_bmod, Nat.cast_add start]
        rfl
      have hrest := ih (start + ((g a).length + extra)) fun b hb =>
        h b (List.mem_cons_of_mem _ hb)
      rw [List.foldlM_cons]
      simp only [Option.bind_eq_bind, Option.pure_def] at hrest ⊢
      rw [hstrlen, Option.bind_some, Option.bind_some, hadd, hrest, List.map_cons, List.sum_cons,
        Nat.add_assoc]

/-- The whole first pass. -/
theorem foldlM_length {α : Type*} {items : List α} {f g : α → List Char} (extra : ℕ)
    (h : ∀ a ∈ items, content (f a) = some (g a)) :
    items.foldlM (fun (length : ℤ) a => do
        return CInt.wrap (length + (((← strlen (f a)) + extra : ℕ) : ℤ))) 0 =
      some (CInt.wrap (((items.map fun a => (g a).length + extra).sum : ℕ) : ℤ)) := by
  have hrun := foldlM_length_from extra 0 h
  rw [Nat.zero_add] at hrun
  exact hrun

end JunctionBox.CStrings
