import JunctionBox.Foundations.PartialLoops

/-!
# Arrays of slots

An array is the list of its slots, and a slot that was not written since the
array was allocated is `none`.  Reading such a slot, reading past the end and
writing past the end fail.

`Row` is an array that remembers which of its places were written.  When values
are scattered over distinct places (`scatter_eq`), each of these places holds its
value afterwards, whatever the order of the writes.
-/

namespace JunctionBox.Slots

variable {V : Type*}

/-! ## Definitions -/

/-- An array that has just been allocated. -/
def alloc (n : ℕ) : List (Option V) := List.replicate n none

/-- Reading a slot. -/
def read (array : List (Option V)) (place : ℕ) : Option V := array[place]?.join

/-- Writing a slot. -/
def write (array : List (Option V)) (place : ℕ) (value : V) : Option (List (Option V)) :=
  if place < array.length then some (array.set place (some value)) else none

/-- An array with the places that were written, the last one first. -/
structure Row (V : Type*) where
  slots : List (Option V)
  written : List ℕ

namespace Row

/-- A row that has just been allocated. -/
def alloc (n : ℕ) : Row V := ⟨Slots.alloc n, []⟩

/-- Writing a slot of a row. -/
def write (row : Row V) (place : ℕ) (value : V) : Option (Row V) := do
  return ⟨← Slots.write row.slots place value, place :: row.written⟩

/-- Writing a value to each of some places. -/
def scatter (row : Row V) (writes : List (ℕ × V)) : Option (Row V) :=
  writes.foldlM (fun row w => row.write w.1 w.2) row

end Row

/-- The slots after these writes. -/
def setAll (array : List (Option V)) (writes : List (ℕ × V)) : List (Option V) :=
  writes.foldl (fun array w => array.set w.1 (some w.2)) array

/-! ## The slot after a part of an array -/

variable {array : List (Option V)}

theorem read_append_cons (before : List (Option V)) (value : V) (rest : List (Option V)) :
    read (before ++ some value :: rest) before.length = some value := by
  simp [read]

theorem write_append_cons (before : List (Option V)) (slot : Option V) (rest : List (Option V))
    (value : V) : write (before ++ slot :: rest) before.length value =
      some (before ++ some value :: rest) := by
  simp [write]

theorem read_map_some (values : List V) (place : ℕ) :
    read (values.map some) place = values[place]? := by
  rw [read, List.getElem?_map]
  cases values[place]? <;> rfl

/-- An array whose slots are all written. -/
theorem exists_values (h : ∀ place < array.length, ∃ value, read array place = some value) :
    ∃ values : List V, array = values.map some := by
  induction array with
  | nil => exact ⟨[], rfl⟩
  | cons slot array ih =>
      obtain ⟨value, hvalue⟩ := h 0 (Nat.zero_lt_succ _)
      obtain ⟨values, rfl⟩ := ih fun place hplace => by
        simpa [read] using h (place + 1) (Nat.succ_lt_succ hplace)
      have hslot : slot = some value := by simpa [read] using hvalue
      exact ⟨value :: values, by rw [hslot, List.map_cons]⟩

/-! ## Scattered writes -/

@[simp] theorem length_setAll (array : List (Option V)) (writes : List (ℕ × V)) :
    (setAll array writes).length = array.length := by
  induction writes generalizing array with
  | nil => rfl
  | cons w writes ih =>
      rw [setAll, List.foldl_cons]
      exact (ih _).trans (List.length_set ..)

theorem read_setAll_of_notMem {writes : List (ℕ × V)} {place : ℕ}
    (h : place ∉ writes.map Prod.fst) : read (setAll array writes) place = read array place := by
  induction writes generalizing array with
  | nil => rfl
  | cons w writes ih =>
      rw [List.map_cons, List.mem_cons, not_or] at h
      rw [setAll, List.foldl_cons]
      refine (ih h.2).trans ?_
      rw [read, read, List.getElem?_set_ne (Ne.symm h.1)]

/-- Of writes to distinct places none undoes another. -/
theorem read_setAll {writes : List (ℕ × V)} (hnodup : (writes.map Prod.fst).Nodup)
    {place : ℕ} {value : V} (hmem : (place, value) ∈ writes) (hplace : place < array.length) :
    read (setAll array writes) place = some value := by
  induction writes generalizing array with
  | nil => exact absurd hmem List.not_mem_nil
  | cons w writes ih =>
      rw [List.map_cons, List.nodup_cons] at hnodup
      rw [setAll, List.foldl_cons]
      rcases List.mem_cons.mp hmem with rfl | hmem
      · refine (read_setAll_of_notMem hnodup.1).trans ?_
        rw [read, List.getElem?_set_self hplace]
        rfl
      · exact ih hnodup.2 hmem (by rwa [List.length_set])

namespace Row

/-- Writes inside a row succeed, and the row remembers them. -/
theorem scatter_eq {row : Row V} {writes : List (ℕ × V)}
    (h : ∀ w ∈ writes, w.1 < row.slots.length) :
    row.scatter writes =
      some ⟨setAll row.slots writes, (writes.map Prod.fst).reverse ++ row.written⟩ := by
  induction writes generalizing row with
  | nil => rfl
  | cons w writes ih =>
      have hwrite : row.write w.1 w.2 =
          some ⟨row.slots.set w.1 (some w.2), w.1 :: row.written⟩ := by
        rw [Row.write, Slots.write, if_pos (h w (List.mem_cons_self ..))]
        rfl
      have hinside : ∀ w' ∈ writes, w'.1 < (row.slots.set w.1 (some w.2)).length := by
        intro w' hw'
        rw [List.length_set]
        exact h w' (List.mem_cons_of_mem _ hw')
      rw [scatter, List.foldlM_cons, hwrite]
      refine (ih hinside).trans ?_
      simp [setAll]

theorem scatter_append (row : Row V) (writes writes' : List (ℕ × V)) :
    row.scatter (writes ++ writes') = (row.scatter writes).bind fun row => row.scatter writes' :=
  PartialLoops.foldlM_append writes writes' row

end Row

end JunctionBox.Slots
