import Mathlib.Data.List.Basic

/-!
# Blocks

A memory of blocks that are allocated, read, written and freed by address.  No
address is handed out twice, and a block that was freed stays dead: it can be
neither read nor written nor freed again.  What an operation does to one block
it leaves all others out of (`load_alloc_of_ne`, `load_put_of_ne`), and the
number of live blocks counts what has been allocated and not freed.
-/

namespace JunctionBox

/-- Blocks by address, `none` where the block has been freed. -/
structure Blocks (β : Type) where
  cells : List (Option β)

namespace Blocks

variable {β : Type} {h h' : Blocks β} {p q : ℕ} {b c : β}

/-- What a live block holds. -/
def load (h : Blocks β) (p : ℕ) : Option β := h.cells[p]?.join

/-- A new block and its address. -/
def alloc (h : Blocks β) (b : β) : ℕ × Blocks β := (h.cells.length, ⟨h.cells ++ [some b]⟩)

/-- Changes a live block. -/
def put (h : Blocks β) (p : ℕ) (c : Option β) : Option (Blocks β) :=
  if (h.load p).isSome then some ⟨h.cells.set p c⟩ else none

/-- Writes to a live block. -/
def store (h : Blocks β) (p : ℕ) (b : β) : Option (Blocks β) := h.put p (some b)

/-- Frees a live block. -/
def free (h : Blocks β) (p : ℕ) : Option (Blocks β) := h.put p none

/-- The addresses handed out so far are those below. -/
def size (h : Blocks β) : ℕ := h.cells.length

/-- The number of live blocks. -/
def live (h : Blocks β) : ℕ := h.cells.countP Option.isSome

/-! ## Allocation -/

theorem fst_alloc (h : Blocks β) (b : β) : (h.alloc b).1 = h.size := rfl

theorem size_alloc (h : Blocks β) (b : β) : (h.alloc b).2.size = h.size + 1 :=
  List.length_append

theorem lt_size_of_load (hp : h.load p = some b) : p < h.size := by
  by_contra hge
  rw [load, List.getElem?_eq_none (Nat.le_of_not_lt hge)] at hp
  cases hp

theorem load_alloc_self (h : Blocks β) (b : β) : (h.alloc b).2.load (h.alloc b).1 = some b := by
  simp [load, alloc]

theorem load_alloc_of_ne (hne : p ≠ (h.alloc b).1) : (h.alloc b).2.load p = h.load p := by
  rcases Nat.lt_or_ge p h.cells.length with hlt | hge
  · simp [load, alloc, List.getElem?_append_left hlt]
  · have hgt : h.cells.length < p := Nat.lt_of_le_of_ne hge (Ne.symm hne)
    have hlen : (h.cells ++ [some b]).length ≤ p := by
      rw [List.length_append, List.length_singleton]
      omega
    rw [load, load, alloc, List.getElem?_eq_none hlen, List.getElem?_eq_none hge]

theorem ne_alloc_of_load (hp : h.load p = some c) : p ≠ (h.alloc b).1 :=
  Nat.ne_of_lt (lt_size_of_load hp)

/-- An allocation leaves the live blocks as they are. -/
theorem load_alloc (hp : h.load p = some c) : (h.alloc b).2.load p = some c :=
  (load_alloc_of_ne (ne_alloc_of_load hp)).trans hp

theorem live_alloc (h : Blocks β) (b : β) : (h.alloc b).2.live = h.live + 1 := by
  simp [live, alloc]

/-! ## Writing and freeing -/

theorem put_eq_none {c : Option β} (hp : h.load p = none) : h.put p c = none := by
  simp [put, hp]

theorem exists_put (hp : h.load p = some b) (c : Option β) : ∃ h', h.put p c = some h' :=
  ⟨⟨h.cells.set p c⟩, by simp [put, hp]⟩

/-- What a change of a block needs and leaves. -/
theorem put_cases {c : Option β} (hrun : h.put p c = some h') :
    (∃ b, h.load p = some b) ∧ h' = ⟨h.cells.set p c⟩ := by
  unfold put at hrun
  split at hrun
  · next hlive => exact ⟨Option.isSome_iff_exists.mp hlive, (Option.some.inj hrun).symm⟩
  · cases hrun

theorem load_put_self {c : Option β} (hrun : h.put p c = some h') : h'.load p = c := by
  obtain ⟨⟨b, hb⟩, rfl⟩ := put_cases hrun
  have hlt : p < h.cells.length := lt_size_of_load hb
  simp [load, hlt]

theorem load_put_of_ne {c : Option β} (hrun : h.put p c = some h') (hne : q ≠ p) :
    h'.load q = h.load q := by
  obtain ⟨-, rfl⟩ := put_cases hrun
  simp [load, List.getElem?_set_ne (Ne.symm hne)]

theorem size_put {c : Option β} (hrun : h.put p c = some h') : h'.size = h.size := by
  obtain ⟨-, rfl⟩ := put_cases hrun
  simp [size]

theorem getElem_of_load (hp : h.load p = some b) :
    ∃ hlt : p < h.cells.length, h.cells[p] = some b := by
  refine ⟨lt_size_of_load hp, ?_⟩
  rw [load, List.getElem?_eq_getElem (lt_size_of_load hp)] at hp
  exact hp

theorem live_put {c : Option β} (hrun : h.put p c = some h') :
    h'.live + 1 = h.live + if c.isSome then 1 else 0 := by
  obtain ⟨⟨b, hb⟩, rfl⟩ := put_cases hrun
  obtain ⟨hlt, hget⟩ := getElem_of_load hb
  have hpos : 0 < h.cells.countP Option.isSome :=
    List.countP_pos_iff.mpr ⟨some b, hget ▸ List.getElem_mem hlt, rfl⟩
  simp only [live, List.countP_set hlt, hget, Option.isSome_some, if_true]
  omega

theorem live_free (hrun : h.free p = some h') : h'.live + 1 = h.live := by
  simpa using live_put hrun

theorem live_store (hrun : h.store p c = some h') : h'.live = h.live := by
  simpa using live_put hrun

end Blocks

end JunctionBox
