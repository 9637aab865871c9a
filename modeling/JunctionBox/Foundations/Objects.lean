import Mathlib.Data.List.Basic
import Mathlib.Logic.Function.Basic

/-!
# Objects behind references

A program makes objects of one class, works on the one it made last and puts
references to it into a map.  An object that is in the map can still be changed:
`contents` reads the map as the objects are by then.

An object that has been made but not put is `Unlisted`; changing it leaves the
contents as they are (`contents_assign`).
-/

namespace JunctionBox

/-- The objects made so far, the reference to the one that is worked on and a map of references.
References are positions, and only a program that has made no object has no object to work on. -/
@[ext]
structure Objects (κ β : Type) where
  heap : List β
  current : Option ℕ
  map : κ → Option ℕ
  current_lt : ∀ i, current = some i → i < heap.length
  map_lt : ∀ key i, map key = some i → i < heap.length
  heap_nil : current = none → heap = []

namespace Objects

variable {κ β : Type}

/-- No object, and a new map. -/
def empty (κ β : Type) : Objects κ β where
  heap := []
  current := none
  map := fun _ => none
  current_lt := fun _ h => absurd h.symm (Option.some_ne_none _)
  map_lt := fun _ _ h => absurd h.symm (Option.some_ne_none _)
  heap_nil := fun _ => rfl

/-- A new object to work on. -/
def create (this : Objects κ β) (b : β) : Objects κ β where
  heap := this.heap ++ [b]
  current := some this.heap.length
  map := this.map
  current_lt := fun i h => by simp [← Option.some.inj h]
  map_lt := fun key i h => by simpa using Nat.lt_succ_of_lt (this.map_lt key i h)
  heap_nil := fun h => absurd h (Option.some_ne_none _)

/-- The object that is worked on. -/
def object (this : Objects κ β) : Option β := this.current.bind (this.heap[·]?)

/-- The fields of the object that is worked on become those of `b`. -/
def assign (this : Objects κ β) (b : β) : Objects κ β where
  heap := this.current.elim this.heap fun i => this.heap.set i b
  current := this.current
  map := this.map
  current_lt := fun i h => by simpa [h] using this.current_lt i h
  map_lt := fun key i h => by cases this.current <;> simpa using this.map_lt key i h
  heap_nil := fun h => by simpa [h] using this.heap_nil h

/-- The object that is worked on enters the map. -/
def put [DecidableEq κ] (this : Objects κ β) (key : κ) : Objects κ β where
  heap := this.heap
  current := this.current
  map := Function.update this.map key this.current
  current_lt := this.current_lt
  map_lt := fun other i h => by
    by_cases heq : other = key
    · subst heq
      exact this.current_lt i (by simpa using h)
    · exact this.map_lt other i (by simpa [heq] using h)
  heap_nil := this.heap_nil

/-- A new map; the objects stay. -/
def clear (this : Objects κ β) : Objects κ β where
  heap := this.heap
  current := this.current
  map := fun _ => none
  current_lt := this.current_lt
  map_lt := fun _ _ h => absurd h.symm (Option.some_ne_none _)
  heap_nil := this.heap_nil

/-- The objects in the map, as they are now. -/
def contents (this : Objects κ β) (key : κ) : Option β := (this.map key).bind (this.heap[·]?)

/-- The object that is worked on is not in the map. -/
def Unlisted (this : Objects κ β) : Prop := ∀ key i, this.map key = some i → this.current ≠ some i

/-! ## The object that is worked on -/

@[simp] theorem object_empty : (empty κ β).object = none := rfl

@[simp] theorem object_create (this : Objects κ β) (b : β) : (this.create b).object = some b := by
  simp [object, create]

@[simp] theorem object_clear (this : Objects κ β) : this.clear.object = this.object := rfl

@[simp] theorem object_put [DecidableEq κ] (this : Objects κ β) (key : κ) :
    (this.put key).object = this.object := rfl

theorem object_eq_none_iff (this : Objects κ β) : this.object = none ↔ this.current = none := by
  cases hcurrent : this.current with
  | none => simp [object, hcurrent]
  | some i => simp [object, hcurrent, List.getElem?_eq_getElem (this.current_lt i hcurrent)]

theorem object_assign {this : Objects κ β} {a : β} (h : this.object = some a) (b : β) :
    (this.assign b).object = some b := by
  obtain ⟨i, hi, -⟩ := Option.bind_eq_some_iff.mp h
  simp [object, assign, hi, List.getElem?_set_self (this.current_lt i hi)]

theorem object_assign_eq_none_iff (this : Objects κ β) (b : β) :
    (this.assign b).object = none ↔ this.object = none := by
  rw [object_eq_none_iff, object_eq_none_iff]
  rfl

/-! ## The contents of the map -/

@[simp] theorem contents_empty : (empty κ β).contents = fun _ => none := rfl

@[simp] theorem contents_clear (this : Objects κ β) : this.clear.contents = fun _ => none := rfl

@[simp] theorem contents_create (this : Objects κ β) (b : β) :
    (this.create b).contents = this.contents := by
  funext key
  simp only [contents, create]
  cases h : this.map key with
  | none => rfl
  | some i => exact List.getElem?_append_left (this.map_lt key i h)

theorem contents_assign {this : Objects κ β} (h : this.Unlisted) (b : β) :
    (this.assign b).contents = this.contents := by
  funext key
  simp only [contents, assign]
  cases hkey : this.map key with
  | none => rfl
  | some i =>
      cases hcurrent : this.current with
      | none => rfl
      | some j =>
          have hne : j ≠ i := fun heq => h key i hkey (hcurrent.trans (congrArg some heq))
          exact List.getElem?_set_ne hne

theorem contents_put [DecidableEq κ] {this : Objects κ β} {b : β} (h : this.object = some b)
    (key : κ) : (this.put key).contents = Function.update this.contents key (some b) := by
  funext other
  by_cases heq : other = key
  · subst heq
    simpa [contents, put, object] using h
  · simp [contents, put, heq]

/-! ## New objects -/

theorem unlisted_create (this : Objects κ β) (b : β) : (this.create b).Unlisted := by
  intro key i hkey hcurrent
  have hlt := this.map_lt key i hkey
  rw [← Option.some.inj hcurrent] at hlt
  exact Nat.lt_irrefl _ hlt

theorem unlisted_clear (this : Objects κ β) : this.clear.Unlisted :=
  fun _ _ hkey => absurd hkey.symm (Option.some_ne_none _)

theorem unlisted_assign {this : Objects κ β} (h : this.Unlisted) (b : β) :
    (this.assign b).Unlisted := h

/-- Without an object to work on there is nothing in the map either. -/
theorem eq_empty {this : Objects κ β} (h : this.object = none) : this = empty κ β := by
  have hcurrent := this.object_eq_none_iff.mp h
  have hheap := this.heap_nil hcurrent
  refine Objects.ext hheap hcurrent (funext fun key => ?_)
  cases hkey : this.map key with
  | none => rfl
  | some i =>
      have hlt := this.map_lt key i hkey
      rw [hheap] at hlt
      exact absurd hlt (Nat.not_lt_zero i)

end Objects

end JunctionBox
