import JunctionBox.Util.BitVector
import Mathlib.Data.List.Nodup

/-!
# String maps, bit-vector maps and the loops over them

`Map.c` is a singly linked list of `(id, contents)` elements with a recorded
size.  `Map_Add` puts a new element at the front and leaves the map alone when
the key is already there, so the keys are distinct and the size is the number
of elements; both facts are fields of `Map` and every operation re-proves them.

Iteration in the source is either a pointer walk (`VertexItr`, `EdgeItr`,
`NeighborItr`) or a `GetFirst` / `GetNext` loop in which `GetNext` looks the
current element up again by its key.  `visits` is that second loop with an
explicit bound on the number of rounds, and `visits_eq_contents` says that with
enough rounds it sees every element once, in list order.
-/

namespace JunctionBox

/-- A NUL-terminated string, without its terminator; `strcmp(a, b) == 0` is
equality and `strcat` is `++`. -/
abbrev CString := List Char

instance : LawfulBEq CString := inferInstance

/-- `struct map`. -/
structure Map (α : Type) where
  first : List (CString × α)
  size : ℕ
  nodup_keys : (first.map Prod.fst).Nodup
  size_eq : size = first.length

namespace Map

variable {α : Type}

/-- `Map_Create`. -/
def create : Map α := ⟨[], 0, List.nodup_nil, rfl⟩

/-- The keys, in list order. -/
def keys (this : Map α) : List CString := this.first.map Prod.fst

/-- The contents, in list order. -/
def contents (this : Map α) : List α := this.first.map Prod.snd

/-- `Map_Get`, returning the contents of the element found. -/
def get (this : Map α) (id : CString) : Option α :=
  (this.first.find? fun me => me.1 = id).map Prod.snd

theorem mem_keys_iff (this : Map α) (id : CString) :
    id ∈ this.keys ↔ ∃ a, (id, a) ∈ this.first := by
  simp [keys]

theorem get_eq_some_iff (this : Map α) (id : CString) (a : α) :
    this.get id = some a ↔ (id, a) ∈ this.first := by
  have hnodup := this.nodup_keys
  rw [get]
  revert hnodup
  induction this.first with
  | nil => simp
  | cons me rest ih =>
      intro hnodup
      rw [List.map_cons, List.nodup_cons] at hnodup
      obtain ⟨key, b⟩ := me
      by_cases hkey : key = id
      · subst hkey
        have hrest : (key, a) ∉ rest := fun h =>
          hnodup.1 (List.mem_map.mpr ⟨(key, a), h, rfl⟩)
        simp [hrest, eq_comm]
      · have hhead : (id, a) ≠ (key, b) := fun h => hkey (Prod.mk.inj h).1.symm
        simpa [hkey, hhead] using ih hnodup.2

theorem get_eq_none_iff (this : Map α) (id : CString) :
    this.get id = none ↔ id ∉ this.keys := by
  rw [mem_keys_iff, ← not_iff_not, not_not, ← ne_eq, Option.ne_none_iff_exists']
  simp [get_eq_some_iff]

theorem isSome_get_iff (this : Map α) (id : CString) :
    (this.get id).isSome ↔ id ∈ this.keys := by
  rw [mem_keys_iff, Option.isSome_iff_exists]
  simp [get_eq_some_iff]

/-- `Map_Add`: a key that is already present keeps its element. -/
def add (this : Map α) (id : CString) (a : α) : Map α :=
  match h : this.get id with
  | some _ => this
  | none =>
    { first := (id, a) :: this.first
      size := this.size + 1
      nodup_keys := List.nodup_cons.mpr ⟨(this.get_eq_none_iff id).mp h, this.nodup_keys⟩
      size_eq := by simp [this.size_eq] }

theorem first_add (this : Map α) (id : CString) (a : α) :
    (this.add id a).first =
      if id ∈ this.keys then this.first else (id, a) :: this.first := by
  unfold add
  split
  · next h => rw [if_pos ((this.isSome_get_iff id).mp (by rw [h]; rfl))]
  · next h => rw [if_neg ((this.get_eq_none_iff id).mp h)]

/-- A part of a map stays that part when a new element is added to both, provided the
element belongs to it. -/
theorem first_add_filter {this part : Map α} {id : CString} (a : α)
    {q : CString × α → Prop} [DecidablePred q]
    (hpart : part.first = this.first.filter fun me => q me) (hnew : id ∉ this.keys) :
    (if q (id, a) then part.add id a else part).first =
      (this.add id a).first.filter fun me => q me := by
  have hfresh : id ∉ part.keys := by
    intro hid
    obtain ⟨b, hb⟩ := (part.mem_keys_iff id).mp hid
    rw [hpart] at hb
    exact hnew ((this.mem_keys_iff id).mpr ⟨b, (List.mem_filter.mp hb).1⟩)
  rw [first_add this, if_neg hnew, List.filter_cons]
  by_cases hq : q (id, a)
  · rw [if_pos hq, if_pos (decide_eq_true hq), first_add, if_neg hfresh, hpart]
  · rw [if_neg hq, if_neg (by simpa using hq), hpart]

@[simp] theorem first_create : (create : Map α).first = [] := rfl

/-- A write through a pointer held by the element with key `id`. -/
def modify (this : Map α) (id : CString) (f : α → α) : Map α where
  first := this.first.map fun me => if me.1 = id then (me.1, f me.2) else me
  size := this.size
  nodup_keys := by
    have hkeys : (this.first.map fun me => if me.1 = id then (me.1, f me.2) else me).map
        Prod.fst = this.first.map Prod.fst := by
      rw [List.map_map]
      exact List.map_congr_left fun me _ => by
        simp only [Function.comp_apply]
        split <;> rfl
    rw [hkeys]
    exact this.nodup_keys
  size_eq := by simp [this.size_eq]

theorem mem_first_modify (this : Map α) (id : CString) (f : α → α) (key : CString) (b : α) :
    (key, b) ∈ (this.modify id f).first ↔
      ∃ a, (key, a) ∈ this.first ∧ b = if key = id then f a else a := by
  simp only [modify, List.mem_map, Prod.exists]
  constructor
  · rintro ⟨key', a, hmem, heq⟩
    by_cases hid : key' = id <;> simp only [hid, if_true, if_false] at heq <;>
      obtain ⟨rfl, rfl⟩ := Prod.mk.inj heq
    · exact ⟨a, hid ▸ hmem, by simp⟩
    · exact ⟨a, hmem, by simp [hid]⟩
  · rintro ⟨a, hmem, rfl⟩
    exact ⟨key, a, hmem, by split <;> simp_all⟩

theorem keys_modify (this : Map α) (id : CString) (f : α → α) :
    (this.modify id f).keys = this.keys := by
  rw [keys, keys, modify, List.map_map]
  exact List.map_congr_left fun me _ => by
    simp only [Function.comp_apply]
    split <;> rfl

theorem get_modify (this : Map α) (id : CString) (f : α → α) (key : CString) :
    (this.modify id f).get key =
      (this.get key).map fun a => if key = id then f a else a := by
  ext b
  rw [get_eq_some_iff, mem_first_modify, Option.map_eq_some_iff]
  refine exists_congr fun a => ?_
  rw [get_eq_some_iff, eq_comm (a := b)]

theorem get_add (this : Map α) (id : CString) (a : α) (key : CString) :
    (this.add id a).get key =
      if key = id ∧ this.get id = none then some a else this.get key := by
  unfold get
  rw [first_add]
  by_cases hid : id ∈ this.keys
  · have hsome : ¬this.get id = none := fun hnone => (this.get_eq_none_iff id).mp hnone hid
    rw [if_pos hid, if_neg fun h => hsome h.2]
  · have hnone := (this.get_eq_none_iff id).mpr hid
    rw [if_neg hid, List.find?_cons]
    by_cases hkey : key = id
    · rw [hkey, if_pos ⟨rfl, hnone⟩, decide_eq_true rfl]
      rfl
    · rw [if_neg fun h => hkey h.1, decide_eq_false fun h => hkey h.symm]

theorem eq_of_first_eq {this other : Map α} (h : this.first = other.first) : this = other := by
  obtain ⟨first, size, nodup, hsize⟩ := this
  obtain ⟨first', size', nodup', hsize'⟩ := other
  obtain rfl : first = first' := h
  obtain rfl : size = size' := hsize.trans hsize'.symm
  rfl

/-! ## `GetFirst` / `GetNext` loops -/

/-- `VertexMap_GetFirst`, `EdgeMap_GetFirst`. -/
def getFirst (this : Map α) : Option α := this.first.head?.map Prod.snd

/-- `VertexMap_GetNext`, `EdgeMap_GetNext`: find the element with key `id`
again and follow its `next` pointer. -/
def getNext (this : Map α) (id : CString) : Option α :=
  (this.first.dropWhile fun me => me.1 ≠ id).tail.head?.map Prod.snd

theorem mem_of_getFirst {this : Map α} {a : α} (h : this.getFirst = some a) :
    ∃ key, (key, a) ∈ this.first := by
  obtain ⟨me, hme, rfl⟩ := Option.map_eq_some_iff.mp h
  exact ⟨me.1, List.mem_of_mem_head? hme⟩

theorem mem_of_getNext {this : Map α} {id : CString} {a : α} (h : this.getNext id = some a) :
    ∃ key, (key, a) ∈ this.first := by
  obtain ⟨me, hme, rfl⟩ := Option.map_eq_some_iff.mp h
  have htail := List.mem_of_mem_tail (List.mem_of_mem_head? hme)
  exact ⟨me.1, (List.dropWhile_suffix _).subset htail⟩

/-! ## Contents read through a function -/

section Contents

variable {β : Type} (f : α → β) (this : Map α)

/-- The map with `f` of the contents in their place. -/
def mapContents : Map β where
  first := this.first.map fun me => (me.1, f me.2)
  size := this.size
  nodup_keys := by
    rw [List.map_map]
    exact this.nodup_keys
  size_eq := by rw [List.length_map, this.size_eq]

theorem first_mapContents :
    (this.mapContents f).first = this.first.map fun me => (me.1, f me.2) := rfl

@[simp] theorem keys_mapContents : (this.mapContents f).keys = this.keys := by
  rw [keys, mapContents, List.map_map]
  rfl

@[simp] theorem contents_mapContents :
    (this.mapContents f).contents = this.contents.map f := by
  rw [contents, contents, mapContents, List.map_map, List.map_map]
  rfl

theorem mapContents_add (id : CString) (a : α) :
    (this.add id a).mapContents f = (this.mapContents f).add id (f a) := by
  refine eq_of_first_eq ?_
  rw [first_add, keys_mapContents, first_mapContents, first_mapContents, first_add]
  by_cases h : id ∈ this.keys
  · rw [if_pos h, if_pos h]
  · rw [if_neg h, if_neg h, List.map_cons]

theorem mapContents_congr {g : α → β} {this : Map α} (h : ∀ a ∈ this.contents, f a = g a) :
    this.mapContents f = this.mapContents g := by
  refine eq_of_first_eq (List.map_congr_left fun me hme => ?_)
  rw [h me.2 (List.mem_map_of_mem hme)]

end Contents

theorem mem_contents_of_get {this : Map α} {id : CString} {a : α} (h : this.get id = some a) :
    a ∈ this.contents :=
  List.mem_map.mpr ⟨_, (this.get_eq_some_iff id a).mp h, rfl⟩

theorem add_of_mem {this : Map α} {id : CString} (h : id ∈ this.keys) (a : α) :
    this.add id a = this :=
  eq_of_first_eq (by rw [first_add, if_pos h])

theorem mem_contents_add {this : Map α} {id : CString} {a b : α} (h : id ∉ this.keys) :
    b ∈ (this.add id a).contents ↔ b = a ∨ b ∈ this.contents := by
  rw [contents, first_add, if_neg h, List.map_cons, List.mem_cons]
  rfl

theorem mem_of_mem_add {this : Map α} {id : CString} {a b : α} (h : b ∈ (this.add id a).contents) :
    b = a ∨ b ∈ this.contents := by
  by_cases hid : id ∈ this.keys
  · rw [add_of_mem hid] at h
    exact Or.inr h
  · exact (mem_contents_add hid).mp h

end Map

/-- The elements a loop `for (e = fst; e != NULL; e = nxt(e))` visits in at most
`rounds` rounds. -/
def visits {β : Type} (nxt : β → Option β) : ℕ → Option β → List β
  | 0, _ => []
  | _ + 1, none => []
  | rounds + 1, some b => b :: visits nxt rounds (nxt b)

namespace Map

variable {α : Type}

private theorem visits_suffix (this : Map α) (nxt : α → Option α) (key : α → CString)
    (hkey : ∀ me ∈ this.first, key me.2 = me.1)
    (hnxt : ∀ me ∈ this.first, nxt me.2 = this.getNext (key me.2)) :
    ∀ (suffix : List (CString × α)) (before : List (CString × α)) (rounds : ℕ),
      this.first = before ++ suffix → suffix.length ≤ rounds →
      visits nxt rounds (suffix.head?.map Prod.snd) = suffix.map Prod.snd := by
  intro suffix
  induction suffix with
  | nil =>
      intro before rounds _ _
      cases rounds <;> rfl
  | cons me rest ih =>
      intro before rounds hsplit hrounds
      obtain ⟨rounds, rfl⟩ : ∃ k, rounds = k + 1 := ⟨rounds - 1, by
        simp only [List.length_cons] at hrounds
        omega⟩
      have hmem : me ∈ this.first := by
        rw [hsplit]
        simp
      have hdrop : (this.first.dropWhile fun other => other.1 ≠ me.1) = me :: rest := by
        have hnodup := this.nodup_keys
        rw [hsplit, List.map_append, List.nodup_append] at hnodup
        rw [hsplit, List.dropWhile_append_of_pos]
        · simp
        · intro other hother
          simpa using hnodup.2.2 _ (List.mem_map_of_mem hother) _ (by simp)
      have hnext : nxt me.2 = rest.head?.map Prod.snd := by
        rw [hnxt me hmem, getNext, hkey me hmem, hdrop, List.tail_cons]
      simp only [List.head?_cons, Option.map_some, visits, List.map_cons, hnext]
      rw [ih (before ++ [me]) rounds (by simp [hsplit])
        (by simpa using hrounds)]

/-- With at least `size` rounds a `GetFirst` / `GetNext` loop visits the
contents once each, in list order. -/
theorem visits_eq_contents (this : Map α) (nxt : α → Option α) (key : α → CString)
    (hkey : ∀ me ∈ this.first, key me.2 = me.1)
    (hnxt : ∀ me ∈ this.first, nxt me.2 = this.getNext (key me.2))
    {rounds : ℕ} (hrounds : this.size ≤ rounds) :
    visits nxt rounds this.getFirst = this.contents :=
  visits_suffix this nxt key hkey hnxt this.first [] rounds rfl (this.size_eq ▸ hrounds)

end Map

/-! ## Maps keyed by bit vectors -/

/-- `struct BitVector_map`: keys compared with `BitVector_Equals`. -/
abbrev BitVectorMap (size : ℕ) (β : Type) := List (BitVector size × β)

namespace BitVectorMap

variable {size : ℕ} {β : Type}

/-- `BitVectorMap_Get`. -/
def get (this : BitVectorMap size β) (id : BitVector size) : Option β :=
  (this.find? fun me => me.1.equals id).map Prod.snd

/-- `BitVectorMap_Add`. -/
def add (this : BitVectorMap size β) (id : BitVector size) (contents : β) :
    BitVectorMap size β :=
  match this.get id with
  | some _ => this
  | none => (id, contents) :: this

end BitVectorMap

end JunctionBox
