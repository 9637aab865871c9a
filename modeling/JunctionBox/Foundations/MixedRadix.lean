import Mathlib.Algebra.BigOperators.Group.List.Basic
import Mathlib.Data.List.Range
import Mathlib.Data.List.Forall2
import Mathlib.Data.List.Nodup
import Mathlib.Tactic.Ring

/-!
# Mixed-radix numerals

A tuple `t` is in range for the radices `cs` when it has the same length and
each entry is below its radix.  `tuples cs` lists the in-range tuples in
lexicographic order, `encode cs t` is the position of `t` in that list and
`decode cs k` the tuple at position `k`:

```text
map (encode cs) (tuples cs) = [0, 1, …, ∏ cs - 1]
```

Radices may be zero; then there is no tuple at all.
-/

namespace JunctionBox.MixedRadix

/-- The in-range tuples, the last entry moving fastest. -/
def tuples : List ℕ → List (List ℕ)
  | [] => [[]]
  | c :: cs => (List.range c).flatMap fun a => (tuples cs).map (a :: ·)

/-- Horner's rule with the last entry least significant. -/
def encode : List ℕ → List ℕ → ℕ
  | _ :: cs, a :: t => a * cs.prod + encode cs t
  | _, _ => 0

def decode : List ℕ → ℕ → List ℕ
  | [], _ => []
  | _ :: cs, k => k / cs.prod :: decode cs (k % cs.prod)

theorem mem_tuples_iff {cs t : List ℕ} : t ∈ tuples cs ↔ List.Forall₂ (· < ·) t cs := by
  induction cs generalizing t with
  | nil => simp [tuples]
  | cons c cs ih =>
      simp only [tuples, List.mem_flatMap, List.mem_range, List.mem_map]
      constructor
      · rintro ⟨a, ha, t, ht, rfl⟩
        exact List.Forall₂.cons ha (ih.mp ht)
      · rintro (_ | ⟨ha, ht⟩)
        exact ⟨_, ha, _, ih.mpr ht, rfl⟩

theorem encode_lt {cs t : List ℕ} (h : List.Forall₂ (· < ·) t cs) : encode cs t < cs.prod := by
  induction h with
  | nil => simp [encode]
  | @cons a c t cs ha ht ih =>
      have hle : (a + 1) * cs.prod ≤ c * cs.prod := Nat.mul_le_mul_right _ ha
      rw [Nat.succ_mul] at hle
      simp only [encode, List.prod_cons]
      omega

theorem decode_encode {cs t : List ℕ} (h : List.Forall₂ (· < ·) t cs) :
    decode cs (encode cs t) = t := by
  induction h with
  | nil => rfl
  | @cons a c t cs ha ht ih =>
      have hlt : encode cs t < cs.prod := encode_lt ht
      have hpos : 0 < cs.prod := by omega
      simp only [decode, encode]
      rw [Nat.mul_comm, Nat.mul_add_div hpos, Nat.div_eq_of_lt hlt, Nat.mul_add_mod,
        Nat.mod_eq_of_lt hlt, ih, Nat.add_zero]

theorem encode_inj {cs t u : List ℕ} (ht : List.Forall₂ (· < ·) t cs)
    (hu : List.Forall₂ (· < ·) u cs) (h : encode cs t = encode cs u) : t = u := by
  rw [← decode_encode ht, ← decode_encode hu, h]

/-- Counting in blocks of `n`. -/
theorem flatMap_range_mul (m n : ℕ) :
    ((List.range m).flatMap fun i => (List.range n).map fun j => i * n + j) =
      List.range (m * n) := by
  induction m with
  | zero => simp
  | succ m ih =>
      rw [List.range_succ, List.flatMap_append, ih, Nat.succ_mul, List.range_add]
      simp

theorem map_encode_tuples (cs : List ℕ) :
    (tuples cs).map (encode cs) = List.range cs.prod := by
  induction cs with
  | nil => simp [tuples, encode]
  | cons c cs ih =>
      rw [tuples, List.map_flatMap, List.prod_cons, ← flatMap_range_mul]
      congr 1
      funext a
      rw [← ih, List.map_map, List.map_map]
      rfl

theorem length_tuples (cs : List ℕ) : (tuples cs).length = cs.prod := by
  rw [← List.length_map (encode cs), map_encode_tuples, List.length_range]

theorem tuples_eq_map_decode (cs : List ℕ) :
    tuples cs = (List.range cs.prod).map (decode cs) := by
  rw [← map_encode_tuples, List.map_map]
  refine (List.map_id _).symm.trans (List.map_congr_left fun t ht => ?_)
  rw [id_eq, Function.comp_apply, decode_encode (mem_tuples_iff.mp ht)]

theorem encode_decode {cs : List ℕ} {k : ℕ} (h : k < cs.prod) : encode cs (decode cs k) = k := by
  have hmap := map_encode_tuples cs
  rw [tuples_eq_map_decode, List.map_map] at hmap
  have hpoint := List.map_congr_left (List.map_inj_left.mp (hmap.trans (List.map_id _).symm))
  exact List.map_inj_left.mp hpoint k (List.mem_range.mpr h)

/-- The tuple `t` sits at position `encode cs t`. -/
theorem getElem?_tuples_encode {cs t : List ℕ} (h : List.Forall₂ (· < ·) t cs) :
    (tuples cs)[encode cs t]? = some t := by
  rw [tuples_eq_map_decode, List.getElem?_map, List.getElem?_range (encode_lt h),
    Option.map_some, decode_encode h]

theorem nodup_tuples (cs : List ℕ) : (tuples cs).Nodup := by
  refine List.Nodup.of_map (encode cs) ?_
  rw [map_encode_tuples]
  exact List.nodup_range

/-! ## Digits by name

A list of names with a radix and a digit for each of them. -/

section Names

variable {ι : Type*} {radix digit : ι → ℕ}

theorem forall₂_map {L : List ι} (h : ∀ u ∈ L, digit u < radix u) :
    List.Forall₂ (· < ·) (L.map digit) (L.map radix) := by
  rw [List.forall₂_map_left_iff, List.forall₂_map_right_iff, List.forall₂_same]
  exact h

/-- A name of radix one has no influence. -/
theorem encode_filter {L : List ι} (h : ∀ u ∈ L, digit u < radix u) :
    encode ((L.filter fun u => 1 < radix u).map radix) ((L.filter fun u => 1 < radix u).map digit) =
      encode (L.map radix) (L.map digit) ∧
    ((L.filter fun u => 1 < radix u).map radix).prod = (L.map radix).prod := by
  induction L with
  | nil => exact ⟨rfl, rfl⟩
  | cons u L ih =>
      obtain ⟨hencode, hprod⟩ := ih fun w hw => h w (List.mem_cons_of_mem _ hw)
      have hu := h u (List.mem_cons_self ..)
      by_cases hone : 1 < radix u
      · rw [List.filter_cons_of_pos (by simpa using hone)]
        constructor
        · rw [List.map_cons, List.map_cons, List.map_cons, List.map_cons, encode, encode, hencode,
            hprod]
        · rw [List.map_cons, List.map_cons, List.prod_cons, List.prod_cons, hprod]
      · have hradix : radix u = 1 := by omega
        have hdigit : digit u = 0 := by omega
        rw [List.filter_cons_of_neg (by simpa using hone)]
        simp only [List.map_cons, encode, List.prod_cons, hencode, hprod, hradix, hdigit]
        exact ⟨by omega, (Nat.one_mul _).symm⟩

/-- A one further to the left counts more. -/
theorem encode_unit_lt [DecidableEq ι] {before : ι → ι → Prop}
    (hasymm : ∀ u w, before u w → ¬before w u) {L : List ι} (hL : L.Pairwise before)
    (hpos : ∀ u ∈ L, 0 < radix u) {v w : ι} (hv : v ∈ L) (hw : w ∈ L) (hvw : before v w)
    (htwo : 1 < radix w) :
    encode (L.map radix) (L.map fun u => if u = w then 1 else 0) <
      encode (L.map radix) (L.map fun u => if u = v then 1 else 0) := by
  induction L with
  | nil => exact absurd hv List.not_mem_nil
  | cons u L ih =>
      rw [List.pairwise_cons] at hL
      have hirrefl : ∀ a, ¬before a a := fun a h => hasymm a a h h
      have hne : ∀ a ∈ L, u ≠ a := fun a ha heq => hirrefl a (heq ▸ hL.1 a ha)
      have hpos' : ∀ a ∈ L, 0 < radix a := fun a ha => hpos a (List.mem_cons_of_mem _ ha)
      have hwL : w ∈ L := by
        rcases List.mem_cons.mp hw with rfl | hwL
        · rcases List.mem_cons.mp hv with rfl | hvL
          · exact absurd hvw (hirrefl v)
          · exact absurd hvw (hasymm _ _ (hL.1 v hvL))
        · exact hwL
      simp only [List.map_cons, encode, if_neg (hne w hwL)]
      rcases List.mem_cons.mp hv with rfl | hvL
      · have hlt : encode (L.map radix) (L.map fun u => if u = w then 1 else 0) <
            (L.map radix).prod := by
          apply encode_lt
          apply forall₂_map
          intro a ha
          split
          · next heq => exact heq ▸ htwo
          · exact hpos' a ha
        rw [if_pos rfl]
        omega
      · rw [if_neg (hne v hvL)]
        have hrest := ih hL.2 hpos' hvL hwL
        omega

end Names

end JunctionBox.MixedRadix
