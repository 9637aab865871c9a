import JunctionBox.Foundations.SpanningTree
import JunctionBox.Util.Map

/-!
# Disjoint set forests

Union by rank with path compression.  A node is known by the element it was made
for, so the lookup table and the nodes are one map.  `FindSet` follows the
`parent` pointers; it is given as many rounds as there are nodes, which is
enough because every parent has a larger rank than its child.

`Realizes comp` says that the forest stands for the partition in which the
representative of `x` is `comp x`.  `getRepresentative` returns the
representative and leaves the partition alone (`getRepresentative_eq`); `union`
merges two parts under the representative of one of them (`union_eq`).
-/

namespace JunctionBox

open Hypertree

/-- `DSetNode`, without its `contents`, the element it is looked up by. -/
structure DSetNode where
  parent : CString
  rank : ℕ
deriving DecidableEq

/-- `DSetForest`. -/
structure DSetForest where
  lookup : Map DSetNode

namespace DSetForest

/-- `DSetForest_Create`. -/
def create : DSetForest := ⟨Map.create⟩

/-- `DSetForest_MakeSet`: an element that has a node keeps it. -/
def makeSet (this : DSetForest) (element : CString) : DSetForest :=
  ⟨this.lookup.add element ⟨element, 0⟩⟩

/-- `x->parent = parent`. -/
def setParent (this : DSetForest) (x parent : CString) : DSetForest :=
  ⟨this.lookup.modify x fun n => { n with parent := parent }⟩

/-- `DSetForest_FindSet`. -/
def findSet : ℕ → DSetForest → CString → Option (DSetForest × CString)
  | 0, _, _ => none
  | rounds + 1, this, x => do
      let n ← this.lookup.get x
      if x ≠ n.parent then
        let found ← findSet rounds this n.parent
        return (found.1.setParent x found.2, found.2)
      else return (this, n.parent)

/-- `DSetForest_GetRepresentative`, which looks the node up and then does what
`DSetForest_FindSet` does. -/
def getRepresentative (this : DSetForest) (element : CString) : Option (DSetForest × CString) :=
  findSet this.lookup.size this element

/-- `DSetForest_Link`. -/
def link (this : DSetForest) (x y : CString) : Option DSetForest := do
  let nx ← this.lookup.get x
  let ny ← this.lookup.get y
  if nx.rank > ny.rank then return this.setParent y x
  else if nx.rank = ny.rank then
    return ⟨(this.setParent x y).lookup.modify y fun n => { n with rank := n.rank + 1 }⟩
  else return this.setParent x y

/-- `DSetForest_Union`. -/
def union (this : DSetForest) (element1 element2 : CString) : Option DSetForest := do
  let fst ← this.getRepresentative element1
  let scnd ← fst.1.getRepresentative element2
  scnd.1.link fst.2 scnd.2

/-! ## Partitions -/

/-- The forest stands for the partition with representatives `comp`. -/
structure Realizes (this : DSetForest) (comp : CString → CString) : Prop where
  parent_some : ∀ {x n}, this.lookup.get x = some n → ∃ m, this.lookup.get n.parent = some m
  comp_parent : ∀ {x n}, this.lookup.get x = some n → comp n.parent = comp x
  comp_root : ∀ {x n}, this.lookup.get x = some n → x = n.parent → comp x = x
  rank_lt : ∀ {x n m}, this.lookup.get x = some n → this.lookup.get n.parent = some m →
    x ≠ n.parent → n.rank < m.rank

/-- The ranks of two forests agree. -/
def SameRanks (this other : DSetForest) : Prop :=
  ∀ x, (other.lookup.get x).map DSetNode.rank = (this.lookup.get x).map DSetNode.rank

theorem SameRanks.get {this other : DSetForest} (h : SameRanks this other) {x : CString}
    {n : DSetNode} (hn : this.lookup.get x = some n) :
    ∃ n', other.lookup.get x = some n' ∧ n'.rank = n.rank := by
  have hx := h x
  rw [hn, Option.map_some, Option.map_eq_some_iff] at hx
  exact hx

theorem SameRanks.get' {this other : DSetForest} (h : SameRanks this other) {x : CString}
    {n : DSetNode} (hn : other.lookup.get x = some n) :
    ∃ n', this.lookup.get x = some n' ∧ n'.rank = n.rank :=
  SameRanks.get (fun y => (h y).symm) hn

theorem get_setParent (this : DSetForest) (x parent y : CString) :
    (this.setParent x parent).lookup.get y = (this.lookup.get y).map fun n =>
      if y = x then { n with parent := parent } else n := this.lookup.get_modify ..

theorem sameRanks_setParent (this : DSetForest) (x parent : CString) :
    SameRanks this (this.setParent x parent) := by
  intro y
  rw [get_setParent, Option.map_map]
  refine Option.map_congr fun n _ => ?_
  rw [Function.comp_apply]
  split <;> rfl

/-- The nodes of larger rank. -/
def above (this : DSetForest) (n : DSetNode) : ℕ :=
  (this.lookup.contents.filter fun m => n.rank < m.rank).length

theorem mem_contents_of_get {this : DSetForest} {x : CString} {n : DSetNode}
    (h : this.lookup.get x = some n) : n ∈ this.lookup.contents :=
  List.mem_map_of_mem (f := Prod.snd) ((this.lookup.get_eq_some_iff x n).mp h)

theorem above_lt {this : DSetForest} {x : CString} {n m : DSetNode}
    (hm : this.lookup.get x = some m) (hlt : n.rank < m.rank) : this.above m < this.above n := by
  unfold above
  have hfilter : (this.lookup.contents.filter fun k => m.rank < k.rank) =
      (this.lookup.contents.filter fun k => n.rank < k.rank).filter fun k => m.rank < k.rank := by
    rw [List.filter_filter]
    refine List.filter_congr fun k _ => ?_
    rw [← Bool.decide_and, decide_eq_decide]
    omega
  rw [hfilter]
  refine lt_of_le_of_ne (List.length_filter_le _ _) fun heq => ?_
  -- `m` itself is above `n` and not above `m`
  have hmem : m ∈ this.lookup.contents.filter fun k => n.rank < k.rank :=
    List.mem_filter.mpr ⟨mem_contents_of_get hm, decide_eq_true hlt⟩
  have hself := List.length_filter_eq_length_iff.mp heq m hmem
  exact absurd (of_decide_eq_true hself) (lt_irrefl _)

theorem above_lt_size {this : DSetForest} {x : CString} {n : DSetNode}
    (hn : this.lookup.get x = some n) : this.above n < this.lookup.size := by
  have hmem := mem_contents_of_get hn
  have hsize : this.lookup.contents.length = this.lookup.size := by
    rw [Map.contents, List.length_map, this.lookup.size_eq]
  unfold above
  rw [← hsize]
  refine lt_of_le_of_ne (List.length_filter_le _ _) fun heq => ?_
  have hself := List.length_filter_eq_length_iff.mp heq n hmem
  exact absurd (of_decide_eq_true hself) (lt_irrefl _)

/-- What finding a representative promises. -/
structure Found (this : DSetForest) (comp : CString → CString) (x : CString) (n : DSetNode)
    (this' : DSetForest) : Prop where
  realizes : this'.Realizes comp
  sameRanks : SameRanks this this'
  root : ∃ m, this'.lookup.get (comp x) = some m ∧ m.parent = comp x ∧ n.rank ≤ m.rank

/-- Hanging a node below its representative does not change the partition. -/
theorem Realizes.setParent {this : DSetForest} {comp : CString → CString}
    (h : this.Realizes comp) {x : CString} {n m : DSetNode} (hx : this.lookup.get x = some n)
    (hroot : this.lookup.get (comp x) = some m) (hself : m.parent = comp x)
    (hlt : n.rank < m.rank) : (this.setParent x (comp x)).Realizes comp := by
  have hcomp : comp (comp x) = comp x := h.comp_root hroot hself.symm
  have hold : ∀ {y k}, (this.setParent x (comp x)).lookup.get y = some k →
      (y = x ∧ k = { n with parent := comp x }) ∨ (y ≠ x ∧ this.lookup.get y = some k) := by
    intro y k hy
    rw [get_setParent, Option.map_eq_some_iff] at hy
    obtain ⟨k', hk', rfl⟩ := hy
    by_cases hyx : y = x
    · subst hyx
      rw [if_pos rfl, Option.some.inj (hk'.symm.trans hx)]
      exact Or.inl ⟨rfl, rfl⟩
    · rw [if_neg hyx]
      exact Or.inr ⟨hyx, hk'⟩
  have hranks := sameRanks_setParent this x (comp x)
  refine ⟨fun {y k} hy => ?_, fun {y k} hy => ?_, fun {y k} hy => ?_, fun {y k l} hy hl => ?_⟩
  · rcases hold hy with ⟨-, rfl⟩ | ⟨-, hy⟩
    · obtain ⟨m', hm', -⟩ := hranks.get hroot
      exact ⟨m', hm'⟩
    · obtain ⟨l, hl⟩ := h.parent_some hy
      obtain ⟨l', hl', -⟩ := hranks.get hl
      exact ⟨l', hl'⟩
  · rcases hold hy with ⟨rfl, rfl⟩ | ⟨-, hy⟩
    · exact hcomp
    · exact h.comp_parent hy
  · rcases hold hy with ⟨rfl, rfl⟩ | ⟨-, hy⟩
    · exact fun heq => heq.symm
    · exact h.comp_root hy
  · intro hne
    obtain ⟨l', hl', hrank⟩ := hranks.get' hl
    rcases hold hy with ⟨rfl, rfl⟩ | ⟨-, hy⟩
    · rw [← hrank, Option.some.inj (hl'.symm.trans hroot)]
      exact hlt
    · rw [← hrank]
      exact h.rank_lt hy hl' hne

theorem findSet_eq {comp : CString → CString} :
    ∀ (rounds : ℕ) {this : DSetForest} {x : CString} {n : DSetNode}, this.Realizes comp →
      this.lookup.get x = some n → this.above n < rounds →
      ∃ this', findSet rounds this x = some (this', comp x) ∧ Found this comp x n this' := by
  intro rounds
  induction rounds with
  | zero => exact fun _ _ h => absurd h (Nat.not_lt_zero _)
  | succ rounds ih =>
      intro this x n h hx hrounds
      unfold findSet
      rw [hx, Option.bind_eq_bind, Option.bind_some]
      by_cases hself : x = n.parent
      · have hcomp := h.comp_root hx hself
        rw [if_neg (not_not.mpr hself), ← hself]
        refine ⟨this, by rw [hcomp]; rfl, h, fun _ => rfl, n, ?_, ?_, le_rfl⟩
        · rw [hcomp, hx]
        · rw [hcomp, ← hself]
      · rw [if_pos hself]
        obtain ⟨p, hp⟩ := h.parent_some hx
        have hlt := h.rank_lt hx hp hself
        have hmeasure := above_lt hp hlt
        obtain ⟨this', hrun, hfound⟩ := ih h hp (by omega)
        obtain ⟨m, hm, hroot, hle⟩ := hfound.root
        rw [h.comp_parent hx] at hrun hm hroot
        obtain ⟨n', hn', hrank⟩ := hfound.sameRanks.get hx
        have hlt' : n'.rank < m.rank := by omega
        have hne : ¬comp x = x := by
          intro heq
          rw [heq, hn'] at hm
          rw [Option.some.inj hm] at hlt'
          exact lt_irrefl _ hlt'
        refine ⟨this'.setParent x (comp x), by rw [hrun]; rfl,
          hfound.realizes.setParent hn' hm hroot hlt', fun y => ?_, m, ?_, hroot, by omega⟩
        · rw [sameRanks_setParent this' x (comp x) y, hfound.sameRanks y]
        · rw [get_setParent, hm, Option.map_some, if_neg hne]

/-- `DSetForest_GetRepresentative` returns the representative. -/
theorem getRepresentative_eq {this : DSetForest} {comp : CString → CString}
    (h : this.Realizes comp) {x : CString} {n : DSetNode} (hx : this.lookup.get x = some n) :
    ∃ this', this.getRepresentative x = some (this', comp x) ∧ Found this comp x n this' :=
  findSet_eq _ h hx (above_lt_size hx)

/-- Hanging one root below another, of larger rank, merges the two parts. -/
theorem Realizes.merge {this other : DSetForest} {comp : CString → CString}
    (h : this.Realizes comp) {x y : CString} {nx ny : DSetNode}
    (hx : this.lookup.get x = some nx) (hy : this.lookup.get y = some ny)
    (hxroot : nx.parent = x) (hyroot : ny.parent = y) (hne : x ≠ y) {rank : ℕ}
    (hlt : nx.rank < rank) (hle : ny.rank ≤ rank)
    (hget : ∀ z, other.lookup.get z = (this.lookup.get z).map fun n =>
      if z = x then { n with parent := y } else if z = y then { n with rank := rank } else n) :
    other.Realizes (Hypertree.merge comp x y) := by
  have hcx : comp x = x := h.comp_root hx hxroot.symm
  have hcy : comp y = y := h.comp_root hy hyroot.symm
  have hmerge : ∀ z, Hypertree.merge comp x y z = if comp z = x then y else comp z := by
    intro z
    unfold Hypertree.merge
    rw [hcx, hcy]
  -- a node of the new forest is the old one, or `x`, or `y`
  have hold : ∀ {z k}, other.lookup.get z = some k →
      (z = x ∧ k = { nx with parent := y }) ∨ (z = y ∧ k = { ny with rank := rank }) ∨
        (z ≠ x ∧ z ≠ y ∧ this.lookup.get z = some k) := by
    intro z k hz
    rw [hget, Option.map_eq_some_iff] at hz
    obtain ⟨k', hk', rfl⟩ := hz
    by_cases hzx : z = x
    · subst hzx
      rw [if_pos rfl, Option.some.inj (hk'.symm.trans hx)]
      exact Or.inl ⟨rfl, rfl⟩
    by_cases hzy : z = y
    · subst hzy
      rw [if_neg hzx, if_pos rfl, Option.some.inj (hk'.symm.trans hy)]
      exact Or.inr (Or.inl ⟨rfl, rfl⟩)
    · rw [if_neg hzx, if_neg hzy]
      exact Or.inr (Or.inr ⟨hzx, hzy, hk'⟩)
  have hsome : ∀ {z k}, this.lookup.get z = some k → ∃ k', other.lookup.get z = some k' := by
    intro z k hz
    exact ⟨_, by rw [hget, hz, Option.map_some]⟩
  refine ⟨fun {z k} hz => ?_, fun {z k} hz => ?_, fun {z k} hz => ?_, fun {z k l} hz hl => ?_⟩
  · rcases hold hz with ⟨-, rfl⟩ | ⟨-, rfl⟩ | ⟨-, -, hz⟩
    · exact hsome hy
    · rw [show ({ ny with rank := rank } : DSetNode).parent = y from hyroot]
      exact hsome hy
    · obtain ⟨l, hl⟩ := h.parent_some hz
      exact hsome hl
  · rcases hold hz with ⟨rfl, rfl⟩ | ⟨rfl, rfl⟩ | ⟨-, -, hz⟩
    · rw [hmerge, hmerge, hcx, hcy, if_pos rfl, if_neg hne.symm]
    · rw [show ({ ny with rank := rank } : DSetNode).parent = z from hyroot]
    · rw [hmerge, hmerge, h.comp_parent hz]
  · intro hself
    rcases hold hz with ⟨rfl, rfl⟩ | ⟨rfl, rfl⟩ | ⟨hzx, -, hz⟩
    · exact absurd hself hne
    · rw [hmerge, hcy, if_neg hne.symm]
    · rw [hmerge, h.comp_root hz hself, if_neg hzx]
  · intro hself
    rcases hold hz with ⟨rfl, rfl⟩ | ⟨rfl, rfl⟩ | ⟨-, -, hz⟩
    · rcases hold hl with ⟨heq, -⟩ | ⟨-, rfl⟩ | ⟨-, hny, -⟩
      · exact absurd heq hne.symm
      · exact hlt
      · exact absurd rfl hny
    · exact absurd hyroot.symm hself
    · rcases hold hl with ⟨heq, rfl⟩ | ⟨heq, rfl⟩ | ⟨-, -, hl⟩
      · have hx' : this.lookup.get k.parent = some nx := heq.symm ▸ hx
        have hrank := h.rank_lt hz hx' hself
        exact hrank
      · have hy' : this.lookup.get k.parent = some ny := heq.symm ▸ hy
        exact lt_of_lt_of_le (h.rank_lt hz hy' hself) hle
      · exact h.rank_lt hz hl hself

theorem link_eq {this : DSetForest} {comp : CString → CString} (h : this.Realizes comp)
    {x y : CString} {nx ny : DSetNode} (hx : this.lookup.get x = some nx)
    (hy : this.lookup.get y = some ny) (hxroot : nx.parent = x) (hyroot : ny.parent = y)
    (hne : x ≠ y) :
    ∃ this', this.link x y = some this' ∧
      (this'.Realizes (Hypertree.merge comp x y) ∨ this'.Realizes (Hypertree.merge comp y x)) ∧
      ∀ z, (this'.lookup.get z).isSome = (this.lookup.get z).isSome := by
  unfold link
  rw [hx, hy]
  simp only [Option.bind_eq_bind, Option.bind_some]
  by_cases hgt : nx.rank > ny.rank
  · rw [if_pos hgt]
    refine ⟨_, rfl, Or.inr (h.merge hy hx hyroot hxroot hne.symm hgt le_rfl fun z => ?_),
      fun z => by rw [get_setParent, Option.isSome_map]⟩
    rw [get_setParent]
    refine Option.map_congr fun n hn => ?_
    by_cases hzx : z = x
    · rw [hzx] at hn
      rw [if_neg fun heq => hne (hzx.symm.trans heq), if_neg fun heq => hne (hzx.symm.trans heq),
        if_pos hzx, Option.some.inj (hx.symm.trans hn)]
    · rw [if_neg hzx]
  · rw [if_neg hgt]
    by_cases heq : nx.rank = ny.rank
    · rw [if_pos heq]
      refine ⟨_, rfl, Or.inl (h.merge hx hy hxroot hyroot hne
        (show nx.rank < ny.rank + 1 by omega) (Nat.le_succ _) fun z => ?_), fun z => by
          rw [Map.get_modify, get_setParent, Option.isSome_map, Option.isSome_map]⟩
      rw [Map.get_modify, get_setParent, Option.map_map]
      refine Option.map_congr fun n hn => ?_
      simp only [Function.comp_apply]
      by_cases hzx : z = x
      · rw [if_pos hzx, if_neg fun hzy => hne (hzx.symm.trans hzy), if_pos hzx]
      · rw [if_neg hzx, if_neg hzx]
        by_cases hzy : z = y
        · rw [hzy] at hn
          rw [if_pos hzy, if_pos hzy, Option.some.inj (hy.symm.trans hn)]
        · rw [if_neg hzy, if_neg hzy]
    · rw [if_neg heq]
      refine ⟨_, rfl, Or.inl (h.merge hx hy hxroot hyroot hne
        (show nx.rank < ny.rank by omega) le_rfl fun z => ?_),
        fun z => by rw [get_setParent, Option.isSome_map]⟩
      rw [get_setParent]
      refine Option.map_congr fun n hn => ?_
      by_cases hzx : z = x
      · rw [if_pos hzx, if_pos hzx]
      · rw [if_neg hzx, if_neg hzx]
        by_cases hzy : z = y
        · rw [hzy] at hn
          rw [if_pos hzy, Option.some.inj (hy.symm.trans hn)]
        · rw [if_neg hzy]

/-- Raising the rank of a root. -/
theorem Realizes.bump {this other : DSetForest} {comp : CString → CString}
    (h : this.Realizes comp) {x : CString} {nx : DSetNode} (hx : this.lookup.get x = some nx)
    (hroot : nx.parent = x) {rank : ℕ} (hle : nx.rank ≤ rank)
    (hget : ∀ z, other.lookup.get z = (this.lookup.get z).map fun n =>
      if z = x then { n with rank := rank } else n) : other.Realizes comp := by
  -- parents are the old ones, ranks have not gone down and only `x` has a new one
  have hold : ∀ {z k}, other.lookup.get z = some k → ∃ k', this.lookup.get z = some k' ∧
      k.parent = k'.parent ∧ k'.rank ≤ k.rank ∧ (z ≠ x → k.rank = k'.rank) := by
    intro z k hz
    rw [hget, Option.map_eq_some_iff] at hz
    obtain ⟨k', hk', rfl⟩ := hz
    refine ⟨k', hk', ?_⟩
    by_cases hzx : z = x
    · subst hzx
      rw [if_pos rfl, Option.some.inj (hk'.symm.trans hx)]
      exact ⟨rfl, hle, fun hne => absurd rfl hne⟩
    · rw [if_neg hzx]
      exact ⟨rfl, le_rfl, fun _ => rfl⟩
  refine ⟨fun {z k} hz => ?_, fun {z k} hz => ?_, fun {z k} hz => ?_, fun {z k l} hz hl => ?_⟩
  · obtain ⟨k', hk', hparent, -⟩ := hold hz
    obtain ⟨l, hl⟩ := h.parent_some hk'
    exact ⟨_, by rw [hparent, hget, hl, Option.map_some]⟩
  · obtain ⟨k', hk', hparent, -⟩ := hold hz
    rw [hparent, h.comp_parent hk']
  · obtain ⟨k', hk', hparent, -⟩ := hold hz
    rw [hparent]
    exact h.comp_root hk'
  · intro hne
    obtain ⟨k', hk', hparent, -, hsame⟩ := hold hz
    obtain ⟨l', hl', -, hge, -⟩ := hold hl
    rw [hparent] at hl' hne
    have hlt := h.rank_lt hk' hl' hne
    have hzx : z ≠ x := by
      rintro rfl
      rw [Option.some.inj (hk'.symm.trans hx), hroot] at hne
      exact hne rfl
    have hrank := hsame hzx
    omega

/-- `DSetForest_Link` of a root with itself only raises its rank. -/
theorem link_self {this : DSetForest} {comp : CString → CString} (h : this.Realizes comp)
    {x : CString} {nx : DSetNode} (hx : this.lookup.get x = some nx) (hroot : nx.parent = x) :
    ∃ this', this.link x x = some this' ∧ this'.Realizes comp ∧
      ∀ z, (this'.lookup.get z).isSome = (this.lookup.get z).isSome := by
  unfold link
  rw [hx]
  simp only [Option.bind_eq_bind, Option.bind_some]
  rw [if_neg (lt_irrefl _), if_pos trivial]
  refine ⟨_, rfl, h.bump hx hroot (Nat.le_succ _) fun z => ?_, fun z => by
    rw [Map.get_modify, get_setParent, Option.isSome_map, Option.isSome_map]⟩
  rw [Map.get_modify, get_setParent, Option.map_map]
  refine Option.map_congr fun n hn => ?_
  rw [Function.comp_apply]
  by_cases hzx : z = x
  · rw [hzx] at hn
    rw [if_pos hzx, if_pos hzx, if_pos hzx, ← Option.some.inj (hx.symm.trans hn), hroot]
  · rw [if_neg hzx, if_neg hzx, if_neg hzx]

theorem SameRanks.isSome_get {this other : DSetForest} (h : SameRanks this other) (z : CString) :
    (other.lookup.get z).isSome = (this.lookup.get z).isSome := by
  rw [← Option.isSome_map (f := DSetNode.rank), h z, Option.isSome_map]

/-- Looking an element up keeps the partition and the elements. -/
theorem Realizes.getRepresentative {this : DSetForest} {comp : CString → CString}
    (h : this.Realizes comp) {x : CString} (hx : (this.lookup.get x).isSome) :
    ∃ this', this.getRepresentative x = some (this', comp x) ∧ this'.Realizes comp ∧
      ∀ z, (this'.lookup.get z).isSome = (this.lookup.get z).isSome := by
  obtain ⟨n, hn⟩ := Option.isSome_iff_exists.mp hx
  obtain ⟨this', hrun, hfound⟩ := getRepresentative_eq h hn
  exact ⟨this', hrun, hfound.realizes, hfound.sameRanks.isSome_get⟩

/-- `DSetForest_Union` links the two representatives, in a forest of the same partition. -/
theorem union_eq_link {this : DSetForest} {comp : CString → CString} (h : this.Realizes comp)
    {u v : CString} (hu : (this.lookup.get u).isSome) (hv : (this.lookup.get v).isSome) :
    ∃ (f : DSetForest) (nu nv : DSetNode),
      this.union u v = f.link (comp u) (comp v) ∧ f.Realizes comp ∧
      f.lookup.get (comp u) = some nu ∧ nu.parent = comp u ∧
      f.lookup.get (comp v) = some nv ∧ nv.parent = comp v ∧
      comp (comp u) = comp u ∧ comp (comp v) = comp v ∧
      ∀ z, (f.lookup.get z).isSome = (this.lookup.get z).isSome := by
  obtain ⟨nu, hnu⟩ := Option.isSome_iff_exists.mp hu
  obtain ⟨nv, hnv⟩ := Option.isSome_iff_exists.mp hv
  obtain ⟨f₁, hrun₁, hfound₁⟩ := getRepresentative_eq h hnu
  obtain ⟨nv', hnv', -⟩ := hfound₁.sameRanks.get hnv
  obtain ⟨f₂, hrun₂, hfound₂⟩ := getRepresentative_eq hfound₁.realizes hnv'
  obtain ⟨rv, hrv, hrvroot, -⟩ := hfound₂.root
  -- the representative of `u` is still a root after the second search
  obtain ⟨ru, hru, hruroot, -⟩ := hfound₁.root
  obtain ⟨ru', hru', -⟩ := hfound₂.sameRanks.get hru
  have hidem : comp (comp u) = comp u := hfound₁.realizes.comp_root hru hruroot.symm
  have hidem' : comp (comp v) = comp v := hfound₂.realizes.comp_root hrv hrvroot.symm
  have hroot : ru'.parent = comp u := by
    by_contra hparent
    -- otherwise its rank would be below that of its own representative
    obtain ⟨p, hp⟩ := hfound₂.realizes.parent_some hru'
    have hlt := hfound₂.realizes.rank_lt hru' hp fun heq => hparent heq.symm
    obtain ⟨f₃, -, hfound₃⟩ := getRepresentative_eq hfound₂.realizes hp
    obtain ⟨m, hm, -, hle⟩ := hfound₃.root
    rw [hfound₂.realizes.comp_parent hru', hidem] at hm
    obtain ⟨k, hk, hrank⟩ := hfound₃.sameRanks.get hru'
    rw [Option.some.inj (hm.symm.trans hk)] at hle
    omega
  refine ⟨f₂, ru', rv, ?_, hfound₂.realizes, hru', hroot, hrv, hrvroot, hidem, hidem',
    fun z => (hfound₂.sameRanks.isSome_get z).trans (hfound₁.sameRanks.isSome_get z)⟩
  unfold union
  rw [hrun₁]
  simp only [Option.bind_eq_bind, Option.bind_some]
  rw [hrun₂]
  rfl

/-- `DSetForest_Union` merges two parts, or leaves one as it is. -/
theorem union_eq {this : DSetForest} {comp : CString → CString} (h : this.Realizes comp)
    {u v : CString} (hu : (this.lookup.get u).isSome) (hv : (this.lookup.get v).isSome) :
    ∃ this', this.union u v = some this' ∧
      (this'.Realizes (Hypertree.merge comp u v) ∨ this'.Realizes (Hypertree.merge comp v u)) ∧
      ∀ z, (this'.lookup.get z).isSome = (this.lookup.get z).isSome := by
  obtain ⟨f, nu, nv, hunion, hreal, hnu, hnuroot, hnv, hnvroot, hidem, hidem', hkeys⟩ :=
    union_eq_link h hu hv
  by_cases heq : comp u = comp v
  · obtain ⟨this', hlink, hpart, hnodes⟩ := link_self hreal hnu hnuroot
    have hsame : Hypertree.merge comp u v = comp := by
      funext x
      unfold Hypertree.merge
      split
      · next hx => rw [hx, heq]
      · rfl
    refine ⟨this', ?_, Or.inl ?_, fun z => (hnodes z).trans (hkeys z)⟩
    · rw [hunion, ← heq, hlink]
    · rw [hsame]
      exact hpart
  · obtain ⟨this', hlink, hpart, hnodes⟩ := link_eq hreal hnu hnv hnuroot hnvroot heq
    have hsame : ∀ {a b : CString}, comp (comp a) = comp a → comp (comp b) = comp b →
        Hypertree.merge comp (comp a) (comp b) = Hypertree.merge comp a b := by
      intro a b ha hb
      unfold Hypertree.merge
      rw [ha, hb]
    rw [hsame hidem hidem', hsame hidem' hidem] at hpart
    exact ⟨this', hunion.trans hlink, hpart, fun z => (hnodes z).trans (hkeys z)⟩

/-! ## Singletons -/

/-- A fresh forest of singletons. -/
theorem realizes_create : create.Realizes id := by
  have hnone : ∀ x, create.lookup.get x = none := fun _ => rfl
  refine ⟨fun h => ?_, fun h => ?_, fun h => ?_, fun h => ?_⟩ <;>
    exact absurd h (by rw [hnone]; simp)

theorem makeSet_of_isSome {this : DSetForest} {element : CString}
    (h : (this.lookup.get element).isSome) : this.makeSet element = this := by
  unfold makeSet Map.add
  split
  · rfl
  · next hnone =>
      rw [hnone] at h
      exact absurd h (by simp)

/-- A new element is a part of its own. -/
theorem Realizes.makeSet {this : DSetForest} {comp : CString → CString} (h : this.Realizes comp)
    {element : CString} (hnew : this.lookup.get element = none) :
    (this.makeSet element).Realizes (Function.update comp element element) := by
  have hget : ∀ x, (this.makeSet element).lookup.get x =
      if x = element then some ⟨element, 0⟩ else this.lookup.get x := by
    intro x
    unfold DSetForest.makeSet
    rw [Map.get_add]
    by_cases hx : x = element
    · rw [if_pos hx, if_pos ⟨hx, hnew⟩]
    · rw [if_neg hx, if_neg fun hboth => hx hboth.1]
  have hold : ∀ {x n}, (this.makeSet element).lookup.get x = some n →
      (x = element ∧ n = ⟨element, 0⟩) ∨
        (x ≠ element ∧ n.parent ≠ element ∧ this.lookup.get x = some n) := by
    intro x n hx
    rw [hget] at hx
    by_cases heq : x = element
    · rw [if_pos heq] at hx
      exact Or.inl ⟨heq, (Option.some.inj hx).symm⟩
    · rw [if_neg heq] at hx
      refine Or.inr ⟨heq, fun hparent => ?_, hx⟩
      obtain ⟨m, hm⟩ := h.parent_some hx
      rw [hparent, hnew] at hm
      exact absurd hm (by simp)
  refine ⟨fun {x n} hx => ?_, fun {x n} hx => ?_, fun {x n} hx => ?_, fun {x n m} hx hm => ?_⟩
  · rcases hold hx with ⟨-, rfl⟩ | ⟨-, hne, hx⟩
    · exact ⟨_, by rw [hget, if_pos rfl]⟩
    · obtain ⟨m, hm⟩ := h.parent_some hx
      exact ⟨m, by rw [hget, if_neg hne, hm]⟩
  · rcases hold hx with ⟨rfl, rfl⟩ | ⟨hxe, hne, hx⟩
    · rfl
    · rw [Function.update_of_ne hne, Function.update_of_ne hxe, h.comp_parent hx]
  · rcases hold hx with ⟨rfl, -⟩ | ⟨hxe, -, hx⟩
    · exact fun _ => Function.update_self ..
    · rw [Function.update_of_ne hxe]
      exact h.comp_root hx
  · intro hself
    rcases hold hx with ⟨rfl, rfl⟩ | ⟨-, hne, hx⟩
    · exact absurd rfl hself
    · rw [hget, if_neg hne] at hm
      exact h.rank_lt hx hm hself

theorem realizes_makeSet {this : DSetForest} (h : this.Realizes id) (element : CString) :
    (this.makeSet element).Realizes id := by
  cases hget : this.lookup.get element with
  | some n =>
      rw [makeSet_of_isSome (by rw [hget]; rfl)]
      exact h
  | none =>
      have hnew := h.makeSet hget
      rwa [show Function.update id element element = id from Function.update_eq_self element id]
        at hnew

theorem isSome_get_makeSet (this : DSetForest) (element x : CString) :
    ((this.makeSet element).lookup.get x).isSome ↔
      x = element ∨ (this.lookup.get x).isSome := by
  unfold makeSet
  rw [Map.get_add]
  by_cases hx : x = element
  · subst hx
    cases hget : this.lookup.get x <;> simp
  · simp [hx]

end DSetForest

end JunctionBox
