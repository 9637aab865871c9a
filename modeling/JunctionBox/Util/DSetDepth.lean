import JunctionBox.Foundations.RankedSets
import JunctionBox.Util.DSetRuns

/-!
# How deep `DSetForest_FindSet` recurses

`DSetForest_Link` raises a rank only when it links two roots of the same rank, so
a part pays for the rank of its root by its size.  `DSetForest_Union` does not
ask whether its elements are joined already: it then links the root with itself
and raises its rank for nothing.  Each such union may cost one more nested call
(`findSet_depth`), and sometimes it does (`findSet_depth_chain`).
-/

namespace JunctionBox.DSetForest

open Hypertree RankedSets

variable {this other : DSetForest} {comp : CString → CString} {x y u v : CString} {n : DSetNode}
  {k : ℕ}

/-- The elements that have a node. -/
def nodes (this : DSetForest) : Finset CString := this.lookup.keys.toFinset

/-- The rank of an element's node. -/
def rankOf (this : DSetForest) (x : CString) : ℕ :=
  ((this.lookup.get x).map DSetNode.rank).getD 0

theorem mem_nodes : x ∈ this.nodes ↔ (this.lookup.get x).isSome := by
  rw [nodes, List.mem_toFinset, Map.isSome_get_iff]

theorem rankOf_eq (hx : this.lookup.get x = some n) : this.rankOf x = n.rank := by
  rw [rankOf, hx]
  rfl

theorem SameRanks.rankOf_eq (h : SameRanks this other) : other.rankOf = this.rankOf := by
  funext z
  rw [rankOf, rankOf, h z]

theorem nodes_eq (h : ∀ z, (other.lookup.get z).isSome = (this.lookup.get z).isSome) :
    other.nodes = this.nodes := by
  ext z
  rw [mem_nodes, mem_nodes, h]

/-! ## The recursion -/

theorem findSet_mono {found : DSetForest × CString} :
    ∀ {rounds more : ℕ} {this : DSetForest} {x : CString}, findSet rounds this x = some found →
      rounds ≤ more → findSet more this x = some found := by
  intro rounds
  induction rounds generalizing found with
  | zero => exact fun hrun => absurd hrun nofun
  | succ rounds ih =>
      intro more this x hrun hle
      obtain ⟨more, rfl⟩ := Nat.exists_eq_add_of_lt (Nat.lt_of_succ_le hle)
      unfold findSet at hrun ⊢
      obtain ⟨n, hn, hrun⟩ := Option.bind_eq_some_iff.mp hrun
      rw [hn, Option.bind_eq_bind, Option.bind_some]
      split at hrun
      · next hself =>
          obtain ⟨below, hbelow, hrun⟩ := Option.bind_eq_some_iff.mp hrun
          rw [if_pos hself, ih hbelow (Nat.le_add_right _ _)]
          exact hrun
      · next hself =>
          rw [if_neg hself]
          exact hrun

theorem Realizes.rank_le_root (h : this.Realizes comp) {r : DSetNode}
    (hx : this.lookup.get x = some n) (hr : this.lookup.get (comp x) = some r) :
    n.rank ≤ r.rank := by
  obtain ⟨this', -, hfound⟩ := getRepresentative_eq h hx
  obtain ⟨m, hm, -, hle⟩ := hfound.root
  obtain ⟨r', hr', hrank⟩ := hfound.sameRanks.get hr
  rw [hm, Option.some.injEq] at hr'
  rw [hr', hrank] at hle
  exact hle

/-- The ranks on the way to the root bound the recursion. -/
theorem exists_findSet : ∀ (rounds : ℕ) {this : DSetForest} {x : CString} {n r : DSetNode},
    this.Realizes comp → this.lookup.get x = some n → this.lookup.get (comp x) = some r →
      r.rank - n.rank < rounds → ∃ found, findSet rounds this x = some found := by
  intro rounds
  induction rounds with
  | zero => exact fun _ _ _ h => absurd h (Nat.not_lt_zero _)
  | succ rounds ih =>
      intro this x n r h hx hr hlt
      unfold findSet
      rw [hx, Option.bind_eq_bind, Option.bind_some]
      by_cases hself : x = n.parent
      · rw [if_neg (not_not.mpr hself)]
        exact ⟨_, rfl⟩
      · rw [if_pos hself]
        obtain ⟨p, hp⟩ := h.parent_some hx
        have hrank := h.rank_lt hx hp hself
        have hr' : this.lookup.get (comp n.parent) = some r := by rw [h.comp_parent hx, hr]
        have hle := h.rank_le_root hp hr'
        obtain ⟨below, hbelow⟩ := ih h hp hr' (by omega)
        rw [hbelow]
        exact ⟨_, rfl⟩

/-! ## The ranks -/

/-- The ranks are paid for by the sizes of the parts, and by `slack` links of a root with
itself. -/
structure Ranked (this : DSetForest) (comp : CString → CString) (slack : ℕ) : Prop where
  realizes : this.Realizes comp
  balanced : Balanced this.nodes comp this.rankOf slack

/-- `DSetForest_GetRepresentative` needs no more nested calls of `DSetForest_FindSet` than the
logarithm of the size of the part, and one for every link of a root with itself. -/
theorem Ranked.findSet_eq (h : Ranked this comp k) (hx : x ∈ this.nodes) :
    findSet (Nat.log 2 (part this.nodes comp x).card + k + 1) this x =
      this.getRepresentative x := by
  obtain ⟨n, hn⟩ := Option.isSome_iff_exists.mp (mem_nodes.mp hx)
  have hroot := h.realizes.comp_registered (mem_nodes.mp hx)
  obtain ⟨r, hr⟩ := Option.isSome_iff_exists.mp hroot
  obtain ⟨this', hrun, hfound⟩ := getRepresentative_eq h.realizes hn
  have hidem : comp (comp x) = comp x := by
    obtain ⟨m, hm, hself, -⟩ := hfound.root
    exact hfound.realizes.comp_root hm hself.symm
  have hle := h.balanced.rank_le (mem_nodes.mpr hroot)
  have hpart : part this.nodes comp (comp x) = part this.nodes comp x := by
    rw [part, part, hidem]
  rw [hpart, rankOf_eq hr] at hle
  obtain ⟨found, hfind⟩ := exists_findSet (Nat.log 2 (part this.nodes comp x).card + k + 1)
    h.realizes hn hr (by omega)
  rw [getRepresentative] at hrun ⊢
  rcases Nat.le_total (Nat.log 2 (part this.nodes comp x).card + k + 1) this.lookup.size with
    hsize | hsize
  · rw [hfind, findSet_mono hfind hsize]
  · rw [hrun, findSet_mono hrun hsize]

theorem ranked_create : Ranked create id 0 where
  realizes := realizes_create
  balanced x hx := by
    rw [mem_nodes] at hx
    exact absurd hx nofun

theorem Ranked.makeSet (h : Ranked this comp k) (hnew : this.lookup.get x = none) :
    Ranked (this.makeSet x) (Function.update comp x x) k := by
  have hx : x ∉ this.nodes := by
    rw [mem_nodes, hnew]
    exact nofun
  have hnodes : (this.makeSet x).nodes = insert x this.nodes := by
    ext z
    rw [mem_nodes, isSome_get_makeSet, Finset.mem_insert, mem_nodes]
  have hrank : (this.makeSet x).rankOf = Function.update this.rankOf x 0 := by
    funext z
    rw [rankOf, DSetForest.makeSet, Map.get_add]
    by_cases hz : z = x
    · rw [if_pos ⟨hz, hnew⟩, hz, Function.update_self]
      rfl
    · rw [if_neg fun hboth => hz hboth.1, Function.update_of_ne hz]
      rfl
  exact ⟨h.realizes.makeSet hnew, by rw [hnodes, hrank]; exact h.balanced.insert hx⟩

theorem Ranked.getRepresentative (h : Ranked this comp k) (hx : x ∈ this.nodes) :
    ∃ f, this.getRepresentative x = some (f, comp x) ∧ Ranked f comp k ∧
      f.nodes = this.nodes := by
  obtain ⟨n, hn⟩ := Option.isSome_iff_exists.mp (mem_nodes.mp hx)
  obtain ⟨f, hrun, hfound⟩ := getRepresentative_eq h.realizes hn
  have hnodes := nodes_eq hfound.sameRanks.isSome_get
  refine ⟨f, hrun, ⟨hfound.realizes, ?_⟩, hnodes⟩
  rw [hnodes, hfound.sameRanks.rankOf_eq]
  exact h.balanced

theorem Realizes.parent_root (h : this.Realizes comp) (hx : this.lookup.get x = some n)
    (hroot : comp x = x) : n.parent = x := by
  by_contra hparent
  -- otherwise its rank would be below that of its own representative
  obtain ⟨p, hp⟩ := h.parent_some hx
  have hlt := h.rank_lt hx hp fun heq => hparent heq.symm
  have hself : this.lookup.get (comp n.parent) = some n := by rw [h.comp_parent hx, hroot, hx]
  have hle := h.rank_le_root hp hself
  omega

theorem rankOf_modify (this : DSetForest) (y : CString) (hy : (this.lookup.get y).isSome) :
    (⟨this.lookup.modify y fun n => { n with rank := n.rank + 1 }⟩ : DSetForest).rankOf =
      Function.update this.rankOf y (this.rankOf y + 1) := by
  obtain ⟨n, hn⟩ := Option.isSome_iff_exists.mp hy
  funext z
  rw [rankOf, Map.get_modify, Option.map_map]
  by_cases hz : z = y
  · rw [hz, Function.update_self, rankOf_eq hn, hn]
    simp
  · rw [Function.update_of_ne hz, rankOf]
    simp only [Function.comp_def, if_neg hz]

/-- A link changes one rank at most, and only when both ranks are the same. -/
theorem link_ranks (hx : (this.lookup.get x).isSome) (hy : (this.lookup.get y).isSome)
    (hrun : this.link x y = some other) : other.rankOf = this.rankOf ∨
      this.rankOf x = this.rankOf y ∧
        other.rankOf = Function.update this.rankOf y (this.rankOf y + 1) := by
  obtain ⟨nx, hnx⟩ := Option.isSome_iff_exists.mp hx
  obtain ⟨ny, hny⟩ := Option.isSome_iff_exists.mp hy
  unfold link at hrun
  rw [hnx, hny] at hrun
  simp only [Option.bind_eq_bind, Option.bind_some] at hrun
  split at hrun
  · obtain rfl := Option.some.inj hrun
    exact Or.inl (sameRanks_setParent this y x).rankOf_eq
  split at hrun
  · next heq =>
      obtain rfl := Option.some.inj hrun
      have hranks := (sameRanks_setParent this x y)
      refine Or.inr ⟨by rw [rankOf_eq hnx, rankOf_eq hny, heq], ?_⟩
      rw [rankOf_modify _ _ ((hranks.isSome_get y).trans hy), hranks.rankOf_eq]
  · obtain rfl := Option.some.inj hrun
    exact Or.inl (sameRanks_setParent this x y).rankOf_eq

/-- `DSetForest_Union` of two parts is paid for by the parts, of one part with itself it is
not. -/
theorem Ranked.union (h : Ranked this comp k) (hu : u ∈ this.nodes) (hv : v ∈ this.nodes) :
    ∃ this', this.union u v = some this' ∧ this'.nodes = this.nodes ∧
      if comp u = comp v then Ranked this' comp (k + 1)
      else Ranked this' (merge comp u v) k ∨ Ranked this' (merge comp v u) k := by
  obtain ⟨f₁, hrun₁, h₁, hnodes₁⟩ := h.getRepresentative hu
  obtain ⟨f₂, hrun₂, h₂, hnodes₂⟩ := h₁.getRepresentative (hnodes₁ ▸ hv)
  have hunion : this.union u v = f₂.link (comp u) (comp v) := by
    rw [DSetForest.union, hrun₁, Option.bind_eq_bind, Option.bind_some, hrun₂]
    rfl
  have hnodes := hnodes₂.trans hnodes₁
  have hroot : ∀ x ∈ this.nodes, ∃ n, f₂.lookup.get (comp x) = some n ∧ n.parent = comp x ∧
      comp (comp x) = comp x := by
    intro x hx
    have hx₂ : (f₂.lookup.get x).isSome := mem_nodes.mp (hnodes ▸ hx)
    obtain ⟨n, hn⟩ := Option.isSome_iff_exists.mp (h₂.realizes.comp_registered hx₂)
    obtain ⟨m, hm⟩ := Option.isSome_iff_exists.mp hx₂
    obtain ⟨f₃, -, hfound⟩ := getRepresentative_eq h₂.realizes hm
    obtain ⟨r, hr, hself, -⟩ := hfound.root
    have hidem := hfound.realizes.comp_root hr hself.symm
    exact ⟨n, hn, h₂.realizes.parent_root hn hidem, hidem⟩
  obtain ⟨nu, hnu, hnuroot, hidemu⟩ := hroot u hu
  obtain ⟨nv, hnv, hnvroot, hidemv⟩ := hroot v hv
  have hu₂ : (f₂.lookup.get (comp u)).isSome := by rw [hnu]; rfl
  have hv₂ : (f₂.lookup.get (comp v)).isSome := by rw [hnv]; rfl
  by_cases heq : comp u = comp v
  · obtain ⟨this', hlink, hreal, hkeys⟩ := link_self h₂.realizes hnu hnuroot
    have hsame := nodes_eq hkeys
    rw [heq] at hlink hu₂
    refine ⟨this', by rw [hunion, heq, hlink], hsame.trans hnodes, ?_⟩
    rw [if_pos heq]
    refine ⟨hreal, hsame ▸ h₂.balanced.bump fun a _ => ?_⟩
    rcases link_ranks hu₂ hv₂ hlink with hrank | ⟨-, hrank⟩
    · rw [hrank]
      exact Nat.le_succ _
    · rw [hrank, Function.update_apply]
      split
      · next ha => rw [ha]
      · exact Nat.le_succ _
  · obtain ⟨this', hlink, hreal, hkeys⟩ :=
      link_eq h₂.realizes hnu hnv hnuroot hnvroot heq
    have hsame := nodes_eq hkeys
    have hidem : ∀ {a b : CString}, comp (comp a) = comp a → comp (comp b) = comp b →
        merge comp (comp a) (comp b) = merge comp a b := by
      intro a b ha hb
      unfold merge
      rw [ha, hb]
    rw [hidem hidemu hidemv, hidem hidemv hidemu] at hreal
    have hbalanced : Balanced this'.nodes (merge comp u v) this'.rankOf k := by
      rw [hsame, ← hidem hidemu hidemv]
      refine h₂.balanced.merge (mem_nodes.mpr hu₂) (mem_nodes.mpr hv₂)
        (by rwa [hidemu, hidemv]) (fun a _ ha => ?_) ?_
      · rcases link_ranks hu₂ hv₂ hlink with hrank | ⟨-, hrank⟩
        · rw [hrank]
        · rw [hrank, Function.update_of_ne ha]
      · rcases link_ranks hu₂ hv₂ hlink with hrank | ⟨hranks, hrank⟩
        · exact Or.inl (by rw [hrank])
        · exact Or.inr ⟨hranks, by rw [hrank, Function.update_self]⟩
    refine ⟨this', hunion.trans hlink, hsame.trans hnodes, ?_⟩
    rw [if_neg heq]
    refine hreal.imp (fun hreal => ⟨hreal, hbalanced⟩) fun hreal => ⟨hreal, ?_⟩
    refine hbalanced.congr (fun a _ b _ => ?_) fun _ _ => rfl
    rw [merge_eq_iff, merge_eq_iff, or_comm (a := comp a = comp v ∧ comp b = comp u)]

/-! ## Runs -/

open Classical in
/-- The number of unions of elements that earlier unions connect. -/
noncomputable def repeats (calls : List Call) : ℕ :=
  ((List.range calls.length).filter fun i => ∃ a b, calls[i]? = some (.union a b) ∧
    Relation.EqvGen (Joined (calls.take i)) a b).length

open Classical in
theorem repeats_concat (calls : List Call) (c : Call) : repeats (calls ++ [c]) = repeats calls +
    if ∃ a b, c = .union a b ∧ Relation.EqvGen (Joined calls) a b then 1 else 0 := by
  rw [repeats, List.length_append, List.length_singleton, List.range_succ, List.filter_append,
    List.length_append]
  congr 1
  · refine congrArg List.length (List.filter_congr fun i hi => ?_)
    have hlt := List.mem_range.mp hi
    rw [List.getElem?_append_left hlt, List.take_append_of_le_length hlt.le]
  · have hlast : (calls ++ [c]).take calls.length = calls := List.take_left
    rw [List.filter_cons, List.getElem?_concat_length, hlast]
    simp only [Option.some.injEq, decide_eq_true_eq]
    split <;> rfl

theorem repeats_of_not_union {calls : List Call} {c : Call} (hc : ∀ a b, c ≠ .union a b) :
    repeats (calls ++ [c]) = repeats calls := by
  rw [repeats_concat, if_neg fun ⟨a, b, heq, _⟩ => hc a b heq, Nat.add_zero]

/-- Looking an element up is no union and makes nothing. -/
theorem Holds.looked {calls : List Call} (h : Holds calls this comp) (element : CString) :
    Holds (calls ++ [.getRepresentative element]) this comp := by
  have hrel : Joined (calls ++ [.getRepresentative element]) = Joined calls := by
    funext a b
    simp [Joined]
  refine ⟨h.realizes, fun e => ?_, fun a b hr => ?_, fun a b ha hb heq => ?_⟩
  · rw [h.nodes]
    simp
  · obtain ⟨ha, hb, heq⟩ := h.joined a b (hrel ▸ hr)
    exact ⟨List.mem_append_left _ ha, List.mem_append_left _ hb, heq⟩
  · rw [hrel]
    exact h.complete a b (by simpa using ha) (by simpa using hb) heq

/-- After any calls the ranks are paid for by the parts and by the repeated unions. -/
theorem exists_ranked {calls : List Call} (h : Registered calls) :
    ∃ this comp, run calls = some this ∧ Holds calls this comp ∧
      Ranked this comp (repeats calls) := by
  induction h with
  | nil => exact ⟨create, id, rfl, holds_nil, ranked_create⟩
  | @makeSet calls element _ ih =>
      obtain ⟨this, comp, hrun, hholds, hranked⟩ := ih
      have hrun' : run (calls ++ [.makeSet element]) = some (this.makeSet element) := by
        rw [run_append, hrun]
        rfl
      rw [repeats_of_not_union (c := .makeSet element) (by simp)]
      cases hget : this.lookup.get element with
      | none => exact ⟨_, _, hrun', hholds.makeSet_new hget, hranked.makeSet hget⟩
      | some n =>
          have hsome : (this.lookup.get element).isSome := by rw [hget]; rfl
          refine ⟨_, comp, hrun', hholds.makeSet_again ((hholds.nodes element).mp hsome), ?_⟩
          rw [makeSet_of_isSome hsome]
          exact hranked
  | @union calls u v _ hu hv ih =>
      obtain ⟨this, comp, hrun, hholds, hranked⟩ := ih
      have hu' := (hholds.nodes u).mpr hu
      have hv' := (hholds.nodes v).mpr hv
      obtain ⟨this', hunion, hnodes, hcases⟩ :=
        hranked.union (mem_nodes.mpr hu') (mem_nodes.mpr hv')
      have hkeys : ∀ z, (this'.lookup.get z).isSome = (this.lookup.get z).isSome := by
        intro z
        rw [Bool.eq_iff_iff, ← mem_nodes, ← mem_nodes, hnodes]
      have hrun' : run (calls ++ [.union u v]) = some this' := by
        rw [run_append, hrun]
        exact hunion
      have hconnected := hholds.comp_eq_iff hu hv
      rw [repeats_concat]
      by_cases heq : comp u = comp v
      · rw [if_pos heq] at hcases
        rw [if_pos ⟨u, v, rfl, hconnected.mp heq⟩]
        have hsame : Hypertree.merge comp u v = comp := by
          funext z
          unfold Hypertree.merge
          split
          · next hz => rw [hz, heq]
          · rfl
        have hreal : this'.Realizes (Hypertree.merge comp u v) := by
          rw [hsame]
          exact hcases.realizes
        have hmerged := hholds.merge hu hv hreal rfl hkeys
        rw [hsame] at hmerged
        exact ⟨this', comp, hrun', hmerged, hcases⟩
      · rw [if_neg heq] at hcases
        have hnew : ¬ ∃ a b, Call.union u v = .union a b ∧
            Relation.EqvGen (Joined calls) a b := by
          rintro ⟨a, b, hab, hconn⟩
          obtain ⟨rfl, rfl⟩ := Call.union.inj hab
          exact heq (hconnected.mpr hconn)
        rw [if_neg hnew, Nat.add_zero]
        rcases hcases with hcases | hcases
        · exact ⟨this', _, hrun', hholds.merge hu hv hcases.realizes rfl hkeys, hcases⟩
        · exact ⟨this', _, hrun', hholds.merge hu hv hcases.realizes Sym2.eq_swap hkeys, hcases⟩
  | @getRepresentative calls element _ hmem ih =>
      obtain ⟨this, comp, hrun, hholds, hranked⟩ := ih
      obtain ⟨f, hfind, hf, -⟩ :=
        hranked.getRepresentative (mem_nodes.mpr ((hholds.nodes element).mpr hmem))
      obtain ⟨f', hfind', hf'⟩ := hholds.getRepresentative hmem
      obtain ⟨rfl, -⟩ := Prod.mk.inj (Option.some.inj (hfind.symm.trans hfind'))
      rw [repeats_of_not_union (c := .getRepresentative element) (by simp)]
      refine ⟨f, comp, ?_, hf'.looked element, hf⟩
      rw [run_append, hrun]
      show (this.getRepresentative element).map Prod.fst = some f
      rw [hfind]
      rfl

/-- **How deep the search recurses.**  After any calls on registered elements,
`DSetForest_GetRepresentative` nests the calls of `DSetForest_FindSet` at most as deep as the
binary logarithm of the size of the element's set, and one more for every union of elements
that were joined already. -/
theorem findSet_depth {calls : List Call} (h : Registered calls) :
    ∃ this, run calls = some this ∧ ∀ x, .makeSet x ∈ calls → ∃ found,
      this.getRepresentative x = some found ∧ findSet (Nat.log 2
        {e | .makeSet e ∈ calls ∧ Relation.EqvGen (Joined calls) e x}.ncard + repeats calls + 1)
          this x = some found := by
  obtain ⟨this, comp, hrun, hholds, hranked⟩ := exists_ranked h
  refine ⟨this, hrun, fun x hx => ?_⟩
  have hmem := mem_nodes.mpr ((hholds.nodes x).mpr hx)
  obtain ⟨f, hfind, -⟩ := hranked.getRepresentative hmem
  have hset : {e | .makeSet e ∈ calls ∧ Relation.EqvGen (Joined calls) e x} =
      (part this.nodes comp x : Set CString) := by
    ext e
    rw [Finset.mem_coe, mem_part, mem_nodes, hholds.nodes]
    exact and_congr_right fun he => (hholds.comp_eq_iff he hx).symm
  refine ⟨_, hfind, ?_⟩
  rw [hset, Set.ncard_coe_finset, hranked.findSet_eq hmem, hfind]

/-- The bound is reached: after one repeated union a set of three has a chain of three. -/
theorem findSet_depth_chain :
    let calls : List Call := [.makeSet ['a'], .makeSet ['b'], .makeSet ['c'],
      .union ['c'] ['b'], .union ['a'] ['a'], .union ['b'] ['a']]
    ∃ this, run calls = some this ∧ findSet 2 this ['c'] = none ∧ ∃ found,
      this.getRepresentative ['c'] = some found ∧ findSet (Nat.log 2
        {e | .makeSet e ∈ calls ∧ Relation.EqvGen (Joined calls) e ['c']}.ncard +
          repeats calls + 1) this ['c'] = some found := by
  intro calls
  have hcalls : Registered calls :=
    (((((Registered.nil.makeSet ['a']).makeSet ['b']).makeSet ['c']).union (by decide)
      (by decide)).union (by decide) (by decide)).union (by decide) (by decide)
  have hdeep : (run calls).bind (fun this => findSet 2 this ['c']) = none := by decide
  obtain ⟨this, hrun, hdepth⟩ := findSet_depth hcalls
  rw [hrun] at hdeep
  exact ⟨this, hrun, hdeep, hdepth ['c'] (by decide)⟩

end JunctionBox.DSetForest
