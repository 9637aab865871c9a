import JunctionBox.Util.DSetForest
import Mathlib.Logic.Relation

/-!
# Runs of a disjoint set forest

Any sequence of calls on registered elements: elements may be made again, and
joined with elements they are joined with already, or with themselves.

`Holds` is what such a run keeps.  The forest stands for a partition in which
every union performed joins its two elements, and which joins nothing that the
unions do not (`partition_of_calls`).
-/

namespace JunctionBox.DSetForest

/-- A call of one of the three functions. -/
inductive Call where
  | makeSet (element : CString)
  | union (element1 element2 : CString)
  | getRepresentative (element : CString)
deriving DecidableEq

/-- What a call leaves behind. -/
def call (this : DSetForest) : Call → Option DSetForest
  | .makeSet element => some (this.makeSet element)
  | .union element1 element2 => this.union element1 element2
  | .getRepresentative element => (this.getRepresentative element).map Prod.fst

/-- The calls in turn, on a new forest. -/
def run (calls : List Call) : Option DSetForest := calls.foldlM call create

/-- The calls are on registered elements. -/
inductive Registered : List Call → Prop
  | nil : Registered []
  | makeSet {calls : List Call} (element : CString) :
      Registered calls → Registered (calls ++ [.makeSet element])
  | union {calls : List Call} {element1 element2 : CString} :
      Registered calls → .makeSet element1 ∈ calls → .makeSet element2 ∈ calls →
        Registered (calls ++ [.union element1 element2])
  | getRepresentative {calls : List Call} {element : CString} :
      Registered calls → .makeSet element ∈ calls →
        Registered (calls ++ [.getRepresentative element])

/-- `GetRepresentative(a)` and then `GetRepresentative(b)` return the same node. -/
def SameSet (this : DSetForest) (a b : CString) : Prop :=
  ∃ f g root, this.getRepresentative a = some (f, root) ∧ f.getRepresentative b = some (g, root)

/-- `x->parent`. -/
def parentOf (this : DSetForest) (x : CString) : CString :=
  ((this.lookup.get x).map DSetNode.parent).getD x

/-- The unions performed. -/
def Joined (calls : List Call) (a b : CString) : Prop := .union a b ∈ calls

/-- What a run keeps. -/
structure Holds (calls : List Call) (this : DSetForest) (comp : CString → CString) : Prop where
  realizes : this.Realizes comp
  nodes : ∀ e, (this.lookup.get e).isSome ↔ .makeSet e ∈ calls
  joined : ∀ a b, Joined calls a b → .makeSet a ∈ calls ∧ .makeSet b ∈ calls ∧ comp a = comp b
  complete : ∀ a b, .makeSet a ∈ calls → .makeSet b ∈ calls → comp a = comp b →
    Relation.EqvGen (Joined calls) a b

theorem Realizes.comp_registered {this : DSetForest} {comp : CString → CString}
    (h : this.Realizes comp) {x : CString} (hx : (this.lookup.get x).isSome) :
    (this.lookup.get (comp x)).isSome := by
  obtain ⟨n, hn⟩ := Option.isSome_iff_exists.mp hx
  obtain ⟨this', -, hfound⟩ := getRepresentative_eq h hn
  obtain ⟨m, hm, -⟩ := hfound.root
  rw [← hfound.sameRanks.isSome_get, hm]
  rfl

/-- A partition that joins the related elements joins all that the relation connects. -/
theorem eq_of_eqvGen {r : CString → CString → Prop} {comp : CString → CString}
    (h : ∀ a b, r a b → comp a = comp b) {a b : CString} (hab : Relation.EqvGen r a b) :
    comp a = comp b :=
  (eq_equivalence.comap comp).eqvGen_iff.mp (Relation.EqvGen.mono h _ _ hab)

theorem Holds.comp_eq_iff {calls : List Call} {this : DSetForest} {comp : CString → CString}
    (h : Holds calls this comp) {a b : CString} (ha : .makeSet a ∈ calls)
    (hb : .makeSet b ∈ calls) : comp a = comp b ↔ Relation.EqvGen (Joined calls) a b :=
  ⟨h.complete a b ha hb, eq_of_eqvGen fun a b hr => (h.joined a b hr).2.2⟩

/-! ## One call -/

section Step

variable {calls : List Call} {this : DSetForest} {comp : CString → CString}

theorem holds_nil : Holds [] create id where
  realizes := realizes_create
  nodes e := iff_of_false (by simp [create, Map.get, Map.create]) List.not_mem_nil
  joined _ _ hr := absurd hr List.not_mem_nil
  complete _ _ ha := absurd ha List.not_mem_nil

theorem joined_makeSet (element : CString) :
    Joined (calls ++ [.makeSet element]) = Joined calls := by
  funext a b
  simp [Joined]

theorem Holds.nodes_makeSet (h : Holds calls this comp) (element e : CString) :
    ((this.makeSet element).lookup.get e).isSome ↔
      .makeSet e ∈ calls ++ [.makeSet element] := by
  rw [isSome_get_makeSet, h.nodes]
  simp [or_comm]

/-- Nothing happens to an element that is made again. -/
theorem Holds.makeSet_again (h : Holds calls this comp) {element : CString}
    (hmem : .makeSet element ∈ calls) :
    Holds (calls ++ [.makeSet element]) (this.makeSet element) comp := by
  have hold : ∀ {e}, .makeSet e ∈ calls ++ [.makeSet element] → .makeSet e ∈ calls := by
    intro e he
    rcases List.mem_append.mp he with he | he
    · exact he
    · obtain rfl := Call.makeSet.inj (List.mem_singleton.mp he)
      exact hmem
  refine ⟨?_, h.nodes_makeSet element, fun a b hr => ?_, fun a b ha hb heq => ?_⟩
  · rw [makeSet_of_isSome ((h.nodes element).mpr hmem)]
    exact h.realizes
  · obtain ⟨ha, hb, heq⟩ := h.joined a b (joined_makeSet element ▸ hr)
    exact ⟨List.mem_append_left _ ha, List.mem_append_left _ hb, heq⟩
  · rw [joined_makeSet]
    exact h.complete a b (hold ha) (hold hb) heq

/-- A new element is a part of its own. -/
theorem Holds.makeSet_new (h : Holds calls this comp) {element : CString}
    (hget : this.lookup.get element = none) :
    Holds (calls ++ [.makeSet element]) (this.makeSet element)
      (Function.update comp element element) := by
  have hne : ∀ {e}, .makeSet e ∈ calls → e ≠ element := by
    intro e he heq
    have hsome := (h.nodes e).mpr he
    rw [heq, hget] at hsome
    exact absurd hsome (by simp)
  have hcomp : ∀ {e}, .makeSet e ∈ calls → comp e ≠ element := by
    intro e he heq
    have hsome := h.realizes.comp_registered ((h.nodes e).mpr he)
    rw [heq, hget] at hsome
    exact absurd hsome (by simp)
  have hcases : ∀ {e}, .makeSet e ∈ calls ++ [.makeSet element] →
      .makeSet e ∈ calls ∨ e = element := by
    intro e he
    simpa using he
  refine ⟨h.realizes.makeSet hget, h.nodes_makeSet element, fun a b hr => ?_,
    fun a b ha hb heq => ?_⟩
  · obtain ⟨ha, hb, heq⟩ := h.joined a b (joined_makeSet element ▸ hr)
    refine ⟨List.mem_append_left _ ha, List.mem_append_left _ hb, ?_⟩
    rw [Function.update_of_ne (hne ha), Function.update_of_ne (hne hb), heq]
  · rw [joined_makeSet]
    rcases hcases ha with ha | rfl <;> rcases hcases hb with hb | hb
    · rw [Function.update_of_ne (hne ha), Function.update_of_ne (hne hb)] at heq
      exact h.complete a b ha hb heq
    · rw [hb, Function.update_self, Function.update_of_ne (hne ha)] at heq
      exact absurd heq (hcomp ha)
    · rw [Function.update_self, Function.update_of_ne (hne hb)] at heq
      exact absurd heq.symm (hcomp hb)
    · rw [hb]
      exact Relation.EqvGen.refl _

theorem Holds.makeSet (h : Holds calls this comp) (element : CString) :
    ∃ comp', Holds (calls ++ [.makeSet element]) (this.makeSet element) comp' := by
  cases hget : this.lookup.get element with
  | some n => exact ⟨comp, h.makeSet_again ((h.nodes element).mp (by rw [hget]; rfl))⟩
  | none => exact ⟨_, h.makeSet_new hget⟩

theorem Holds.getRepresentative (h : Holds calls this comp) {element : CString}
    (hmem : .makeSet element ∈ calls) :
    ∃ this', this.getRepresentative element = some (this', comp element) ∧
      Holds calls this' comp := by
  obtain ⟨this', hrun, hreal, hnodes⟩ :=
    h.realizes.getRepresentative ((h.nodes element).mpr hmem)
  refine ⟨this', hrun, hreal, fun e => ?_, h.joined, h.complete⟩
  rw [hnodes, h.nodes]

/-- The new parts are those that one more union connects. -/
theorem Holds.merge (h : Holds calls this comp) {u v x y : CString} (hu : .makeSet u ∈ calls)
    (hv : .makeSet v ∈ calls) {other : DSetForest}
    (hreal : other.Realizes (Hypertree.merge comp x y)) (hxy : s(x, y) = s(u, v))
    (hnodes : ∀ z, (other.lookup.get z).isSome = (this.lookup.get z).isSome) :
    Holds (calls ++ [.union u v]) other (Hypertree.merge comp x y) := by
  have hmake : ∀ {e}, .makeSet e ∈ calls ++ [.union u v] ↔ .makeSet e ∈ calls := by
    intro e
    simp
  have hjoined : ∀ {a b}, Joined (calls ++ [.union u v]) a b ↔
      Joined calls a b ∨ (a = u ∧ b = v) := by
    intro a b
    simp [Joined]
  have hmono : ∀ {a b}, Relation.EqvGen (Joined calls) a b →
      Relation.EqvGen (Joined (calls ++ [.union u v])) a b :=
    fun hab => Relation.EqvGen.mono (fun a b hr => hjoined.mpr (Or.inl hr)) _ _ hab
  have hnew : Relation.EqvGen (Joined (calls ++ [.union u v])) u v :=
    Relation.EqvGen.rel _ _ (hjoined.mpr (Or.inr ⟨rfl, rfl⟩))
  have hends : Relation.EqvGen (Joined (calls ++ [.union u v])) x y ∧ .makeSet x ∈ calls ∧
      .makeSet y ∈ calls ∧ Hypertree.merge comp x y u = Hypertree.merge comp x y v := by
    rcases Sym2.eq_iff.mp hxy with ⟨rfl, rfl⟩ | ⟨rfl, rfl⟩
    · exact ⟨hnew, hu, hv, (Hypertree.merge_eq_iff ..).mpr (Or.inr (Or.inl ⟨rfl, rfl⟩))⟩
    · exact ⟨hnew.symm _ _, hv, hu, (Hypertree.merge_eq_iff ..).mpr (Or.inr (Or.inr ⟨rfl, rfl⟩))⟩
  obtain ⟨hpath, hx, hy, hsame⟩ := hends
  refine ⟨hreal, fun e => ?_, fun a b hr => ?_, fun a b ha hb heq => ?_⟩
  · rw [hnodes, h.nodes, hmake]
  · rcases hjoined.mp hr with hr | ⟨rfl, rfl⟩
    · obtain ⟨ha, hb, heq⟩ := h.joined a b hr
      exact ⟨hmake.mpr ha, hmake.mpr hb, (Hypertree.merge_eq_iff ..).mpr (Or.inl heq)⟩
    · exact ⟨hmake.mpr hu, hmake.mpr hv, hsame⟩
  · rw [hmake] at ha hb
    rcases (Hypertree.merge_eq_iff ..).mp heq with heq | ⟨hax, hby⟩ | ⟨hay, hbx⟩
    · exact hmono (h.complete a b ha hb heq)
    · exact ((hmono (h.complete a x ha hx hax)).trans _ _ _ hpath).trans _ _ _
        (hmono (h.complete y b hy hb hby.symm))
    · exact ((hmono (h.complete a y ha hy hay)).trans _ _ _ (hpath.symm _ _)).trans _ _ _
        (hmono (h.complete x b hx hb hbx.symm))

theorem Holds.union (h : Holds calls this comp) {u v : CString} (hu : .makeSet u ∈ calls)
    (hv : .makeSet v ∈ calls) :
    ∃ this' comp', this.union u v = some this' ∧ Holds (calls ++ [.union u v]) this' comp' := by
  obtain ⟨this', hrun, hpart, hnodes⟩ :=
    union_eq h.realizes ((h.nodes u).mpr hu) ((h.nodes v).mpr hv)
  rcases hpart with hreal | hreal
  · exact ⟨this', _, hrun, h.merge hu hv hreal rfl hnodes⟩
  · exact ⟨this', _, hrun, h.merge hu hv hreal Sym2.eq_swap hnodes⟩

end Step

/-! ## All calls -/

theorem run_append (calls : List Call) (next : Call) :
    run (calls ++ [next]) = (run calls).bind fun this => this.call next := by
  unfold run
  rw [List.foldlM_append]
  cases calls.foldlM call create with
  | none => rfl
  | some this =>
      show (this.call next).bind some = this.call next
      exact Option.bind_fun_some _

/-- No call fails. -/
theorem exists_holds {calls : List Call} (h : Registered calls) :
    ∃ this comp, run calls = some this ∧ Holds calls this comp := by
  induction h with
  | nil => exact ⟨create, id, rfl, holds_nil⟩
  | @makeSet calls element _ ih =>
      obtain ⟨this, comp, hrun, hholds⟩ := ih
      obtain ⟨comp', hholds'⟩ := hholds.makeSet element
      exact ⟨_, comp', by rw [run_append, hrun]; rfl, hholds'⟩
  | union _ hu hv ih =>
      obtain ⟨this, comp, hrun, hholds⟩ := ih
      obtain ⟨this', comp', hunion, hholds'⟩ := hholds.union hu hv
      exact ⟨this', comp', by rw [run_append, hrun]; exact hunion, hholds'⟩
  | @getRepresentative calls element _ hmem ih =>
      obtain ⟨this, comp, hrun, hholds⟩ := ih
      obtain ⟨this', hfind, hkept⟩ := hholds.getRepresentative hmem
      refine ⟨this', comp, ?_, hkept.realizes, fun e => ?_, fun a b hr => ?_,
        fun a b ha hb heq => ?_⟩
      · rw [run_append, hrun]
        show (this.getRepresentative element).map Prod.fst = some this'
        rw [hfind]
        rfl
      · rw [hkept.nodes]
        simp
      · have hr' : Joined calls a b := by simpa [Joined] using hr
        obtain ⟨ha, hb, heq⟩ := hkept.joined a b hr'
        exact ⟨List.mem_append_left _ ha, List.mem_append_left _ hb, heq⟩
      · have hrel : Joined (calls ++ [.getRepresentative element]) = Joined calls := by
          funext a b
          simp [Joined]
        rw [hrel]
        exact hkept.complete a b (by simpa using ha) (by simpa using hb) heq

theorem Holds.sameSet_iff {calls : List Call} {this : DSetForest} {comp : CString → CString}
    (h : Holds calls this comp) {a b : CString} (ha : .makeSet a ∈ calls)
    (hb : .makeSet b ∈ calls) : this.SameSet a b ↔ comp a = comp b := by
  obtain ⟨f, hrun, hf⟩ := h.getRepresentative ha
  obtain ⟨g, hrun', -⟩ := hf.getRepresentative hb
  constructor
  · rintro ⟨f', g', root, hf', hg'⟩
    obtain ⟨rfl, rfl⟩ := Prod.mk.inj (Option.some.inj (hrun.symm.trans hf'))
    exact (Prod.mk.inj (Option.some.inj (hrun'.symm.trans hg'))).2.symm
  · intro heq
    exact ⟨f, g, comp a, hrun, heq ▸ hrun'⟩

/-- The parents of a node end at a root, because their ranks increase. -/
theorem Realizes.exists_root {this : DSetForest} {comp : CString → CString}
    (h : this.Realizes comp) {x : CString} {n : DSetNode} (hx : this.lookup.get x = some n) :
    ∃ k root, this.lookup.get (this.parentOf^[k] x) = some root ∧
      root.parent = this.parentOf^[k] x := by
  generalize hmeasure : this.above n = measure
  induction measure using Nat.strong_induction_on generalizing x n with
  | _ measure ih =>
      have hparent : this.parentOf x = n.parent := by
        unfold parentOf
        rw [hx]
        rfl
      by_cases hself : x = n.parent
      · exact ⟨0, n, hx, hself.symm⟩
      · obtain ⟨p, hp⟩ := h.parent_some hx
        have hlt := above_lt hp (h.rank_lt hx hp hself)
        obtain ⟨k, root, hroot, hend⟩ := ih _ (hmeasure ▸ hlt) hp rfl
        refine ⟨k + 1, root, ?_, ?_⟩
        · rw [Function.iterate_succ_apply, hparent, hroot]
        · rw [Function.iterate_succ_apply, hparent, hend]

/-- **The forest is a partition.**  After any calls on registered elements two elements have
the same representative if and only if the unions connect them, looking an element up does
not change that, and every chain of parents ends at a root. -/
theorem partition_of_calls {calls : List Call} (h : Registered calls) :
    ∃ this, run calls = some this ∧
      (∀ a b, .makeSet a ∈ calls → .makeSet b ∈ calls →
        (this.SameSet a b ↔ Relation.EqvGen (Joined calls) a b)) ∧
      (∀ e, .makeSet e ∈ calls → ∃ f root, this.getRepresentative e = some (f, root) ∧
        ∀ a b, .makeSet a ∈ calls → .makeSet b ∈ calls → (f.SameSet a b ↔ this.SameSet a b)) ∧
      ∀ e, .makeSet e ∈ calls → ∃ k root, this.lookup.get (this.parentOf^[k] e) = some root ∧
        root.parent = this.parentOf^[k] e := by
  obtain ⟨this, comp, hrun, hholds⟩ := exists_holds h
  refine ⟨this, hrun, fun a b ha hb => ?_, fun e he => ?_, fun e he => ?_⟩
  · rw [hholds.sameSet_iff ha hb, hholds.comp_eq_iff ha hb]
  · obtain ⟨f, hfind, hf⟩ := hholds.getRepresentative he
    refine ⟨f, comp e, hfind, fun a b ha hb => ?_⟩
    rw [hf.sameSet_iff ha hb, hholds.sameSet_iff ha hb]
  · obtain ⟨n, hn⟩ := Option.isSome_iff_exists.mp ((hholds.nodes e).mpr he)
    exact hholds.realizes.exists_root hn

/-- Two elements that are made, joined with themselves, made again and looked up. -/
theorem partition_of_calls_pair :
    ∃ this, run [.makeSet ['a'], .makeSet ['b'], .union ['a'] ['a'], .makeSet ['a'],
        .getRepresentative ['b']] = some this ∧
      (this.SameSet ['a'] ['b'] ↔ Relation.EqvGen (Joined [.makeSet ['a'], .makeSet ['b'],
        .union ['a'] ['a'], .makeSet ['a'], .getRepresentative ['b']]) ['a'] ['b']) := by
  have hcalls : Registered [.makeSet ['a'], .makeSet ['b'], .union ['a'] ['a'], .makeSet ['a'],
      .getRepresentative ['b']] :=
    ((((Registered.nil.makeSet ['a']).makeSet ['b']).union (by decide) (by decide)).makeSet
      ['a']).getRepresentative (by decide)
  obtain ⟨this, hrun, hsame, -⟩ := partition_of_calls hcalls
  exact ⟨this, hrun, hsame _ _ (by decide) (by decide)⟩

end JunctionBox.DSetForest
