import JunctionBox.Foundations.Borrowing
import JunctionBox.Foundations.Lockstep
import JunctionBox.Inference.TreeMemory

/-!
# Who owns a label

`Holds` says that the memory holds given potentials at given places, in
structures and tables that no two places share; the string a potential has for a
label may be shared, and that is what can go wrong.  `Tracks` keeps a ledger of
it: which of the holders' strings are dead, and whose label dangles.

* `Shows.multiplyMessage_rel`: up to `Pot_DestroyTabular` a message in memory is
  the message on values, with the new separator in blocks of its own.
* `Tracks.messagePass_rel`: with `Pot_DestroyTabular` it goes through exactly
  when the old label is live, and the holder's string dies if that was the label.
* `Tracks.initializePotentials_rel`: initialising again gives every potential the
  holder's string for a label, dead or not.
* `Tracks.printBNet_eq`, `Tracks.edgeMapGet_eq`: what reading labels and keys
  needs.
-/

namespace JunctionBox

open Propagation

variable {o : VariableOrdering} {α : Type}

namespace TreeMemory

variable {mem mem' mem'' : TreeMemory o α} {p q : ℕ} {c d : PotCell o} {x y : Pot o α} {a b : Place}

/-- Every structure has a live table of its own. -/
structure Sound (mem : TreeMemory o α) : Prop where
  table : ∀ p c, mem.pots.load p = some c → ∃ d, mem.tables.load c.tabData = some d
  apart : ∀ p q c d, mem.pots.load p = some c → mem.pots.load q = some d →
    c.tabData = d.tabData → p = q

theorem potAt_eq (hp : mem.pots.load p = some c) :
    mem.potAt p = (mem.tables.load c.tabData).map fun d => ⟨c.vbls, d, c.tableSize⟩ := by
  rw [potAt, hp, Option.bind_eq_bind, Option.bind_some]
  cases mem.tables.load c.tabData <;> rfl

theorem potAt_of_load (hp : mem.pots.load p = some c) (hvbls : c.vbls = x.vbls)
    (hsize : c.tableSize = x.tableSize) (htable : mem.tables.load c.tabData = some x.tabData) :
    mem.potAt p = some x := by
  rw [potAt_eq hp, htable, Option.map_some, hvbls, hsize]

/-- A potential is a structure and a table. -/
theorem potAt_cases (hp : mem.potAt p = some x) : ∃ c, mem.pots.load p = some c ∧
    c.vbls = x.vbls ∧ c.tableSize = x.tableSize ∧ mem.tables.load c.tabData = some x.tabData := by
  cases hc : mem.pots.load p with
  | none => simp [potAt, hc] at hp
  | some c =>
      rw [potAt_eq hc, Option.map_eq_some_iff] at hp
      obtain ⟨d, hd, rfl⟩ := hp
      exact ⟨c, rfl, rfl, rfl, hd⟩

/-! ## Allocation -/

/-- The live blocks stay as they are, and so do the pointers to them. -/
structure Extends (mem mem' : TreeMemory o α) : Prop where
  pots : ∀ p c, mem.pots.load p = some c → mem'.pots.load p = some c
  tables : ∀ p d, mem.tables.load p = some d → mem'.tables.load p = some d
  strings : ∀ p, p < mem.strings.size → mem'.strings.load p = mem.strings.load p
  size : mem.strings.size ≤ mem'.strings.size
  name : mem'.name = mem.name
  pot : mem'.pot = mem.pot
  margMemo : mem'.margMemo = mem.margMemo
  mulMemo : mem'.mulMemo = mem.mulMemo

theorem Extends.trans (h : Extends mem mem') (h' : Extends mem' mem'') : Extends mem mem'' where
  pots p c hp := h'.pots p c (h.pots p c hp)
  tables p d hp := h'.tables p d (h.tables p d hp)
  strings p hp := (h'.strings p (hp.trans_le h.size)).trans (h.strings p hp)
  size := h.size.trans h'.size
  name := h'.name.trans h.name
  pot := h'.pot.trans h.pot
  margMemo := h'.margMemo.trans h.margMemo
  mulMemo := h'.mulMemo.trans h.mulMemo

theorem Extends.potAt (h : Extends mem mem') (hp : mem.potAt p = some x) :
    mem'.potAt p = some x := by
  obtain ⟨c, hc, hvbls, hsize, htable⟩ := potAt_cases hp
  exact potAt_of_load (h.pots p c hc) hvbls hsize (h.tables _ _ htable)

/-- `createTabular` puts a new potential beside the others. -/
theorem extends_createTabular (mem : TreeMemory o α) (label : ℕ) (x : Pot o α) :
    Extends mem (mem.createTabular label x).2 where
  pots _ _ hp := Blocks.load_alloc hp
  tables _ _ hp := Blocks.load_alloc hp
  strings _ _ := rfl
  size := le_rfl
  name := rfl
  pot := rfl
  margMemo := rfl
  mulMemo := rfl

theorem load_createTabular (mem : TreeMemory o α) (label : ℕ) (x : Pot o α) :
    (mem.createTabular label x).2.pots.load (mem.createTabular label x).1 =
      some ⟨label, x.vbls, mem.tables.size, x.tableSize⟩ :=
  Blocks.load_alloc_self _ _

theorem potAt_createTabular (mem : TreeMemory o α) (label : ℕ) (x : Pot o α) :
    (mem.createTabular label x).2.potAt (mem.createTabular label x).1 = some x := by
  rw [potAt_eq (load_createTabular mem label x)]
  exact congrArg (Option.map _) (Blocks.load_alloc_self mem.tables x.tabData)

/-- The address of a new potential is new. -/
theorem ne_createTabular (hp : mem.pots.load p = some c) (label : ℕ) (x : Pot o α) :
    p ≠ (mem.createTabular label x).1 :=
  Nat.ne_of_lt (Blocks.lt_size_of_load hp)

/-- The structures after a `createTabular`. -/
theorem load_createTabular_cases {label : ℕ}
    (hp : (mem.createTabular label x).2.pots.load p = some c) :
    mem.pots.load p = some c ∨
      p = (mem.createTabular label x).1 ∧ c = ⟨label, x.vbls, mem.tables.size, x.tableSize⟩ := by
  by_cases hne : p = (mem.createTabular label x).1
  · subst hne
    rw [load_createTabular, Option.some.injEq] at hp
    exact Or.inr ⟨rfl, hp.symm⟩
  · exact Or.inl ((Blocks.load_alloc_of_ne hne).symm.trans hp)

theorem Sound.createTabular (h : mem.Sound) (label : ℕ) (x : Pot o α) :
    (mem.createTabular label x).2.Sound where
  table p c hp := by
    rcases load_createTabular_cases hp with hp | ⟨-, rfl⟩
    · obtain ⟨d, hd⟩ := h.table p c hp
      exact ⟨d, (extends_createTabular mem label x).tables _ _ hd⟩
    · exact ⟨x.tabData, Blocks.load_alloc_self mem.tables x.tabData⟩
  apart p q c d hp hq heq := by
    have hold : ∀ p c, mem.pots.load p = some c → c.tabData ≠ mem.tables.size := by
      intro p c hp
      obtain ⟨d, hd⟩ := h.table p c hp
      exact Nat.ne_of_lt (Blocks.lt_size_of_load hd)
    rcases load_createTabular_cases hp with hp | ⟨rfl, rfl⟩ <;>
      rcases load_createTabular_cases hq with hq | ⟨rfl, rfl⟩
    · exact h.apart p q c d hp hq heq
    · exact absurd heq (hold p c hp)
    · exact absurd heq.symm (hold q d hq)
    · rfl

/-! ## Changes in place -/

/-- What `Pot_ProductTabular` does: the structures stay, and one table has new entries. -/
structure Rewrites (mem mem' : TreeMemory o α) (q : ℕ) (y : Pot o α) : Prop where
  sound : mem'.Sound
  pots : mem'.pots = mem.pots
  potAt : mem'.potAt q = some y
  frame : ∀ p, p ≠ q → ∀ x, mem.potAt p = some x → mem'.potAt p = some x
  strings : mem'.strings = mem.strings
  name : mem'.name = mem.name
  pot : mem'.pot = mem.pot
  margMemo : mem'.margMemo = mem.margMemo
  mulMemo : mem'.mulMemo = mem.mulMemo

variable (A : Arith α)

theorem productTabular_cases {mi : Option (MulInd o)} {y' : Pot o α}
    (hrun : Pot.Arithmetic.productTabular A x y mi = some y') :
    y'.vbls = y.vbls ∧ y'.tableSize = y.tableSize := by
  obtain ⟨d, -, rfl⟩ := Option.map_eq_some_iff.mp hrun
  exact ⟨rfl, rfl⟩

theorem productTabular_rel (h : mem.Sound) (hq : mem.potAt q = some y) (mi : Option (MulInd o)) :
    Option.Rel (fun mem' y' => Rewrites mem mem' q y') (mem.productTabular A x q mi)
      (Pot.Arithmetic.productTabular A x y mi) := by
  obtain ⟨c, hc, hvbls, hsize, htable⟩ := potAt_cases hq
  rw [productTabular, hc, hq]
  cases hrun : Pot.Arithmetic.productTabular A x y mi with
  | none =>
      simp only [Option.bind_eq_bind, Option.bind_some, hrun, Option.bind_none]
      exact Option.Rel.none
  | some y' =>
      obtain ⟨hvbls', hsize'⟩ := productTabular_cases A hrun
      obtain ⟨tables, hstore⟩ := Blocks.exists_put htable (some y'.tabData)
      simp only [Option.bind_eq_bind, Option.bind_some, hrun, Blocks.store, hstore]
      refine Option.Rel.some ⟨⟨fun p d hp => ?_, h.apart⟩, rfl, ?_, fun p hne x' hp => ?_, rfl,
        rfl, rfl, rfl, rfl⟩
      · by_cases heq : d.tabData = c.tabData
        · exact ⟨y'.tabData, heq ▸ Blocks.load_put_self hstore⟩
        · obtain ⟨e, he⟩ := h.table p d hp
          exact ⟨e, (Blocks.load_put_of_ne hstore heq).trans he⟩
      · exact potAt_of_load hc (hvbls.trans hvbls'.symm) (hsize.trans hsize'.symm)
          (Blocks.load_put_self hstore)
      · obtain ⟨d, hd, hvbls', hsize', htable'⟩ := potAt_cases hp
        have hapart : d.tabData ≠ c.tabData := fun heq => hne (h.apart p q d c hd hc heq)
        exact potAt_of_load hd hvbls' hsize'
          ((Blocks.load_put_of_ne hstore hapart).trans htable')

theorem Rewrites.vbls (h : Rewrites mem mem' q y) (hq : mem.potAt q = some x) :
    y.vbls = x.vbls := by
  obtain ⟨c, hc, hvbls, -, -⟩ := potAt_cases hq
  obtain ⟨d, hd, hvbls', -, -⟩ := potAt_cases h.potAt
  rw [h.pots, hc, Option.some.injEq] at hd
  rw [← hvbls, ← hvbls', hd]

/-- What `Pot_DestroyTabular` does: three blocks are gone. -/
structure Destroys (mem mem' : TreeMemory o α) (q label : ℕ) : Prop where
  sound : mem'.Sound
  cell : ∀ p, p ≠ q → mem'.pots.load p = mem.pots.load p
  potAt : ∀ p, p ≠ q → ∀ x, mem.potAt p = some x → mem'.potAt p = some x
  freed : mem'.strings.load label = none
  strings : ∀ p, p ≠ label → mem'.strings.load p = mem.strings.load p
  size : mem'.strings.size = mem.strings.size
  name : mem'.name = mem.name
  pot : mem'.pot = mem.pot
  margMemo : mem'.margMemo = mem.margMemo
  mulMemo : mem'.mulMemo = mem.mulMemo

/-- A label that is dead already is freed again. -/
theorem destroyTabular_eq_none (hc : mem.pots.load q = some c)
    (hdead : mem.strings.load c.label = none) : mem.destroyTabular q = none := by
  rw [destroyTabular, hc]
  simp only [Option.bind_eq_bind, Option.bind_some, Blocks.free, Blocks.put_eq_none hdead,
    Option.bind_none]

theorem destroyTabular_eq (h : mem.Sound) (hc : mem.pots.load q = some c) {text : CString}
    (hlive : mem.strings.load c.label = some text) :
    ∃ mem', mem.destroyTabular q = some mem' ∧ Destroys mem mem' q c.label := by
  obtain ⟨table, htable⟩ := h.table q c hc
  obtain ⟨strings, hstrings⟩ := Blocks.exists_put hlive none
  obtain ⟨tables, htables⟩ := Blocks.exists_put htable none
  obtain ⟨pots, hpots⟩ := Blocks.exists_put hc none
  have hcell : ∀ p, p ≠ q → pots.load p = mem.pots.load p := fun p hne =>
    Blocks.load_put_of_ne hpots hne
  have hstays : ∀ p d, p ≠ q → mem.pots.load p = some d →
      tables.load d.tabData = mem.tables.load d.tabData := fun p d hne hp =>
    Blocks.load_put_of_ne htables fun heq => hne (h.apart p q d c hp hc heq)
  have holds : ∀ p d, pots.load p = some d → p ≠ q ∧ mem.pots.load p = some d := by
    intro p d hp
    have hne : p ≠ q := by
      rintro rfl
      rw [Blocks.load_put_self hpots] at hp
      cases hp
    exact ⟨hne, (hcell p hne).symm.trans hp⟩
  refine ⟨{ mem with strings := strings, tables := tables, pots := pots }, ?_,
    ⟨fun p d hp => ?_, fun p p' d d' hp hp' => ?_⟩, hcell, fun p hne x hp => ?_,
    Blocks.load_put_self hstrings, fun p => Blocks.load_put_of_ne hstrings,
    Blocks.size_put hstrings, rfl, rfl, rfl, rfl⟩
  · simp only [destroyTabular, hc, Option.bind_eq_bind, Option.bind_some, Blocks.free, hstrings,
      htables, hpots]
    rfl
  · obtain ⟨hne, hp⟩ := holds p d hp
    obtain ⟨e, he⟩ := h.table p d hp
    exact ⟨e, (hstays p d hne hp).trans he⟩
  · exact h.apart p p' d d' (holds p d hp).2 (holds p' d' hp').2
  · obtain ⟨d, hd, hvbls, hsize, htable'⟩ := potAt_cases hp
    exact potAt_of_load ((hcell p hne).trans hd) hvbls hsize ((hstays p d hne hd).trans htable')

end TreeMemory

/-! ## Memory and values -/

namespace Potentials

/-- The potential of a vertex or of an edge. -/
def get (v : Potentials o α) : Place → Pot o α
  | .clique l => v.clique l
  | .sep k => v.sep k

/-- The vertex's memo after a look-up. -/
def setMargMemo (v : Potentials o α) (l : CString) (memo : MulMemo o (Option (MulInd o))) :
    Potentials o α := { v with margMemo := Function.update v.margMemo l memo }

/-- A new potential for a vertex or an edge. -/
def put (v : Potentials o α) (a : Place) (x : Pot o α) : Potentials o α :=
  match a with
  | .clique l => { v with clique := Function.update v.clique l x }
  | .sep k => { v with sep := Function.update v.sep k x }

theorem get_put_self (v : Potentials o α) (a : Place) (x : Pot o α) : (v.put a x).get a = x := by
  cases a with
  | clique l => exact Function.update_self ..
  | sep k => exact Function.update_self ..

theorem get_put_of_ne (v : Potentials o α) {a b : Place} (hne : b ≠ a) (x : Pot o α) :
    (v.put a x).get b = v.get b := by
  cases a with
  | clique l =>
      cases b with
      | clique l' => exact Function.update_of_ne (fun heq => hne (congrArg Place.clique heq)) ..
      | sep k => rfl
  | sep k =>
      cases b with
      | clique l => rfl
      | sep k' => exact Function.update_of_ne (fun heq => hne (congrArg Place.sep heq)) ..

theorem margMemo_put (v : Potentials o α) (a : Place) (x : Pot o α) :
    (v.put a x).margMemo = v.margMemo := by
  cases a <;> rfl

theorem mulMemo_put (v : Potentials o α) (a : Place) (x : Pot o α) :
    (v.put a x).mulMemo = v.mulMemo := by
  cases a <;> rfl

end Potentials

namespace TreeMemory

/-- The memory holds the potentials `v` at the places of `P`, each in blocks of its own. -/
structure Holds (P : Set Place) (mem : TreeMemory o α) (v : Potentials o α) : Prop where
  sound : mem.Sound
  holds : ∀ a ∈ P, mem.read a = some (v.get a)
  apart : Set.InjOn mem.pot P

/-- The memory has the same memos as `v`, too. -/
structure Shows (P : Set Place) (mem : TreeMemory o α) (v : Potentials o α) : Prop
    extends Holds P mem v where
  margMemo : ∀ l, .clique l ∈ P → mem.margMemo l = v.margMemo l
  mulMemo : ∀ k, .sep k ∈ P → mem.mulMemo k = v.mulMemo k

variable {mem mem' : TreeMemory o α} {P : Set Place} {v : Potentials o α} {a b : Place}

theorem Holds.exists_pot (h : Holds P mem v) (ha : a ∈ P) : ∃ p c, mem.pot a = some p ∧
    mem.pots.load p = some c ∧ mem.cell a = some c ∧ mem.potAt p = some (v.get a) ∧
      c.vbls = (v.get a).vbls := by
  obtain ⟨p, hp, hpot⟩ := Option.bind_eq_some_iff.mp (h.holds a ha)
  obtain ⟨c, hc, hvbls, -, -⟩ := potAt_cases hpot
  refine ⟨p, c, hp, hc, ?_, hpot, hvbls⟩
  rw [cell, hp]
  exact hc

theorem Shows.of_extends (h : Shows P mem v) (hext : Extends mem mem') (hsound : mem'.Sound) :
    Shows P mem' v where
  sound := hsound
  holds a ha := by
    obtain ⟨p, c, hp, -, -, hpot, -⟩ := h.exists_pot ha
    rw [read, hext.pot, hp]
    exact hext.potAt hpot
  apart := by
    rw [hext.pot]
    exact h.apart
  margMemo l hl := (congrFun hext.margMemo l).trans (h.margMemo l hl)
  mulMemo k hk := (congrFun hext.mulMemo k).trans (h.mulMemo k hk)

theorem Holds.cell_of_extends (h : Holds P mem v) (hext : Extends mem mem') (ha : a ∈ P) :
    mem'.cell a = mem.cell a := by
  obtain ⟨p, c, hp, hc, hcell, -, -⟩ := h.exists_pot ha
  rw [hcell, cell, hext.pot, hp]
  exact hext.pots p c hc

/-- The pointers of the places differ from a pointer to a new structure. -/
theorem Holds.pot_ne (h : Holds P mem v) (ha : a ∈ P) (label : ℕ) (x : Pot o α) :
    mem.pot a ≠ some (mem.createTabular label x).1 := by
  obtain ⟨p, c, hp, hc, -, -, -⟩ := h.exists_pot ha
  rw [hp]
  exact fun heq => ne_createTabular hc label x (Option.some.inj heq)

theorem Shows.rewrites (h : Shows P mem v) (ha : a ∈ P) {q : ℕ} {y : Pot o α}
    (hq : mem.pot a = some q) (hrun : Rewrites mem mem' q y) : Shows P mem' (v.put a y) where
  sound := hrun.sound
  holds b hb := by
    obtain ⟨p, c, hp, hc, -, hpot, -⟩ := h.exists_pot hb
    rw [read, hrun.pot, hp]
    by_cases heq : b = a
    · subst heq
      obtain rfl := Option.some.inj (hp.symm.trans hq)
      exact hrun.potAt.trans (congrArg some (v.get_put_self b y).symm)
    · have hne : p ≠ q := by
        rintro rfl
        exact heq (h.apart hb ha (hp.trans hq.symm))
      exact (hrun.frame p hne _ hpot).trans (congrArg some (v.get_put_of_ne heq y).symm)
  apart := by
    rw [hrun.pot]
    exact h.apart
  margMemo l hl := by rw [hrun.margMemo, Potentials.margMemo_put, h.margMemo l hl]
  mulMemo k hk := by rw [hrun.mulMemo, Potentials.mulMemo_put, h.mulMemo k hk]

theorem Shows.setMulMemo (h : Shows P mem v) (sep : Edge) (memo : MulMemo o (MulInd o)) :
    Shows P (mem.setMulMemo sep memo) (v.setMulMemo sep memo) where
  sound := ⟨h.sound.table, h.sound.apart⟩
  holds a ha := by
    refine (h.holds a ha).trans ?_
    cases a <;> rfl
  apart := h.apart
  margMemo := h.margMemo
  mulMemo k hk := by
    change Function.update mem.mulMemo sep.srcSink memo k =
      Function.update v.mulMemo sep.srcSink memo k
    rw [Function.update_apply, Function.update_apply, h.mulMemo k hk]

theorem Shows.findIndices_eq (h : Shows P mem v) {l : CString} {sep : Edge}
    (hl : .clique l ∈ P) (hsep : .sep sep.srcSink ∈ P) :
    mem.findIndices l sep = v.findIndices l sep := by
  obtain ⟨p, c, -, -, hc, -, hvbls⟩ := h.exists_pot hsep
  obtain ⟨q, d, -, -, hd, -, hvbls'⟩ := h.exists_pot hl
  rw [findIndices, hc, hd]
  simp only [Option.bind_eq_bind, Option.bind_some, hvbls, hvbls', h.mulMemo _ hsep]
  rfl

/-! ## A message -/

section Message

variable (A : Arith α)

/-- The new separator with its label, before it has been put in its place. -/
structure Delivered (P : Set Place) (mem : TreeMemory o α) (new : ℕ) (mem₁ : TreeMemory o α)
    (v₁ : Potentials o α) (marg : Pot o α) : Prop where
  shows : Shows P mem₁ v₁
  potAt : mem₁.potAt new = some marg
  label : ∃ c, mem₁.pots.load new = some c ∧ mem.strings.size ≤ c.label ∧
    mem₁.strings.load c.label = some marg.vbls.getLabel
  apart : ∀ a ∈ P, mem.pot a ≠ some new
  cells : ∀ a ∈ P, mem₁.cell a = mem.cell a
  strings : ∀ p, p < mem.strings.size → mem₁.strings.load p = mem.strings.load p
  size : mem.strings.size ≤ mem₁.strings.size
  name : mem₁.name = mem.name
  pot : mem₁.pot = mem.pot

theorem extends_alloc (mem : TreeMemory o α) (text : CString) :
    Extends mem { mem with strings := (mem.strings.alloc text).2 } where
  pots _ _ hp := hp
  tables _ _ hp := hp
  strings p hp := Blocks.load_alloc_of_ne (Nat.ne_of_lt hp)
  size := by
    rw [Blocks.size_alloc]
    exact Nat.le_succ _
  name := rfl
  pot := rfl
  margMemo := rfl
  mulMemo := rfl

theorem Shows.sumMarginTabular_rel (h : Shows P mem v) {p : ℕ} {x : Pot o α}
    (hp : mem.potAt p = some x) (mi : MulInd o) :
    Option.Rel (fun out marg => Delivered P mem out.1 out.2 v marg) (mem.sumMarginTabular A p mi)
      (Pot.Arithmetic.sumMarginTabular A x mi) := by
  rw [sumMarginTabular, hp, Option.bind_eq_bind, Option.bind_some]
  cases hrun : Pot.Arithmetic.sumMarginTabular A x mi with
  | none => exact Option.Rel.none
  | some marg =>
  have hvbls : marg.vbls = mi.vbls := by
    obtain ⟨d, -, rfl⟩ := Option.map_eq_some_iff.mp hrun
    rfl
  have hsound : ({ mem with strings := (mem.strings.alloc mi.vbls.getLabel).2 } :
      TreeMemory o α).Sound := ⟨h.sound.table, h.sound.apart⟩
  have hext := (extends_alloc mem mi.vbls.getLabel).trans
    (extends_createTabular _ (mem.strings.alloc mi.vbls.getLabel).1 marg)
  refine Option.Rel.some ⟨h.of_extends hext (hsound.createTabular _ marg),
    potAt_createTabular .., ⟨_, load_createTabular .., le_rfl, ?_⟩, fun a ha => ?_,
    fun a ha => h.cell_of_extends hext ha, hext.strings, hext.size, hext.name, hext.pot⟩
  · rw [hvbls]
    exact Blocks.load_alloc_self ..
  · exact h.pot_ne ha (mem.strings.alloc mi.vbls.getLabel).1 marg

theorem Delivered.of_extends {new : ℕ} {mem₁ mem₂ : TreeMemory o α} {marg : Pot o α}
    (h : Delivered P mem new mem₁ v marg) (hext : Extends mem₁ mem₂) (hsound : mem₂.Sound) :
    Delivered P mem new mem₂ v marg where
  shows := h.shows.of_extends hext hsound
  potAt := hext.potAt h.potAt
  label := by
    obtain ⟨c, hc, hle, htext⟩ := h.label
    exact ⟨c, hext.pots _ _ hc, hle, (hext.strings _ (Blocks.lt_size_of_load htext)).trans htext⟩
  apart := h.apart
  cells a ha := (h.shows.cell_of_extends hext ha).trans (h.cells a ha)
  strings p hp := (hext.strings p (hp.trans_le h.size)).trans (h.strings p hp)
  size := h.size.trans hext.size
  name := hext.name.trans h.name
  pot := hext.pot.trans h.pot

theorem Delivered.setMulMemo {new : ℕ} {mem₁ : TreeMemory o α} {marg : Pot o α}
    (h : Delivered P mem new mem₁ v marg) (sep : Edge) (memo : MulMemo o (MulInd o)) :
    Delivered P mem new (mem₁.setMulMemo sep memo) (v.setMulMemo sep memo) marg :=
  { h with shows := h.shows.setMulMemo sep memo }

theorem Delivered.updateRatioTabular_rel {new q : ℕ} {mem₁ : TreeMemory o α} {marg y : Pot o α}
    (h : Delivered P mem new mem₁ v marg) (hq : mem₁.potAt q = some y) :
    Option.Rel (fun out ratio => Delivered P mem new out.2 v marg ∧ out.2.potAt out.1 = some ratio)
      (mem₁.updateRatioTabular A new q) (Pot.Arithmetic.updateRatioTabular A marg y) := by
  obtain ⟨c, hc, -, -⟩ := h.label
  rw [updateRatioTabular, hc, h.potAt, hq]
  simp only [Option.bind_eq_bind, Option.bind_some]
  cases Pot.Arithmetic.updateRatioTabular A marg y with
  | none => exact Option.Rel.none
  | some ratio =>
      exact Option.Rel.some ⟨h.of_extends (extends_createTabular ..)
        (h.shows.sound.createTabular ..), potAt_createTabular ..⟩

theorem Delivered.rewrites {new q : ℕ} {mem₁ mem₂ : TreeMemory o α} {marg y : Pot o α}
    (h : Delivered P mem new mem₁ v marg) (ha : a ∈ P) (hq : mem₁.pot a = some q)
    (hrun : Rewrites mem₁ mem₂ q y) : Delivered P mem new mem₂ (v.put a y) marg where
  shows := h.shows.rewrites ha hq hrun
  potAt := by
    refine hrun.frame new ?_ marg h.potAt
    rintro rfl
    exact h.apart a ha ((congrFun h.pot a).symm.trans hq)
  label := by
    rw [hrun.pots, hrun.strings]
    exact h.label
  apart := h.apart
  cells b hb := by
    rw [cell, hrun.pot, hrun.pots]
    exact h.cells b hb
  strings p hp := by rw [hrun.strings, h.strings p hp]
  size := by
    rw [hrun.strings]
    exact h.size
  name := hrun.name.trans h.name
  pot := hrun.pot.trans h.pot

/-- `MessagePass` in memory and on values, up to `Pot_DestroyTabular`. -/
theorem Shows.multiplyMessage_rel (h : Shows P mem v) {receiver caller : CString} {sep : Edge}
    (hr : .clique receiver ∈ P) (hc : .clique caller ∈ P) (hsep : .sep sep.srcSink ∈ P) :
    Option.Rel (fun out v' => ∃ v₁ marg, v' = v₁.put (.sep sep.srcSink) marg ∧
        (∀ a, (v₁.get a).vbls = (v.get a).vbls) ∧ Delivered P mem out.1 out.2 v₁ marg)
      (mem.multiplyMessage A receiver caller sep) (v.messagePassWith A receiver caller sep) := by
  simp only [multiplyMessage, Potentials.messagePassWith, Potentials.findMargIndices,
    Potentials.findMulIndices, h.findIndices_eq hc hsep]
  cases v.findIndices caller sep with
  | none => exact Option.Rel.none
  | some margInd =>
  have h₁ := h.setMulMemo sep margInd.2
  obtain ⟨p, c, hp, -, -, hpot, -⟩ := h₁.exists_pot hc
  simp only [Option.bind_eq_bind, Option.bind_some, hp]
  refine Lockstep.rel_bind (h₁.sumMarginTabular_rel A hpot margInd.1) fun out marg h₂ => ?_
  obtain ⟨q, d, hq, -, -, hold, -⟩ := h₂.shows.exists_pot hsep
  rw [hq, Option.bind_some]
  refine Lockstep.rel_bind (h₂.updateRatioTabular_rel A hold) fun out₁ ratio h₃ => ?_
  rw [h₃.1.shows.findIndices_eq hr hsep]
  cases (v.setMulMemo sep margInd.2).findIndices receiver sep with
  | none => exact Option.Rel.none
  | some mulInd =>
  have h₄ := h₃.1.setMulMemo sep mulInd.2
  obtain ⟨r, e, hreceiver, -, -, hproduct, -⟩ := h₄.shows.exists_pot hr
  have hratio : (out₁.2.setMulMemo sep mulInd.2).potAt out₁.1 = some ratio := h₃.2
  simp only [Option.bind_some, hratio, hreceiver]
  refine Lockstep.rel_bind (productTabular_rel A h₄.shows.sound hproduct (some mulInd.1))
    fun mem₂ pot hrun => ?_
  have h₅ := h₄.rewrites hr hreceiver hrun
  refine Option.Rel.some ⟨((v.setMulMemo sep margInd.2).setMulMemo sep mulInd.2).put
    (.clique receiver) pot, marg, rfl, fun a => ?_, ⟨h₅.shows, h₅.potAt, h₅.label, h₅.apart,
    h₅.cells, h₅.strings, h₅.size, h₅.name, h₅.pot⟩⟩
  have hmemo : ((v.setMulMemo sep margInd.2).setMulMemo sep mulInd.2).get a = v.get a := by
    cases a <;> rfl
  by_cases heq : a = .clique receiver
  · subst heq
    rw [Potentials.get_put_self, hrun.vbls hproduct, hmemo]
  · rw [Potentials.get_put_of_ne _ heq, hmemo]

end Message

/-! ## Labels -/

/-- The potential has replaced one, and no potential has replaced it. -/
def Own (s : Borrowing.Ledger Place) (a : Place) : Prop := a ∈ s.freed ∧ a ∉ s.dangling

/-- The memory holds `v`, and its strings are as the ledger says: the first `n` of them are those
of the holders, of which the ledger knows the dead ones, and a potential either has the
holder's string for a label or, behind them, a string of its own. -/
structure Tracks (P : Set Place) (n : ℕ) (mem : TreeMemory o α) (v : Potentials o α)
    (s : Borrowing.Ledger Place) : Prop where
  sound : mem.Sound
  unset : s.borrowed = false → ∀ a ∈ P, mem.pot a = none
  holds : s.borrowed = true → Shows P mem v
  size : n ≤ mem.strings.size
  name_lt : ∀ a ∈ P, mem.name a < n
  name_inj : Set.InjOn mem.name P
  name : ∀ a ∈ P, mem.strings.load (mem.name a) = if a ∈ s.freed then none else some a.text
  dangling : s.dangling ⊆ s.freed
  borrowed : ∀ a ∈ P, ¬ Own s a → ∀ c, mem.cell a = some c → c.label = mem.name a
  own : ∀ a ∈ P, Own s a → ∀ c, mem.cell a = some c →
    n ≤ c.label ∧ mem.strings.load c.label = some (v.get a).vbls.getLabel
  own_inj : ∀ a ∈ P, Own s a → ∀ b ∈ P, Own s b → ∀ c d, mem.cell a = some c →
    mem.cell b = some d → c.label = d.label → a = b

section Tracking

open Borrowing

variable (A : Arith α) {n : ℕ} {s s' : Ledger Place}

theorem Tracks.shows (h : Tracks P n mem v s) (ha : s.Usable a) : Shows P mem v := h.holds ha.1

/-- A usable label is live. -/
theorem Tracks.live (h : Tracks P n mem v s) (ha : a ∈ P) (husable : s.Usable a) {c : PotCell o}
    (hc : mem.cell a = some c) : ∃ text, mem.strings.load c.label = some text := by
  by_cases hown : Own s a
  · exact ⟨_, (h.own a ha hown c hc).2⟩
  · have hfreed : a ∉ s.freed := fun hf => hown ⟨hf, husable.2⟩
    refine ⟨a.text, ?_⟩
    rw [h.borrowed a ha hown c hc, h.name a ha, if_neg hfreed]

/-- A dangling label is dead. -/
theorem Tracks.dead (h : Tracks P n mem v s) (ha : a ∈ P) (hdangling : a ∈ s.dangling)
    {c : PotCell o} (hc : mem.cell a = some c) : mem.strings.load c.label = none := by
  have hown : ¬ Own s a := fun hown => hown.2 hdangling
  rw [h.borrowed a ha hown c hc, h.name a ha, if_pos (h.dangling hdangling)]

/-- The label of one potential is neither that of another nor another holder's string. -/
theorem Tracks.label_ne (h : Tracks P n mem v s) (ha : a ∈ P) (hb : b ∈ P) (hne : b ≠ a)
    {c : PotCell o} (hc : mem.cell a = some c) :
    mem.name b ≠ c.label ∧ ∀ d, mem.cell b = some d → Own s b → d.label ≠ c.label := by
  by_cases hown : Own s a
  · have hle := (h.own a ha hown c hc).1
    refine ⟨Nat.ne_of_lt ((h.name_lt b hb).trans_le hle), fun d hd hown' heq => ?_⟩
    exact hne (h.own_inj b hb hown' a ha hown d c hd hc heq)
  · rw [h.borrowed a ha hown c hc]
    refine ⟨fun heq => hne (h.name_inj hb ha heq), fun d hd hown' => ?_⟩
    exact Nat.ne_of_gt ((h.name_lt a ha).trans_le (h.own b hb hown' d hd).1)

section Replace

variable {new q label : ℕ} {mem₁ mem₂ : TreeMemory o α} {v₁ : Potentials o α} {marg : Pot o α}

theorem Delivered.new_ne (h : Delivered P mem new mem₁ v₁ marg) (ha : a ∈ P)
    (hq : mem.pot a = some q) : new ≠ q := by
  rintro rfl
  exact h.apart a ha hq

theorem cell_replace_self (h : Delivered P mem new mem₁ v₁ marg) (ha : a ∈ P)
    (hq : mem.pot a = some q) (hrun : Destroys mem₁ mem₂ q label) :
    (mem₂.setPot a new).cell a = mem₁.pots.load new := by
  rw [cell, pot_setPot_self]
  exact hrun.cell new (h.new_ne ha hq)

theorem cell_replace_of_ne (h : Delivered P mem new mem₁ v₁ marg) (hshows : Shows P mem v)
    (ha : a ∈ P) (hq : mem.pot a = some q) (hrun : Destroys mem₁ mem₂ q label) (hb : b ∈ P)
    (hne : b ≠ a) : (mem₂.setPot a new).cell b = mem.cell b := by
  obtain ⟨p, c, hp, hc, hcell, -, -⟩ := hshows.exists_pot hb
  have hpq : p ≠ q := by
    rintro rfl
    exact hne (hshows.apart hb ha (hp.trans hq.symm))
  have hp₁ : mem₁.pot b = some p := (congrFun h.pot b).trans hp
  rw [← h.cells b hb, cell, cell, pot_setPot_of_ne _ hne, hrun.pot, hp₁]
  exact hrun.cell p hpq

theorem Shows.replace (h : Delivered P mem new mem₁ v₁ marg) (ha : a ∈ P)
    (hq : mem.pot a = some q) (hrun : Destroys mem₁ mem₂ q label) :
    Shows P (mem₂.setPot a new) (v₁.put a marg) where
  sound := ⟨hrun.sound.table, hrun.sound.apart⟩
  holds b hb := by
    by_cases heq : b = a
    · subst heq
      rw [read, pot_setPot_self, Potentials.get_put_self]
      exact hrun.potAt new (h.new_ne hb hq) marg h.potAt
    · obtain ⟨p, c, hp, -, -, hpot, -⟩ := h.shows.exists_pot hb
      have hpq : p ≠ q := by
        rintro rfl
        exact heq (h.shows.apart hb ha (hp.trans ((congrFun h.pot a).trans hq).symm))
      rw [read, pot_setPot_of_ne _ heq, Potentials.get_put_of_ne _ heq, hrun.pot, hp]
      exact hrun.potAt p hpq _ hpot
  apart b hb b' hb' heq := by
    by_cases hba : b = a <;> by_cases hba' : b' = a
    · rw [hba, hba']
    · subst hba
      rw [pot_setPot_self, pot_setPot_of_ne _ hba', hrun.pot, h.pot] at heq
      exact absurd heq.symm (h.apart b' hb')
    · subst hba'
      rw [pot_setPot_self, pot_setPot_of_ne _ hba, hrun.pot, h.pot] at heq
      exact absurd heq (h.apart b hb)
    · rw [pot_setPot_of_ne _ hba, pot_setPot_of_ne _ hba', hrun.pot] at heq
      exact h.shows.apart hb hb' heq
  margMemo l hl := by
    rw [Potentials.margMemo_put, ← h.shows.margMemo l hl]
    exact congrFun hrun.margMemo l
  mulMemo k hk := by
    rw [Potentials.mulMemo_put, ← h.shows.mulMemo k hk]
    exact congrFun hrun.mulMemo k

end Replace

/-- `Pot_DestroyTabular((Pot*)sep->pot); sep->pot = marg`. -/
theorem Tracks.replace {new : ℕ} {mem₁ mem₂ : TreeMemory o α} {v₁ : Potentials o α}
    {marg : Pot o α} {q : ℕ} {c : PotCell o} (h : Tracks P n mem v s) (ha : a ∈ P)
    (husable : s.Usable a) (hvbls : ∀ b, (v₁.get b).vbls = (v.get b).vbls)
    (hnew : Delivered P mem new mem₁ v₁ marg) (hq : mem.pot a = some q)
    (hc : mem.cell a = some c) (hrun : Destroys mem₁ mem₂ q c.label) :
    Tracks P n (mem₂.setPot a new) (v₁.put a marg) { s with freed := insert a s.freed } := by
  have hshows : Shows P mem v := h.shows husable
  obtain ⟨d, hd, hfresh, htext⟩ := hnew.label
  have hself : (mem₂.setPot a new).cell a = some d :=
    (cell_replace_self hnew ha hq hrun).trans hd
  have hother : ∀ b ∈ P, b ≠ a → (mem₂.setPot a new).cell b = mem.cell b := fun b hb hne =>
    cell_replace_of_ne hnew hshows ha hq hrun hb hne
  have hstrings : ∀ p, p < mem.strings.size → p ≠ c.label →
      mem₂.strings.load p = mem.strings.load p := fun p hp hne =>
    (hrun.strings p hne).trans (hnew.strings p hp)
  obtain ⟨text, hlive⟩ := h.live ha husable hc
  have hold : c.label < mem.strings.size := Blocks.lt_size_of_load hlive
  have hown : ∀ b, b ≠ a → (Own { s with freed := insert a s.freed } b ↔ Own s b) := by
    intro b hne
    simp [Own, hne]
  have hname : (mem₂.setPot a new).name = mem.name := hrun.name.trans hnew.name
  have hlabel : ∀ b ∈ P, b ≠ a → Own s b → ∀ e, mem.cell b = some e →
      mem₂.strings.load e.label = some (v.get b).vbls.getLabel ∧ e.label < mem.strings.size := by
    intro b hb hne hb' e he
    have hload := (h.own b hb hb' e he).2
    have hlt : e.label < mem.strings.size := Blocks.lt_size_of_load hload
    exact ⟨(hstrings _ hlt ((h.label_ne ha hb hne hc).2 e he hb')).trans hload, hlt⟩
  refine ⟨⟨hrun.sound.table, hrun.sound.apart⟩, fun hunset => ?_,
    fun _ => Shows.replace hnew ha hq hrun, ?_, ?_, ?_, fun b hb => ?_, ?_, fun b hb hb' e he => ?_,
    fun b hb hb' e he => ?_, fun b hb hb' b' hb₁ hb₁' e e' he he' heq => ?_⟩
  · rw [husable.1] at hunset
    cases hunset
  · exact h.size.trans (hnew.size.trans hrun.size.ge)
  · rw [hname]
    exact h.name_lt
  · rw [hname]
    exact h.name_inj
  · change mem₂.strings.load ((mem₂.setPot a new).name b) = _
    rw [hname]
    have hlt : mem.name b < mem.strings.size := (h.name_lt b hb).trans_le h.size
    by_cases heq : b = a
    · subst heq
      rw [if_pos (Finset.mem_insert_self ..)]
      by_cases hlab : mem.name b = c.label
      · rw [hlab, hrun.freed]
      · have hb' : Own s b := by
          by_contra hown'
          exact hlab (h.borrowed b hb hown' c hc).symm
        rw [hstrings _ hlt hlab, h.name b hb, if_pos hb'.1]
    · rw [hstrings _ hlt (h.label_ne ha hb heq hc).1, h.name b hb]
      simp [heq]
  · exact h.dangling.trans (Finset.subset_insert _ _)
  · have hne : b ≠ a := by
      rintro rfl
      exact hb' ⟨Finset.mem_insert_self .., husable.2⟩
    rw [hname]
    exact h.borrowed b hb (fun h' => hb' ((hown b hne).mpr h')) e ((hother b hb hne).symm.trans he)
  · by_cases hne : b = a
    · subst hne
      obtain rfl := Option.some.inj (hself.symm.trans he)
      rw [Potentials.get_put_self]
      refine ⟨h.size.trans hfresh, ?_⟩
      exact (hrun.strings _ (Nat.ne_of_gt (hold.trans_le hfresh))).trans htext
    · rw [hother b hb hne] at he
      rw [Potentials.get_put_of_ne _ hne, hvbls b]
      have hb' := (hown b hne).mp hb'
      exact ⟨(h.own b hb hb' e he).1, (hlabel b hb hne hb' e he).1⟩
  · have hapart : ∀ b ∈ P, b ≠ a → Own s b → ∀ e, mem.cell b = some e → e.label ≠ d.label :=
      fun b hb hne hb' e he => Nat.ne_of_lt ((hlabel b hb hne hb' e he).2.trans_le hfresh)
    by_cases hne : b = a <;> by_cases hne' : b' = a
    · rw [hne, hne']
    · subst hne
      obtain rfl := Option.some.inj (hself.symm.trans he)
      rw [hother b' hb₁ hne'] at he'
      exact absurd heq.symm (hapart b' hb₁ hne' ((hown b' hne').mp hb₁') e' he')
    · subst hne'
      obtain rfl := Option.some.inj (hself.symm.trans he')
      rw [hother b hb hne] at he
      exact absurd heq (hapart b hb hne ((hown b hne).mp hb') e he)
    · rw [hother b hb hne] at he
      rw [hother b' hb₁ hne'] at he'
      exact h.own_inj b hb ((hown b hne).mp hb') b' hb₁ ((hown b' hne').mp hb₁') e e' he he' heq

/-- The potentials and the ledger, when both allow a call. -/
def both (v : Option (Potentials o α)) (s : Option (Ledger Place)) :
    Option (Potentials o α × Ledger Place) := v.bind fun v' => s.map fun s' => (v', s')

theorem both_none (v : Option (Potentials o α)) : both v none = none := by
  cases v <;> rfl

theorem Tracks.findIndices_eq_none (h : Tracks P n mem v s) (hunset : s.borrowed = false)
    {l : CString} {sep : Edge} (hsep : .sep sep.srcSink ∈ P) : mem.findIndices l sep = none := by
  rw [findIndices, cell, h.unset hunset _ hsep]
  rfl

/-- `MessagePass` in memory goes through when it does on values and the separator's label is
live. -/
theorem Tracks.messagePass_rel (h : Tracks P n mem v s) {receiver caller : CString} {sep : Edge}
    (hr : .clique receiver ∈ P) (hc : .clique caller ∈ P) (hsep : .sep sep.srcSink ∈ P) :
    Option.Rel (fun mem' w => Tracks P n mem' w.1 w.2) (mem.messagePass A receiver caller sep)
      (both (v.messagePassWith A receiver caller sep) (s.step (.replace (.sep sep.srcSink)))) := by
  cases hborrowed : s.borrowed with
  | false =>
      have husable : ¬ s.Usable (.sep sep.srcSink) := by simp [Ledger.Usable, hborrowed]
      rw [Ledger.step, if_neg husable, both_none, messagePass, multiplyMessage,
        h.findIndices_eq_none hborrowed hsep]
      exact Option.Rel.none
  | true =>
  have hshows := h.holds hborrowed
  obtain ⟨q, c, hq, hload, hcell, -, -⟩ := hshows.exists_pot hsep
  refine Lockstep.rel_bind (hshows.multiplyMessage_rel A hr hc hsep) ?_
  rintro ⟨new, mem₁⟩ v' ⟨v₁, marg, rfl, hvbls, hnew⟩
  have hq₁ : mem₁.pot (.sep sep.srcSink) = some q := (congrFun hnew.pot _).trans hq
  have hc₁ : mem₁.pots.load q = some c := by
    have hcells := hnew.cells _ hsep
    rw [hcell, cell, hq₁] at hcells
    exact hcells
  simp only [Option.bind_eq_bind, hq₁, Option.bind_some]
  by_cases husable : s.Usable (.sep sep.srcSink)
  · obtain ⟨text, hlive⟩ := h.live hsep husable hcell
    have hlive₁ : mem₁.strings.load c.label = some text :=
      (hnew.strings _ (Blocks.lt_size_of_load hlive)).trans hlive
    obtain ⟨mem₂, hrun, hdestroys⟩ := destroyTabular_eq hnew.shows.sound hc₁ hlive₁
    rw [hrun, Ledger.step, if_pos husable]
    exact Option.Rel.some (h.replace hsep husable hvbls hnew hq hcell hdestroys)
  · have hdangling : .sep sep.srcSink ∈ s.dangling := by
      by_contra hd
      exact husable ⟨hborrowed, hd⟩
    have hlt : c.label < mem.strings.size := by
      rw [h.borrowed _ hsep (fun hown => hown.2 hdangling) c hcell]
      exact (h.name_lt _ hsep).trans_le h.size
    have hdead : mem₁.strings.load c.label = none :=
      (hnew.strings _ hlt).trans (h.dead hsep hdangling hcell)
    rw [destroyTabular_eq_none hc₁ hdead, Ledger.step, if_neg husable]
    exact Option.Rel.none

/-! ## Initialisation -/

section Initialisation

variable {Q : Set Place}

theorem Holds.createAt (h : Holds Q mem v) (a : Place) (vbls : VariableSet o) :
    Holds (insert a Q) (mem.createAt A a vbls)
      (v.put a (Pot.Arithmetic.createTabularUnity A vbls)) := by
  set x := Pot.Arithmetic.createTabularUnity A vbls
  have hext := extends_createTabular mem (mem.name a) x
  have hsound := h.sound.createTabular (mem.name a) x
  refine ⟨⟨hsound.table, hsound.apart⟩, fun b hb => ?_, fun b hb b' hb' heq => ?_⟩
  · by_cases heq : b = a
    · subst heq
      rw [read, TreeMemory.createAt, pot_setPot_self, Potentials.get_put_self]
      exact potAt_createTabular mem (mem.name b) x
    · obtain ⟨p, c, hp, -, -, hpot, -⟩ := h.exists_pot (Set.mem_of_mem_insert_of_ne hb heq)
      rw [read, TreeMemory.createAt, pot_setPot_of_ne _ heq, Potentials.get_put_of_ne _ heq,
        hext.pot, hp]
      exact hext.potAt hpot
  · simp only [TreeMemory.createAt] at heq
    by_cases hba : b = a <;> by_cases hba' : b' = a
    · rw [hba, hba']
    · subst hba
      rw [pot_setPot_self, pot_setPot_of_ne _ hba'] at heq
      exact absurd heq.symm (h.pot_ne (Set.mem_of_mem_insert_of_ne hb' hba') _ x)
    · subst hba'
      rw [pot_setPot_self, pot_setPot_of_ne _ hba] at heq
      exact absurd heq (h.pot_ne (Set.mem_of_mem_insert_of_ne hb hba) _ x)
    · rw [pot_setPot_of_ne _ hba, pot_setPot_of_ne _ hba'] at heq
      exact h.apart (Set.mem_of_mem_insert_of_ne hb hba) (Set.mem_of_mem_insert_of_ne hb' hba') heq

theorem cell_createAt_self (mem : TreeMemory o α) (a : Place) (vbls : VariableSet o) :
    (mem.createAt A a vbls).cell a = some ⟨mem.name a, vbls, mem.tables.size,
      (Pot.Arithmetic.createTabularUnity A vbls).tableSize⟩ := by
  rw [cell, TreeMemory.createAt, pot_setPot_self]
  exact load_createTabular mem (mem.name a) _

theorem Holds.cell_createAt_of_ne (h : Holds Q mem v) {a b : Place} (hb : b ∈ Q) (hne : b ≠ a)
    (vbls : VariableSet o) : (mem.createAt A a vbls).cell b = mem.cell b := by
  rw [cell, TreeMemory.createAt, pot_setPot_of_ne _ hne]
  exact h.cell_of_extends (extends_createTabular mem (mem.name a) _) hb

/-- What the first two loops of `BNet_InitializePotentials` have done for the places of `Q`. -/
structure Renewed (Q : Set Place) (mem mem' : TreeMemory o α) (v' : Potentials o α) : Prop where
  shows : Shows Q mem' v'
  strings : mem'.strings = mem.strings
  name : mem'.name = mem.name
  label : ∀ a ∈ Q, ∀ c, mem'.cell a = some c → c.label = mem.name a

/-- One more potential. -/
theorem Renewed.createAt {mem₁ : TreeMemory o α} {v₁ : Potentials o α}
    (h : Renewed Q mem mem₁ v₁) (a : Place) (vbls : VariableSet o) :
    ∀ b ∈ insert a Q, ∀ c, (mem₁.createAt A a vbls).cell b = some c → c.label = mem.name b := by
  intro b hb c hc
  by_cases heq : b = a
  · subst heq
    rw [cell_createAt_self, Option.some.injEq] at hc
    rw [← hc, h.name]
  · have hb := Set.mem_of_mem_insert_of_ne hb heq
    rw [h.shows.cell_createAt_of_ne A hb heq] at hc
    exact h.label b hb c hc

variable (t : ElimTree o)

theorem Renewed.createSeparator {mem₁ : TreeMemory o α} {v₁ : Potentials o α}
    (h : Renewed Q mem mem₁ v₁) (e : Edge) :
    Renewed (insert (.sep e.srcSink) Q) mem (mem₁.createSeparator A t e)
      (v₁.createSeparator A t e) where
  shows := by
    have hnew := h.shows.createAt A (.sep e.srcSink) (t.sepSet e.srcSink).toVariableSet
    refine ⟨⟨⟨hnew.sound.table, hnew.sound.apart⟩, fun b hb => ?_, hnew.apart⟩, fun l hl => ?_,
      fun k hk => ?_⟩
    · refine (hnew.holds b hb).trans (congrArg some ?_)
      cases b <;> rfl
    · exact h.shows.margMemo l (Set.mem_of_mem_insert_of_ne hl nofun)
    · change Function.update mem₁.mulMemo e.srcSink MulMemo.create k =
        Function.update v₁.mulMemo e.srcSink MulMemo.create k
      by_cases heq : k = e.srcSink
      · rw [heq, Function.update_self, Function.update_self]
      · rw [Function.update_of_ne heq, Function.update_of_ne heq]
        exact h.shows.mulMemo k (Set.mem_of_mem_insert_of_ne hk (by simpa using heq))
  strings := h.strings
  name := h.name
  label := h.createAt A (.sep e.srcSink) (t.sepSet e.srcSink).toVariableSet

theorem Renewed.createClique {mem₁ : TreeMemory o α} {v₁ : Potentials o α}
    (h : Renewed Q mem mem₁ v₁) (l : CString) :
    Renewed (insert (.clique l) Q) mem (mem₁.createClique A t l) (v₁.createClique A t l) where
  shows := by
    have hnew := h.shows.createAt A (.clique l) (t.elimSet l).toVariableSet
    refine ⟨⟨⟨hnew.sound.table, hnew.sound.apart⟩, fun b hb => ?_, hnew.apart⟩, fun l' hl => ?_,
      fun k hk => ?_⟩
    · refine (hnew.holds b hb).trans (congrArg some ?_)
      cases b <;> rfl
    · change Function.update mem₁.margMemo l MulMemo.create l' =
        Function.update v₁.margMemo l MulMemo.create l'
      by_cases heq : l' = l
      · rw [heq, Function.update_self, Function.update_self]
      · rw [Function.update_of_ne heq, Function.update_of_ne heq]
        exact h.shows.margMemo l' (Set.mem_of_mem_insert_of_ne hl (by simpa using heq))
    · exact h.shows.mulMemo k (Set.mem_of_mem_insert_of_ne hk nofun)
  strings := h.strings
  name := h.name
  label := h.createAt A (.clique l) (t.elimSet l).toVariableSet

theorem Renewed.mono {Q' : Set Place} (h : Renewed Q mem mem' v) (hsub : Q' ⊆ Q) :
    Renewed Q' mem mem' v where
  shows := ⟨⟨h.shows.sound, fun a ha => h.shows.holds a (hsub ha), h.shows.apart.mono hsub⟩,
    fun l hl => h.shows.margMemo l (hsub hl), fun k hk => h.shows.mulMemo k (hsub hk)⟩
  strings := h.strings
  name := h.name
  label a ha := h.label a (hsub ha)

theorem Renewed.setMargMemo {mem₁ : TreeMemory o α} {v₁ : Potentials o α}
    (h : Renewed Q mem mem₁ v₁) (l : CString) (memo : MulMemo o (Option (MulInd o))) :
    Renewed Q mem (mem₁.setMargMemo l memo) (v₁.setMargMemo l memo) where
  shows := by
    refine ⟨⟨⟨h.shows.sound.table, h.shows.sound.apart⟩, fun a ha => ?_, h.shows.apart⟩,
      fun l' hl => ?_, h.shows.mulMemo⟩
    · refine (h.shows.holds a ha).trans (congrArg some ?_)
      cases a <;> rfl
    · change Function.update mem₁.margMemo l memo l' = Function.update v₁.margMemo l memo l'
      rw [Function.update_apply, Function.update_apply, h.shows.margMemo l' hl]
  strings := h.strings
  name := h.name
  label := h.label

/-- A loop that gives each place of a list a potential. -/
theorem Renewed.foldl {τ : Type} {f : TreeMemory o α → τ → TreeMemory o α}
    {g : Potentials o α → τ → Potentials o α} {place : τ → Place}
    (hstep : ∀ (Q : Set Place) (mem₁ : TreeMemory o α) (v₁ : Potentials o α) (x : τ),
      Renewed Q mem mem₁ v₁ → Renewed (insert (place x) Q) mem (f mem₁ x) (g v₁ x))
    (l : List τ) {mem₁ : TreeMemory o α} {v₁ : Potentials o α} (h : Renewed Q mem mem₁ v₁) :
    Renewed ({a | a ∈ l.map place} ∪ Q) mem (l.foldl f mem₁) (l.foldl g v₁) := by
  induction l generalizing Q mem₁ v₁ with
  | nil => exact h.mono (by simp)
  | cons x l ih =>
      refine (ih (hstep Q mem₁ v₁ x h)).mono fun a ha => ?_
      simp only [Set.mem_union, Set.mem_ofPred_eq, List.map_cons, List.mem_cons,
        Set.mem_insert_iff] at ha ⊢
      tauto

/-- The first two loops give every place of the tree a potential of its own, with the holder's
string for a label. -/
theorem renewed_createAll (h : mem.Sound) (v : Potentials o α) :
    Renewed {a | a ∈ t.places} mem (mem.createAll A t) (v.createAll A t) := by
  have hstart : Renewed ∅ mem mem v := ⟨⟨⟨h, fun _ ha => absurd ha (Set.notMem_empty _),
    Set.injOn_empty _⟩, fun _ hl => absurd hl (Set.notMem_empty _),
    fun _ hk => absurd hk (Set.notMem_empty _)⟩, rfl, rfl,
    fun _ ha => absurd ha (Set.notMem_empty _)⟩
  have hseps := hstart.foldl (fun _ _ _ e h => h.createSeparator A t e) t.graph.edgeList
  have hcliques := hseps.foldl (fun _ _ _ l h => h.createClique A t l) t.graph.labels
  refine hcliques.mono fun a ha => ?_
  simpa [ElimTree.places] using ha

theorem Renewed.findClique_eq {mem₁ : TreeMemory o α} {v₁ : Potentials o α}
    (h : Renewed Q mem mem₁ v₁) (curVbls : VariableSet o) {ls : List CString}
    (hls : ∀ l ∈ ls, .clique l ∈ Q) : mem₁.findClique curVbls ls =
      some (ls.find? fun l => curVbls.containedIn (v₁.clique l).vbls) := by
  induction ls with
  | nil => rfl
  | cons l ls ih =>
      obtain ⟨p, c, -, -, hc, -, hvbls⟩ := h.shows.exists_pot (hls l (List.mem_cons_self ..))
      have hvbls : c.vbls = (v₁.clique l).vbls := hvbls
      rw [findClique, hc, List.find?_cons, ← hvbls]
      simp only [Option.bind_eq_bind, Option.bind_some]
      cases curVbls.containedIn c.vbls with
      | true => rfl
      | false => exact ih fun l' hl' => hls l' (List.mem_cons_of_mem _ hl')

/-- One round of the last two loops. -/
theorem Renewed.multiplyIn_rel {mem₁ : TreeMemory o α} {v₁ : Potentials o α}
    (h : Renewed Q mem mem₁ v₁) (hcliques : ∀ l ∈ t.graph.labels, .clique l ∈ Q)
    (curTable : Pot o α) :
    Option.Rel (fun mem₂ v₂ => Renewed Q mem mem₂ v₂) (mem₁.multiplyIn A t curTable)
      (v₁.multiplyIn A t curTable) := by
  rw [TreeMemory.multiplyIn, h.findClique_eq curTable.vbls hcliques, Potentials.multiplyIn,
    Potentials.findClique]
  simp only [Option.bind_eq_bind, Option.bind_some]
  cases hfind : t.graph.labels.find? fun l => curTable.vbls.containedIn (v₁.clique l).vbls with
  | none => exact Option.Rel.some h
  | some l =>
  have hl : .clique l ∈ Q := hcliques l (List.mem_of_find?_eq_some hfind)
  obtain ⟨p, c, hp, -, hc, hpot, hvbls⟩ := h.shows.exists_pot hl
  have hvbls : c.vbls = (v₁.clique l).vbls := hvbls
  simp only [hc, Option.bind_some, hvbls, h.shows.margMemo l hl, hp]
  cases (v₁.margMemo l).getMargInd (v₁.clique l).vbls curTable.vbls with
  | none => exact Option.Rel.none
  | some mi =>
  have h' := h.setMargMemo l mi.2
  have hpot' : (mem₁.setMargMemo l mi.2).potAt p = some (v₁.clique l) := hpot
  rw [Option.bind_some, ← Option.bind_fun_some (TreeMemory.productTabular A _ _ _ _)]
  refine Lockstep.rel_bind (productTabular_rel A h'.shows.sound hpot' mi.1) fun mem₂ pot hrun => ?_
  have hshows : Shows Q mem₂ ((v₁.setMargMemo l mi.2).put (.clique l) pot) :=
    h'.shows.rewrites hl hp hrun
  refine Option.Rel.some ⟨hshows, hrun.strings.trans h.strings, hrun.name.trans h.name,
    fun a ha c hc => h.label a ha c ?_⟩
  rw [cell, hrun.pot, hrun.pots] at hc
  exact hc

theorem renewed_initializePotentials (h : mem.Sound) (this : BNet o α) (v : Potentials o α) :
    Option.Rel (fun mem' v' => Renewed {a | a ∈ t.places} mem mem' v')
      (mem.initializePotentials A t this) (this.initializePotentialsWith A t v) := by
  have hcliques : ∀ l ∈ t.graph.labels, .clique l ∈ {a | a ∈ t.places} := fun l hl =>
    List.mem_append_left _ (List.mem_map_of_mem hl)
  refine Lockstep.rel_bind (Lockstep.rel_foldlM (fun _ _ x _ h => h.multiplyIn_rel A t hcliques x)
    (renewed_createAll A t h v)) fun _ _ h₁ => ?_
  exact Lockstep.rel_foldlM (fun _ _ x _ h => h.multiplyIn_rel A t hcliques x) h₁

end Initialisation

/-! ## The calls -/

variable {t : ElimTree o}

/-- `BNet_InitializePotentials` in memory goes through when it does on values. -/
theorem Tracks.initializePotentials_rel (h : Tracks {a | a ∈ t.places} n mem v s)
    (this : BNet o α) :
    Option.Rel (fun mem' w => Tracks {a | a ∈ t.places} n mem' w.1 w.2)
      (mem.initializePotentials A t this)
      (both (this.initializePotentialsWith A t v) (s.step .borrow)) := by
  rw [← Option.bind_fun_some (mem.initializePotentials A t this)]
  refine Lockstep.rel_bind (renewed_initializePotentials A t h.sound this v) fun mem' v' hnew => ?_
  have hown : ∀ a, ¬ Own ⟨true, s.freed, s.freed⟩ a := fun a ha => ha.2 ha.1
  refine Option.Rel.some ⟨hnew.shows.sound, nofun, fun _ => hnew.shows, ?_, ?_, ?_, ?_,
    Finset.Subset.refl _, fun a ha _ c hc => ?_, fun a _ ha => absurd ha (hown a),
    fun a _ ha => absurd ha (hown a)⟩
  · exact h.size.trans_eq (congrArg Blocks.size hnew.strings.symm)
  · rw [hnew.name]
    exact h.name_lt
  · rw [hnew.name]
    exact h.name_inj
  · rw [hnew.name, hnew.strings]
    exact h.name
  · rw [hnew.name]
    exact hnew.label a ha c hc

/-- What `Pot_ToString` reads at a place whose label is live. -/
theorem Tracks.potToString_eq (h : Tracks P n mem v s) (ha : a ∈ P) (husable : s.Usable a) :
    (mem.pot a).bind mem.potToString = some
      (if a ∈ s.freed then (v.get a).vbls.getLabel else a.text, (v.get a).tabData) := by
  obtain ⟨p, c, hp, hc, hcell, hpot, -⟩ := (h.shows husable).exists_pot ha
  obtain ⟨c', hc', -, -, htable⟩ := potAt_cases hpot
  obtain rfl := Option.some.inj (hc.symm.trans hc')
  rw [hp, Option.bind_some, potToString, hc]
  simp only [Option.bind_eq_bind, Option.bind_some]
  by_cases hown : Own s a
  · rw [(h.own a ha hown c hcell).2, htable, if_pos hown.1]
    rfl
  · have hfreed : a ∉ s.freed := fun hf => hown ⟨hf, husable.2⟩
    rw [h.borrowed a ha hown c hcell, h.name a ha, if_neg hfreed, htable, if_neg hfreed]
    rfl

theorem Tracks.potToString_eq_none (h : Tracks P n mem v s) (ha : a ∈ P) (hdead : ¬ s.Usable a) :
    (mem.pot a).bind mem.potToString = none := by
  cases hborrowed : s.borrowed with
  | false =>
      rw [h.unset hborrowed a ha]
      rfl
  | true =>
      have hdangling : a ∈ s.dangling := by
        by_contra hd
        exact hdead ⟨hborrowed, hd⟩
      obtain ⟨p, c, hp, hc, hcell, -, -⟩ := (h.holds hborrowed).exists_pot ha
      rw [hp, Option.bind_some, potToString, hc, Option.bind_eq_bind, Option.bind_some,
        h.dead ha hdangling hcell]
      rfl

/-- `Print_BNet` reads every label. -/
theorem Tracks.printBNet_eq (h : Tracks {a | a ∈ t.places} n mem v s) : mem.printBNet t =
    if ∀ a ∈ t.places, s.Usable a then some (t.places.map fun a =>
      (if a ∈ s.freed then (v.get a).vbls.getLabel else a.text, (v.get a).tabData)) else none := by
  split
  · next husable =>
      exact PartialLoops.mapM_eq_some fun a ha => h.potToString_eq ha (husable a ha)
  · next hdead =>
      cases hrun : mem.printBNet t with
      | none => rfl
      | some out =>
          refine absurd (fun a ha => ?_) hdead
          by_contra hdead
          obtain ⟨b, -, hb⟩ := (PartialLoops.mem_mapM hrun).2 a ha
          exact absurd (hb.symm.trans (h.potToString_eq_none ha hdead)) nofun

/-- The edges whose keys a search for `id` compares. -/
def scanned (id : CString) : List Edge → List Edge
  | [] => []
  | e :: es => e :: if e.srcSink = id then [] else scanned id es

/-- `EdgeMap_Get` reads the keys up to the one it looks for. -/
theorem Tracks.edgeMapGet_eq (h : Tracks P n mem v s) (id : CString) {es : List Edge}
    (hes : ∀ e ∈ es, .sep e.srcSink ∈ P) : mem.edgeMapGet id es =
      if ∀ e ∈ scanned id es, .sep e.srcSink ∉ s.freed then
        some (es.find? fun e => e.srcSink = id) else none := by
  induction es with
  | nil => simp [edgeMapGet, scanned]
  | cons e es ih =>
      have ih := ih fun e' he' => hes e' (List.mem_cons_of_mem _ he')
      rw [edgeMapGet, h.name _ (hes e (List.mem_cons_self ..)), scanned]
      by_cases hfreed : .sep e.srcSink ∈ s.freed
      · simp [hfreed]
      · simp only [if_neg hfreed, Place.text, Option.bind_eq_bind, Option.bind_some]
        by_cases hid : e.srcSink = id
        · subst hid
          simp [hfreed]
        · simp [hid, hfreed, ih]

end Tracking

end TreeMemory

end JunctionBox
