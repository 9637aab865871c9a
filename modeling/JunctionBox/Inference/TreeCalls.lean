import JunctionBox.Inference.Marginals
import JunctionBox.Inference.Ownership

/-!
# Calls on the tree, in any order

Once `BNet_BuildElimTree` has built the tree a caller may initialise the
potentials, pass messages, print the network and look for edges in any order.
Whether such a run stays within live memory can be read off the order of the
calls (`run_isSome_iff`), and as long as it does, memory holds what the functions
compute on values (`run_contents`).  What is allocated and never freed is counted
by `run_grows`.
-/

namespace JunctionBox

open Propagation Borrowing

variable {o : VariableOrdering} {α : Type} (A : Arith α) (this : BNet o α) (t : ElimTree o)

/-- What a call does to the labels. -/
def TreeCall.act : TreeCall → Act Place
  | .initializePotentials => .borrow
  | .messagePass m => .replace (.sep m.sep.srcSink)
  | .printBNet => .use t.places
  | .getEdge src sink => .visit
      ((TreeMemory.scanned (srcsink src sink) t.graph.edgeList).map fun e => .sep e.srcSink)

/-- A message over the edge that holds the separator. -/
def TreeCall.passesOver (a : Place) : TreeCall → Bool
  | .messagePass m => a = .sep m.sep.srcSink
  | _ => false

/-- The potentials by value after a sequence of calls. -/
def Potentials.run (v : Potentials o α) (calls : List TreeCall) : Option (Potentials o α) :=
  calls.foldlM (Potentials.call A this t) v

namespace TreeMemory

variable {t} {mem mem' : TreeMemory o α} {v : Potentials o α} {s : Ledger Place} {n : ℕ}
  {calls before : List TreeCall}

/-! ## One call -/

theorem mem_places_clique {l : CString} (hl : l ∈ t.graph.labels) : .clique l ∈ t.places :=
  List.mem_append_left _ (List.mem_map_of_mem hl)

theorem mem_places_sep {e : Edge} (he : e ∈ t.graph.edgeList) : .sep e.srcSink ∈ t.places :=
  List.mem_append_right _ (List.mem_map.mpr ⟨e, he, rfl⟩)

/-- A call in memory goes through when it does on values and touches no dead label. -/
theorem Tracks.call_rel (h : Tracks {a | a ∈ t.places} n mem v s) {c : TreeCall}
    (halong : ∀ m, c = .messagePass m → t.Along m) :
    Option.Rel (fun mem' w => Tracks {a | a ∈ t.places} n mem' w.1 w.2) (mem.call A this t c)
      (both (v.call A this t c) (s.step (c.act t))) := by
  cases c with
  | initializePotentials => exact h.initializePotentials_rel A this
  | messagePass m =>
      have hm := halong m rfl
      exact h.messagePass_rel A (mem_places_clique hm.receiver_mem)
        (mem_places_clique hm.sender_mem) (mem_places_sep hm.mem)
  | printBNet =>
      simp only [call, Potentials.call, TreeCall.act, h.printBNet_eq, Ledger.step]
      split
      · exact Option.Rel.some h
      · exact Option.Rel.none
  | getEdge src sink =>
      simp only [call, Potentials.call, TreeCall.act, getEdge, Ledger.step, List.forall_mem_map,
        h.edgeMapGet_eq (srcsink src sink) fun e he => mem_places_sep he]
      split
      · exact Option.Rel.some h
      · exact Option.Rel.none

/-! ## Runs -/

theorem foldlM_both {f : Potentials o α → TreeCall → Option (Potentials o α)}
    {g : Ledger Place → TreeCall → Option (Ledger Place)} (calls : List TreeCall)
    (v : Potentials o α) (s : Ledger Place) :
    calls.foldlM (fun w c => both (f w.1 c) (g w.2 c)) (v, s) =
      both (calls.foldlM f v) (calls.foldlM g s) := by
  induction calls generalizing v s with
  | nil => rfl
  | cons c calls ih =>
      rw [List.foldlM_cons, List.foldlM_cons, List.foldlM_cons]
      cases f v c with
      | none => rfl
      | some v' =>
          cases g s c with
          | none =>
              rw [both_none]
              exact (both_none _).symm
          | some s' => exact ih v' s'

/-- What `BNet_BuildElimTree` leaves: the vertices and edges have their strings, each its own,
and no potential. -/
structure Fresh (t : ElimTree o) (mem : TreeMemory o α) : Prop where
  sound : mem.Sound
  pot : ∀ a ∈ t.places, mem.pot a = none
  name : ∀ a ∈ t.places, mem.strings.load (mem.name a) = some a.text
  name_inj : Set.InjOn mem.name {a | a ∈ t.places}

theorem Fresh.tracks (h : Fresh t mem) (v : Potentials o α) :
    Tracks {a | a ∈ t.places} mem.strings.size mem v (Ledger.start Place) where
  sound := h.sound
  unset _ := h.pot
  holds := nofun
  size := le_rfl
  name_lt a ha := Blocks.lt_size_of_load (h.name a ha)
  name_inj := h.name_inj
  name a ha := (h.name a ha).trans (if_neg (Finset.notMem_empty a)).symm
  dangling := Finset.Subset.refl _
  borrowed a ha _ c hc := by
    rw [cell, h.pot a ha] at hc
    cases hc
  own a _ ha := absurd ha.1 (Finset.notMem_empty a)
  own_inj a _ ha := absurd ha.1 (Finset.notMem_empty a)

/-- A run in memory against the run on values and the ledger. -/
theorem Fresh.run_rel (h : Fresh t mem) (v : Potentials o α)
    (halong : ∀ m, .messagePass m ∈ calls → t.Along m) :
    Option.Rel (fun mem' w => Tracks {a | a ∈ t.places} mem.strings.size mem' w.1 w.2)
      (mem.run A this t calls)
      (both (v.run A this t calls) ((Ledger.start Place).run (calls.map (TreeCall.act t)))) := by
  rw [Potentials.run, Ledger.run, List.foldlM_map, ← foldlM_both]
  refine Lockstep.rel_foldlM (fun mem' w c hc h => ?_) (h.tracks v)
  exact h.call_rel A this fun m hm => halong m (hm ▸ hc)

/-! ## What the order of the calls says -/

/-- After these calls the place has a potential with a live label. -/
def LabelLive (before : List TreeCall) (a : Place) : Prop :=
  .initializePotentials ∈ before ∧
    ∀ m, .sep m.sep.srcSink = a → ¬ [.messagePass m, .initializePotentials].Sublist before

/-- After these calls the call touches no dead string. -/
def Admits (t : ElimTree o) (before : List TreeCall) : TreeCall → Prop
  | .initializePotentials => True
  | .messagePass m => LabelLive before (.sep m.sep.srcSink)
  | .printBNet => ∀ a ∈ t.places, LabelLive before a
  | .getEdge src sink => ∀ e ∈ scanned (srcsink src sink) t.graph.edgeList,
      ∀ m, m.sep.srcSink = e.srcSink → .messagePass m ∉ before

theorem borrow_eq_act {c : TreeCall} : c.act t = .borrow ↔ c = .initializePotentials := by
  cases c <;> simp [TreeCall.act]

theorem replace_eq_act {c : TreeCall} {a : Place} :
    c.act t = .replace a ↔ ∃ m, c = .messagePass m ∧ .sep m.sep.srcSink = a := by
  cases c <;> simp [TreeCall.act]

theorem borrow_mem_acts : .borrow ∈ before.map (TreeCall.act t) ↔
    .initializePotentials ∈ before := by
  simp [List.mem_map, borrow_eq_act]

theorem replace_mem_acts {a : Place} : .replace a ∈ before.map (TreeCall.act t) ↔
    ∃ m, .messagePass m ∈ before ∧ .sep m.sep.srcSink = a := by
  simp only [List.mem_map, replace_eq_act]
  constructor
  · rintro ⟨c, hc, m, rfl, hm⟩
    exact ⟨m, hc, hm⟩
  · rintro ⟨m, hc, hm⟩
    exact ⟨_, hc, m, rfl, hm⟩

theorem sublist_acts {a : Place} : [.replace a, .borrow].Sublist (before.map (TreeCall.act t)) ↔
    ∃ m, .sep m.sep.srcSink = a ∧ [.messagePass m, .initializePotentials].Sublist before := by
  rw [List.sublist_map_iff]
  constructor
  · rintro ⟨l, hl, heq⟩
    obtain ⟨c, l, rfl, hc, heq⟩ := List.map_eq_cons_iff.mp heq.symm
    obtain ⟨c', l, rfl, hc', heq⟩ := List.map_eq_cons_iff.mp heq
    obtain rfl := List.map_eq_nil_iff.mp heq
    obtain ⟨m, rfl, hm⟩ := replace_eq_act.mp hc
    obtain rfl := borrow_eq_act.mp hc'
    exact ⟨m, hm, hl⟩
  · rintro ⟨m, rfl, hl⟩
    exact ⟨_, hl, rfl⟩

theorem usableAfter_acts {a : Place} :
    UsableAfter (before.map (TreeCall.act t)) a ↔ LabelLive before a := by
  rw [UsableAfter, LabelLive, borrow_mem_acts, sublist_acts]
  simp only [not_exists, not_and]

theorem admitted_acts {c : TreeCall} :
    Admitted (before.map (TreeCall.act t)) (c.act t) ↔ Admits t before c := by
  cases c with
  | initializePotentials => exact Iff.rfl
  | messagePass m => exact usableAfter_acts
  | printBNet => exact forall₂_congr fun a _ => usableAfter_acts
  | getEdge src sink =>
      simp only [TreeCall.act, Admitted, List.forall_mem_map, replace_mem_acts, Admits,
        Place.sep.injEq, not_exists, not_and']

theorem lawful_acts : Lawful (calls.map (TreeCall.act t)) ↔
    ∀ before c after, calls = before ++ c :: after → Admits t before c := by
  constructor
  · rintro h before c after rfl
    refine admitted_acts.mp (h _ _ (after.map (TreeCall.act t)) ?_)
    rw [List.map_append, List.map_cons]
  · intro h before a after heq
    obtain ⟨before, rest, rfl, rfl, hrest⟩ := List.map_eq_append_iff.mp heq
    obtain ⟨c, after, rfl, rfl, rfl⟩ := List.map_eq_cons_iff.mp hrest
    exact admitted_acts.mpr (h before c after rfl)

/-- Calls on a fresh tree stay within live memory if and only if they go through on the values
and each is admitted by those before it: a message needs an earlier initialisation and must not
follow a message over its own edge and, after that, another initialisation; printing needs this
of every edge; and a search for an edge must not come to the key of an edge that has carried a
message. -/
theorem run_isSome_iff (hfresh : Fresh t mem) (v : Potentials o α)
    (halong : ∀ m, .messagePass m ∈ calls → t.Along m) : (mem.run A this t calls).isSome ↔
      (v.run A this t calls).isSome ∧
        ∀ before c after, calls = before ++ c :: after → Admits t before c := by
  rw [Lockstep.rel_isSome (hfresh.run_rel A this v halong), ← lawful_acts,
    ← isSome_run_iff]
  cases v.run A this t calls with
  | none => simp [both]
  | some v' => cases (Ledger.start Place).run (calls.map (TreeCall.act t)) <;> simp [both]

/-- A run in memory leaves the potentials that the calls leave by value, and what is printed of
them is their tables, each under the holder's own string as long as no message has passed over
the edge, and under the labels of its variables from then on. -/
theorem run_contents (hfresh : Fresh t mem) (v : Potentials o α)
    (halong : ∀ m, .messagePass m ∈ calls → t.Along m)
    (hrun : mem.run A this t calls = some mem') : ∃ v', v.run A this t calls = some v' ∧
      (.initializePotentials ∈ calls → ∀ a ∈ t.places, mem'.read a = some (v'.get a)) ∧
      ∀ out, mem'.printBNet t = some out → out = t.places.map fun a =>
        (if calls.any (TreeCall.passesOver a) then (v'.get a).vbls.getLabel else a.text,
          (v'.get a).tabData) := by
  have hrel := hfresh.run_rel A this v halong
  rw [hrun] at hrel
  obtain ⟨⟨v', s⟩, hboth, htracks⟩ := Lockstep.rel_some hrel
  obtain ⟨v₁, hv, hmap⟩ := Option.bind_eq_some_iff.mp hboth
  obtain ⟨s₁, hs, heq⟩ := Option.map_eq_some_iff.mp hmap
  obtain ⟨rfl, rfl⟩ := Prod.mk.inj heq
  have hrecords := run_records hs
  refine ⟨v₁, hv, fun hinit => ?_, fun out hout => ?_⟩
  · exact (htracks.holds (hrecords.borrowed.mpr (borrow_mem_acts.mpr hinit))).holds
  · have hfreed : ∀ a, a ∈ s₁.freed ↔ calls.any (TreeCall.passesOver a) = true := by
      intro a
      rw [hrecords.freed, replace_mem_acts, List.any_eq_true]
      constructor
      · rintro ⟨m, hm, rfl⟩
        exact ⟨_, hm, decide_eq_true rfl⟩
      · rintro ⟨c, hc, hpasses⟩
        cases c with
        | messagePass m => exact ⟨m, hc, (of_decide_eq_true hpasses).symm⟩
        | _ => cases hpasses
    rw [htracks.printBNet_eq] at hout
    split at hout
    · obtain rfl := Option.some.inj hout
      simp only [hfreed]
    · cases hout

/-! ## What is never freed -/

/-- `i` more live strings, and `j` more live tables and structures. -/
structure Grows (mem mem' : TreeMemory o α) (i j : ℕ) : Prop where
  strings : mem'.strings.live = mem.strings.live + i
  tables : mem'.tables.live = mem.tables.live + j
  pots : mem'.pots.live = mem.pots.live + j

theorem Grows.refl (mem : TreeMemory o α) : Grows mem mem 0 0 := ⟨rfl, rfl, rfl⟩

theorem Grows.trans {mem'' : TreeMemory o α} {i j i' j' : ℕ} (h : Grows mem mem' i j)
    (h' : Grows mem' mem'' i' j') : Grows mem mem'' (i + i') (j + j') where
  strings := by rw [h'.strings, h.strings, Nat.add_assoc]
  tables := by rw [h'.tables, h.tables, Nat.add_assoc]
  pots := by rw [h'.pots, h.pots, Nat.add_assoc]

theorem grows_createTabular (mem : TreeMemory o α) (label : ℕ) (x : Pot o α) :
    Grows mem (mem.createTabular label x).2 0 1 :=
  ⟨rfl, Blocks.live_alloc .., Blocks.live_alloc ..⟩

theorem grows_destroyTabular {p : ℕ} (hrun : mem.destroyTabular p = some mem') :
    Grows mem' mem 1 1 := by
  obtain ⟨c, -, hrun⟩ := Option.bind_eq_some_iff.mp hrun
  obtain ⟨strings, hstrings, hrun⟩ := Option.bind_eq_some_iff.mp hrun
  obtain ⟨tables, htables, hrun⟩ := Option.bind_eq_some_iff.mp hrun
  obtain ⟨pots, hpots, hrun⟩ := Option.bind_eq_some_iff.mp hrun
  obtain rfl := Option.some.inj hrun
  exact ⟨(Blocks.live_free hstrings).symm, (Blocks.live_free htables).symm,
    (Blocks.live_free hpots).symm⟩

theorem grows_productTabular {x : Pot o α} {q : ℕ} {mi : Option (MulInd o)}
    (hrun : mem.productTabular A x q mi = some mem') : Grows mem mem' 0 0 := by
  obtain ⟨c, -, hrun⟩ := Option.bind_eq_some_iff.mp hrun
  obtain ⟨y, -, hrun⟩ := Option.bind_eq_some_iff.mp hrun
  obtain ⟨pot, -, hrun⟩ := Option.bind_eq_some_iff.mp hrun
  obtain ⟨tables, htables, hrun⟩ := Option.bind_eq_some_iff.mp hrun
  obtain rfl := Option.some.inj hrun
  exact ⟨rfl, Blocks.live_store htables, rfl⟩

theorem grows_multiplyMessage {receiver caller : CString} {sep : Edge}
    {out : ℕ × TreeMemory o α} (hrun : mem.multiplyMessage A receiver caller sep = some out) :
    Grows mem out.2 1 2 := by
  obtain ⟨margInd, -, hrun⟩ := Option.bind_eq_some_iff.mp hrun
  obtain ⟨p, -, hrun⟩ := Option.bind_eq_some_iff.mp hrun
  obtain ⟨marg, hmarg, hrun⟩ := Option.bind_eq_some_iff.mp hrun
  obtain ⟨q, -, hrun⟩ := Option.bind_eq_some_iff.mp hrun
  obtain ⟨ratio, hratio, hrun⟩ := Option.bind_eq_some_iff.mp hrun
  obtain ⟨mulInd, -, hrun⟩ := Option.bind_eq_some_iff.mp hrun
  obtain ⟨x, -, hrun⟩ := Option.bind_eq_some_iff.mp hrun
  obtain ⟨r, -, hrun⟩ := Option.bind_eq_some_iff.mp hrun
  obtain ⟨mem₂, hproduct, hrun⟩ := Option.bind_eq_some_iff.mp hrun
  obtain rfl := Option.some.inj hrun
  have hsum : Grows mem marg.2 1 1 := by
    obtain ⟨y, -, hmarg⟩ := Option.bind_eq_some_iff.mp hmarg
    obtain ⟨z, -, hmarg⟩ := Option.bind_eq_some_iff.mp hmarg
    obtain rfl := Option.some.inj hmarg
    exact ⟨Blocks.live_alloc .., Blocks.live_alloc .., Blocks.live_alloc ..⟩
  have hdivide : Grows marg.2 ratio.2 0 1 := by
    obtain ⟨c, -, hratio⟩ := Option.bind_eq_some_iff.mp hratio
    obtain ⟨y, -, hratio⟩ := Option.bind_eq_some_iff.mp hratio
    obtain ⟨y', -, hratio⟩ := Option.bind_eq_some_iff.mp hratio
    obtain ⟨z, -, hratio⟩ := Option.bind_eq_some_iff.mp hratio
    obtain rfl := Option.some.inj hratio
    exact grows_createTabular ..
  have hmultiply : Grows ratio.2 mem₂ 0 0 := by
    have hsame := grows_productTabular A hproduct
    exact ⟨hsame.strings, hsame.tables, hsame.pots⟩
  exact (hsum.trans hdivide).trans hmultiply

theorem grows_messagePass {receiver caller : CString} {sep : Edge}
    (hrun : mem.messagePass A receiver caller sep = some mem') : Grows mem mem' 0 1 := by
  obtain ⟨out, hout, hrun⟩ := Option.bind_eq_some_iff.mp hrun
  obtain ⟨p, -, hrun⟩ := Option.bind_eq_some_iff.mp hrun
  obtain ⟨mem₂, hdestroy, hrun⟩ := Option.bind_eq_some_iff.mp hrun
  obtain rfl := Option.some.inj hrun
  have hsent := grows_multiplyMessage A hout
  have hgone := grows_destroyTabular hdestroy
  refine ⟨?_, ?_, ?_⟩
  · have := hgone.strings.symm.trans hsent.strings
    exact Nat.succ.inj this
  · have := hgone.tables.symm.trans hsent.tables
    exact Nat.succ.inj this
  · have := hgone.pots.symm.trans hsent.pots
    exact Nat.succ.inj this

theorem grows_foldl {τ : Type} {f : TreeMemory o α → τ → TreeMemory o α}
    (hstep : ∀ mem x, Grows mem (f mem x) 0 1) (l : List τ) (mem : TreeMemory o α) :
    Grows mem (l.foldl f mem) 0 l.length := by
  induction l generalizing mem with
  | nil => exact Grows.refl mem
  | cons x l ih =>
      rw [List.length_cons, Nat.add_comm]
      exact (hstep mem x).trans (ih (f mem x))

theorem grows_createSeparator (t : ElimTree o) (mem : TreeMemory o α) (e : Edge) :
    Grows mem (mem.createSeparator A t e) 0 1 :=
  ⟨rfl, Blocks.live_alloc .., Blocks.live_alloc ..⟩

theorem grows_createClique (t : ElimTree o) (mem : TreeMemory o α) (l : CString) :
    Grows mem (mem.createClique A t l) 0 1 :=
  ⟨rfl, Blocks.live_alloc .., Blocks.live_alloc ..⟩

theorem grows_createAll (t : ElimTree o) (mem : TreeMemory o α) :
    Grows mem (mem.createAll A t) 0 t.places.length := by
  have hseps := grows_foldl (grows_createSeparator A t) t.graph.edgeList mem
  have hcliques := grows_foldl (grows_createClique A t) t.graph.labels
    (t.graph.edgeList.foldl (createSeparator A t) mem)
  have hlen : t.places.length = t.graph.edgeList.length + t.graph.labels.length := by
    rw [ElimTree.places, List.length_append, List.length_map, List.length_map, Nat.add_comm]
  rw [hlen]
  exact hseps.trans hcliques

theorem grows_foldlM {τ : Type} {f : TreeMemory o α → τ → Option (TreeMemory o α)}
    (hstep : ∀ mem x mem', f mem x = some mem' → Grows mem mem' 0 0) {l : List τ}
    (hrun : l.foldlM f mem = some mem') : Grows mem mem' 0 0 := by
  induction l generalizing mem with
  | nil =>
      obtain rfl := Option.some.inj hrun
      exact Grows.refl mem
  | cons x l ih =>
      obtain ⟨mem₁, hfirst, hrest⟩ := Option.bind_eq_some_iff.mp hrun
      exact (hstep mem x mem₁ hfirst).trans (ih hrest)

theorem grows_multiplyIn {curTable : Pot o α} (hrun : mem.multiplyIn A t curTable = some mem') :
    Grows mem mem' 0 0 := by
  obtain ⟨found, -, hrun⟩ := Option.bind_eq_some_iff.mp hrun
  cases found with
  | none =>
      obtain rfl := Option.some.inj hrun
      exact Grows.refl mem
  | some l =>
      obtain ⟨c, -, hrun⟩ := Option.bind_eq_some_iff.mp hrun
      obtain ⟨mi, -, hrun⟩ := Option.bind_eq_some_iff.mp hrun
      obtain ⟨p, -, hrun⟩ := Option.bind_eq_some_iff.mp hrun
      have hproduct := grows_productTabular A hrun
      exact ⟨hproduct.strings, hproduct.tables, hproduct.pots⟩

theorem grows_initializePotentials (hrun : mem.initializePotentials A t this = some mem') :
    Grows mem mem' 0 t.places.length := by
  obtain ⟨mem₁, htables, hobs⟩ := Option.bind_eq_some_iff.mp hrun
  have hstep : ∀ (mem : TreeMemory o α) (x : Pot o α) (mem' : TreeMemory o α),
      mem.multiplyIn A t x = some mem' → Grows mem mem' 0 0 := fun _ _ _ => grows_multiplyIn A
  exact ((grows_createAll A t mem).trans (grows_foldlM hstep htables)).trans
    (grows_foldlM hstep hobs)

/-- The potentials that a call allocates and nothing frees. -/
def TreeCall.unfreed (t : ElimTree o) : TreeCall → ℕ
  | .initializePotentials => t.places.length
  | .messagePass _ => 1
  | _ => 0

theorem grows_call {c : TreeCall} (hrun : mem.call A this t c = some mem') :
    Grows mem mem' 0 (TreeCall.unfreed t c) := by
  cases c with
  | initializePotentials => exact grows_initializePotentials A this hrun
  | messagePass m => exact grows_messagePass A hrun
  | printBNet =>
      obtain ⟨-, -, rfl⟩ := Option.map_eq_some_iff.mp hrun
      exact Grows.refl mem
  | getEdge src sink =>
      obtain ⟨-, -, rfl⟩ := Option.map_eq_some_iff.mp hrun
      exact Grows.refl mem

/-- Every message and every initialisation leaves potentials behind that are never freed: one
structure and one table for a message, one of each for every clique and separator for an
initialisation.  The number of live strings stays the same. -/
theorem run_grows (hrun : mem.run A this t calls = some mem') :
    mem'.strings.live = mem.strings.live ∧
      mem'.tables.live = mem.tables.live + (calls.map (TreeCall.unfreed t)).sum ∧
      mem'.pots.live = mem.pots.live + (calls.map (TreeCall.unfreed t)).sum := by
  suffices h : Grows mem mem' 0 (calls.map (TreeCall.unfreed t)).sum from
    ⟨h.strings, h.tables, h.pots⟩
  induction calls generalizing mem with
  | nil =>
      obtain rfl := Option.some.inj hrun
      exact Grows.refl mem
  | cons c calls ih =>
      obtain ⟨mem₁, hfirst, hrest⟩ := Option.bind_eq_some_iff.mp hrun
      exact (grows_call A this hfirst).trans (ih hrest)

/-! ## A tree that has just been built -/

/-- A memory that holds the strings of the vertices and edges and nothing else. -/
def ofTree (t : ElimTree o) (α : Type) : TreeMemory o α where
  strings := ⟨t.places.map fun a => some a.text⟩
  tables := ⟨[]⟩
  pots := ⟨[]⟩
  name a := t.places.idxOf a
  pot _ := none
  margMemo _ := MulMemo.create
  mulMemo _ := MulMemo.create

theorem fresh_ofTree (t : ElimTree o) (α : Type) : Fresh t (ofTree t α) where
  sound := ⟨nofun, nofun⟩
  pot _ _ := rfl
  name a ha := by
    have hlt := List.idxOf_lt_length_of_mem ha
    simp [ofTree, Blocks.load, hlt]
  name_inj a ha b _ heq := List.idxOf_inj ha |>.mp heq

open BNet

/-- The message that `Print_BNet` is called after. -/
def forkMessage : Message CString Edge :=
  ⟨['a', ' ', 'b', ' '], ['a', ' ', 'c', ' '],
    Edge.create ['a', ' ', 'c', ' '] ['a', ' ', 'b', ' ']⟩

theorem along_forkMessage : forkTree.Along forkMessage :=
  ⟨by rw [computed_forkTree.2.2.1]; decide, rfl⟩

/-- The second message frees the key of its edge again. -/
theorem run_isSome_iff_fork : (ofTree forkTree ℚ).run (plain ℚ) forkNetwork forkTree
    [.initializePotentials, .messagePass forkMessage, .initializePotentials,
      .messagePass forkMessage] = none := by
  rw [← Option.not_isSome_iff_eq_none, run_isSome_iff (plain ℚ) forkNetwork (fresh_ofTree ..)
    (Potentials.unset chainOrdering ℚ)]
  · rintro ⟨-, hadmits⟩
    have hlive := hadmits [.initializePotentials, .messagePass forkMessage, .initializePotentials]
      (.messagePass forkMessage) [] rfl
    exact hlive.2 forkMessage rfl (List.sublist_cons_self ..)
  · intro m hm
    have hm : m = forkMessage := by simpa using hm
    exact hm ▸ along_forkMessage

theorem run_contents_fork : ∃ mem' v', (ofTree forkTree ℚ).run (plain ℚ) forkNetwork forkTree
      [.initializePotentials, .messagePass forkMessage, .printBNet] = some mem' ∧
    (Potentials.unset chainOrdering ℚ).run (plain ℚ) forkNetwork forkTree
      [.initializePotentials, .messagePass forkMessage, .printBNet] = some v' ∧
    ∀ a ∈ forkTree.places, mem'.read a = some (v'.get a) := by
  have hsome : ((ofTree forkTree ℚ).run (plain ℚ) forkNetwork forkTree
      [.initializePotentials, .messagePass forkMessage, .printBNet]).isSome := by
    decide
  obtain ⟨mem', hrun⟩ := Option.isSome_iff_exists.mp hsome
  obtain ⟨v', hv, hread, -⟩ := run_contents (plain ℚ) forkNetwork (fresh_ofTree ..)
    (Potentials.unset chainOrdering ℚ) (fun m hm => by
      have hm : m = forkMessage := by simpa using hm
      exact hm ▸ along_forkMessage) hrun
  exact ⟨mem', v', hrun, hv, hread (List.mem_cons_self ..)⟩

theorem run_grows_fork : ∃ mem', (ofTree forkTree ℚ).run (plain ℚ) forkNetwork forkTree
      [.initializePotentials, .messagePass forkMessage] = some mem' ∧
    mem'.strings.live = 5 ∧ mem'.tables.live = 6 ∧ mem'.pots.live = 6 := by
  have hsome : ((ofTree forkTree ℚ).run (plain ℚ) forkNetwork forkTree
      [.initializePotentials, .messagePass forkMessage]).isSome := by
    decide
  obtain ⟨mem', hrun⟩ := Option.isSome_iff_exists.mp hsome
  have hlive := run_grows (plain ℚ) forkNetwork hrun
  have hplaces : forkTree.places.length = 5 := by
    rw [ElimTree.places, computed_forkTree.2.1, computed_forkTree.2.2.1]
    rfl
  have hstrings : (ofTree forkTree ℚ).strings.live = 5 := by
    rw [← hplaces, ofTree, Blocks.live, List.countP_map]
    exact List.countP_eq_length.mpr fun _ _ => rfl
  simp only [List.map_cons, List.map_nil, TreeCall.unfreed, List.sum_cons, List.sum_nil,
    hstrings, hplaces] at hlive
  exact ⟨mem', hrun, hlive⟩

end TreeMemory

end JunctionBox
