import JunctionBox.Inference.MemoRuns

/-!
# Messages over any arithmetic

`MessagePass` and `MessagePassLog` are one function over two arithmetics, and what
it does to the tables does not depend on which: `Tabulates t s b` says that the
tables of the state `s` hold the functions of `b`, and a message makes
`passWith A t m b` of them (`Tabulates.messagePass`), for the plain arithmetic
this is `Propagation.pass` (`passWith_plain`).
-/

namespace JunctionBox.Potentials

open ElimTree Propagation SumOut

variable {o : VariableOrdering} {α : Type}

section Definitions

variable (A : Arith α) (t : ElimTree o) (m : Message CString Edge)
variable (b : Beliefs CString Edge ℕ ℕ α)

/-- The variables of the sender that its separator lacks. -/
def summed : List ℕ := (VariableSet.createFromBv
  ((t.sepSet m.sep.srcSink).toVariableSet.bv.xor (t.elimSet m.sender).toVariableSet.bv) :
    VariableSet o).ranks

/-- The sender's function summed onto the separator. -/
def marginalWith (x : Assignment) : α :=
  A.total ((MixedRadix.tuples ((summed t m).map fun i => (o.vbl i).cardinality)).map fun d =>
    b.clique m.sender (VariableSet.assign (summed t m) d x))

/-- What a message leaves. -/
def passWith : Beliefs CString Edge ℕ ℕ α where
  clique := Function.update b.clique m.receiver fun x =>
    A.times (A.ratio (marginalWith A t m b x) (b.sep m.sep x)) (b.clique m.receiver x)
  sep := Function.update b.sep m.sep (marginalWith A t m b)

/-- What a sequence of messages leaves. -/
def passAllWith (ms : List (Message CString Edge)) : Beliefs CString Edge ℕ ℕ α :=
  ms.foldl (fun b m => passWith A t m b) b

end Definitions

variable {A : Arith α} {t : ElimTree o} {m : Message CString Edge}
variable {ms : List (Message CString Edge)} {b : Beliefs CString Edge ℕ ℕ α} {k : CString}
variable {s next : Potentials o α}

theorem passWith_clique_receiver (x : Assignment) : (passWith A t m b).clique m.receiver x =
    A.times (A.ratio (marginalWith A t m b x) (b.sep m.sep x)) (b.clique m.receiver x) := by
  simp only [passWith, Function.update_self]

theorem passWith_clique_of_ne (hk : k ≠ m.receiver) :
    (passWith A t m b).clique k = b.clique k := Function.update_of_ne hk ..

theorem passWith_sep_self : (passWith A t m b).sep m.sep = marginalWith A t m b :=
  Function.update_self ..

theorem passWith_sep_of_ne {e : Edge} (he : e ≠ m.sep) :
    (passWith A t m b).sep e = b.sep e := Function.update_of_ne he ..

theorem summed_eq (hproper : t.ProperSeparators) (hm : t.Along m) {cols : VariableSet o}
    (h : VariableSet.Splits (t.sepSet m.sep.srcSink).toVariableSet cols
      (t.elimSet m.sender).toVariableSet) : summed t m = cols.ranks := by
  have hxor := VariableSet.splits_xor (show (t.sepSet m.sep.srcSink).toVariableSet.vars ⊆
    (t.elimSet m.sender).toVariableSet.vars from (hproper.sender hm).subset)
  apply VariableSet.ranks_eq_of_vars_eq
  have hvars := Pot.vars_cols hxor
  rw [← Pot.vars_cols h] at hvars
  exact hvars

theorem toFinset_summed (hproper : t.ProperSeparators) (hm : t.Along m) :
    (summed t m).toFinset = t.clique m.sender \ t.separatorOf m.sep := by
  have hxor := VariableSet.splits_xor (show (t.sepSet m.sep.srcSink).toVariableSet.vars ⊆
    (t.elimSet m.sender).toVariableSet.vars from (hproper.sender hm).subset)
  rw [summed_eq hproper hm hxor]
  exact Pot.vars_cols hxor

/-- In the plain arithmetic it is a message of the general theory. -/
theorem passWith_plain {K : Type} [Field K] [DecidableEq K] (hproper : t.ProperSeparators)
    (hm : t.Along m) (b : Beliefs CString Edge ℕ ℕ K) :
    passWith (plain K) t m b = pass o.dom t.clique t.separatorOf m b := by
  have hmarginal : marginalWith (plain K) t m b = marginal o.dom t.clique t.separatorOf m b := by
    funext x
    rw [marginalWith, plain_total, marginal, ← toFinset_summed hproper hm]
    exact sum_map_assign o (b.clique m.sender) (VariableSet.ranks_nodup _) x
  unfold passWith Propagation.pass
  rw [hmarginal]
  simp only [plain_ratio]
  rfl

/-- The function of a table, made to read the variables of the table only. -/
theorem exists_dependsOn {p : Pot o α} {f : Assignment → α} (h : p.Represents f) :
    ∃ g, DependsOn g (p.vbls.vars : Set ℕ) ∧ p.Represents g ∧
      ∀ x, p.vbls.InRange x → g x = f x := by
  set g : Assignment → α := fun x => (p.entry x).getD (f fun _ => 0) with hg
  have heq : ∀ x, p.vbls.InRange x → g x = f x := fun x hx => by
    rw [hg]
    simp only [h.entry_eq x hx, Option.getD_some]
  refine ⟨g, fun x y hxy => ?_, h.congr fun x hx => (heq x hx).symm, heq⟩
  simp only [hg, Pot.entry, VariableSet.index_congr fun i hi => hxy i hi]

/-- The tables of the state hold the functions of `b`. -/
structure Tabulates (t : ElimTree o) (s : Potentials o α) (b : Beliefs CString Edge ℕ ℕ α) :
    Prop where
  shaped : Shaped t s
  clique : ∀ l ∈ t.graph.labels, (s.clique l).Represents (b.clique l)
  sep : ∀ e ∈ t.graph.edgeList, (s.sep e.srcSink).Represents (b.sep e)

/-- Looking an index table up succeeds and changes nothing but the memo. -/
theorem Shaped.exists_findIndices (h : Shaped t s) (hproper : t.ProperSeparators)
    (hm : t.Along m) : ∃ mi, s.findIndices m.sender m.sep = some mi ∧
      mi.1.vbls = (t.sepSet m.sep.srcSink).toVariableSet ∧
      mi.1.Indexes (t.sepSet m.sep.srcSink).toVariableSet (t.elimSet m.sender).toVariableSet ∧
      Shaped t (s.setMulMemo m.sep mi.2) := by
  obtain ⟨mi, memo, hget, hcons, hvbls, hindexes⟩ :=
    MulMemo.getMulInd_eq (h.mulMemo _ hm.mem) (hproper.nonempty _ hm.mem)
      (show (t.sepSet m.sep.srcSink).toVariableSet.vars ⊂ (t.elimSet m.sender).toVariableSet.vars
        from hproper.sender hm)
  refine ⟨(mi, memo), ?_, hvbls, hindexes, h.setMulMemo hm.mem hcons⟩
  unfold Potentials.findIndices
  rw [h.sep _ hm.mem, h.clique _ hm.sender_mem]
  exact hget

/-- The three tables that a message computes. -/
theorem Tabulates.exists_tables (h : Tabulates t s b) (hproper : t.ProperSeparators)
    (hm : t.Along m) {margInd mulInd : MulInd o}
    (hmarg : margInd.vbls = (t.sepSet m.sep.srcSink).toVariableSet)
    (hmargInd : margInd.Indexes (t.sepSet m.sep.srcSink).toVariableSet
      (t.elimSet m.sender).toVariableSet)
    (hmulInd : mulInd.Indexes (t.sepSet m.sep.srcSink).toVariableSet
      (t.elimSet m.receiver).toVariableSet) :
    ∃ marg ratio pot,
      Pot.Arithmetic.sumMarginTabular A (s.clique m.sender) margInd = some marg ∧
      Pot.Arithmetic.updateRatioTabular A marg (s.sep m.sep.srcSink) = some ratio ∧
      Pot.Arithmetic.productTabular A ratio (s.clique m.receiver) (some mulInd) = some pot ∧
      marg.Represents ((passWith A t m b).sep m.sep) ∧
      pot.Represents ((passWith A t m b).clique m.receiver) := by
  have hsep := h.shaped.sep _ hm.mem
  have hsender := h.shaped.clique _ hm.sender_mem
  have hreceiver := h.shaped.clique _ hm.receiver_mem
  obtain ⟨cols, hsplit, htable⟩ := hmargInd
  obtain ⟨g, hreads, hrep, hg⟩ := exists_dependsOn (h.clique _ hm.sender_mem)
  obtain ⟨marg, hmargRun, hmargVbls, hmargRep⟩ := Pot.Arithmetic.sumMarginTabular_represents
    (A := A) hrep hreads (hsender ▸ hsplit) (hsender ▸ htable) hmarg
  have hmarginal : marg.Represents (marginalWith A t m b) := by
    refine hmargRep.congr fun x hx => ?_
    rw [marginalWith, summed_eq hproper hm hsplit]
    refine congrArg A.total (List.map_congr_left fun d hd => hg _ ?_)
    exact hsender ▸ hsplit.inRange_assign (hmargVbls ▸ hx) hd
  obtain ⟨ratio, hratioRun, hratioVbls, hratioRep⟩ := Pot.Arithmetic.updateRatioTabular_represents
    (A := A) hmarginal (h.sep _ hm.mem) (hmargVbls.trans hsep.symm)
  obtain ⟨cols', hsplit', htable'⟩ := hmulInd
  have hratio := hratioVbls.trans hmargVbls
  obtain ⟨pot, hpotRun, -, hpotRep⟩ := Pot.Arithmetic.productTabular_represents (A := A) hratioRep
    (h.clique _ hm.receiver_mem) (hratio ▸ hreceiver ▸ hsplit') (hratio ▸ hreceiver ▸ htable')
  refine ⟨marg, ratio, pot, hmargRun, hratioRun, hpotRun, ?_, hpotRep.congr fun x _ => ?_⟩
  · rw [passWith_sep_self]
    exact hmarginal
  · rw [passWith_clique_receiver]

/-- **A message over any arithmetic.** -/
theorem Tabulates.messagePass (h : Tabulates t s b) (hproper : t.ProperSeparators)
    (hm : t.Along m) : ∃ next, s.messagePassWith A m.receiver m.sender m.sep = some next ∧
      Tabulates t next (passWith A t m b) := by
  obtain ⟨margInd, hfind₁, hvbls₁, hindexes₁, hshaped₁⟩ := h.shaped.exists_findIndices hproper hm
  obtain ⟨mulInd, hfind₂, -, hindexes₂, -⟩ := hshaped₁.exists_findIndices hproper hm.reply
  obtain ⟨marg, ratio, pot, hmarg, hratio, hpot, hmargRep, hpotRep⟩ :=
    h.exists_tables (A := A) hproper hm hvbls₁ hindexes₁ hindexes₂
  have hrun : s.messagePassWith A m.receiver m.sender m.sep =
      some (((s.setMulMemo m.sep margInd.2).setMulMemo m.sep mulInd.2).store m.receiver pot m.sep
        marg) := by
    unfold messagePassWith
    simp only [Option.bind_eq_bind]
    rw [show s.findMargIndices m.sender m.sep = _ from hfind₁]
    simp only [Option.bind_some]
    rw [show Pot.Arithmetic.sumMarginTabular A ((s.setMulMemo m.sep margInd.2).clique m.sender)
      margInd.1 = _ from hmarg]
    simp only [Option.bind_some]
    rw [show Pot.Arithmetic.updateRatioTabular A marg
      ((s.setMulMemo m.sep margInd.2).sep m.sep.srcSink) = _ from hratio]
    simp only [Option.bind_some]
    rw [show (s.setMulMemo m.sep margInd.2).findMulIndices m.receiver m.sep = _ from hfind₂]
    simp only [Option.bind_some]
    rw [show Pot.Arithmetic.productTabular A ratio
      (((s.setMulMemo m.sep margInd.2).setMulMemo m.sep mulInd.2).clique m.receiver)
        (some mulInd.1) = _ from hpot]
    rfl
  refine ⟨_, hrun, (h.shaped.messagePassWith hm hrun).1, fun k hk => ?_, fun e he => ?_⟩
  · show (Function.update s.clique m.receiver pot k).Represents _
    by_cases heq : k = m.receiver
    · rw [heq, Function.update_self]
      exact hpotRep
    · rw [Function.update_of_ne heq, passWith_clique_of_ne heq]
      exact h.clique k hk
  · show (Function.update s.sep m.sep.srcSink marg e.srcSink).Represents _
    by_cases heq : e = m.sep
    · rw [heq, Function.update_self]
      exact hmargRep
    · have hother : e.srcSink ≠ m.sep.srcSink := fun hkey =>
        heq (Graph.eq_of_srcSink_eq he hm.mem hkey)
      rw [Function.update_of_ne hother, passWith_sep_of_ne heq]
      exact h.sep e he

/-- **Any sequence of messages**, over any arithmetic, goes through. -/
theorem Tabulates.passMessages (h : Tabulates t s b) (hproper : t.ProperSeparators)
    (hms : ∀ m ∈ ms, t.Along m) : ∃ next, s.passMessages A ms = some next ∧
      Tabulates t next (passAllWith A t b ms) := by
  induction ms generalizing s b with
  | nil => exact ⟨s, rfl, h⟩
  | cons m ms ih =>
      obtain ⟨mid, hmid, hrep⟩ := h.messagePass (A := A) hproper (hms m (List.mem_cons_self ..))
      obtain ⟨next, hrun, hnext⟩ := ih hrep fun m' hm' => hms m' (List.mem_cons_of_mem _ hm')
      refine ⟨next, ?_, hnext⟩
      unfold Potentials.passMessages passEach at hrun ⊢
      rw [List.foldlM_cons, hmid]
      exact hrun

end JunctionBox.Potentials
