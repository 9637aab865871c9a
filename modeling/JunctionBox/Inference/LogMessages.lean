import JunctionBox.Inference.ArithMessages
import JunctionBox.Inference.Interleavings
import JunctionBox.Inference.LogRun
import JunctionBox.Pot.Agreement

/-!
# What the log pipeline computes

`passMessages_log` compares the log run with the plain one as long as no separator
has a zero.  Without that condition the log run still goes through, and whatever
the messages are, an entry is NaN or the logarithm of the plain entry (`LogNear`).

A message over a separator with a zero writes a NaN into its receiver
(`Near.pass_nan`), and no later message removes it (`passAllWith_nan`).  So the
entries are all defined if and only if no message has met a zero
(`passMessages_log_iff`).
-/

namespace JunctionBox.Potentials

open ElimTree Propagation SumOut

variable {o : VariableOrdering} {t : ElimTree o} {m : Message CString Edge}
variable {ms : List (Message CString Edge)} {k : CString} {x : Assignment}

/-- Summing out keeps an assignment complete. -/
theorem complete_assign (hx : o.Complete x) {d : List ℕ}
    (hd : d ∈ MixedRadix.tuples ((summed t m).map fun i => (o.vbl i).cardinality)) :
    o.Complete (VariableSet.assign (summed t m) d x) := by
  obtain ⟨z, hz, rfl⟩ := VariableSet.mem_tuples_iff.mp hd
  intro i hi
  by_cases hmem : i ∈ summed t m
  · rw [summed, VariableSet.assign_map (VariableSet.ranks_nodup _) x z hmem]
    exact hz i (VariableSet.mem_vars_iff_mem_ranks.mpr hmem)
  · rw [VariableSet.assign_of_not_mem hmem]
    exact hx i hi

/-! ## Plain messages divide zeros by zeros only -/

section Plain

variable {K : Type} [Field K] [LinearOrder K] [IsStrictOrderedRing K]
variable {b : Beliefs CString Edge ℕ ℕ K}

/-- Where a separator is zero, so are its cliques. -/
structure Divisible (t : ElimTree o) (b : Beliefs CString Edge ℕ ℕ K) : Prop where
  nonneg : Nonneg b
  isScoped : Scoped t.clique t.separatorOf b
  supported : ∀ x, o.Complete x → Supported AtEnd b x

theorem atEnd_of_along (hm : t.Along m) :
    AtEnd m.sep m.sender ∧ ∀ k, AtEnd m.sep k → k = m.sender ∨ k = m.receiver := by
  rcases Sym2.eq_iff.mp hm.ends with ⟨hsrc, hsink⟩ | ⟨hsrc, hsink⟩
  · exact ⟨Or.inl hsrc.symm, fun k hk => hk.imp (·.trans hsrc) (·.trans hsink)⟩
  · exact ⟨Or.inr hsink.symm, fun k hk => hk.symm.imp (·.trans hsink) (·.trans hsrc)⟩

theorem Divisible.pass (h : Divisible t b) (htree : t.IsTree) (hproper : t.ProperSeparators)
    (hm : t.Along m) : Divisible t (pass o.dom t.clique t.separatorOf m b) := by
  refine ⟨h.nonneg.pass m, h.isScoped.pass (hproper.receiver hm).subset, fun x hx => ?_⟩
  exact (h.supported x hx).pass h.nonneg (atEnd_of_along hm).2 (hm.adj htree).ne
    (inDomain_of_complete t hx)

omit [IsStrictOrderedRing K] in
/-- Over a zero the message is zero. -/
theorem Divisible.marginal_eq_zero (h : Divisible t b) (hm : t.Along m) (hx : o.Complete x)
    (hzero : b.sep m.sep x = 0) : marginal o.dom t.clique t.separatorOf m b x = 0 := by
  refine Finset.sum_eq_zero fun z hz => ?_
  rw [mem_extensions] at hz
  have hcomplete : o.Complete z := by
    intro i hi
    by_cases hmem : i ∈ t.clique m.sender \ t.separatorOf m.sep
    · exact hz.1 i hmem
    · rw [hz.2 i hmem]
      exact hx i hi
  have hsame : b.sep m.sep z = b.sep m.sep x := h.isScoped.sep m.sep fun i hi =>
    hz.2 i fun hmem => (Finset.mem_sdiff.mp hmem).2 hi
  exact h.supported z hcomplete m.sep m.sender (atEnd_of_along hm).1 (hsame.trans hzero)

end Plain

/-! ## One message -/

section Log

variable {K L : Type} [Field K] [LinearOrder K] [IsStrictOrderedRing K] [AddCommGroup L]
variable {iso : ExpLog K L} {b : Beliefs CString Edge ℕ ℕ K}
variable {b' : Beliefs CString Edge ℕ ℕ (Extended L)}
variable {this s : Potentials o K} {other l : Potentials o (Extended L)}

variable (o iso) in
/-- What `b'` says is the logarithm of what `b` says, or undefined. -/
structure Near (b : Beliefs CString Edge ℕ ℕ K) (b' : Beliefs CString Edge ℕ ℕ (Extended L)) :
    Prop where
  clique : ∀ k x, o.Complete x → iso.Agrees (b.clique k x) (b'.clique k x)
  sep : ∀ e x, o.Complete x → iso.Agrees (b.sep e x) (b'.sep e x)

omit [IsStrictOrderedRing K] in
theorem Near.agrees_marginal (h : Near o iso b b') (hb : Nonneg b) (hx : o.Complete x) :
    iso.Agrees (marginalWith (plain K) t m b x) (marginalWith (logarithmic iso) t m b' x) := by
  rw [marginalWith, plain_total]
  exact ExpLog.Agrees.total (fun d hd => h.clique m.sender _ (complete_assign hx hd))
    fun d _ => hb.clique m.sender _

/-- What is divided by what. -/
theorem Near.agrees_ratio (h : Near o iso b b') (hb : Divisible t b) (hproper : t.ProperSeparators)
    (hm : t.Along m) (hx : o.Complete x) :
    let new := marginalWith (logarithmic iso) t m b' x
    iso.Agrees (marginalWith (plain K) t m b x / b.sep m.sep x) (new.sub (b'.sep m.sep x)) ∧
      (b.sep m.sep x = 0 → new.sub (b'.sep m.sep x) = .nan) := by
  have hmarginal : marginalWith (plain K) t m b = marginal o.dom t.clique t.separatorOf m b := by
    have hsep := congrArg (fun b => b.sep m.sep) (passWith_plain hproper hm b)
    simpa only [passWith_sep_self, pass_sep_self] using hsep
  refine (h.agrees_marginal hb.nonneg hx).ratio (h.sep m.sep x hx) ?_ (hb.nonneg.sep m.sep x) ?_
  · rw [hmarginal]
    exact hb.nonneg.marginal m x
  · rw [hmarginal]
    exact hb.marginal_eq_zero hm hx

/-- **One message** keeps the two sides together. -/
theorem Near.pass (h : Near o iso b b') (hb : Divisible t b) (hproper : t.ProperSeparators)
    (hm : t.Along m) : Near o iso (pass o.dom t.clique t.separatorOf m b)
      (passWith (logarithmic iso) t m b') := by
  rw [← passWith_plain hproper hm]
  refine ⟨fun k x hx => ?_, fun e x hx => ?_⟩
  · by_cases hk : k = m.receiver
    · subst hk
      rw [passWith_clique_receiver, passWith_clique_receiver, plain_ratio]
      have hnonneg : 0 ≤ marginalWith (plain K) t m b x / b.sep m.sep x := by
        have hpass : Nonneg (Propagation.pass o.dom t.clique t.separatorOf m b) := hb.nonneg.pass m
        have hsep := hpass.sep m.sep x
        rw [← passWith_plain hproper hm, passWith_sep_self] at hsep
        exact div_nonneg hsep (hb.nonneg.sep m.sep x)
      exact (h.agrees_ratio hb hproper hm hx).1.times (h.clique m.receiver x hx) hnonneg
        (hb.nonneg.clique m.receiver x)
    · rw [passWith_clique_of_ne hk, passWith_clique_of_ne hk]
      exact h.clique k x hx
  · by_cases he : e = m.sep
    · subst he
      rw [passWith_sep_self, passWith_sep_self]
      exact h.agrees_marginal hb.nonneg hx
    · rw [passWith_sep_of_ne he, passWith_sep_of_ne he]
      exact h.sep e x hx

/-- A message over a zero leaves its receiver undefined. -/
theorem Near.pass_nan (h : Near o iso b b') (hb : Divisible t b) (hproper : t.ProperSeparators)
    (hm : t.Along m) (hx : o.Complete x) (hzero : b.sep m.sep x = 0) :
    (passWith (logarithmic iso) t m b').clique m.receiver x = .nan := by
  have hratio := (h.agrees_ratio hb hproper hm hx).2 hzero
  rw [passWith_clique_receiver]
  show ((marginalWith (logarithmic iso) t m b' x).sub (b'.sep m.sep x)).add
    (b'.clique m.receiver x) = .nan
  rw [hratio, Extended.nan_add]

omit [IsStrictOrderedRing K] in
/-- What is undefined stays undefined. -/
theorem passAllWith_nan (hnan : b'.clique k x = .nan) :
    (passAllWith (logarithmic iso) t b' ms).clique k x = .nan := by
  induction ms generalizing b' with
  | nil => exact hnan
  | cons m ms ih =>
      apply ih
      by_cases hk : k = m.receiver
      · rw [hk] at hnan ⊢
        rw [passWith_clique_receiver, hnan]
        exact Extended.add_nan _
      · rw [passWith_clique_of_ne hk, hnan]

/-! ## Any messages -/

/-- Every entry of the log state is the logarithm of the plain entry, or undefined. -/
structure LogNear (iso : ExpLog K L) (t : ElimTree o) (this : Potentials o K)
    (other : Potentials o (Extended L)) : Prop where
  clique : ∀ l ∈ t.graph.labels, ∀ x, o.Complete x → ∃ q p,
    (this.clique l).entry x = some q ∧ (other.clique l).entry x = some p ∧ iso.Agrees q p
  sep : ∀ e ∈ t.graph.edgeList, ∀ x, o.Complete x → ∃ q p,
    (this.sep e.srcSink).entry x = some q ∧ (other.sep e.srcSink).entry x = some p ∧
      iso.Agrees q p

omit [IsStrictOrderedRing K] in
theorem Near.logNear (h : Near o iso b b') (hs : Represents t s b) (hl : Tabulates t l b') :
    LogNear iso t s l where
  clique k hk x hx := ⟨_, _, (hs.clique k hk).entry_eq x (VariableSet.inRange_of_complete _ hx),
    (hl.clique k hk).entry_eq x (VariableSet.inRange_of_complete _ hx), h.clique k x hx⟩
  sep e he x hx := ⟨_, _, (hs.sep e he).entry_eq x (VariableSet.inRange_of_complete _ hx),
    (hl.sep e he).entry_eq x (VariableSet.inRange_of_complete _ hx), h.sep e x hx⟩

theorem Divisible.passAll (hb : Divisible t b) (htree : t.IsTree) (hproper : t.ProperSeparators)
    (hms : ∀ m ∈ ms, t.Along m) : Divisible t (passAll o.dom t.clique t.separatorOf ms b) := by
  induction ms generalizing b with
  | nil => exact hb
  | cons m ms ih =>
      exact ih (hb.pass htree hproper (hms m (List.mem_cons_self ..))) fun m' hm' =>
        hms m' (List.mem_cons_of_mem _ hm')

theorem Near.passAll (h : Near o iso b b') (hb : Divisible t b) (htree : t.IsTree)
    (hproper : t.ProperSeparators) (hms : ∀ m ∈ ms, t.Along m) :
    Near o iso (passAll o.dom t.clique t.separatorOf ms b)
      (passAllWith (logarithmic iso) t b' ms) := by
  induction ms generalizing b b' with
  | nil => exact h
  | cons m ms ih =>
      have hm := hms m (List.mem_cons_self ..)
      exact ih (h.pass hb hproper hm) (hb.pass htree hproper hm) fun m' hm' =>
        hms m' (List.mem_cons_of_mem _ hm')

omit [LinearOrder K] [IsStrictOrderedRing K] in
/-- A zero in the table of a separator. -/
theorem Represents.exists_zero (hpos : o.Discrete) (hs : Represents t s b) (hm : t.Along m)
    (hzero : 0 ∈ (s.sep m.sep.srcSink).tabData) : ∃ x, o.Complete x ∧ b.sep m.sep x = 0 := by
  have hrep := hs.sep _ hm.mem
  obtain ⟨x, hx, hentry⟩ := hrep.sized.exists_entry hzero
  rw [hrep.entry_eq x hx] at hentry
  rw [hs.shaped.sep _ hm.mem] at hx
  obtain ⟨x', hx', hsame⟩ := exists_complete (U := t.separatorOf m.sep) hpos hx
  exact ⟨x', hx', (hs.isScoped.sep m.sep hsame).trans (Option.some.inj hentry)⟩

/-- **A run that meets a zero** leaves something undefined. -/
theorem Near.exists_nan (hpos : o.Discrete) (h : Near o iso b b') (hs : Represents t s b)
    (hb : Divisible t b) (htree : t.IsTree) (hproper : t.ProperSeparators)
    (hms : ∀ m ∈ ms, t.Along m) (hzero : ¬ZeroFree ms s) :
    ∃ k ∈ t.graph.labels, ∃ x, o.Complete x ∧
      (passAllWith (logarithmic iso) t b' ms).clique k x = .nan := by
  induction ms generalizing s b b' with
  | nil => exact absurd trivial hzero
  | cons m ms ih =>
      have hm := hms m (List.mem_cons_self ..)
      by_cases hsep : 0 ∈ (s.sep m.sep.srcSink).tabData
      · obtain ⟨x, hx, hx0⟩ := hs.exists_zero hpos hm hsep
        refine ⟨m.receiver, hm.receiver_mem, x, hx, ?_⟩
        show (passAllWith (logarithmic iso) t (passWith (logarithmic iso) t m b') ms).clique _ x = _
        exact passAllWith_nan (h.pass_nan hb hproper hm hx hx0)
      · obtain ⟨next, hrun, hnext⟩ := hs.messagePass hproper hm
        apply ih (h.pass hb hproper hm) hnext (hb.pass htree hproper hm)
          fun m' hm' => hms m' (List.mem_cons_of_mem _ hm')
        intro hrest
        apply hzero
        refine ⟨fun a ha heq => hsep (heq ▸ ha), fun next' hnext' => ?_⟩
        obtain rfl := Option.some.inj (hrun.symm.trans hnext')
        exact hrest

omit [IsStrictOrderedRing K] in
/-- The log state holds the logarithms of the functions. -/
theorem Follows.tabulates (hf : Follows iso.toLog (fun q => 0 ≤ q) t s l)
    (hs : Represents t s b) :
    Tabulates t l ⟨fun k x => iso.toLog (b.clique k x), fun e x => iso.toLog (b.sep e x)⟩ := by
  have hmap : ∀ {p : Pot o K} {f : Assignment → K}, p.Represents f →
      (p.map iso.toLog).Represents fun x => iso.toLog (f x) := by
    intro p f hp
    refine ⟨⟨hp.sized.tableSize, (List.length_map ..).trans hp.sized.length_tabData⟩,
      fun x hx => ?_⟩
    rw [Pot.entry, Pot.tabData_map, Pot.vbls_map, List.getElem?_map]
    exact congrArg (Option.map iso.toLog) (hp.entry_eq x hx)
  refine ⟨⟨fun k hk => ?_, fun e he => ?_, fun k hk => ?_, fun e he => ?_⟩, fun k hk => ?_,
    fun e he => ?_⟩
  · rw [(hf.clique k hk).1, Pot.vbls_map, hs.shaped.clique k hk]
  · rw [(hf.sep e he).1, Pot.vbls_map, hs.shaped.sep e he]
  · exact (hf.margMemo k hk) ▸ hs.shaped.margMemo k hk
  · exact (hf.mulMemo e he) ▸ hs.shaped.mulMemo e he
  · exact (hf.clique k hk).1 ▸ hmap (hs.clique k hk)
  · exact (hf.sep e he).1 ▸ hmap (hs.sep e he)

/-- Any messages, from corresponding states. -/
theorem Follows.passMessages_cases (hpos : o.Discrete)
    (hf : Follows iso.toLog (fun q => 0 ≤ q) t s l) (hs : Represents t s b) (hb : Divisible t b)
    (htree : t.IsTree) (hproper : t.ProperSeparators) (hms : ∀ m ∈ ms, t.Along m) :
    ∃ s' l', s.passMessages (plain K) ms = some s' ∧
      l.passMessages (logarithmic iso) ms = some l' ∧
      Represents t s' (passAll o.dom t.clique t.separatorOf ms b) ∧ LogNear iso t s' l' ∧
      (ZeroFree ms s → Follows iso.toLog (fun q => 0 ≤ q) t s' l') ∧
      ((∀ k ∈ t.graph.labels, .nan ∉ (l'.clique k).tabData) → ZeroFree ms s) := by
  obtain ⟨s', hs', hrep⟩ := hs.passMessages hproper hms
  obtain ⟨l', hl', htab⟩ := (hf.tabulates hs).passMessages (A := logarithmic iso) hproper hms
  have hnear : Near o iso b
      ⟨fun k x => iso.toLog (b.clique k x), fun e x => iso.toLog (b.sep e x)⟩ :=
    ⟨fun _ _ _ => ExpLog.agrees_toLog _, fun _ _ _ => ExpLog.agrees_toLog _⟩
  refine ⟨s', l', hs', hl', hrep, (hnear.passAll hb htree hproper hms).logNear hrep htab,
    fun hzero => ?_, fun hdefined => ?_⟩
  · obtain ⟨l'', hl'', hf'⟩ := hf.passMessages hms hzero hs'
    obtain rfl := Option.some.inj (hl'.symm.trans hl'')
    exact hf'
  · by_contra hzero
    obtain ⟨k, hk, x, hx, hnan⟩ := hnear.exists_nan hpos hs hb htree hproper hms hzero
    have hentry := (htab.clique k hk).entry_eq x (VariableSet.inRange_of_complete _ hx)
    rw [hnan] at hentry
    exact hdefined k hk (List.mem_of_getElem? hentry)

/-- What `BNet_InitializePotentials` leaves is divisible. -/
theorem divisible_foldl_enter {bn : BNet o K} (hnonneg : ∀ p ∈ bn.pots, ∀ a ∈ p.tabData, 0 ≤ a)
    (hscoped : Scoped t.clique t.separatorOf (bn.pots.foldl (enter t) unity)) :
    Divisible t (bn.pots.foldl (enter t) unity) := by
  have hunity : Nonneg (unity : Beliefs CString Edge ℕ ℕ K) :=
    ⟨fun _ _ => zero_le_one, fun _ _ => zero_le_one⟩
  refine ⟨nonneg_foldl_enter hnonneg hunity, hscoped, fun x _ e k _ hzero => ?_⟩
  rw [sep_foldl_enter] at hzero
  exact absurd hzero one_ne_zero

/-- **What the log pipeline computes.**  After any messages in any order each of its entries is
the logarithm of the plain one or undefined, and all are defined if and only if no message has
met a zero in its separator. -/
theorem passMessages_log_iff (iso : ExpLog K L) (hpos : o.Discrete) {bn : BNet o K}
    (hpots : ∀ p ∈ bn.pots, Enterable p) (hnonneg : ∀ p ∈ bn.pots, ∀ a ∈ p.tabData, 0 ≤ a)
    (htree : t.IsTree) (hproper : t.ProperSeparators) (state : Potentials o K)
    (stateLog : Potentials o (Extended L)) (hms : ∀ m ∈ ms, t.Along m) :
    ∃ s₀ l₀ s l, bn.initializePotentials t state = some s₀ ∧
      (bn.map iso.toLog).initializePotentialsLog iso t stateLog = some l₀ ∧
      s₀.passMessages (plain K) ms = some s ∧ l₀.passMessages (logarithmic iso) ms = some l ∧
      LogNear iso t s l ∧ (IsLog iso t s l ↔ ZeroFree ms s₀) := by
  obtain ⟨s₀, hs₀, hrep⟩ := represents_initializePotentials hpos hpots t state
  obtain ⟨l₀, hl₀, hf⟩ := follows_initializePotentials iso hnonneg stateLog hs₀
  obtain ⟨s, l, hs, hl, -, hnear, hfollows, hzero⟩ := hf.passMessages_cases hpos hrep
    (divisible_foldl_enter hnonneg hrep.isScoped) htree hproper hms
  refine ⟨s₀, l₀, s, l, hs₀, hl₀, hs, hl, hnear, fun hlog => ?_, fun h => (hfollows h).isLog⟩
  exact hzero fun k hk => (hlog.clique k hk).2.2

open BNet in
theorem passMessages_log_iff_chain :
    ∃ bn s₀ l₀ s l, createList2 chainTables [chainObservation] = some bn ∧
      bn.initializePotentials (chainTree chainVertices) (unset chainOrdering ℚ) = some s₀ ∧
      (bn.map ratExpLog.toLog).initializePotentialsLog ratExpLog (chainTree chainVertices)
        (unset chainOrdering _) = some l₀ ∧
      s₀.passMessages (plain ℚ) (chainUp ++ chainBack) = some s ∧
      l₀.passMessages (logarithmic ratExpLog) (chainUp ++ chainBack) = some l ∧
      LogNear ratExpLog (chainTree chainVertices) s l ∧
      (IsLog ratExpLog (chainTree chainVertices) s l ↔ ZeroFree (chainUp ++ chainBack) s₀) := by
  obtain ⟨bn, hrun, -, -, -, hpots⟩ := chain_pots chainVertices (List.Perm.refl _)
  have htree := (chainTree_isJunctionTree chainVertices (List.Perm.refl _) (by decide)).1
  obtain ⟨s₀, l₀, s, l, hs₀, hl₀, hs, hl, hnear, hiff⟩ := passMessages_log_iff ratExpLog
    (by decide) (fun p hp => (hpots p hp).1) (fun p hp => (hpots p hp).2.2) htree
    properSeparators_chainTree (unset chainOrdering ℚ) (unset chainOrdering _) along_chain
  exact ⟨bn, s₀, l₀, s, l, hrun, hs₀, hl₀, hs, hl, hnear, hiff⟩

end Log

end JunctionBox.Potentials
