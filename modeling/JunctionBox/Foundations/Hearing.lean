import JunctionBox.Foundations.CollectionSchedule
import JunctionBox.Foundations.DirectedMessages
import Mathlib.Data.List.Sort

/-!
# Who has heard from whom

In a tree every clique has one way to every other one.  A run of messages, in
any order and with any repetitions, brings what `l` knows to `k` when it runs
through that way in order (`HasHeard`).

* `exact_of_hasHeard`: a clique that has heard from all others holds the
  marginal of the product, whatever else was sent in between or afterwards.
* `hasHeard_of_eq_zero`: nothing else will do.  If `l` holds nothing but zeros,
  a clique that has not heard from it holds none.
* `CollectsTo.sendAll_eq`: all schedules that collect to the same clique leave
  the same letters.
-/

namespace JunctionBox.Propagation

open Finset Hypertree SimpleGraph SumOut

variable {ι β κ ε K : Type*} [DecidableEq ι] [DecidableEq κ] [DecidableEq ε]

/-- `M` has one letter for every direction of every edge of the tree. -/
structure EdgeLetters (T : SimpleGraph κ) (ends : ε → Sym2 κ) (M : Finset (Message κ ε)) :
    Prop where
  adj : ∀ m ∈ M, T.Adj m.sender m.receiver
  ends_eq : ∀ m ∈ M, ends m.sep = s(m.sender, m.receiver)
  exists_mem : ∀ {u v}, T.Adj u v → ∃ m ∈ M, m.sender = u ∧ m.receiver = v
  eq_of_ends : ∀ m ∈ M, ∀ m' ∈ M, m.sender = m'.sender → m.receiver = m'.receiver → m = m'

/-- From whom to whom. -/
def Message.hop (m : Message κ ε) : κ × κ := (m.sender, m.receiver)

/-- The run `ms` goes through the way from `l` to `k` in order. -/
def HasHeard (T : SimpleGraph κ) (ms : List (Message κ ε)) (l k : κ) : Prop :=
  ∀ p : T.Walk l k, p.IsPath → (p.darts.map Dart.toProd).Sublist (ms.map Message.hop)

variable {T : SimpleGraph κ} {ends : ε → Sym2 κ} {M : Finset (Message κ ε)}
variable {C : κ → Finset ι} {S : ε → Finset ι} {nodes : Set κ} {l k : κ}
variable {m m' : Message κ ε} {p ms ms' : List (Message κ ε)}

omit [DecidableEq κ] [DecidableEq ε] in
/-- Whoever has heard has heard after any further messages. -/
theorem HasHeard.append (h : HasHeard T ms l k) (ms' : List (Message κ ε)) :
    HasHeard T (ms ++ ms') l k := by
  intro p hp
  rw [List.map_append]
  exact (h p hp).trans (List.sublist_append_left _ _)

omit [DecidableEq κ] in
/-- The last step of a walk. -/
theorem darts_eq_concat {v : κ} (p : T.Walk l v) (hadj : T.Adj p.penultimate v) :
    p.darts = p.dropLast.darts ++ [⟨(p.penultimate, v), hadj⟩] := by
  conv_lhs => rw [← Walk.concat_dropLast hadj]
  rw [Walk.darts_concat, List.concat_eq_append]

/-! ## Routes are paths -/

section Paths

omit [DecidableEq κ] [DecidableEq ε] in
/-- Runs of letters can be told by their hops. -/
theorem EdgeLetters.eq_of_map (h : EdgeLetters T ends M) (hp : ∀ m ∈ p, m ∈ M)
    (hms : ∀ m ∈ ms, m ∈ M) (heq : p.map Message.hop = ms.map Message.hop) : p = ms := by
  induction p generalizing ms with
  | nil => exact (List.map_eq_nil_iff.mp heq.symm).symm
  | cons m p ih =>
      obtain ⟨m', ms, rfl, hhop, htail⟩ := List.map_eq_cons_iff.mp heq.symm
      rw [h.eq_of_ends m (hp m (List.mem_cons_self ..)) m' (hms m' (List.mem_cons_self ..))
          (congrArg Prod.fst hhop.symm) (congrArg Prod.snd hhop.symm),
        ih (fun m hm => hp m (List.mem_cons_of_mem _ hm))
          (fun m hm => hms m (List.mem_cons_of_mem _ hm)) htail.symm]

omit [DecidableEq κ] [DecidableEq ε] in
theorem EdgeLetters.sublist_of_map (h : EdgeLetters T ends M) (hp : ∀ m ∈ p, m ∈ M)
    (hms : ∀ m ∈ ms, m ∈ M) (hsub : (p.map Message.hop).Sublist (ms.map Message.hop)) :
    p.Sublist ms := by
  obtain ⟨l, hl, heq⟩ := List.sublist_map_iff.mp hsub
  rw [h.eq_of_map hp (fun m hm => hms m (hl.subset hm)) heq]
  exact hl

omit [DecidableEq κ] [DecidableEq ε] in
/-- The way a route takes. -/
theorem IsRoute.exists_walk (hedges : EdgeLetters T ends M) (h : IsRoute M (p ++ [m]))
    (hl : (p ++ [m]).head?.map Message.sender = some l) :
    ∃ w : T.Walk l m.receiver, w.darts.map Dart.toProd = (p ++ [m]).map Message.hop := by
  induction p generalizing l with
  | nil =>
      obtain rfl : m.sender = l := Option.some.inj hl
      have hadj := hedges.adj m (h.mem m (List.mem_singleton_self m))
      exact ⟨Walk.cons hadj Walk.nil, rfl⟩
  | cons m₁ p ih =>
      obtain rfl : m₁.sender = l := Option.some.inj hl
      obtain ⟨m₂, hhead⟩ : ∃ m₂, (p ++ [m]).head? = some m₂ := by
        cases p with
        | nil => exact ⟨m, rfl⟩
        | cons m₂ p => exact ⟨m₂, rfl⟩
      have hchain := List.isChain_cons.mp h.chain
      have hnext : m₁.receiver = m₂.sender := (hchain.1 m₂ hhead).1
      obtain ⟨w, hw⟩ := ih ⟨fun m' hm' => h.mem m' (List.mem_cons_of_mem _ hm'), hchain.2⟩
        (l := m₁.receiver) (by rw [hhead, hnext]; rfl)
      have hadj := hedges.adj m₁ (h.mem m₁ (List.mem_cons_self ..))
      refine ⟨Walk.cons hadj w, ?_⟩
      rw [Walk.darts_cons, List.map_cons, hw]
      rfl

omit [DecidableEq ι] [DecidableEq κ] [DecidableEq ε] in
/-- Two letters in a row that go over the same edge are a letter and its answer. -/
theorem EdgeLetters.edge_ne (hedges : EdgeLetters T ends M) (hM : Network C S M)
    (hm : m ∈ M) (hm' : m' ∈ M) (h : Feeds m m') :
    s(m.sender, m.receiver) ≠ s(m'.sender, m'.receiver) := by
  intro heq
  rcases Sym2.eq_iff.mp heq with ⟨hsender, -⟩ | ⟨hsender, hreceiver⟩
  · exact (hM.fits m hm).ne (hsender.trans h.1.symm)
  · exact h.2 (hedges.eq_of_ends m hm _ (hM.reply m' hm') hsender hreceiver)

omit [DecidableEq ι] [DecidableEq κ] [DecidableEq ε] in
/-- Routes do not turn back, so in a tree they are paths. -/
theorem IsRoute.exists_path (hedges : EdgeLetters T ends M) (hM : Network C S M) (hT : T.IsAcyclic)
    (h : IsRoute M (p ++ [m])) (hl : (p ++ [m]).head?.map Message.sender = some l) :
    ∃ w : T.Walk l m.receiver, w.IsPath ∧
      w.darts.map Dart.toProd = (p ++ [m]).map Message.hop := by
  obtain ⟨w, hw⟩ := h.exists_walk hedges hl
  refine ⟨w, (hT.isPath_iff_isChain w).mpr ?_, hw⟩
  have hwalk : w.edges = (p ++ [m]).map fun m => s(m.sender, m.receiver) := by
    calc w.edges = (w.darts.map Dart.toProd).map fun d => s(d.1, d.2) := by
          rw [Walk.edges, List.map_map]
          rfl
      _ = (p ++ [m]).map fun m => s(m.sender, m.receiver) := by
          rw [hw, List.map_map]
          rfl
  rw [hwalk, List.isChain_map]
  have hall := h.mem
  generalize p ++ [m] = q at h hall
  refine List.IsChain.imp_of_mem_imp (fun m₁ m₂ hm₁ hm₂ hfeeds => ?_) h.chain
  exact hedges.edge_ne hM (hall m₁ hm₁) (hall m₂ hm₂) hfeeds

omit [DecidableEq κ] [DecidableEq ε] in
/-- And paths are the ways of routes. -/
theorem EdgeLetters.exists_route (hedges : EdgeLetters T ends M) {u v : κ} (w : T.Walk u v)
    (hw : w.IsPath) :
    ∃ p : List (Message κ ε), IsRoute M p ∧ p.map Message.hop = w.darts.map Dart.toProd := by
  induction w with
  | nil => exact ⟨[], ⟨fun m hm => absurd hm List.not_mem_nil, List.IsChain.nil⟩, rfl⟩
  | @cons u x v hadj w ih =>
      rw [Walk.cons_isPath_iff] at hw
      obtain ⟨p, hp, hhops⟩ := ih hw.1
      obtain ⟨m, hm, rfl, rfl⟩ := hedges.exists_mem hadj
      refine ⟨m :: p, ⟨fun m' hm' => ?_, List.isChain_cons.mpr ⟨fun m' hm' => ?_, hp.chain⟩⟩, ?_⟩
      · rcases List.mem_cons.mp hm' with rfl | hm'
        · exact hm
        · exact hp.mem m' hm'
      · -- the next letter leaves where `m` has arrived, and not to where it came from
        cases w with
        | nil => rw [List.map_eq_nil_iff.mp hhops] at hm'; exact absurd hm' nofun
        | @cons _ y _ hadj' w =>
            obtain ⟨m₁, p, rfl, hhop, -⟩ := List.map_eq_cons_iff.mp hhops
            obtain rfl : m₁ = m' := Option.some.inj hm'
            have hsender : m₁.sender = m.receiver := congrArg Prod.fst hhop
            have hreceiver : m₁.receiver = y := congrArg Prod.snd hhop
            refine ⟨hsender.symm, fun heq => hw.2 ?_⟩
            have hback : m.sender = y := (congrArg Message.sender heq).trans hreceiver
            rw [Walk.support_cons, hback]
            exact List.mem_cons_of_mem _ w.start_mem_support
      · rw [List.map_cons, hhops, Walk.darts_cons, List.map_cons]
        rfl

omit [DecidableEq ι] in
/-- A clique that has heard from everybody has final letters. -/
theorem mem_informed_of_hasHeard (hedges : EdgeLetters T ends M) (hM : Network C S M)
    (hT : IsTreeOn nodes T) (hms : ∀ m ∈ ms, m ∈ M) (hheard : ∀ l ∈ nodes, HasHeard T ms l k) :
    inbound M k ⊆ informed M ms := by
  intro m hmem
  obtain ⟨hm, rfl⟩ := mem_inbound.mp hmem
  refine (mem_informed_iff hm).mpr fun p hp => ?_
  obtain ⟨m₁, hhead⟩ : ∃ m₁, (p ++ [m]).head? = some m₁ := by
    cases p with
    | nil => exact ⟨m, rfl⟩
    | cons m₁ p => exact ⟨m₁, rfl⟩
  have hm₁ : m₁ ∈ M := hp.mem m₁ (List.mem_of_mem_head? hhead)
  obtain ⟨w, hpath, hdarts⟩ := hp.exists_path hedges hM hT.acyclic
    (l := m₁.sender) (by rw [hhead]; rfl)
  have hsub := hheard m₁.sender (hT.mem_of_adj (hedges.adj m₁ hm₁)) w hpath
  exact hedges.sublist_of_map hp.mem hms (hdarts ▸ hsub)

end Paths

/-! ## Schedules that collect -/

section Schedules

/-- Letters sent after all that feed them are final. -/
theorem mem_informed_of_feeders
    (h : ∀ before m after, ms = before ++ m :: after → ∀ m' ∈ feeders M m, m' ∈ before) :
    ∀ m ∈ ms, m ∈ informed M ms := by
  induction ms using List.reverseRecOn with
  | nil => exact fun m hm => absurd hm List.not_mem_nil
  | append_singleton ms m₀ ih =>
      have hbefore : ∀ m ∈ ms, m ∈ informed M ms := ih fun before m after heq =>
        h before m (after ++ [m₀]) (by rw [heq, List.append_assoc]; rfl)
      intro m hm
      rw [informed_concat]
      rcases List.mem_append.mp hm with hm | hm
      · exact subset_inform _ _ (hbefore m hm)
      · obtain rfl := List.mem_singleton.mp hm
        exact mem_inform_iff.mpr (Or.inr ⟨rfl, fun m' hm' =>
          hbefore m' (h ms m [] rfl m' hm')⟩)

variable {root : κ} {seps : List ε}

omit [DecidableEq ι] in
/-- A schedule sends what feeds a letter before it. -/
theorem CollectsTo.feeders_before (h : CollectsTo T ends seps root ms)
    (hedges : EdgeLetters T ends M) (hM : Network C S M) (hT : IsTreeOn nodes T)
    (R : Rooting nodes T root) (hseps : ∀ m ∈ M, m.sep ∈ seps) (hms : ∀ m ∈ ms, m ∈ M)
    {before after : List (Message κ ε)}
    (hsplit : ms = before ++ m :: after) : ∀ m' ∈ feeders M m, m' ∈ before := by
  intro m' hm'
  have hm : m ∈ ms := hsplit ▸ List.mem_append_right _ (List.mem_cons_self ..)
  obtain ⟨hne, hmem, hreceiver⟩ := mem_feeders.mp hm'
  have hadj := hedges.adj m (hms m hm)
  have hadj' := hedges.adj m' hmem
  have hsenderNode := hT.mem_of_adj hadj
  have hinward := h.inward m hm
  rw [R.dist_eq hT hsenderNode, R.dist_eq hT (hT.mem_of_adj_right hadj)] at hinward
  -- the receiver is the parent, so the neighbour that feeds `m` is a child
  have hchild : m'.sender ≠ root ∧ R.parent m'.sender = m.sender := by
    rw [hreceiver] at hadj'
    rcases R.parent_of_adj hadj' with ⟨hroot, hparent⟩ | hchild
    · rcases R.parent_of_adj hadj with ⟨hroot', hparent'⟩ | ⟨-, hparent'⟩
      · have hdepth := R.depth_parent (hT.mem_of_adj_right hadj) hroot'
        rw [hparent'] at hdepth
        omega
      · refine absurd (hedges.eq_of_ends m' hmem _ (hM.reply m (hms m hm)) ?_ hreceiver) hne
        exact hparent.symm.trans hparent'
    · exact hchild
  have hsender'Node := hT.mem_of_adj (hedges.adj m' hmem)
  have hbelow : R.Below m.sender m'.sender :=
    Rooting.Below.step hsender'Node hchild.1
      (hchild.2 ▸ Rooting.Below.refl (hchild.2 ▸ hsenderNode))
  obtain ⟨m₁, hm₁, hsep⟩ := h.subtree_first before m after hsplit m'.sep (hseps m' hmem) (by
    intro v hv
    rw [hedges.ends_eq m' hmem, Sym2.mem_iff] at hv
    rcases hv with rfl | rfl
    · exact (R.below_iff hT hsender'Node).mp hbelow
    · rw [hreceiver]
      exact (R.below_iff hT hsenderNode).mp (Rooting.Below.refl hsenderNode))
  have hm₁ms : m₁ ∈ ms := hsplit ▸ List.mem_append_left _ hm₁
  rcases hM.sep_eq m' hmem m₁ (hms m₁ hm₁ms) hsep with heq | heq
  · exact heq ▸ hm₁
  · -- the answer of `m'` would go outward
    have hout := h.inward m₁ hm₁ms
    rw [heq, R.dist_eq hT (hT.mem_of_adj (hedges.adj _ (hM.reply m' hmem))),
      R.dist_eq hT (hT.mem_of_adj_right (hedges.adj _ (hM.reply m' hmem)))] at hout
    have hdepth := R.depth_parent hsender'Node hchild.1
    have hout' : R.depth m'.receiver = R.depth m'.sender + 1 := hout
    rw [hchild.2, ← hreceiver] at hdepth
    omega

omit [DecidableEq ι] in
/-- A schedule brings everything to its root. -/
theorem CollectsTo.hasHeard (h : CollectsTo T ends seps root ms) (hedges : EdgeLetters T ends M)
    (hM : Network C S M) (hT : IsTreeOn nodes T) (R : Rooting nodes T root)
    (hseps : ∀ m ∈ M, m.sep ∈ seps) (hms : ∀ m ∈ ms, m ∈ M) (l : κ) : HasHeard T ms l root := by
  intro w hw
  obtain ⟨p, hp, hhops⟩ := hedges.exists_route w hw
  rw [← hhops]
  refine List.Sublist.map Message.hop ?_
  rcases List.eq_nil_or_concat' p with rfl | ⟨p, m, rfl⟩
  · exact List.nil_sublist ms
  have hm : m ∈ M := hp.mem m (List.mem_append_right _ (List.mem_singleton_self m))
  have hreceiver : m.receiver = root := by
    have hnil : ¬w.Nil := by
      intro hnil
      rw [Walk.darts_eq_nil.mpr hnil, List.map_nil, List.map_append] at hhops
      exact List.append_ne_nil_of_right_ne_nil _ (List.cons_ne_nil _ _) hhops
    rw [darts_eq_concat w (w.adj_penultimate hnil), List.map_append, List.map_append] at hhops
    obtain ⟨-, hlast⟩ := List.append_inj' hhops rfl
    exact congrArg Prod.snd (List.singleton_inj.mp hlast)
  obtain ⟨m', hm', hsep⟩ := List.mem_map.mp (h.once.mem_iff.mpr (hseps m hm))
  rcases hM.sep_eq m hm m' (hms m' hm') hsep with rfl | rfl
  · have hfinal := mem_informed_of_feeders (fun _ _ _ hsplit =>
      h.feeders_before hedges hM hT R hseps hms hsplit) m' hm'
    exact (mem_informed_iff hm).mp hfinal p hp
  · -- the answer would leave the root
    have hinward := h.inward _ hm'
    have hdist : T.dist root m.reply.sender = 0 := by
      rw [show m.reply.sender = root from hreceiver, dist_self]
    omega

omit [DecidableEq ι] in
/-- Two schedules to the same clique send the same letters. -/
theorem CollectsTo.mem_of_mem (h : CollectsTo T ends seps root ms)
    (h' : CollectsTo T ends seps root ms') (hM : Network C S M) (hms : ∀ m ∈ ms, m ∈ M)
    (hms' : ∀ m ∈ ms', m ∈ M) : ∀ m ∈ ms, m ∈ ms' := by
  intro m hm
  have hsep : m.sep ∈ ms'.map Message.sep :=
    h'.once.mem_iff.mpr (h.once.mem_iff.mp (List.mem_map_of_mem hm))
  obtain ⟨m', hm', heq⟩ := List.mem_map.mp hsep
  rcases hM.sep_eq m (hms m hm) m' (hms' m' hm') heq with rfl | rfl
  · exact hm'
  · have hin := h.inward m hm
    have hout : T.dist root m.receiver = T.dist root m.sender + 1 := h'.inward m.reply hm'
    omega

variable [Field K] {dom : ι → Finset β} {ψ : κ → (ι → β) → K}
variable {μ : Message κ ε → (ι → β) → K}

theorem sendAll_of_not_mem (hm : m ∉ ms) : sendAll M dom C S ψ ms μ m = μ m := by
  induction ms using List.reverseRecOn with
  | nil => rfl
  | append_singleton ms m₀ ih =>
      rw [List.mem_append, List.mem_singleton, not_or] at hm
      rw [sendAll_concat, send_of_ne hm.2, ih hm.1]

/-- **All schedules that collect to one clique leave the same letters.** -/
theorem CollectsTo.sendAll_eq (h : CollectsTo T ends seps root ms)
    (h' : CollectsTo T ends seps root ms') (hedges : EdgeLetters T ends M) (hM : Network C S M)
    (hT : IsTreeOn nodes T) (R : Rooting nodes T root) (hseps : ∀ m ∈ M, m.sep ∈ seps)
    (hms : ∀ m ∈ ms, m ∈ M) (hms' : ∀ m ∈ ms', m ∈ M) (μ : Message κ ε → (ι → β) → K) :
    sendAll M dom C S ψ ms μ = sendAll M dom C S ψ ms' μ := by
  have hfinal := mem_informed_of_feeders fun _ _ _ hsplit =>
    h.feeders_before hedges hM hT R hseps hms hsplit
  have hfinal' := mem_informed_of_feeders fun _ _ _ hsplit =>
    h'.feeders_before hedges hM hT R hseps hms' hsplit
  funext m
  by_cases hm : m ∈ ms
  · have hm' := h.mem_of_mem h' hM hms hms' m hm
    exact (settled_sendAll ms' μ).eq_of_mem_informed ms μ m (hfinal m hm) (hfinal' m hm')
  · rw [sendAll_of_not_mem hm,
      sendAll_of_not_mem fun hm' => hm (h'.mem_of_mem h hM hms' hms m hm')]

end Schedules

/-! ## What it takes to be exact -/

section Exact

variable {R : Rooting nodes T k} {A : Finset κ}

omit [DecidableEq κ] [DecidableEq ε] in
/-- The letters of some nodes to their parents. -/
theorem EdgeLetters.exists_upward (hedges : EdgeLetters T ends M) (R : Rooting nodes T k)
    {senders : List κ} (h : ∀ v ∈ senders, v ∈ nodes ∧ v ≠ k) :
    ∃ ms : List (Message κ ε), ms.map Message.sender = senders ∧
      ∀ m ∈ ms, m ∈ M ∧ Upward R ends m := by
  induction senders with
  | nil => exact ⟨[], rfl, by simp⟩
  | cons v senders ih =>
      obtain ⟨ms, hmap, hup⟩ := ih fun w hw => h w (List.mem_cons_of_mem _ hw)
      obtain ⟨hv, hne⟩ := h v (List.mem_cons_self ..)
      obtain ⟨m, hm, rfl, hreceiver⟩ := hedges.exists_mem (R.adj_parent hv hne)
      refine ⟨m :: ms, by rw [List.map_cons, hmap], fun m' hm' => ?_⟩
      rcases List.mem_cons.mp hm' with rfl | hm'
      · exact ⟨hm, hv, hne, hreceiver, hedges.ends_eq _ hm⟩
      · exact hup m' hm'

/-- Deeper nodes first. -/
theorem exists_postOrder (hT : IsTreeOn nodes T) (hA : ∀ l, l ∈ A ↔ l ∈ nodes)
    (R : Rooting nodes T k) : ∃ l, R.IsPostOrder k (l ++ [k]) := by
  set l := (A.erase k).toList.mergeSort fun v w => decide (R.depth w ≤ R.depth v) with hl
  have hperm : l.Perm (A.erase k).toList := List.mergeSort_perm ..
  have hmem : ∀ v, v ∈ l ↔ v ≠ k ∧ v ∈ nodes := fun v => by
    rw [hperm.mem_iff, mem_toList, mem_erase, hA]
  have hsorted : l.Pairwise fun v w => R.depth w ≤ R.depth v := by
    have hpairs : l.Pairwise fun v w => decide (R.depth w ≤ R.depth v) := List.pairwise_mergeSort
      (fun a b c hab hbc => by simp only [decide_eq_true_eq] at *; omega)
      (fun a b => by simp only [Bool.or_eq_true, decide_eq_true_eq]; omega) (A.erase k).toList
    exact hpairs.imp fun h => of_decide_eq_true h
  refine ⟨l, fun v => ?_, ?_⟩
  · rw [List.mem_append, List.mem_singleton, hmem]
    constructor
    · rintro (⟨-, hv⟩ | rfl)
      · exact R.below_root hT hv
      · exact Rooting.Below.refl R.root_mem
    · intro hbelow
      by_cases hv : v = k
      · exact Or.inr hv
      · exact Or.inl ⟨hv, hbelow.mem⟩
  · rw [List.pairwise_append]
    refine ⟨(hsorted.and (hperm.nodup_iff.mpr (nodup_toList _))).imp fun h hbelow => ?_,
      List.pairwise_singleton .., fun v hv w hw hbelow => ?_⟩
    · exact h.2 (hbelow.eq_of_depth_eq (Nat.le_antisymm hbelow.depth_le h.1))
    · rw [List.mem_singleton.mp hw] at hbelow
      exact ((hmem v).mp hv).1 hbelow.eq_root

/-- There is a schedule that collects to any given clique, absorbing all others. -/
theorem exists_schedule (hT : IsJunctionTree nodes C T) (hedges : EdgeLetters T ends M)
    (hM : Network C S M) (hS : ∀ m ∈ M, S m.sep = C m.sender ∩ C m.receiver)
    (hA : ∀ l, l ∈ A ↔ l ∈ nodes) (R : Rooting nodes T k) :
    ∃ ms : List (Message κ ε), (∀ m ∈ ms, m ∈ M) ∧
      (∀ l, l ∈ ms.map Message.sender ↔ l ∈ nodes ∧ l ≠ k) ∧
      CollectsTo T ends (M.image Message.sep).toList k ms ∧ Absorbs C S A ms {k} := by
  obtain ⟨senders, horder⟩ := exists_postOrder hT.toIsTreeOn hA R
  have hpair := List.pairwise_append.mp horder.pairwise
  have hsenders : ∀ v, v ∈ senders ↔ v ∈ nodes ∧ v ≠ k := by
    intro v
    have hiff := horder.mem_iff v
    rw [List.mem_append, List.mem_singleton] at hiff
    constructor
    · intro hv
      refine ⟨(hiff.mp (Or.inl hv)).mem, ?_⟩
      rintro rfl
      exact hpair.2.2 v hv v (List.mem_singleton_self v) (Rooting.Below.refl R.root_mem)
    · rintro ⟨hv, hne⟩
      exact (hiff.mpr (R.below_root hT.toIsTreeOn hv)).resolve_right hne
  obtain ⟨ms, rfl, hup⟩ := hedges.exists_upward R fun v hv => (hsenders v).mp hv
  refine ⟨ms, fun m hm => (hup m hm).1, hsenders, ?_, ?_⟩
  · apply collectsTo_of_postOrder hT.toIsTreeOn (fun m hm => (hup m hm).2) horder (nodup_toList _)
    · exact fun m hm => mem_toList.mpr (mem_image_of_mem _ (hup m hm).1)
    · intro e he e' he' heq
      obtain ⟨m, hm, rfl⟩ := mem_image.mp (mem_toList.mp he)
      obtain ⟨m', hm', rfl⟩ := mem_image.mp (mem_toList.mp he')
      rw [hedges.ends_eq m hm, hedges.ends_eq m' hm', Sym2.eq_iff] at heq
      rcases heq with ⟨hsender, hreceiver⟩ | ⟨hsender, hreceiver⟩
      · rw [hedges.eq_of_ends m hm m' hm' hsender hreceiver]
      · rw [hedges.eq_of_ends m hm m'.reply (hM.reply m' hm') hsender hreceiver,
          Message.reply_sep]
    · intro e he
      obtain ⟨m, hm, rfl⟩ := mem_image.mp (mem_toList.mp he)
      exact ⟨_, _, hedges.ends_eq m hm, hedges.adj m hm⟩
  · apply absorbs_of_upward hT (fun m hm => (hup m hm).2) (fun m hm => hS m (hup m hm).1) hpair.1
    · intro v
      rw [hA, hsenders]
      constructor
      · intro hv
        by_cases heq : v = k
        · exact Or.inl heq
        · exact Or.inr ⟨hv, heq⟩
      · rintro (rfl | ⟨hv, -⟩)
        · exact R.root_mem
        · exact hv
    · exact fun m hm => (hA _).mpr (hT.mem_of_adj_right (hedges.adj m (hup m hm).1))

variable [Field K] [LinearOrder K] [IsStrictOrderedRing K]
variable {dom : ι → Finset β} {b : Beliefs κ ε ι β K}

/-- The letters of two runs that are final in both, in terms of the cliques. -/
theorem passAll_eq_of_informed (hM : Network C S M) (hms : ∀ m ∈ ms, m ∈ M)
    (hms' : ∀ m ∈ ms', m ∈ M) (hψ : Factors C b.clique) (hone : b.sep = fun _ _ => 1)
    (hfinal : inbound M k ⊆ informed M ms) (hfinal' : inbound M k ⊆ informed M ms')
    {x : ι → β} (hx : InDomain dom C x) :
    (passAll dom C S ms b).clique k x = (passAll dom C S ms' b).clique k x := by
  have hstart : Mirrors M dom C b.clique b fun _ _ => 1 := mirrors_one rfl hone
  have hmirrors := (hstart.passAll hψ hM hms sound_one).1
  have hmirrors' := (hstart.passAll hψ hM hms' sound_one).1
  rw [hmirrors.clique k x hx, hmirrors'.clique k x hx]
  congr 1
  refine prod_congr rfl fun m hm => ?_
  rw [(settled_sendAll ms' _).eq_of_mem_informed ms _ m (hfinal hm) (hfinal' hm)]

/-- **Who has heard from everybody is exact**, whatever the order of the messages. -/
theorem exact_of_hasHeard (hT : IsJunctionTree nodes C T) (hedges : EdgeLetters T ends M)
    (hM : Network C S M) (hS : ∀ m ∈ M, S m.sep = C m.sender ∩ C m.receiver)
    (hA : ∀ l, l ∈ A ↔ l ∈ nodes) (hk : k ∈ nodes) (hms : ∀ m ∈ ms, m ∈ M)
    (hheard : ∀ l ∈ nodes, HasHeard T ms l k) (hb : Scoped C S b) (hψ : Factors C b.clique)
    (hone : b.sep = fun _ _ => 1) {x : ι → β} (hx : InDomain dom C x) :
    (passAll dom C S ms b).clique k x =
      sumOut dom (A.biUnion C \ C k) (fun z => ∏ l ∈ A, b.clique l z) x := by
  obtain ⟨R⟩ := hT.toIsTreeOn.exists_rooting hk
  obtain ⟨cs, hcs, hsenders, hcollects, habsorbs⟩ := exists_schedule hT hedges hM hS hA R
  have hfinal := mem_informed_of_hasHeard hedges hM hT.toIsTreeOn hms hheard
  have hsent := mem_informed_of_feeders fun _ _ _ hsplit =>
    hcollects.feeders_before hedges hM hT.toIsTreeOn R
      (fun m hm => mem_toList.mpr (mem_image_of_mem _ hm)) hcs hsplit
  have hfinal' : inbound M k ⊆ informed M cs := by
    intro m hm
    obtain ⟨hm, hreceiver⟩ := mem_inbound.mp hm
    have hadj := hedges.adj m hm
    -- the schedule has a letter of the same sender, over the same edge
    obtain ⟨m', hm', hsender⟩ := List.mem_map.mp
      ((hsenders m.sender).mpr ⟨hT.mem_of_adj hadj, hreceiver ▸ hadj.ne⟩)
    have hinward := hcollects.inward m' hm'
    have hadj' := hedges.adj m' (hcs m' hm')
    have hdist : T.dist k m.sender = 1 := by
      rw [dist_eq_one_iff_adj, ← hreceiver]
      exact hadj.symm
    rw [hsender, hdist] at hinward
    have hzero : T.dist k m'.receiver = 0 := by omega
    have hk' : m'.receiver = k :=
      ((hT.reachable hk (hT.mem_of_adj_right hadj')).dist_eq_zero_iff.mp hzero).symm
    rw [hedges.eq_of_ends m hm m' (hcs m' hm') hsender.symm (hreceiver.trans hk'.symm)]
    exact hsent m' hm'
  rw [passAll_eq_of_informed hM hms hcs hψ hone hfinal hfinal' hx,
    habsorbs.clique_root hb fun m _ => congrFun hone m.sep]

/-- If all cliques but `l` are positive, so are the letters that carry nothing from `l`. -/
theorem route_or_pos (hψ : ∀ v ≠ l, ∀ x, InDomain dom C x → 0 < b.clique v x)
    (hms : ∀ m ∈ ms, m ∈ M) :
    ∀ m ∈ M, (∃ p, IsRoute M (p ++ [m]) ∧ (p ++ [m]).head?.map Message.sender = some l ∧
        (p ++ [m]).Sublist ms) ∨
      ∀ x, InDomain dom C x → 0 < sendAll M dom C S b.clique ms (fun _ _ => 1) m x := by
  induction ms using List.reverseRecOn with
  | nil => exact fun m _ => Or.inr fun x _ => zero_lt_one
  | append_singleton ms m₀ ih =>
      have ih := ih fun m hm => hms m (List.mem_append_left _ hm)
      intro m hm
      rw [sendAll_concat]
      by_cases heq : m = m₀
      · subst heq
        rw [send_self]
        by_cases hsender : m.sender = l
        · exact Or.inl ⟨[], isRoute_singleton hm, by rw [← hsender]; rfl,
            List.sublist_append_right ms [m]⟩
        by_cases hcarried : ∃ m' ∈ feeders M m, ∃ p, IsRoute M (p ++ [m']) ∧
            (p ++ [m']).head?.map Message.sender = some l ∧ (p ++ [m']).Sublist ms
        · obtain ⟨m', hm', p, hroute, hhead, hsub⟩ := hcarried
          obtain ⟨hne, -, hreceiver⟩ := mem_feeders.mp hm'
          refine Or.inl ⟨p ++ [m'], isRoute_concat_concat.mpr ⟨hroute, hm, hreceiver, hne⟩, ?_,
            hsub.append (List.Sublist.refl [m])⟩
          rw [List.head?_append_of_ne_nil _ (by simp), hhead]
        · refine Or.inr fun x hx => sumOut_pos sdiff_subset (fun z hz => ?_) hx
          refine mul_pos (hψ _ hsender z hz) (prod_pos fun m' hm' => ?_)
          refine (ih m' (mem_feeders.mp hm').2.1).resolve_left (fun h => hcarried ?_) z hz
          exact ⟨m', hm', h⟩
      · rw [send_of_ne heq]
        refine (ih m hm).imp_left ?_
        rintro ⟨p, hroute, hhead, hsub⟩
        exact ⟨p, hroute, hhead, hsub.trans (List.sublist_append_left ms [m₀])⟩

/-- **Who holds a zero has heard from `l`**, if no other clique was zero anywhere. -/
theorem hasHeard_of_eq_zero (hedges : EdgeLetters T ends M) (hM : Network C S M) (hT : T.IsAcyclic)
    (hms : ∀ m ∈ ms, m ∈ M) (hfactors : Factors C b.clique) (hone : b.sep = fun _ _ => 1)
    (hψ : ∀ v ≠ l, ∀ x, InDomain dom C x → 0 < b.clique v x) {x : ι → β}
    (hx : InDomain dom C x) (hzero : (passAll dom C S ms b).clique k x = 0) :
    HasHeard T ms l k := by
  by_cases hk : k = l
  · subst hk
    intro w hw
    rw [Walk.eq_nil_iff_nil.mpr (Walk.isPath_iff_nil.mp hw)]
    exact List.nil_sublist _
  have hstart : Mirrors M dom C b.clique b fun _ _ => 1 := mirrors_one rfl hone
  have hmirrors := (hstart.passAll hfactors hM hms sound_one).1
  rw [hmirrors.clique k x hx] at hzero
  have hfactor := (mul_eq_zero.mp hzero).resolve_left (hψ k hk x hx).ne'
  obtain ⟨m, hinbound, hletter⟩ := prod_eq_zero_iff.mp hfactor
  obtain ⟨hm, rfl⟩ := mem_inbound.mp hinbound
  rcases route_or_pos (S := S) hψ hms m hm with ⟨p, hroute, hhead, hsub⟩ | hpos
  · obtain ⟨w, hw, hdarts⟩ := hroute.exists_path hedges hM hT hhead
    intro w' hw'
    have hsame : w' = w := congrArg Subtype.val
      ((hT.subsingleton_path l m.receiver).elim ⟨w', hw'⟩ ⟨w, hw⟩)
    rw [hsame, hdarts]
    exact hsub.map Message.hop
  · exact absurd hletter (hpos x hx).ne'

end Exact

end JunctionBox.Propagation
