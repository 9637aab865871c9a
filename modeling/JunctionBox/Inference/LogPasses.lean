import JunctionBox.Inference.LogJoint
import JunctionBox.Inference.LogMessages
import JunctionBox.Inference.SplitMarginals

/-!
# The two passes in logarithms

`BNet_CollectEvidenceLog` passes every separator once, and a new separator holds
ones: it never meets a zero, so all entries stay defined (`IsLogOf.passAll`).

`BNet_DistributeEvidenceLog` then divides by what the collection has left in the
separators of the root, and writes a NaN wherever that is zero
(`IsLogOf.reply_inward`).
-/

namespace JunctionBox

namespace Potentials

open ElimTree Propagation SumOut

/-! ## Definitions -/

section Definitions

variable {o : VariableOrdering} {K L : Type} [Field K] [LinearOrder K] [AddCommGroup L]
variable (iso : ExpLog K L) (t : ElimTree o) (this : Potentials o (Extended L))

/-- `BNet_CollectEvidenceLog`. -/
def collectEvidenceLog : Option (Potentials o (Extended L)) :=
  collectEvidenceWith (messagePassLog iso) t.graph this

/-- `BNet_DistributeEvidenceLog`. -/
def distributeEvidenceLog : Option (Potentials o (Extended L)) :=
  distributeEvidenceWith (messagePassLog iso) t.graph this

end Definitions

/-! ## Messages that do not disturb each other -/

section Arith

variable {o : VariableOrdering} {α : Type} {A : Arith α} {t : ElimTree o} {root : CString}
variable {b : Beliefs CString Edge ℕ ℕ α} {ms : List (Message CString Edge)}
variable {m : Message CString Edge} {k : CString}

end Arith

/-! ## Entries that are defined -/

section Log

variable {o : VariableOrdering} {K L : Type} [Field K] [LinearOrder K] [IsStrictOrderedRing K]
variable [AddCommGroup L] {iso : ExpLog K L} {t : ElimTree o} {root : CString}
variable {m : Message CString Edge} {ms : List (Message CString Edge)} {x : Assignment}
variable {b : Beliefs CString Edge ℕ ℕ K} {b' : Beliefs CString Edge ℕ ℕ (Extended L)}

variable (o iso) in
/-- `b'` holds the logarithms of what `b` holds. -/
structure IsLogOf (b : Beliefs CString Edge ℕ ℕ K) (b' : Beliefs CString Edge ℕ ℕ (Extended L)) :
    Prop where
  clique : ∀ k x, o.Complete x → b'.clique k x = iso.toLog (b.clique k x)
  sep : ∀ e x, o.Complete x → b'.sep e x = iso.toLog (b.sep e x)

omit [IsStrictOrderedRing K] in
theorem IsLogOf.near (h : IsLogOf o iso b b') : Near o iso b b' :=
  ⟨fun k x hx => Or.inr (h.clique k x hx), fun e x hx => Or.inr (h.sep e x hx)⟩

theorem IsLogOf.marginal (h : IsLogOf o iso b b') (hb : Nonneg b) (hproper : t.ProperSeparators)
    (hm : t.Along m) (hx : o.Complete x) : marginalWith (logarithmic iso) t m b' x =
      iso.toLog (Propagation.marginal o.dom t.clique t.separatorOf m b x) := by
  have hplain := congrArg (fun b => b.sep m.sep x) (passWith_plain hproper hm b)
  simp only [passWith_sep_self, pass_sep_self] at hplain
  rw [← hplain, marginalWith, marginalWith, (homLog iso).map_total fun q hq => ?_]
  · rw [List.map_map]
    refine congrArg _ (List.map_congr_left fun d hd => ?_)
    exact h.clique m.sender _ (complete_assign hx hd)
  · obtain ⟨d, -, rfl⟩ := List.mem_map.mp hq
    exact hb.clique m.sender _

/-- Where its separator is no zero, a message is the logarithm of a message. -/
theorem IsLogOf.clique_receiver (h : IsLogOf o iso b b') (hb : Nonneg b)
    (hproper : t.ProperSeparators) (hm : t.Along m) (hx : o.Complete x)
    (hne : b.sep m.sep x ≠ 0) : (passWith (logarithmic iso) t m b').clique m.receiver x =
      iso.toLog ((pass o.dom t.clique t.separatorOf m b).clique m.receiver x) := by
  have hmarginal : 0 ≤ Propagation.marginal o.dom t.clique t.separatorOf m b x := hb.marginal m x
  have hsep := hb.sep m.sep x
  have hratio := (homLog iso).map_ratio hmarginal hsep hne
  rw [plain_ratio] at hratio
  rw [passWith_clique_receiver, h.marginal hb hproper hm hx, h.sep m.sep x hx,
    h.clique m.receiver x hx, ← hratio, pass_clique_receiver]
  exact ((homLog iso).map_times (div_nonneg hmarginal hsep) (hb.clique m.receiver x)).symm

theorem IsLogOf.pass (h : IsLogOf o iso b b') (hb : Nonneg b) (hproper : t.ProperSeparators)
    (hm : t.Along m) (hne : ∀ x, o.Complete x → b.sep m.sep x ≠ 0) :
    IsLogOf o iso (Propagation.pass o.dom t.clique t.separatorOf m b)
      (passWith (logarithmic iso) t m b') := by
  refine ⟨fun k x hx => ?_, fun e x hx => ?_⟩
  · by_cases hk : k = m.receiver
    · subst hk
      exact h.clique_receiver hb hproper hm hx (hne x hx)
    · rw [passWith_clique_of_ne hk, pass_clique_of_ne hk]
      exact h.clique k x hx
  · by_cases he : e = m.sep
    · subst he
      rw [passWith_sep_self, pass_sep_self]
      exact h.marginal hb hproper hm hx
    · rw [passWith_sep_of_ne he, pass_sep_of_ne he]
      exact h.sep e x hx

/-- **Every separator once**: the entries stay defined. -/
theorem IsLogOf.passAll (h : IsLogOf o iso b b') (hb : Nonneg b) (hproper : t.ProperSeparators)
    (hms : ∀ m ∈ ms, t.Along m) (honce : (ms.map Message.sep).Nodup)
    (hne : ∀ m ∈ ms, ∀ x, o.Complete x → b.sep m.sep x ≠ 0) :
    IsLogOf o iso (Propagation.passAll o.dom t.clique t.separatorOf ms b)
      (passAllWith (logarithmic iso) t b' ms) := by
  induction ms generalizing b b' with
  | nil => exact h
  | cons m ms ih =>
      rw [List.map_cons, List.nodup_cons] at honce
      have hm := List.mem_cons_self (a := m) (l := ms)
      refine ih (h.pass hb hproper (hms m hm) (hne m hm)) (hb.pass m)
        (fun m' hm' => hms m' (List.mem_cons_of_mem _ hm')) honce.2 fun m' hm' x hx => ?_
      have hother : m'.sep ≠ m.sep := fun heq => honce.1 (List.mem_map.mpr ⟨m', hm', heq⟩)
      rw [pass_sep_of_ne hother]
      exact hne m' (List.mem_cons_of_mem _ hm') x hx

/-- What both passes leave, when the separators hold ones. -/
theorem Tabulates.passes {s : Potentials o (Extended L)} (h : Tabulates t s b')
    (hlog : IsLogOf o iso b b') (hb : Divisible t b) (hone : b.sep = fun _ _ => 1)
    (htree : t.IsTree) (hproper : t.ProperSeparators) (hroot : t.graph.labels.head? = some root) :
    ∃ ms s₁ s₂ b₁' b₂', (∀ m ∈ ms, t.Along m) ∧
      (∀ l ∈ t.graph.labels, HasHeard t.graph.skeleton ms l root) ∧
      s.collectEvidenceLog iso t = some s₁ ∧ s₁.distributeEvidenceLog iso t = some s₂ ∧
      Tabulates t s₁ b₁' ∧ Tabulates t s₂ b₂' ∧
      IsLogOf o iso (Propagation.passAll o.dom t.clique t.separatorOf ms b) b₁' ∧
      Divisible t (Propagation.passAll o.dom t.clique t.separatorOf ms b) ∧
      b₂' = passAllWith (logarithmic iso) t b₁' ((inward t.graph root).map Message.reply) := by
  obtain ⟨ms, halong, honce, hrun, hheard⟩ := exists_schedule htree hproper hroot
  obtain ⟨s₁, hs₁, htab₁⟩ := h.passMessages (A := logarithmic iso) hproper halong
  have hreplies : ∀ m ∈ (inward t.graph root).map Message.reply, t.Along m := by
    intro m hm
    obtain ⟨m', hm', rfl⟩ := List.mem_map.mp hm
    exact (mem_inward htree hm').1.reply
  obtain ⟨s₂, hs₂, htab₂⟩ := htab₁.passMessages (A := logarithmic iso) hproper hreplies
  refine ⟨ms, s₁, s₂, _, _, halong, hheard, (hrun _ _ _).trans hs₁, ?_, htab₁, htab₂,
    hlog.passAll hb.nonneg hproper halong honce fun m _ x _ => ?_,
    hb.passAll htree hproper halong, rfl⟩
  · unfold distributeEvidenceLog
    rw [distributeEvidence_eq htree hroot, ← map_reply_inward]
    exact hs₂
  · rw [hone]
    exact one_ne_zero

end Log

end Potentials

/-! ## From the network to the answers -/

namespace ExpLog

variable {K L : Type} [Field K] [LinearOrder K] [IsStrictOrderedRing K] [AddCommGroup L]
variable {iso : ExpLog K L}

omit [IsStrictOrderedRing K] in
theorem fromLog_add {p q : Extended L} (hp : p.IsLog) (hq : q.IsLog) :
    iso.fromLog (p.add q) = iso.fromLog p * iso.fromLog q := by
  rcases hp with rfl | ⟨a, rfl⟩
  · rcases hq with rfl | ⟨b, rfl⟩ <;> exact (zero_mul _).symm
  · rcases hq with rfl | ⟨b, rfl⟩
    · exact (mul_zero _).symm
    · exact iso.exp_add a b

omit [IsStrictOrderedRing K] in
theorem fromLog_sum {l : List (Extended L)} (hl : ∀ q ∈ l, q.IsLog) :
    iso.fromLog (Extended.sum l) = (l.map iso.fromLog).prod := by
  induction l with
  | nil =>
      have hone : iso.exp 0 * iso.exp 0 = iso.exp 0 * 1 := by
        rw [← iso.exp_add, add_zero, mul_one]
      exact mul_left_cancel₀ (iso.exp_pos 0).ne' hone
  | cons q l ih =>
      have hrest : ∀ r ∈ l, r.IsLog := fun r hr => hl r (List.mem_cons_of_mem _ hr)
      have hq := hl q (List.mem_cons_self ..)
      rw [Extended.sum_cons hq hrest, fromLog_add hq (Extended.isLog_sum hrest), ih hrest,
        List.map_cons, List.prod_cons]

end ExpLog

namespace BNet

open ElimTree Potentials Propagation SumOut

variable {o : VariableOrdering} {K L : Type} [Field K] [LinearOrder K] [IsStrictOrderedRing K]
variable [AddCommGroup L] {iso : ExpLog K L} {t : ElimTree o} {root : CString}
variable {this : BNet o (Extended L)}

end BNet

end JunctionBox
