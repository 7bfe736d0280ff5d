import BzNet.Lib.Run
import BzNet.Pace.Due

/-!
# What the refills add up to

Every admission that asks the bucket refills it first, rounds down, and starts the next refill where this one ends.

* `paceOpStep_offer`, `paceOpStep_other` : an operation as far as it concerns the bucket;
* `creditedOver` : the tokens that the refills of a run add, `spacings` the times between them;
* `creditedOver_eq` : without the cap they are the refills of `TokenBucket.credited`;
* `pace_refill_iff` : when they come to what the time gone by is worth.
-/

namespace BzNet

open Machine TokenBucket

/-! ## The operations and the bucket -/

/-- The length and the time of an offer that asks the bucket. -/
def PaceOp.priced : PaceOp → List (U32 × U64)
  | .offer o now =>
    if (BitVec.ofNat 32 o.data.length).toNat < kReorderSeqMinPay then [] else [(BitVec.ofNat 32 o.data.length, now)]
  | _ => []

def pricedOf (ops : List PaceOp) : List (U32 × U64) := ops.flatMap PaceOp.priced

section Ops
variable {s s' : PaceLog} {o : Outgoing} {now : U64} {op : PaceOp}

theorem paceOpStep_offer (hs : paceOpStep s (.offer o now) = some s') :
    s.clock ≤ now ∧ s'.clock = now ∧ SameBucket s'.tx (paceAdmit s.tx (BitVec.ofNat 32 o.data.length) now).1 := by
  simp only [paceOpStep] at hs
  split at hs
  · cases hs
  next hnow =>
  refine ⟨BitVec.not_lt.mp hnow, ?_⟩
  generalize paceAdmit s.tx (BitVec.ofNat 32 o.data.length) now = a at hs ⊢
  obtain ⟨tx, d, due⟩ := a
  cases d with
  | sendNow =>
    cases hs
    exact ⟨rfl, .refl tx⟩
  | flushThenSend =>
    cases hs
    exact ⟨rfl, paceFlushLocked_bucket tx⟩
  | queued =>
    dsimp only at hs
    cases hstore : paceEnqueue tx o due with
    | none =>
      rw [hstore] at hs
      cases hs
      exact ⟨rfl, .refl tx⟩
    | some tx' =>
      rw [hstore] at hs
      cases hs
      exact ⟨rfl, paceEnqueue_bucket hstore⟩

theorem PaceOp.priced_other (hop : ∀ o now, op ≠ .offer o now) : op.priced = [] := by
  cases op with
  | offer o now => exact absurd rfl (hop o now)
  | _ => rfl

theorem paceOpStep_other (hop : ∀ o now, op ≠ .offer o now) (hs : paceOpStep s op = some s') :
    s'.clock = s.clock ∧ SameBucket s'.tx s.tx := by
  cases op with
  | offer o now => exact absurd rfl (hop o now)
  | popDue now =>
    simp only [paceOpStep] at hs
    cases hpop : pacePopDue now s.tx with
    | none =>
      rw [hpop] at hs
      cases hs
      exact ⟨rfl, .refl _⟩
    | some r =>
      rw [hpop] at hs
      cases hs
      exact ⟨rfl, pacePopDue_bucket hpop⟩
  | popAny =>
    simp only [paceOpStep] at hs
    cases hpop : pacePopAny s.tx with
    | none =>
      rw [hpop] at hs
      cases hs
      exact ⟨rfl, .refl _⟩
    | some r =>
      rw [hpop] at hs
      cases hs
      exact ⟨rfl, pacePopAny_bucket hpop⟩
  | flush =>
    cases hs
    exact ⟨rfl, paceFlushLocked_bucket s.tx⟩
  | tick now =>
    cases hs
    exact ⟨rfl, paceTick_bucket s.tx now⟩

end Ops

/-! ## One refill -/

section Refill
variable {c : PaceCtx} {len : U32} {now : U64}

theorem paceRefill_lastFillMs (c : PaceCtx) (now : U64) : (paceRefill c now).lastFillMs = now := by
  unfold paceRefill
  dsimp only
  split
  · rfl
  · next hzero =>
    have hle := BitVec.le_def.mp (BitVec.not_lt.mp hzero)
    change (now - c.lastFillMs).toNat ≤ 0 at hle
    have hsame : now - c.lastFillMs = 0 := BitVec.eq_of_toNat_eq (Nat.le_zero.mp hle)
    have hnow : now = now - c.lastFillMs + c.lastFillMs := (BitVec.sub_add_cancel _ _).symm
    rw [hsame] at hnow
    exact (hnow.trans (BitVec.zero_add _)).symm

/-- When an admission leaves the bucket as it was but for the measurement, and when it has refilled it. -/
theorem paceAdmit_lastFillMs (hrate : c.rateBps ≠ 0) (len : U32) (now : U64) :
    (paceAdmit c len now).1.lastFillMs = if len.toNat < kReorderSeqMinPay then c.lastFillMs else now := by
  have hsame := paceObserve_bucket c len now
  unfold paceAdmit
  dsimp only
  rw [if_neg (hsame.rateBps ▸ hrate)]
  by_cases hsmall : len.toNat < kReorderSeqMinPay
  · rw [if_pos hsmall, if_pos hsmall]
    exact hsame.lastFillMs
  · rw [if_neg hsmall, if_neg hsmall]
    have hlast := paceRefill_lastFillMs (paceObserve c len now) now
    split
    · exact hlast
    · split <;> exact hlast

def paceGain (c : PaceCtx) (len : U32) (now : U64) : Nat :=
  ((paceRefill (paceObserve c len now) now).tokens - c.tokens).toNat

/-- **A refill below the cap.** -/
theorem paceGain_eq (hnow : c.lastFillMs ≤ now)
    (hbelow : (paceRefill (paceObserve c len now) now).tokens.toInt < c.burstBytes.toNat) :
    paceGain c len now = (now.toNat - c.lastFillMs.toNat) * c.rateBps.toNat % 2 ^ 64 / 1000 := by
  have hsame := paceObserve_bucket c len now
  rw [← hsame.burstBytes] at hbelow
  rw [← hsame.lastFillMs] at hnow ⊢
  rw [← hsame.rateBps, paceGain, ← hsame.tokens]
  generalize paceObserve c len now = o at hbelow hnow ⊢
  have helapsed : (now - o.lastFillMs).toNat = now.toNat - o.lastFillMs.toNat := BitVec.toNat_sub_of_le hnow
  unfold paceRefill at hbelow ⊢
  dsimp only at hbelow ⊢
  split
  · next hpos =>
    rw [if_pos hpos] at hbelow
    dsimp only at hbelow ⊢
    split
    · next hover =>
      rw [if_pos hover, toInt_widen] at hbelow
      exact absurd hbelow (Int.lt_irrefl _)
    · rw [BitVec.add_comm, BitVec.add_sub_cancel, BitVec.toNat_udiv, BitVec.toNat_mul, helapsed, toNat_widen]
      rfl
  · next hzero =>
    have hle := BitVec.le_def.mp (BitVec.not_lt.mp hzero)
    rw [helapsed] at hle
    rw [Nat.le_zero.mp hle, BitVec.sub_self]
    simp

end Refill

/-! ## Runs -/

/-- The times from one to the next. -/
def spacings (t : Nat) : List Nat → List Nat
  | [] => []
  | t' :: ts => (t' - t) :: spacings t' ts

/-- The tokens that an operation adds by refilling. -/
def creditOf (c : PaceCtx) : PaceOp → Nat
  | .offer o now =>
    if c.rateBps = 0 ∨ (BitVec.ofNat 32 o.data.length).toNat < kReorderSeqMinPay then 0
    else paceGain c (BitVec.ofNat 32 o.data.length) now
  | _ => 0

theorem creditOf_other {op : PaceOp} (hop : ∀ o now, op ≠ .offer o now) (c : PaceCtx) : creditOf c op = 0 := by
  cases op with
  | offer o now => exact absurd rfl (hop o now)
  | _ => rfl

def creditedOver (s : PaceLog) : List PaceOp → Nat
  | [] => 0
  | op :: ops =>
    creditOf s.tx op + match paceOpStep s op with
      | some s' => creditedOver s' ops
      | none => 0

/-- A refill leaves the bucket below its cap. -/
def StaysBelow (s : PaceLog) : PaceOp → Prop
  | .offer o now =>
    kReorderSeqMinPay ≤ (BitVec.ofNat 32 o.data.length).toNat →
      (paceRefill (paceObserve s.tx (BitVec.ofNat 32 o.data.length) now) now).tokens.toInt < s.tx.burstBytes.toNat
  | _ => True

instance (s : PaceLog) : (op : PaceOp) → Decidable (StaysBelow s op)
  | .offer _ _ => inferInstanceAs (Decidable (_ → _))
  | .popDue _ => isTrue trivial
  | .popAny => isTrue trivial
  | .flush => isTrue trivial
  | .tick _ => isTrue trivial

/-- The times between the refills of a run, from the last one before it. -/
def refillSpacings (s : PaceLog) (ops : List PaceOp) : List Nat :=
  spacings s.tx.lastFillMs.toNat ((pricedOf ops).map fun p => p.2.toNat)

/-- What a run keeps: the last refill is in the past, and the rate. -/
structure FilledOk (rateBps : U32) (s : PaceLog) : Prop where
  filled : s.tx.lastFillMs ≤ s.clock
  rate : s.tx.rateBps = rateBps

section Runs
variable {rateBps : U32} {s s' : PaceLog}

/-- **One operation**: either it asks the bucket, which is refilled then, or the bucket is left alone. -/
theorem FilledOk.step (h : FilledOk rateBps s) (hrate : rateBps ≠ 0) {op : PaceOp} (hs : paceOpStep s op = some s') :
    FilledOk rateBps s' ∧
      ((∃ o now, op = .offer o now ∧ s.tx.lastFillMs ≤ now ∧ op.priced = [(BitVec.ofNat 32 o.data.length, now)] ∧
          s'.tx.lastFillMs = now) ∨
        (op.priced = [] ∧ creditOf s.tx op = 0 ∧ s'.tx.lastFillMs = s.tx.lastFillMs)) := by
  by_cases hop : ∃ o now, op = .offer o now
  · obtain ⟨o, now, rfl⟩ := hop
    obtain ⟨hnow, hclock, hsame⟩ := paceOpStep_offer hs
    have hlast := hsame.lastFillMs
    rw [paceAdmit_lastFillMs (h.rate ▸ hrate)] at hlast
    have hrate' : s'.tx.rateBps = rateBps := hsame.rateBps.trans ((paceAdmit_step s.tx _ now).2.1.trans h.rate)
    by_cases hsmall : (BitVec.ofNat 32 o.data.length).toNat < kReorderSeqMinPay
    · rw [if_pos hsmall] at hlast
      refine ⟨⟨?_, hrate'⟩, Or.inr ⟨if_pos hsmall, if_pos (Or.inr hsmall), hlast⟩⟩
      rw [hlast, hclock]
      exact BitVec.le_trans h.filled hnow
    · rw [if_neg hsmall] at hlast
      refine ⟨⟨?_, hrate'⟩, Or.inl ⟨o, now, rfl, BitVec.le_trans h.filled hnow, if_neg hsmall, hlast⟩⟩
      rw [hlast, hclock]
      exact BitVec.le_refl now
  · push Not at hop
    obtain ⟨hclock, hsame⟩ := paceOpStep_other hop hs
    refine ⟨⟨?_, hsame.rateBps.trans h.rate⟩,
      Or.inr ⟨PaceOp.priced_other hop, creditOf_other hop s.tx, hsame.lastFillMs⟩⟩
    rw [hsame.lastFillMs, hclock]
    exact h.filled

theorem filledOk_run (maxDelayMs : U32) (hrate : rateBps ≠ 0) (t0 : U64) {ops : List PaceOp}
    (hrun : ops.foldlM paceOpStep (paceLogInit rateBps maxDelayMs t0) = some s) : FilledOk rateBps s :=
  foldlM_inv (P := fun _ s => FilledOk rateBps s) ⟨BitVec.le_refl t0, rfl⟩
    (fun _ _ _ _ h hs => (h.step hrate hs).1) hrun

/-- **The refills of a run**, below the cap, cover the time between the last refill before it and its own last one. -/
theorem creditedOver_eq (h : FilledOk rateBps s) (hrate : rateBps ≠ 0) {ops : List PaceOp}
    (hrun : ops.foldlM paceOpStep s = some s') (hbelow : StepsMeet paceOpStep StaysBelow s ops) :
    creditedOver s ops = credited rateBps.toNat 1000 (2 ^ 64) (refillSpacings s ops) ∧
      s.tx.lastFillMs.toNat + (refillSpacings s ops).sum = s'.tx.lastFillMs.toNat := by
  induction ops generalizing s with
  | nil =>
    obtain rfl : s = s' := Option.some.inj hrun
    exact ⟨rfl, rfl⟩
  | cons op ops ih =>
    obtain ⟨t, ht, hrest⟩ := foldlM_cons_iff.mp hrun
    obtain ⟨hop, hbelow⟩ := hbelow t ht
    obtain ⟨hok, hcase⟩ := h.step hrate ht
    obtain ⟨hcredit, hsum⟩ := ih hok hrest hbelow
    have hover : creditedOver s (op :: ops) = creditOf s.tx op + creditedOver t ops := by
      rw [creditedOver, ht]
    have hpriced : pricedOf (op :: ops) = op.priced ++ pricedOf ops := rfl
    rw [hover, refillSpacings, hpriced]
    rcases hcase with ⟨o, now, rfl, hnow, hone, hlast⟩ | ⟨hnone, hzero, hlast⟩
    · have hlarge : ¬ (BitVec.ofNat 32 o.data.length).toNat < kReorderSeqMinPay := fun hsmall => by
        rw [PaceOp.priced, if_pos hsmall] at hone
        cases hone
      have hgain : creditOf s.tx (.offer o now) =
          (now.toNat - s.tx.lastFillMs.toNat) * rateBps.toNat % 2 ^ 64 / 1000 := by
        rw [creditOf, if_neg (fun hc => hc.elim (h.rate ▸ hrate) hlarge),
          paceGain_eq hnow (hop (Nat.not_lt.mp hlarge)), h.rate]
      rw [refillSpacings, hlast] at hcredit hsum
      rw [hone, hgain, hcredit]
      refine ⟨rfl, ?_⟩
      have hle := BitVec.le_def.mp hnow
      change s.tx.lastFillMs.toNat + ((now.toNat - s.tx.lastFillMs.toNat) +
        (spacings now.toNat ((pricedOf ops).map fun p => p.2.toNat)).sum) = _
      omega
    · rw [refillSpacings, hlast] at hcredit hsum
      rw [hnone, hzero, Nat.zero_add]
      exact ⟨hcredit, hsum⟩

end Runs

/-- **The refills come to what the time is worth**, give or take one byte, exactly when no product of a refill wraps
and the parts that the refills round away stay below two bytes. The time is that from the last refill before the run
to the last one in it, with the bucket below its cap. -/
theorem pace_refill_iff (rateBps maxDelayMs : U32) (hrate : rateBps ≠ 0) (t0 : U64) (before ops : List PaceOp)
    (s s' : PaceLog) (hbefore : before.foldlM paceOpStep (paceLogInit rateBps maxDelayMs t0) = some s)
    (hrun : ops.foldlM paceOpStep s = some s') (hbelow : StepsMeet paceOpStep StaysBelow s ops) :
    WithinOne (creditedOver s ops)
        (rateBps.toNat * (s'.tx.lastFillMs.toNat - s.tx.lastFillMs.toNat) / 1000) ↔
      (∀ e ∈ refillSpacings s ops, e * rateBps.toNat < 2 ^ 64) ∧
        ((refillSpacings s ops).map fun e => e * rateBps.toNat % 1000).sum < 2000 := by
  obtain ⟨hcredit, hsum⟩ := creditedOver_eq (filledOk_run maxDelayMs hrate t0 hbefore) hrate hrun hbelow
  have htime : s'.tx.lastFillMs.toNat - s.tx.lastFillMs.toNat = (refillSpacings s ops).sum := by omega
  rw [hcredit, htime, Nat.mul_comm]
  exact credited_within_iff (by decide) (by decide)

/-- A first datagram makes room in the bucket; the next three come a millisecond apart. -/
def quickStart (rateBps : U32) : Option PaceLog :=
  [.offer (sampleOutgoing 5 100 1) 1000].foldlM paceOpStep (paceLogInit rateBps 20 1000)

def quickOps : List PaceOp :=
  [.offer (sampleOutgoing 5 20 2) 1001, .offer (sampleOutgoing 5 20 3) 1002, .offer (sampleOutgoing 5 20 4) 1003]

theorem quick_isSome (rateBps : U32) (h : rateBps = 999 ∨ rateBps = 1000) :
    ((quickStart rateBps).bind fun s => quickOps.foldlM paceOpStep s).isSome = true := by
  rcases h with rfl | rfl <;> decide +kernel

theorem pace_refill_iff_quick :
    ∃ s s', quickStart 1000 = some s ∧ quickOps.foldlM paceOpStep s = some s' ∧
      WithinOne (creditedOver s quickOps)
        ((1000 : U32).toNat * (s'.tx.lastFillMs.toNat - s.tx.lastFillMs.toNat) / 1000) := by
  obtain ⟨s', hboth⟩ := Option.isSome_iff_exists.mp (quick_isSome 1000 (Or.inr rfl))
  obtain ⟨s, hs, hs'⟩ := Option.bind_eq_some_iff.mp hboth
  have hbelow : (quickStart 1000).all fun s => decide (StepsMeet paceOpStep StaysBelow s quickOps) := by decide +kernel
  have hparts : (quickStart 1000).all fun s => decide ((∀ e ∈ refillSpacings s quickOps, e * 1000 < 2 ^ 64) ∧
      ((refillSpacings s quickOps).map fun e => e * 1000 % 1000).sum < 2000) := by decide +kernel
  rw [hs] at hbelow hparts
  exact ⟨s, s', hs, hs', (pace_refill_iff 1000 20 (by decide) 1000 _ quickOps s s' hs hs'
    (of_decide_eq_true hbelow)).mpr (of_decide_eq_true hparts)⟩

/-- At `999` bytes a second a refill after a millisecond adds nothing. -/
theorem pace_refill_rounded_away :
    ∃ s s', quickStart 999 = some s ∧ quickOps.foldlM paceOpStep s = some s' ∧
      StepsMeet paceOpStep StaysBelow s quickOps ∧ creditedOver s quickOps = 0 ∧
      s'.tx.lastFillMs.toNat - s.tx.lastFillMs.toNat = 3 ∧
      ¬ WithinOne (creditedOver s quickOps)
        ((999 : U32).toNat * (s'.tx.lastFillMs.toNat - s.tx.lastFillMs.toNat) / 1000) := by
  obtain ⟨s', hboth⟩ := Option.isSome_iff_exists.mp (quick_isSome 999 (Or.inl rfl))
  obtain ⟨s, hs, hs'⟩ := Option.bind_eq_some_iff.mp hboth
  have hfacts : (quickStart 999).all fun s => decide (StepsMeet paceOpStep StaysBelow s quickOps) &&
      decide (creditedOver s quickOps = 0) && decide (s.tx.lastFillMs = 1000) := by decide +kernel
  have hlast : ((quickStart 999).bind fun s => quickOps.foldlM paceOpStep s).map (fun s => s.tx.lastFillMs) =
      some 1003 := by decide +kernel
  rw [hboth] at hlast
  rw [hs] at hfacts
  have hlast : s'.tx.lastFillMs = 1003 := Option.some.inj hlast
  simp only [Option.all_some, Bool.and_eq_true, decide_eq_true_eq] at hfacts
  obtain ⟨⟨hbelow, hcredit⟩, hfirst⟩ := hfacts
  refine ⟨s, s', hs, hs', hbelow, hcredit, ?_, ?_⟩
  · rw [hlast, hfirst]
    rfl
  · rw [hcredit, hlast, hfirst]
    decide

end BzNet
