import BzNet.Pace.Refill

/-!
# What the bucket lets through

The bucket as a bound on the traffic: its debt is limited, and so is what leaves between two times.

* `GivesUp` : an admission that sends past the bucket; `paceAdmit_tokens` : what the others take from it;
* `WordsFit` : no word of an admission wraps;
* `ShapedOk` : what holds after every operation, and `spent_le` what a stretch without a give-up has spent;
* `pace_conforms` : the bounds, for datagrams whose length leaves the words of the bucket room.
-/

namespace BzNet

open Machine TokenBucket

/-! ## One admission -/

/-- The admissions that gave up on shaping, over budget or out of room. -/
def PaceStats.giveUps (st : PaceStats) : Nat := st.overBudgetPassed + st.queueFullPassed

def GivesUp (c : PaceCtx) (len : U32) (now : U64) : Prop := (paceAdmit c len now).1.stats.giveUps ≠ c.stats.giveUps

/-- The length leaves room for the longest debt in 64 bits. -/
def LengthFits (rateBps maxDelayMs len : U32) : Prop :=
  1000 * len.toNat + (maxDelayMs.toNat + 1) * rateBps.toNat ≤ 2 ^ 64

/-- With the settings that the proxies let through every length does. -/
theorem lengthFits_of_clamped {rateBps maxDelayMs : U32} (hrate : rateBps.toNat ≤ 10000000)
    (hdelay : maxDelayMs.toNat ≤ 200) (len : U32) : LengthFits rateBps maxDelayMs len := by
  have hlen := len.isLt
  have hworth : (maxDelayMs.toNat + 1) * rateBps.toNat ≤ 201 * 10000000 := Nat.mul_le_mul (by omega) hrate
  unfold LengthFits
  omega

section Admit
variable {c : PaceCtx} {len : U32} {now : U64}

theorem paceTick_giveUps (c : PaceCtx) (now : U64) : (paceTick c now).stats.giveUps = c.stats.giveUps := by
  unfold paceTick
  split <;> rfl

theorem paceObserve_giveUps (c : PaceCtx) (len : U32) (now : U64) :
    (paceObserve c len now).stats.giveUps = c.stats.giveUps :=
  paceTick_giveUps c now

theorem paceRefill_stats (c : PaceCtx) (now : U64) : (paceRefill c now).stats = c.stats := by
  unfold paceRefill
  dsimp only
  split <;> rfl

/-- What the time since the last refill is worth. -/
def PaceCtx.worth (c : PaceCtx) (now : U64) : Nat := c.rateBps.toNat * (now.toNat - c.lastFillMs.toNat) / 1000

theorem paceRefill_le (h : BucketOk c) (hnow : c.lastFillMs ≤ now) :
    (paceRefill c now).tokens.toInt ≤ c.tokens.toInt + c.worth now := by
  obtain ⟨-, -, hadd, -⟩ := paceRefill_spec h hnow
  have hle := BitVec.le_def.mp hnow
  have hcast : (c.rateBps.toNat : Int) * ((now.toNat : Int) - c.lastFillMs.toNat) =
      ((c.rateBps.toNat * (now.toNat - c.lastFillMs.toNat) : Nat) : Int) := by
    push_cast [hle]
    ring
  rw [hcast] at hadd
  unfold PaceCtx.worth
  omega

/-- **An admission** that does not give up takes its length from the bucket, after a refill worth the time gone by. -/
theorem paceAdmit_tokens (h : BucketOk c) (hrate : c.rateBps ≠ 0) (hnow : c.lastFillMs ≤ now)
    (hlen : LengthFits c.rateBps c.maxDelayMs len) :
    BucketOk (paceAdmit c len now).1 ∧ (paceAdmit c len now).1.maxDelayMs = c.maxDelayMs ∧
      (len.toNat < kReorderSeqMinPay → (paceAdmit c len now).1.tokens = c.tokens) ∧
      (kReorderSeqMinPay ≤ len.toNat → ¬ GivesUp c len now →
        (paceAdmit c len now).1.tokens.toInt + len.toNat ≤ c.tokens.toInt + c.worth now) := by
  have hrpos : 0 < c.rateBps.toNat := Nat.pos_of_ne_zero fun h0 => hrate (BitVec.eq_of_toNat_eq h0)
  have hworth : (0 : Int) < (c.maxDelayMs.toNat + 1) * c.rateBps.toNat := by positivity
  unfold GivesUp paceAdmit
  dsimp only
  have hsame := paceObserve_bucket c len now
  have hoq := paceObserve_q c len now
  have hgive := paceObserve_giveUps c len now
  generalize paceObserve c len now = o at hsame hoq hgive ⊢
  rw [if_neg (hsame.rateBps ▸ hrate)]
  by_cases hsmall : len.toNat < kReorderSeqMinPay
  · rw [if_pos hsmall]
    have hok := hsame.ok h
    exact ⟨⟨hok.debt, hok.cap⟩, hsame.maxDelayMs, fun _ => hsame.tokens, fun hlarge => absurd hsmall (by omega)⟩
  rw [if_neg hsmall]
  have hr := paceRefill_refilled h hsame hoq hnow
  have hgain : (paceRefill o now).tokens.toInt ≤ c.tokens.toInt + c.worth now := by
    have hle := paceRefill_le (hsame.ok h) (hsame.lastFillMs ▸ hnow)
    rwa [PaceCtx.worth, hsame.tokens, hsame.rateBps, hsame.lastFillMs] at hle
  have hstats : (paceRefill o now).stats.giveUps = c.stats.giveUps := by rw [paceRefill_stats, hgive]
  generalize paceRefill o now = r at hr hgain hstats ⊢
  have hspend := word_spend hr.ok len
  have htaken : (r.tokens - len.setWidth 64).toInt + len.toNat ≤ c.tokens.toInt + c.worth now := by
    rw [hspend]
    omega
  split
  · next hidle =>
    refine ⟨hr.spend ?_, hr.maxDelayMs, fun hs => absurd hs hsmall, fun _ _ => htaken⟩
    have := hidle.2
    omega
  · split
    · refine ⟨⟨?_, Int.natCast_nonneg _⟩, hr.maxDelayMs, fun hs => absurd hs hsmall, fun _ hgives => ?_⟩
      · rw [hr.maxDelayMs, hr.rateBps]
        change -(1000 * (0 : Int)) < _
        omega
      · refine absurd ?_ hgives
        change PaceStats.giveUps (if _ then _ else _) ≠ _
        rw [← hstats]
        unfold PaceStats.giveUps
        split <;> simp
    · next hshort =>
      push Not at hshort
      exact ⟨hr.spend_wait hrpos (hr.wait hlen) (hr.maxDelayMs ▸ hshort.1), hr.maxDelayMs, fun hs => absurd hs hsmall,
        fun _ _ => htaken⟩

def PaceCtx.refilled (c : PaceCtx) (len : U32) (now : U64) : PaceCtx := paceRefill (paceObserve c len now) now

/-- No word of an admission wraps: the product of the refill, the bucket with it, what is missing and that in
thousandths, what stays, and the due time where the clock leaves room for the longest delay. -/
structure WordsFit (c : PaceCtx) (len : U32) (now : U64) : Prop where
  product : (now - c.lastFillMs).toNat * c.rateBps.toNat < 2 ^ 64
  refill : -(2 ^ 63) ≤ c.tokens.toInt + c.worth now ∧ c.tokens.toInt + c.worth now < 2 ^ 63
  missing : -(2 ^ 63) ≤ (len.toNat : Int) - (c.refilled len now).tokens.toInt ∧
    (len.toNat : Int) - (c.refilled len now).tokens.toInt < 2 ^ 63
  thousandths : 1000 * ((len.toNat : Int) - (c.refilled len now).tokens.toInt) < 2 ^ 64
  spent : -(2 ^ 63) ≤ (c.refilled len now).tokens.toInt - len.toNat ∧
    (c.refilled len now).tokens.toInt - len.toNat < 2 ^ 63
  due : now.toNat + c.maxDelayMs.toNat < 2 ^ 64 → (paceWaitMs (c.refilled len now) len).toNat ≤ c.maxDelayMs.toNat →
    now.toNat + (paceWaitMs (c.refilled len now) len).toNat < 2 ^ 64

theorem wordsFit (h : BucketOk c) (hnow : c.lastFillMs ≤ now) (hlen : LengthFits c.rateBps c.maxDelayMs len)
    (helapsed : now.toNat - c.lastFillMs.toNat ≤ 2 ^ 31) : WordsFit c len now := by
  have hsub : (now - c.lastFillMs).toNat = now.toNat - c.lastFillMs.toNat := BitVec.toNat_sub_of_le hnow
  have hsame := paceObserve_bucket c len now
  have hr : Refilled c (c.refilled len now) now := paceRefill_refilled h hsame (paceObserve_q c len now) hnow
  have hproduct : c.rateBps.toNat * (now.toNat - c.lastFillMs.toNat) ≤ (2 ^ 32 - 1) * 2 ^ 31 :=
    Nat.mul_le_mul (by have := c.rateBps.isLt; omega) helapsed
  have hcap := h.cap
  have hdebt := h.low
  have hburst := c.burstBytes.isLt
  have hlow := hr.ok.low
  have hrcap := hr.ok.cap
  have hkeeps : (c.refilled len now).burstBytes = c.burstBytes :=
    (paceRefill_config _ now).1.trans hsame.burstBytes
  rw [hkeeps] at hrcap
  have hrdebt := hr.ok.debt
  have hbytes := len.isLt
  have hworth : c.worth now ≤ (2 ^ 32 - 1) * 2 ^ 31 / 1000 := Nat.div_le_div_right hproduct
  rw [hr.maxDelayMs, hr.rateBps] at hrdebt
  unfold LengthFits at hlen
  refine ⟨?_, ⟨by omega, by omega⟩, ⟨by omega, by omega⟩, ?_, ⟨by omega, by omega⟩, fun _ _ => by omega⟩
  · rw [hsub, Nat.mul_comm]
    omega
  · zify at hlen
    linarith

end Admit

/-! ## Runs -/

def PaceOp.Fits (rateBps maxDelayMs : U32) : PaceOp → Prop
  | .offer o _ => LengthFits rateBps maxDelayMs (BitVec.ofNat 32 o.data.length)
  | _ => True

def KeepsShaping (s : PaceLog) : PaceOp → Prop
  | .offer o now => ¬ GivesUp s.tx (BitVec.ofNat 32 o.data.length) now
  | _ => True

instance (s : PaceLog) : (op : PaceOp) → Decidable (KeepsShaping s op)
  | .offer _ _ => inferInstanceAs (Decidable (¬ (_ ≠ _)))
  | .popDue _ => isTrue trivial
  | .popAny => isTrue trivial
  | .flush => isTrue trivial
  | .tick _ => isTrue trivial

def PaceOp.bytes (op : PaceOp) : Nat := (op.priced.map fun p => p.1.toNat).sum

def pricedBytes (ops : List PaceOp) : Nat := (ops.map PaceOp.bytes).sum

theorem PaceOp.bytes_offer (o : Outgoing) (now : U64) : (PaceOp.offer o now).bytes =
    if (BitVec.ofNat 32 o.data.length).toNat < kReorderSeqMinPay then 0 else (BitVec.ofNat 32 o.data.length).toNat := by
  simp only [PaceOp.bytes, PaceOp.priced]
  split <;> rfl

/-- What holds after every operation. -/
structure ShapedOk (rateBps maxDelayMs : U32) (s : PaceLog) : Prop extends FilledOk rateBps s where
  bucket : BucketOk s.tx
  delay : s.tx.maxDelayMs = maxDelayMs

section Runs
variable {rateBps maxDelayMs : U32} {s s' : PaceLog}

theorem paceLogInit_shaped (hrate : rateBps ≠ 0) (maxDelayMs : U32) (t0 : U64) :
    ShapedOk rateBps maxDelayMs (paceLogInit rateBps maxDelayMs t0) :=
  have h := paceLogInit_ok hrate maxDelayMs t0
  ⟨⟨h.filled, h.rate⟩, h.bucket, h.delay⟩

/-- **One operation.** What it takes is covered by what was there and what the time is worth. -/
theorem ShapedOk.step (h : ShapedOk rateBps maxDelayMs s) (hrate : rateBps ≠ 0) {op : PaceOp}
    (hop : op.Fits rateBps maxDelayMs) (hs : paceOpStep s op = some s') :
    ShapedOk rateBps maxDelayMs s' ∧ s.tx.lastFillMs ≤ s'.tx.lastFillMs ∧
      (KeepsShaping s op → s'.tx.tokens.toInt + op.bytes ≤ s.tx.tokens.toInt + s.tx.worth s'.tx.lastFillMs) := by
  obtain ⟨hfilled, -⟩ := h.toFilledOk.step hrate hs
  by_cases hoffer : ∃ o now, op = .offer o now
  · obtain ⟨o, now, rfl⟩ := hoffer
    obtain ⟨hnow, -, hsame⟩ := paceOpStep_offer hs
    have hle := BitVec.le_trans h.filled hnow
    obtain ⟨hok, hdelay, hsmall, hlarge⟩ := paceAdmit_tokens h.bucket (h.rate ▸ hrate) hle
      (by rw [h.rate, h.delay]; exact hop)
    have hlast := hsame.lastFillMs
    rw [paceAdmit_lastFillMs (h.rate ▸ hrate)] at hlast
    refine ⟨⟨hfilled, hsame.ok hok, hsame.maxDelayMs.trans (hdelay.trans h.delay)⟩, ?_, fun hkeeps => ?_⟩
    · rw [hlast]
      split
      · exact BitVec.le_refl _
      · exact hle
    · rw [hsame.tokens, PaceOp.bytes_offer]
      by_cases hexempt : (BitVec.ofNat 32 o.data.length).toNat < kReorderSeqMinPay
      · rw [if_pos hexempt, hsmall hexempt]
        omega
      · rw [if_neg hexempt] at hlast ⊢
        rw [hlast]
        exact hlarge (Nat.not_lt.mp hexempt) hkeeps
  · push Not at hoffer
    obtain ⟨-, hsame⟩ := paceOpStep_other hoffer hs
    refine ⟨⟨hfilled, hsame.ok h.bucket, hsame.maxDelayMs.trans h.delay⟩, ?_, fun _ => ?_⟩
    · rw [hsame.lastFillMs]
      exact BitVec.le_refl _
    · have hfree : op.bytes = 0 := by
        rw [PaceOp.bytes, PaceOp.priced_other hoffer]
        rfl
      rw [hsame.tokens, hfree]
      omega

theorem shapedOk_run (hrate : rateBps ≠ 0) {ops : List PaceOp} (h : ShapedOk rateBps maxDelayMs s)
    (hops : ∀ op ∈ ops, op.Fits rateBps maxDelayMs) (hrun : ops.foldlM paceOpStep s = some s') :
    ShapedOk rateBps maxDelayMs s' :=
  foldlM_inv (P := fun ops s => (∀ op ∈ ops, op.Fits rateBps maxDelayMs) → ShapedOk rateBps maxDelayMs s) (fun _ => h)
    (fun _ _ op _ hbefore hs hfit => ((hbefore fun o ho => hfit o (List.mem_append_left _ ho)).step hrate
      (hfit op (List.mem_append_right _ (List.mem_singleton_self op))) hs).1) hrun hops

/-- **A stretch without a give-up** has spent no more than was there and what the time is worth. -/
theorem spent_le (hrate : rateBps ≠ 0) {ops : List PaceOp} (h : ShapedOk rateBps maxDelayMs s)
    (hops : ∀ op ∈ ops, op.Fits rateBps maxDelayMs) (hrun : ops.foldlM paceOpStep s = some s')
    (hkeeps : StepsMeet paceOpStep KeepsShaping s ops) :
    s.tx.lastFillMs ≤ s'.tx.lastFillMs ∧
      s'.tx.tokens.toInt + pricedBytes ops ≤ s.tx.tokens.toInt + s.tx.worth s'.tx.lastFillMs := by
  induction ops generalizing s with
  | nil =>
    obtain rfl : s = s' := Option.some.inj hrun
    refine ⟨BitVec.le_refl _, ?_⟩
    change _ + ((0 : Nat) : Int) ≤ _
    omega
  | cons op ops ih =>
    obtain ⟨t, ht, hrest⟩ := foldlM_cons_iff.mp hrun
    obtain ⟨hkeep, hkeeps⟩ := hkeeps t ht
    obtain ⟨hok, hfirst, hpaid⟩ := h.step hrate (hops op List.mem_cons_self) ht
    obtain ⟨hlater, hrestPaid⟩ := ih hok (fun o ho => hops o (List.mem_cons_of_mem _ ho)) hrest hkeeps
    have hpaid := hpaid hkeep
    refine ⟨BitVec.le_trans hfirst hlater, ?_⟩
    have hbytes : pricedBytes (op :: ops) = op.bytes + pricedBytes ops := rfl
    -- two refills are worth no more than one over both times
    have hworth : s.tx.worth t.tx.lastFillMs + t.tx.worth s'.tx.lastFillMs ≤ s.tx.worth s'.tx.lastFillMs := by
      have hle := BitVec.le_def.mp hfirst
      have hle' := BitVec.le_def.mp hlater
      unfold PaceCtx.worth
      rw [h.rate, hok.rate]
      calc _ ≤ _ := Nat.div_add_div_le_add_div
        _ = rateBps.toNat * (s'.tx.lastFillMs.toNat - s.tx.lastFillMs.toNat) / 1000 := by
          rw [← Nat.mul_add]
          congr 2
          omega
    omega

theorem lastFillMs_of_offer (h : FilledOk rateBps s) (hrate : rateBps ≠ 0) {o : Outgoing} {t : U64}
    (hs : paceOpStep s (.offer o t) = some s') (hlarge : kReorderSeqMinPay ≤ (BitVec.ofNat 32 o.data.length).toNat) :
    s'.tx.lastFillMs = t := by
  obtain ⟨-, -, hsame⟩ := paceOpStep_offer hs
  rw [hsame.lastFillMs, paceAdmit_lastFillMs (h.rate ▸ hrate), if_neg (Nat.not_lt.mpr hlarge)]

theorem worth_mono (c : PaceCtx) {t t' : U64} (h : t ≤ t') : c.worth t ≤ c.worth t' :=
  Nat.div_le_div_right (Nat.mul_le_mul_left _ (Nat.sub_le_sub_right (BitVec.le_def.mp h) _))

end Runs

/-- **The bucket conforms.** After every run whose lengths leave the words of the bucket room: the debt is less than
what the longest delay and one more millisecond work off, and the bucket does not overflow; the words of the next
admission fit; and from an offer that asked the bucket at `t1` on, with no give-up since, the bytes that asked it are
at most the tokens at `t1`, what the time up to `t2` is worth, and the longest debt. -/
theorem pace_conforms (rateBps maxDelayMs : U32) (hrate : rateBps ≠ 0) (t0 : U64) (ops : List PaceOp)
    (hops : ∀ op ∈ ops, op.Fits rateBps maxDelayMs) (s : PaceLog)
    (hrun : ops.foldlM paceOpStep (paceLogInit rateBps maxDelayMs t0) = some s) :
    (-(((maxDelayMs.toNat : Int) + 1) * rateBps.toNat) < 1000 * s.tx.tokens.toInt ∧
      s.tx.tokens.toInt ≤ s.tx.burstBytes.toNat) ∧
    (∀ len now, LengthFits rateBps maxDelayMs len → s.clock ≤ now →
      now.toNat - s.tx.lastFillMs.toNat ≤ 2 ^ 31 → WordsFit s.tx len now) ∧
    ∀ before o t1 after s1, ops = before ++ .offer o t1 :: after →
      (before ++ [.offer o t1]).foldlM paceOpStep (paceLogInit rateBps maxDelayMs t0) = some s1 →
      kReorderSeqMinPay ≤ (BitVec.ofNat 32 o.data.length).toNat → StepsMeet paceOpStep KeepsShaping s1 after →
      ∀ t2, s.clock ≤ t2 →
        1000 * (pricedBytes after : Int) < 1000 * s1.tx.tokens.toInt +
          1000 * (rateBps.toNat * (t2.toNat - t1.toNat) / 1000 : Nat) + (maxDelayMs.toNat + 1) * rateBps.toNat := by
  have hinit := paceLogInit_shaped hrate maxDelayMs t0
  have h := shapedOk_run hrate hinit hops hrun
  have hdebt := h.bucket.debt
  rw [h.delay, h.rate] at hdebt
  refine ⟨⟨by linarith, h.bucket.cap⟩, fun len now hlen hnow helapsed => ?_, ?_⟩
  · exact wordsFit h.bucket (BitVec.le_trans h.filled hnow) (by rw [h.rate, h.delay]; exact hlen) helapsed
  · intro before o t1 after s1 hsplit hrun1 hlarge hkeeps t2 ht2
    have hfits : ∀ op ∈ (before ++ [.offer o t1]) ++ after, op.Fits rateBps maxDelayMs := by
      rw [hsplit] at hops
      simpa using hops
    have hrun2 : after.foldlM paceOpStep s1 = some s := by
      rw [hsplit, ← List.singleton_append, ← List.append_assoc, List.foldlM_append, hrun1] at hrun
      exact hrun
    have h1 := shapedOk_run hrate hinit (fun op hop => hfits op (List.mem_append_left _ hop)) hrun1
    obtain ⟨-, hspent⟩ := spent_le hrate h1 (fun op hop => hfits op (List.mem_append_right _ hop)) hrun2 hkeeps
    obtain ⟨s0, hrun0, hoffer⟩ := foldlM_concat_iff.mp hrun1
    have ht1 := lastFillMs_of_offer (filledOk_run maxDelayMs hrate t0 hrun0) hrate hoffer hlarge
    have hworth := worth_mono s1.tx (BitVec.le_trans h.filled ht2)
    have htime : s1.tx.worth t2 = rateBps.toNat * (t2.toNat - t1.toNat) / 1000 := by rw [PaceCtx.worth, ht1, h1.rate]
    rw [htime] at hworth
    generalize rateBps.toNat * (t2.toNat - t1.toNat) / 1000 = worth at hworth ⊢
    have hle : (s1.tx.worth s.tx.lastFillMs : Int) ≤ worth := Int.ofNat_le.mpr hworth
    linarith

theorem pace_conforms_two :
    ∃ s s1, pacedOps.foldlM paceOpStep (paceLogInit 8000 20 0) = some s ∧
      (pacedOps.take 1).foldlM paceOpStep (paceLogInit 8000 20 0) = some s1 ∧ s.tx.tokens.toInt ≤ s.tx.burstBytes.toNat ∧
      1000 * (pricedBytes (pacedOps.drop 1) : Int) <
        1000 * s1.tx.tokens.toInt + 1000 * ((8000 : U32).toNat * (3 - 0) / 1000 : Nat) + (20 + 1) * 8000 := by
  obtain ⟨s, hs⟩ := Option.isSome_iff_exists.mp pacedOps_isSome
  have hfirst : ((pacedOps.take 1).foldlM paceOpStep (paceLogInit 8000 20 0)).isSome = true := by decide +kernel
  obtain ⟨s1, hs1⟩ := Option.isSome_iff_exists.mp hfirst
  have hkeeps : ((pacedOps.take 1).foldlM paceOpStep (paceLogInit 8000 20 0)).all fun s1 =>
      decide (StepsMeet paceOpStep KeepsShaping s1 (pacedOps.drop 1)) := by decide +kernel
  have hclock : (pacedOps.foldlM paceOpStep (paceLogInit 8000 20 0)).map PaceLog.clock = some 3 := by decide +kernel
  rw [hs1] at hkeeps
  rw [hs] at hclock
  have hfits : ∀ op ∈ pacedOps, op.Fits 8000 20 := by
    intro op _
    cases op with
    | offer o now => exact lengthFits_of_clamped (by decide) (by decide) _
    | _ => trivial
  obtain ⟨hbounds, -, hstretch⟩ := pace_conforms 8000 20 (by decide) 0 pacedOps hfits s hs
  have hlarge : kReorderSeqMinPay ≤ (BitVec.ofNat 32 (sampleOutgoing 5 1100 1).data.length).toNat := by
    rw [length_sampleOutgoing]
    decide
  exact ⟨s, s1, hs, hs1, hbounds.2, hstretch [] _ 0 _ s1 rfl hs1 hlarge (of_decide_eq_true hkeeps) 3
    (BitVec.le_of_eq (Option.some.inj hclock))⟩

/-! ## A length without room -/

/-- After `n` datagrams of `2 ^ 32 - 1` bytes at the greatest rate and delay, none of them stored. -/
structure Overdrawn (n : Nat) (s : PaceLog) : Prop where
  rate : s.tx.rateBps = 4294967295
  delay : s.tx.maxDelayMs = 4294967295
  filled : s.tx.lastFillMs = 0
  clock : s.clock = 0
  idle : s.tx.q.used = 0
  tokens : s.tx.tokens.toInt = 214748364 - n * 4294967295

section Overdrawn
variable {n : Nat} {s : PaceLog}

theorem toInt_longest : ((4294967295 : U32).setWidth 64).toInt = 4294967295 := by decide

theorem Overdrawn.missing (h : Overdrawn n s) (hn : n ≤ 4294967) :
    ((4294967295 : U32).setWidth 64 - s.tx.tokens).toInt = (n + 1) * 4294967295 - 214748364 := by
  rw [word_sub (by rw [toInt_longest, h.tokens]; omega) (by rw [toInt_longest, h.tokens]; omega), toInt_longest, h.tokens]
  omega

theorem Overdrawn.spent (h : Overdrawn n s) (hn : n ≤ 4294967) :
    (s.tx.tokens - (4294967295 : U32).setWidth 64).toInt = 214748364 - (n + 1 : Nat) * 4294967295 := by
  rw [word_sub (by rw [toInt_longest, h.tokens]; omega) (by rw [toInt_longest, h.tokens]; omega), toInt_longest, h.tokens]
  push_cast
  ring

/-- The next one is taken for one that can wait, in the end because what is missing wraps in thousandths. -/
theorem Overdrawn.wait (h : Overdrawn n s) (hn : n ≤ 4294967) {o : PaceCtx} (hsame : SameBucket o s.tx) :
    (paceWaitMs o 4294967295).toNat ≤ 4294967295 := by
  have hmissing := h.missing hn
  have hpos : 0 < ((4294967295 : U32).setWidth 64 - s.tx.tokens).toInt := by
    rw [hmissing]
    omega
  have hword := toNat_of_pos hpos
  rw [hmissing] at hword
  have hnat : ((4294967295 : U32).setWidth 64 - s.tx.tokens).toNat = (n + 1) * 4294967295 - 214748364 := by omega
  have hthousand : ((1000 : U64)).toNat = 1000 := rfl
  have hrate : ((4294967295 : U32).setWidth 64).toNat = 4294967295 := by decide
  unfold paceWaitMs
  dsimp only
  rw [hsame.tokens, if_pos hpos, hsame.rateBps, h.rate, BitVec.toNat_udiv, BitVec.toNat_mul, hnat, hthousand, hrate]
  by_cases hlast : n = 4294967
  · rw [hlast]
    decide
  · rw [Nat.mod_eq_of_lt (by omega)]
    omega

theorem Overdrawn.admission (h : Overdrawn n s) (hn : n ≤ 4294967) :
    ∃ tx due, paceAdmit s.tx 4294967295 0 = (tx, .queued, due) ∧ tx.rateBps = s.tx.rateBps ∧
      tx.maxDelayMs = s.tx.maxDelayMs ∧ tx.lastFillMs = s.tx.lastFillMs ∧ tx.q = s.tx.q ∧
      tx.tokens = s.tx.tokens - (4294967295 : U32).setWidth 64 := by
  have hsame := paceObserve_bucket s.tx 4294967295 0
  have hoq := paceObserve_q s.tx 4294967295 0
  have hfill : paceRefill (paceObserve s.tx 4294967295 0) 0 = paceObserve s.tx 4294967295 0 := by
    unfold paceRefill
    dsimp only
    rw [hsame.lastFillMs, h.filled]
    rfl
  have hnot : ¬ (s.tx.q.used = 0 ∧ (((4294967295 : U32).toNat : Nat) : Int) ≤ s.tx.tokens.toInt) := by
    rw [h.tokens]
    rintro ⟨-, hle⟩
    change (4294967295 : Int) ≤ _ at hle
    omega
  have hshort : ¬ ((4294967295 : U32).toNat < (paceWaitMs (paceObserve s.tx 4294967295 0) 4294967295).toNat ∨
      kPaceQueueSlots ≤ s.tx.q.used) := by
    rintro (hlong | hfull)
    · exact absurd (h.wait hn hsame) (Nat.not_le.mpr hlong)
    · rw [h.idle] at hfull
      exact absurd hfull (by decide)
  unfold paceAdmit
  dsimp only
  rw [hfill, hsame.rateBps, h.rate, if_neg (by decide), if_neg (by decide), hsame.tokens, hsame.maxDelayMs, h.delay,
    hoq, if_neg hnot, if_neg hshort]
  exact ⟨_, _, rfl, rfl, rfl, hsame.lastFillMs, rfl, rfl⟩

theorem Overdrawn.offer (h : Overdrawn n s) (hn : n ≤ 4294967) {o : Outgoing} (hdest : o.dest = [])
    (hlen : BitVec.ofNat 32 o.data.length = 4294967295) :
    ∃ s', paceOpStep s (.offer o 0) = some s' ∧ Overdrawn (n + 1) s' := by
  have hnow : ¬ (0 : U64) < s.clock := by
    rw [h.clock]
    decide
  obtain ⟨tx, due, htx, hrate, hdelay, hlast, hq, htokens⟩ := h.admission hn
  have hfull : paceEnqueue tx o due = none := by
    unfold paceEnqueue
    rw [if_pos (Or.inr (Or.inr (Or.inl hdest)))]
  refine ⟨⟨tx, s.since, 0⟩, ?_, hrate.trans h.rate, hdelay.trans h.delay, hlast.trans h.filled, rfl, ?_, ?_⟩
  · simp only [paceOpStep, hlen, htx, hfull]
    rw [if_neg hnow]
  · rw [hq]
    exact h.idle
  · rw [htokens]
    exact h.spent hn

end Overdrawn

theorem overdrawn_replicate {o : Outgoing} (hdest : o.dest = []) (hlen : BitVec.ofNat 32 o.data.length = 4294967295)
    (n : Nat) (hn : n ≤ 4294968) :
    ∃ s, (List.replicate n (PaceOp.offer o 0)).foldlM paceOpStep (paceLogInit 4294967295 4294967295 0) = some s ∧
      Overdrawn n s := by
  induction n with
  | zero => exact ⟨_, rfl, rfl, rfl, rfl, rfl, rfl, by decide⟩
  | succ n ih =>
    obtain ⟨s, hs, h⟩ := ih (by omega)
    obtain ⟨s', hs', h'⟩ := h.offer (by omega) hdest hlen
    refine ⟨s', ?_, h'⟩
    rw [List.replicate_succ', List.foldlM_append, hs]
    exact (congrArg (· >>= pure) hs').trans rfl

/-- Datagrams of the greatest length, at settings that no proxy lets through: the debt leaves its bound. -/
theorem pace_debt_unbounded :
    ∃ (ops : List PaceOp) (s : PaceLog), ops.foldlM paceOpStep (paceLogInit 4294967295 4294967295 0) = some s ∧
      1000 * s.tx.tokens.toInt < -(((4294967295 : Int) + 1) * 4294967295) := by
  have hlen : BitVec.ofNat 32 (List.replicate 4294967295 (0 : U8)).length = 4294967295 := by
    rw [List.length_replicate]
    decide
  obtain ⟨s, hs, h⟩ := @overdrawn_replicate ⟨5, [], List.replicate 4294967295 0⟩ rfl hlen 4294968 (Nat.le_refl _)
  refine ⟨_, s, hs, ?_⟩
  rw [h.tokens]
  decide

end BzNet
