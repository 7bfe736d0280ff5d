import BzNet.Lib.TokenBucket
import BzNet.Pace.Order

/-!
# When queued datagrams are due

The bucket of the pacer is a token bucket with debt (`TokenBucket`): `pace_admit` refills it, lets a datagram overdraw
it, and sets the due time to when a refill would have made up for that.

* `BucketOk` : the debt never exceeds what the longest delay works off, so that no word of the bucket wraps;
* `Admission`, `paceAdmit_due` : what one admission does to the bucket, and the due time it sets;
* `PaceOp`, `paceOpStep` : the interface as its callers use it, with the admission times of what is queued beside the
  queue; `DueOk` is what holds after every operation;
* `pacer_due_bounded` : due times ascend in the queue and lie within the longest delay of the admission.
-/

namespace BzNet

open TokenBucket

/-! ## The words of the bucket -/

theorem word_add {x y : U64} (hlow : -(2 ^ 63) ≤ x.toInt + y.toInt) (hhigh : x.toInt + y.toInt < 2 ^ 63) :
    (x + y).toInt = x.toInt + y.toInt := by
  rw [BitVec.toInt_add]
  exact Int.bmod_eq_of_le_mul_two (by norm_num at hlow ⊢; omega) (by norm_num at hhigh ⊢; omega)

theorem word_sub {x y : U64} (hlow : -(2 ^ 63) ≤ x.toInt - y.toInt) (hhigh : x.toInt - y.toInt < 2 ^ 63) :
    (x - y).toInt = x.toInt - y.toInt := by
  rw [BitVec.toInt_sub]
  exact Int.bmod_eq_of_le_mul_two (by norm_num at hlow ⊢; omega) (by norm_num at hhigh ⊢; omega)

theorem toInt_of_small {x : U64} (h : x.toNat < 2 ^ 63) : x.toInt = x.toNat :=
  BitVec.toInt_eq_toNat_of_lt (by omega)

theorem toNat_of_pos {x : U64} (h : 0 < x.toInt) : (x.toNat : Int) = x.toInt := by
  rw [BitVec.toInt_eq_toNat_cond] at h ⊢
  have := x.isLt
  split at h
  · next hlt => rw [if_pos hlt]
  · omega

theorem toNat_widen (x : U32) : (x.setWidth 64).toNat = x.toNat := BitVec.toNat_setWidth_of_le (by decide)

theorem toInt_widen (x : U32) : (x.setWidth 64).toInt = x.toNat := by
  rw [toInt_of_small, toNat_widen]
  rw [toNat_widen]
  have := x.isLt
  omega

/-! ## The bucket -/

variable {c : PaceCtx} {len : U32} {now : U64}

/-- The debt is less than what the longest delay and one more millisecond work off; the bucket does not overflow. -/
structure BucketOk (c : PaceCtx) : Prop where
  debt : -(1000 * c.tokens.toInt) < (c.maxDelayMs.toNat + 1) * c.rateBps.toNat
  cap : c.tokens.toInt ≤ c.burstBytes.toNat

def PaceCtx.Owes (c : PaceCtx) (due : Nat) : Prop :=
  OwesUntil c.rateBps.toNat 1000 c.tokens.toInt c.lastFillMs.toNat due

theorem BucketOk.low (h : BucketOk c) : -(1000 * c.tokens.toInt) < 2 ^ 64 := by
  have hle : (c.maxDelayMs.toNat + 1) * c.rateBps.toNat ≤ 2 ^ 32 * (2 ^ 32 - 1) :=
    Nat.mul_le_mul (by have := c.maxDelayMs.isLt; omega) (by have := c.rateBps.isLt; omega)
  have hdebt := h.debt
  zify at hle
  norm_num at hle ⊢
  linarith

/-- The bucket and its configuration are the same in both. -/
structure SameBucket (a b : PaceCtx) : Prop where
  rateBps : a.rateBps = b.rateBps
  burstBytes : a.burstBytes = b.burstBytes
  maxDelayMs : a.maxDelayMs = b.maxDelayMs
  tokens : a.tokens = b.tokens
  lastFillMs : a.lastFillMs = b.lastFillMs

theorem SameBucket.refl (c : PaceCtx) : SameBucket c c := ⟨rfl, rfl, rfl, rfl, rfl⟩

theorem SameBucket.trans {a b : PaceCtx} (h : SameBucket a b) (h' : SameBucket b c) : SameBucket a c where
  rateBps := h.rateBps.trans h'.rateBps
  burstBytes := h.burstBytes.trans h'.burstBytes
  maxDelayMs := h.maxDelayMs.trans h'.maxDelayMs
  tokens := h.tokens.trans h'.tokens
  lastFillMs := h.lastFillMs.trans h'.lastFillMs

theorem SameBucket.ok {a : PaceCtx} (h : SameBucket a c) (hc : BucketOk c) : BucketOk a := by
  refine ⟨?_, ?_⟩
  · rw [h.tokens, h.maxDelayMs, h.rateBps]
    exact hc.debt
  · rw [h.tokens, h.burstBytes]
    exact hc.cap

theorem SameBucket.owes {a : PaceCtx} (h : SameBucket a c) {due : Nat} (hc : c.Owes due) : a.Owes due := by
  unfold PaceCtx.Owes at hc ⊢
  rwa [h.rateBps, h.tokens, h.lastFillMs]

theorem paceTick_bucket (c : PaceCtx) (now : U64) : SameBucket (paceTick c now) c := by
  unfold paceTick
  split <;> exact ⟨rfl, rfl, rfl, rfl, rfl⟩

theorem paceObserve_bucket (c : PaceCtx) (len : U32) (now : U64) : SameBucket (paceObserve c len now) c :=
  have h := paceTick_bucket c now
  ⟨h.rateBps, h.burstBytes, h.maxDelayMs, h.tokens, h.lastFillMs⟩

theorem paceEnqueue_bucket {c' : PaceCtx} {o : Outgoing} {due : U64} (h : paceEnqueue c o due = some c') :
    SameBucket c' c := by
  unfold paceEnqueue at h
  split at h
  · cases h
  · cases h
    exact ⟨rfl, rfl, rfl, rfl, rfl⟩

theorem pacePopAny_bucket {c' : PaceCtx} {e : PaceEntry} (h : pacePopAny c = some (e, c')) : SameBucket c' c := by
  unfold pacePopAny at h
  split at h
  · cases h
  · cases h
    exact ⟨rfl, rfl, rfl, rfl, rfl⟩

theorem pacePopDue_bucket {c' : PaceCtx} {e : PaceEntry} (h : pacePopDue now c = some (e, c')) : SameBucket c' c := by
  unfold pacePopDue at h
  split at h
  · cases h
  · cases h
    exact ⟨rfl, rfl, rfl, rfl, rfl⟩

theorem paceSendWhile_bucket {pop : PaceCtx → Option (PaceEntry × PaceCtx)}
    (hpop : ∀ c e c', pop c = some (e, c') → SameBucket c' c) (n : Nat) (c : PaceCtx) :
    SameBucket (paceSendWhile pop n c).1 c := by
  induction n generalizing c with
  | zero => exact .refl c
  | succ n ih =>
    unfold paceSendWhile
    cases h : pop c with
    | none => exact .refl c
    | some r => exact (ih r.2).trans (hpop c r.1 r.2 h)

/-- **A refill** adds at most what the time gone by is worth, even where the product wraps. -/
theorem paceRefill_spec (h : BucketOk c) (hnow : c.lastFillMs ≤ now) :
    c.tokens.toInt ≤ (paceRefill c now).tokens.toInt ∧ (paceRefill c now).tokens.toInt ≤ c.burstBytes.toNat ∧
      1000 * (paceRefill c now).tokens.toInt ≤
        1000 * c.tokens.toInt + c.rateBps.toNat * ((now.toNat : Int) - c.lastFillMs.toNat) ∧
      (paceRefill c now).lastFillMs = now := by
  have helapsed : (now - c.lastFillMs).toNat = now.toNat - c.lastFillMs.toNat := BitVec.toNat_sub_of_le hnow
  have hle := BitVec.le_def.mp hnow
  have hlow := h.low
  have hcap := h.cap
  have hburst := c.burstBytes.isLt
  have hlt := now.isLt
  unfold paceRefill
  dsimp only
  split
  · next hpos =>
    have hgain : ((now - c.lastFillMs) * c.rateBps.setWidth 64 / 1000).toNat ≤
        (now.toNat - c.lastFillMs.toNat) * c.rateBps.toNat / 1000 := by
      rw [BitVec.toNat_udiv, BitVec.toNat_mul, helapsed, toNat_widen]
      exact Nat.div_le_div_right (Nat.mod_le _ _)
    have hsmall : ((now - c.lastFillMs) * c.rateBps.setWidth 64 / 1000).toNat ≤ 2 ^ 64 / 1000 := by
      rw [BitVec.toNat_udiv]
      exact Nat.div_le_div_right (Nat.le_of_lt (BitVec.isLt _))
    have hworth : 1000 * ((now.toNat - c.lastFillMs.toNat) * c.rateBps.toNat / 1000 : Nat) ≤
        (now.toNat - c.lastFillMs.toNat) * c.rateBps.toNat := Nat.mul_div_le _ _
    generalize ((now - c.lastFillMs) * c.rateBps.setWidth 64 / 1000) = gain at hgain hsmall ⊢
    have hint : gain.toInt = gain.toNat := toInt_of_small (by omega)
    have hadd : (c.tokens + gain).toInt = c.tokens.toInt + gain.toNat := by
      rw [word_add (by rw [hint]; omega) (by rw [hint]; omega), hint]
    have hbound : (1000 : Int) * gain.toNat ≤ c.rateBps.toNat * ((now.toNat : Int) - c.lastFillMs.toNat) := by
      have hnat : 1000 * gain.toNat ≤ (now.toNat - c.lastFillMs.toNat) * c.rateBps.toNat := by omega
      zify [hle] at hnat
      linarith
    have htokens : (if (c.burstBytes.toNat : Int) < (c.tokens + gain).toInt then c.burstBytes.setWidth 64
        else c.tokens + gain).toInt = min (c.burstBytes.toNat : Int) (c.tokens.toInt + gain.toNat) := by
      rw [apply_ite BitVec.toInt, toInt_widen, hadd]
      split
      · next hover => exact (min_eq_left (Int.le_of_lt hover)).symm
      · next hunder => exact (min_eq_right (Int.not_lt.mp hunder)).symm
    rw [htokens]
    exact ⟨by omega, by omega, by omega, rfl⟩
  · next hzero =>
    have hsame : now = c.lastFillMs := by
      refine BitVec.eq_of_toNat_eq ?_
      have := BitVec.not_lt.mp hzero
      rw [BitVec.le_def, helapsed] at this
      change _ ≤ 0 at this
      omega
    subst hsame
    exact ⟨Int.le_refl _, hcap, by simp, rfl⟩

theorem paceWaitMs_toNat (hcap : c.tokens.toInt ≤ c.burstBytes.toNat)
    (hlen : 1000 * ((len.toNat : Int) - c.tokens.toInt) < 2 ^ 64) :
    (paceWaitMs c len).toNat = waitFor c.rateBps.toNat 1000 c.tokens.toInt len.toNat := by
  have hburst := c.burstBytes.isLt
  have hlt := len.isLt
  have hdeficit : (len.setWidth 64 - c.tokens).toInt = len.toNat - c.tokens.toInt := by
    rw [word_sub (by rw [toInt_widen]; omega) (by rw [toInt_widen]; omega), toInt_widen]
  unfold paceWaitMs waitFor
  dsimp only
  rw [hdeficit]
  split
  · next hpos =>
    have hnat := toNat_of_pos (hdeficit ▸ hpos)
    rw [hdeficit] at hnat
    have heq : (len.setWidth 64 - c.tokens).toNat = ((len.toNat : Int) - c.tokens.toInt).toNat := by omega
    rw [BitVec.toNat_udiv, BitVec.toNat_mul, toNat_widen, heq]
    congr 1
    exact Nat.mod_eq_of_lt (by change _ * 1000 < _; omega)
  · rfl

/-! ## One admission -/

/-- What an admission does to the bucket, by its decision; `due` is the time it sets. -/
inductive Admission (c a : PaceCtx) (now due : U64) : PaceDecision → Prop where
  | exempt (hkeeps : ∀ d, c.Owes d → a.Owes d) : Admission c a now due .sendNow
  | idle (hidle : c.q.used = 0) : Admission c a now due .sendNow
  | giveUp : Admission c a now due .flushThenSend
  | queued (hkeeps : ∀ d, c.Owes d → a.Owes d ∧ d ≤ due.toNat) (hnew : a.Owes due.toNat) (hfrom : now ≤ due)
      (hbound : due.toNat ≤ now.toNat + c.maxDelayMs.toNat) : Admission c a now due .queued

theorem paceRefill_config (c : PaceCtx) (now : U64) :
    (paceRefill c now).burstBytes = c.burstBytes ∧ (paceRefill c now).maxDelayMs = c.maxDelayMs := by
  unfold paceRefill
  dsimp only
  split <;> exact ⟨rfl, rfl⟩

theorem word_spend (h : BucketOk c) (len : U32) :
    (c.tokens - len.setWidth 64).toInt = c.tokens.toInt - len.toNat := by
  have hlow := h.low
  have hcap := h.cap
  have hburst := c.burstBytes.isLt
  have hlen := len.isLt
  rw [word_sub (by rw [toInt_widen]; omega) (by rw [toInt_widen]; omega), toInt_widen]

/-- `r` is `c` with the bucket refilled at `now`. -/
structure Refilled (c r : PaceCtx) (now : U64) : Prop where
  ok : BucketOk r
  rateBps : r.rateBps = c.rateBps
  maxDelayMs : r.maxDelayMs = c.maxDelayMs
  lastFillMs : r.lastFillMs = now
  q : r.q = c.q
  owes : ∀ d, c.Owes d → OwesUntil c.rateBps.toNat 1000 r.tokens.toInt now.toNat d

theorem paceRefill_refilled {o : PaceCtx} (h : BucketOk c) (hsame : SameBucket o c) (hq : o.q = c.q)
    (hnow : c.lastFillMs ≤ now) : Refilled c (paceRefill o now) now := by
  have hok := hsame.ok h
  obtain ⟨hgain, hcap, hadd, hlast⟩ := paceRefill_spec hok (hsame.lastFillMs ▸ hnow)
  obtain ⟨hburst, hdelay⟩ := paceRefill_config o now
  have hrate := paceRefill_rateBps o now
  refine ⟨⟨?_, ?_⟩, hrate.trans hsame.rateBps, hdelay.trans hsame.maxDelayMs, hlast, (paceRefill_q o now).trans hq,
    fun d hd => ?_⟩
  · have := hok.debt
    rw [hdelay, hrate]
    omega
  · rw [hburst]
    exact hcap
  · have hrefill := OwesUntil.refill (hsame.owes hd) (hsame.lastFillMs ▸ hnow) hadd
    rwa [hsame.rateBps] at hrefill

section Refilled
variable {r : PaceCtx} {stats : PaceStats}

theorem Refilled.spend (h : Refilled c r now)
    (hdebt : (1000 : Int) * (len.toNat - r.tokens.toInt) < (c.maxDelayMs.toNat + 1) * c.rateBps.toNat) :
    BucketOk { r with tokens := r.tokens - len.setWidth 64, stats := stats } := by
  have hspend := word_spend h.ok len
  have hcap := h.ok.cap
  refine ⟨?_, ?_⟩
  · change -(1000 * (r.tokens - len.setWidth 64).toInt) < (r.maxDelayMs.toNat + 1) * r.rateBps.toNat
    rw [hspend, h.maxDelayMs, h.rateBps]
    omega
  · change (r.tokens - len.setWidth 64).toInt ≤ r.burstBytes.toNat
    omega

theorem Refilled.wait (h : Refilled c r now)
    (hlen : 1000 * len.toNat + (c.maxDelayMs.toNat + 1) * c.rateBps.toNat ≤ 2 ^ 64) :
    (paceWaitMs r len).toNat = waitFor c.rateBps.toNat 1000 r.tokens.toInt len.toNat := by
  have hneed : 1000 * ((len.toNat : Int) - r.tokens.toInt) < 2 ^ 64 := by
    have hdebt := h.ok.debt
    rw [h.maxDelayMs, h.rateBps] at hdebt
    zify at hlen
    linarith
  rw [paceWaitMs_toNat h.ok.cap hneed, h.rateBps]

/-- A datagram that is queued leaves a debt that its wait bounds. -/
theorem Refilled.spend_wait (h : Refilled c r now) (hrate : 0 < c.rateBps.toNat)
    (hwait : (paceWaitMs r len).toNat = waitFor c.rateBps.toNat 1000 r.tokens.toInt len.toNat)
    (hshort : (paceWaitMs r len).toNat ≤ c.maxDelayMs.toNat) :
    BucketOk { r with tokens := r.tokens - len.setWidth 64, stats := stats } := by
  have hlt := @waitFor_lt c.rateBps.toNat 1000 r.tokens.toInt len.toNat hrate
  rw [← hwait] at hlt
  have hle : ((paceWaitMs r len).toNat + 1) * c.rateBps.toNat ≤ (c.maxDelayMs.toNat + 1) * c.rateBps.toNat :=
    Nat.mul_le_mul_right _ (by omega)
  zify at hle
  push_cast at hlt
  exact h.spend (by linarith)

/-- **A datagram that is queued**: its wait is at least what is owed already. -/
theorem Refilled.queued (h : Refilled c r now) (hrate : 0 < c.rateBps.toNat)
    (hclock : now.toNat + c.maxDelayMs.toNat < 2 ^ 64)
    (hwait : (paceWaitMs r len).toNat = waitFor c.rateBps.toNat 1000 r.tokens.toInt len.toNat)
    (hshort : (paceWaitMs r len).toNat ≤ c.maxDelayMs.toNat) :
    BucketOk { r with tokens := r.tokens - len.setWidth 64, stats := stats } ∧
      Admission c { r with tokens := r.tokens - len.setWidth 64, stats := stats } now (now + paceWaitMs r len) .queued := by
  have hspend := word_spend h.ok len
  have hdue : (now + paceWaitMs r len).toNat = now.toNat + (paceWaitMs r len).toNat := by
    rw [BitVec.toNat_add]
    exact Nat.mod_eq_of_lt (by omega)
  have hnew := owesUntil_wait c.rateBps.toNat 1000 r.tokens.toInt len.toNat now.toNat
  rw [← hwait] at hnew
  refine ⟨h.spend_wait hrate hwait hshort, .queued (fun d hd => ⟨?_, ?_⟩) ?_ ?_ ?_⟩
  · unfold PaceCtx.Owes
    rw [hspend, h.lastFillMs, h.rateBps]
    exact (h.owes d hd).spend (by omega)
  · rw [hdue, hwait]
    exact (h.owes d hd).le_wait hrate len.toNat
  · unfold PaceCtx.Owes
    rw [hspend, h.lastFillMs, h.rateBps, hdue]
    exact hnew
  · exact BitVec.le_def.mpr (by rw [hdue]; omega)
  · rw [hdue]
    omega

end Refilled

/-- **One admission**, with a datagram and a clock that wrap no word. -/
theorem paceAdmit_due (h : BucketOk c) (hrate : c.rateBps ≠ 0) (hnow : c.lastFillMs ≤ now)
    (hclock : now.toNat + c.maxDelayMs.toNat < 2 ^ 64)
    (hlen : 1000 * len.toNat + (c.maxDelayMs.toNat + 1) * c.rateBps.toNat ≤ 2 ^ 64) :
    BucketOk (paceAdmit c len now).1 ∧ (paceAdmit c len now).1.lastFillMs ≤ now ∧
      (paceAdmit c len now).1.maxDelayMs = c.maxDelayMs ∧
      Admission c (paceAdmit c len now).1 now (paceAdmit c len now).2.2 (paceAdmit c len now).2.1 := by
  have hrpos : 0 < c.rateBps.toNat := Nat.pos_of_ne_zero fun h0 => hrate (BitVec.eq_of_toNat_eq h0)
  have hworth : (0 : Int) < (c.maxDelayMs.toNat + 1) * c.rateBps.toNat := by positivity
  unfold paceAdmit
  dsimp only
  have hsame := paceObserve_bucket c len now
  have hoq := paceObserve_q c len now
  generalize paceObserve c len now = o at hsame hoq ⊢
  rw [if_neg (hsame.rateBps ▸ hrate)]
  by_cases hsmall : len.toNat < kReorderSeqMinPay
  · rw [if_pos hsmall]
    have hok := hsame.ok h
    exact ⟨⟨hok.debt, hok.cap⟩, by rwa [hsame.lastFillMs], hsame.maxDelayMs, .exempt fun _ => hsame.owes⟩
  rw [if_neg hsmall]
  have hr := paceRefill_refilled h hsame hoq hnow
  generalize paceRefill o now = r at hr ⊢
  have hlast : r.lastFillMs ≤ now := by
    rw [hr.lastFillMs]
    exact BitVec.le_refl now
  split
  · next hidle =>
    refine ⟨hr.spend ?_, hlast, hr.maxDelayMs, .idle (hr.q ▸ hidle.1)⟩
    have := hidle.2
    omega
  · have hwait := hr.wait hlen
    split
    · refine ⟨⟨?_, ?_⟩, hlast, hr.maxDelayMs, ?_⟩
      · rw [hr.maxDelayMs, hr.rateBps]
        change -(1000 * (0 : Int)) < _
        omega
      · exact Int.natCast_nonneg _
      · by_cases hbusy : 0 < r.q.used
        · simp only [hbusy, if_true]
          exact .giveUp
        · simp only [hbusy, if_false]
          exact .idle (by rw [← hr.q]; omega)
    · next hshort =>
      push Not at hshort
      obtain ⟨hok, hadm⟩ := hr.queued hrpos hclock hwait (hr.maxDelayMs ▸ hshort.1)
      exact ⟨hok, hlast, hr.maxDelayMs, hadm⟩

/-! ## Runs -/

/-- The pacer, when each queued datagram was admitted, and the latest clock an admission has seen. -/
structure PaceLog where
  tx : PaceCtx
  since : List U64
  clock : U64

inductive PaceOp where
  /-- An admission, and what it asks of its caller: the datagram is stored, or the queue flushed. -/
  | offer (o : Outgoing) (now : U64)
  | popDue (now : U64)
  | popAny
  | flush
  | tick (now : U64)

def paceLogInit (rateBps maxDelayMs : U32) (now : U64) : PaceLog := ⟨paceInit rateBps maxDelayMs now, [], now⟩

/-- One operation; the clock of the admissions does not go back. -/
def paceOpStep (s : PaceLog) : PaceOp → Option PaceLog
  | .offer o now =>
    if now < s.clock then none
    else
      let a := paceAdmit s.tx (BitVec.ofNat 32 o.data.length) now
      match a.2.1 with
      | .sendNow => some ⟨a.1, s.since, now⟩
      | .queued =>
        match paceEnqueue a.1 o a.2.2 with
        | some c => some ⟨c, s.since ++ [now], now⟩
        | none => some ⟨a.1, s.since, now⟩
      | .flushThenSend => some ⟨(paceFlushLocked a.1).1, [], now⟩
  | .popDue now =>
    match pacePopDue now s.tx with
    | some r => some ⟨r.2, s.since.tail, s.clock⟩
    | none => some s
  | .popAny =>
    match pacePopAny s.tx with
    | some r => some ⟨r.2, s.since.tail, s.clock⟩
    | none => some s
  | .flush => some ⟨(paceFlushLocked s.tx).1, [], s.clock⟩
  | .tick now => some { s with tx := paceTick s.tx now }

/-- The words of an admission do not wrap: its clock leaves room for the longest delay, and its length for the
longest debt, as every length up to 4294967 does. -/
def PaceOp.Unwrapped (rateBps maxDelayMs : U32) : PaceOp → Prop
  | .offer o now => now.toNat + maxDelayMs.toNat < 2 ^ 64 ∧
      1000 * (BitVec.ofNat 32 o.data.length).toNat + (maxDelayMs.toNat + 1) * rateBps.toNat ≤ 2 ^ 64
  | _ => True

theorem PaceOp.unwrapped_of_length (rateBps : U32) {maxDelayMs : U32} {o : Outgoing} {now : U64}
    (hclock : now.toNat + maxDelayMs.toNat < 2 ^ 64) (hlen : o.data.length ≤ 4294967) :
    (PaceOp.offer o now).Unwrapped rateBps maxDelayMs := by
  refine ⟨hclock, ?_⟩
  have hword : (BitVec.ofNat 32 o.data.length).toNat ≤ o.data.length := Nat.mod_le _ _
  have hle : (maxDelayMs.toNat + 1) * rateBps.toNat ≤ 2 ^ 32 * (2 ^ 32 - 1) :=
    Nat.mul_le_mul (by have := maxDelayMs.isLt; omega) (by have := rateBps.isLt; omega)
  omega

/-- A datagram admitted at `a` is due no earlier, and within the longest delay. -/
def DueWithin (maxDelayMs : U32) (a : U64) (e : PaceEntry) : Prop :=
  a ≤ e.dueMs ∧ e.dueMs.toNat ≤ a.toNat + maxDelayMs.toNat

/-- What holds after every operation. -/
structure DueOk (rateBps maxDelayMs : U32) (s : PaceLog) : Prop where
  bucket : BucketOk s.tx
  rate : s.tx.rateBps = rateBps
  delay : s.tx.maxDelayMs = maxDelayMs
  filled : s.tx.lastFillMs ≤ s.clock
  /-- The bucket is in debt until whatever is queued is due. -/
  owed : ∀ e ∈ s.tx.q.toList, s.tx.Owes e.dueMs.toNat
  sorted : s.tx.q.toList.Pairwise fun e e' => e.dueMs ≤ e'.dueMs
  within : List.Forall₂ (DueWithin maxDelayMs) s.since s.tx.q.toList

section Run
variable {rateBps maxDelayMs : U32} {s s' : PaceLog}

theorem paceLogInit_ok (hrate : rateBps ≠ 0) (maxDelayMs : U32) (now : U64) :
    DueOk rateBps maxDelayMs (paceLogInit rateBps maxDelayMs now) := by
  have hrpos : 0 < rateBps.toNat := Nat.pos_of_ne_zero fun h0 => hrate (BitVec.eq_of_toNat_eq h0)
  have hworth : (0 : Int) < (maxDelayMs.toNat + 1) * rateBps.toNat := by positivity
  refine ⟨⟨?_, ?_⟩, rfl, rfl, BitVec.le_refl _, ?_, ?_, ?_⟩
  · have hfull : (paceLogInit rateBps maxDelayMs now).tx.tokens.toInt =
        (paceLogInit rateBps maxDelayMs now).tx.burstBytes.toNat := toInt_widen _
    rw [hfull]
    change _ < ((maxDelayMs.toNat : Int) + 1) * rateBps.toNat
    omega
  · exact Int.le_of_eq (toInt_widen _)
  · intro e he
    cases he
  · exact List.Pairwise.nil
  · exact List.Forall₂.nil

theorem DueOk.suffix (h : DueOk rateBps maxDelayMs s) {tx : PaceCtx} {since : List U64} (es : List PaceEntry)
    (hq : s.tx.q.toList = es ++ tx.q.toList) (hsince : since = s.since.drop es.length)
    (hsame : SameBucket tx s.tx) : DueOk rateBps maxDelayMs ⟨tx, since, s.clock⟩ := by
  refine ⟨hsame.ok h.bucket, hsame.rateBps.trans h.rate, hsame.maxDelayMs.trans h.delay, ?_, fun e he => ?_, ?_, ?_⟩
  · change tx.lastFillMs ≤ s.clock
    rw [hsame.lastFillMs]
    exact h.filled
  · exact hsame.owes (h.owed e (hq ▸ List.mem_append_right es he))
  · have hsorted := h.sorted
    rw [hq] at hsorted
    exact (List.pairwise_append.mp hsorted).2.1
  · have hwithin := List.forall₂_drop es.length h.within
    rw [hq, List.drop_left] at hwithin
    exact hsince ▸ hwithin

theorem DueOk.popped (h : DueOk rateBps maxDelayMs s) {e : PaceEntry} {tx : PaceCtx} (hq : s.tx.q.toList = e :: tx.q.toList)
    (hsame : SameBucket tx s.tx) : DueOk rateBps maxDelayMs ⟨tx, s.since.tail, s.clock⟩ :=
  h.suffix [e] hq List.drop_one.symm hsame

/-- With nothing queued only the bucket is left to look at. -/
theorem DueOk.flushed {tx : PaceCtx} {clock : U64} (hok : BucketOk tx) (hrate : tx.rateBps = rateBps)
    (hdelay : tx.maxDelayMs = maxDelayMs) (hlast : tx.lastFillMs ≤ clock) (hq : tx.q.toList = []) :
    DueOk rateBps maxDelayMs ⟨tx, [], clock⟩ := by
  refine ⟨hok, hrate, hdelay, hlast, fun e he => ?_, ?_, ?_⟩
  · rw [hq] at he
    cases he
  · rw [hq]
    exact List.Pairwise.nil
  · rw [hq]
    exact List.Forall₂.nil

theorem paceFlushLocked_bucket (c : PaceCtx) : SameBucket (paceFlushLocked c).1 c :=
  paceSendWhile_bucket (fun _ _ _ => pacePopAny_bucket) c.q.used c

theorem DueOk.stored {tx tx' : PaceCtx} {since : List U64} {now due : U64} {o : Outgoing}
    (h : DueOk rateBps maxDelayMs ⟨tx, since, now⟩) (hstore : paceEnqueue tx o due = some tx')
    (hlast : ∀ e ∈ tx.q.toList, e.dueMs ≤ due) (hnew : tx.Owes due.toNat) (hfrom : now ≤ due)
    (hbound : due.toNat ≤ now.toNat + maxDelayMs.toNat) : DueOk rateBps maxDelayMs ⟨tx', since ++ [now], now⟩ := by
  have hsame := paceEnqueue_bucket hstore
  obtain ⟨hq, -⟩ := paceEnqueue_some hstore
  refine ⟨hsame.ok h.bucket, hsame.rateBps.trans h.rate, hsame.maxDelayMs.trans h.delay, ?_, fun e he => ?_, ?_, ?_⟩
  · change tx'.lastFillMs ≤ now
    rw [hsame.lastFillMs]
    exact h.filled
  · change e ∈ tx'.q.toList at he
    rw [hq, List.mem_append, List.mem_singleton] at he
    rcases he with he | rfl
    · exact hsame.owes (h.owed e he)
    · exact hsame.owes hnew
  · change tx'.q.toList.Pairwise _
    rw [hq, List.pairwise_append]
    refine ⟨h.sorted, List.pairwise_singleton _ _, fun e he e' he' => ?_⟩
    rw [List.mem_singleton.mp he']
    exact hlast e he
  · change List.Forall₂ _ (since ++ [now]) tx'.q.toList
    rw [hq]
    exact List.rel_append h.within (.cons ⟨hfrom, hbound⟩ .nil)

/-- **One offer.** -/
theorem DueOk.offer (h : DueOk rateBps maxDelayMs s) (hpos : rateBps ≠ 0) {o : Outgoing} {now : U64}
    (hop : (PaceOp.offer o now).Unwrapped rateBps maxDelayMs) (hs : paceOpStep s (.offer o now) = some s') :
    DueOk rateBps maxDelayMs s' := by
  obtain ⟨hclock, hlen⟩ := hop
  simp only [paceOpStep] at hs
  split at hs
  · cases hs
  next hnow =>
  have hnow := BitVec.not_lt.mp hnow
  obtain ⟨hok, hlast, hdelay, hadm⟩ := paceAdmit_due h.bucket (by rw [h.rate]; exact hpos)
    (BitVec.le_trans h.filled hnow) (by rw [h.delay]; exact hclock) (by rw [h.delay, h.rate]; exact hlen)
  obtain ⟨hq, hrate, -⟩ := paceAdmit_step s.tx (BitVec.ofNat 32 o.data.length) now
  generalize paceAdmit s.tx (BitVec.ofNat 32 o.data.length) now = a at hok hlast hdelay hadm hq hrate hs
  obtain ⟨tx, d, due⟩ := a
  -- the queue as it was, under a bucket that still owes it
  have hstay : (∀ e ∈ tx.q.toList, tx.Owes e.dueMs.toNat) → DueOk rateBps maxDelayMs ⟨tx, s.since, now⟩ := by
    intro howed
    refine ⟨hok, hrate.trans h.rate, hdelay.trans h.delay, hlast, howed, ?_, ?_⟩
    · rw [hq]
      exact h.sorted
    · rw [hq]
      exact h.within
  dsimp only at hok hlast hdelay hadm hq hrate hs
  cases hadm with
  | exempt hkeeps =>
    cases hs
    refine hstay fun e he => hkeeps _ (h.owed e ?_)
    rwa [← hq]
  | idle hidle =>
    cases hs
    refine hstay fun e he => ?_
    rw [hq, RingBuffer.toList_eq_nil.mpr hidle] at he
    cases he
  | giveUp =>
    cases hs
    have hsame := paceFlushLocked_bucket tx
    refine .flushed (hsame.ok hok) (hsame.rateBps.trans (hrate.trans h.rate))
      (hsame.maxDelayMs.trans (hdelay.trans h.delay)) ?_ (paceFlushLocked_all tx).2.1
    rw [hsame.lastFillMs]
    exact hlast
  | queued hkeeps hnew hfrom hbound =>
    have howed : ∀ e ∈ tx.q.toList, tx.Owes e.dueMs.toNat ∧ e.dueMs.toNat ≤ due.toNat := by
      intro e he
      refine hkeeps _ (h.owed e ?_)
      rwa [← hq]
    have hkept := hstay fun e he => (howed e he).1
    cases hstore : paceEnqueue tx o due with
    | none =>
      rw [hstore] at hs
      cases hs
      exact hkept
    | some tx' =>
      rw [hstore] at hs
      cases hs
      exact hkept.stored hstore (fun e he => BitVec.le_def.mpr (howed e he).2) hnew hfrom (h.delay ▸ hbound)

/-- **One operation.** -/
theorem DueOk.step (h : DueOk rateBps maxDelayMs s) (hpos : rateBps ≠ 0) {op : PaceOp} (hop : op.Unwrapped rateBps maxDelayMs)
    (hs : paceOpStep s op = some s') : DueOk rateBps maxDelayMs s' := by
  cases op with
  | offer o now => exact h.offer hpos hop hs
  | popDue now =>
    simp only [paceOpStep] at hs
    cases hpop : pacePopDue now s.tx with
    | none =>
      rw [hpop] at hs
      cases hs
      exact h
    | some r =>
      rw [hpop] at hs
      cases hs
      exact h.popped (pacePopDue_some hpop).1 (pacePopDue_bucket hpop)
  | popAny =>
    simp only [paceOpStep] at hs
    cases hpop : pacePopAny s.tx with
    | none =>
      rw [hpop] at hs
      cases hs
      exact h
    | some r =>
      rw [hpop] at hs
      cases hs
      exact h.popped (pacePopAny_some hpop).1 (pacePopAny_bucket hpop)
  | flush =>
    cases hs
    have hsame := paceFlushLocked_bucket s.tx
    refine .flushed (hsame.ok h.bucket) (hsame.rateBps.trans h.rate) (hsame.maxDelayMs.trans h.delay) ?_
      (paceFlushLocked_all s.tx).2.1
    rw [hsame.lastFillMs]
    exact h.filled
  | tick now =>
    cases hs
    exact h.suffix [] (congrArg RingBuffer.toList (paceTick_q s.tx now).symm) rfl (paceTick_bucket s.tx now)

/-- Draining stops at a head that is not due. -/
theorem paceSendWhile_due (now : U64) (n : Nat) (c : PaceCtx) (hn : c.q.used ≤ n) :
    pacePopDue now (paceSendWhile (pacePopDue now) n c).1 = none := by
  induction n generalizing c with
  | zero => simp [paceSendWhile, pacePopDue, Nat.le_zero.mp hn]
  | succ n ih =>
    unfold paceSendWhile
    cases h : pacePopDue now c with
    | none => exact h
    | some r =>
      have hlen := congrArg List.length (pacePopDue_some h).1
      simp only [List.length_cons, RingBuffer.length_toList] at hlen
      exact ih r.2 (by omega)

theorem not_due_of_head {c : PaceCtx} {now : U64} (hnone : pacePopDue now c = none)
    (hsorted : c.q.toList.Pairwise fun e e' => e.dueMs ≤ e'.dueMs) : ∀ e ∈ c.q.toList, now < e.dueMs := by
  intro e he
  unfold pacePopDue at hnone
  split at hnone
  · next h =>
    rcases h with hempty | hlate
    · rw [RingBuffer.toList_eq_nil.mpr hempty] at he
      cases he
    · have hne : c.q.used ≠ 0 := fun h0 => by
        rw [RingBuffer.toList_eq_nil.mpr h0] at he
        cases he
      rw [RingBuffer.toList_eq_cons hne] at hsorted he
      rcases List.mem_cons.mp he with rfl | he
      · exact hlate
      · exact Nat.lt_of_lt_of_le hlate ((List.pairwise_cons.mp hsorted).1 e he)
  · cases hnone

end Run

/-- **Due times are ordered and bounded.** After every run of offers with a clock that does not go back, pops and
flushes, in which no word wraps: the due times ascend in the queue, each datagram is due no earlier than it was
admitted and at most `maxDelayMs` later, and draining at any time leaves nothing queued that is due by then. -/
theorem pacer_due_bounded (rateBps maxDelayMs : U32) (hrate : rateBps ≠ 0) (t0 : U64) (ops : List PaceOp)
    (hops : ∀ op ∈ ops, op.Unwrapped rateBps maxDelayMs) (s : PaceLog)
    (hrun : ops.foldlM paceOpStep (paceLogInit rateBps maxDelayMs t0) = some s) :
    (s.tx.q.toList.Pairwise fun e e' => e.dueMs ≤ e'.dueMs) ∧
      List.Forall₂ (DueWithin maxDelayMs) s.since s.tx.q.toList ∧
      ∀ t, pacePopDue t (paceSendWhile (pacePopDue t) s.tx.q.used s.tx).1 = none ∧
        ∀ e ∈ (paceSendWhile (pacePopDue t) s.tx.q.used s.tx).1.q.toList, t < e.dueMs := by
  have hrunOk : (∀ op ∈ ops, op.Unwrapped rateBps maxDelayMs) → DueOk rateBps maxDelayMs s := by
    refine Machine.foldlM_inv (P := fun xs s => (∀ op ∈ xs, op.Unwrapped rateBps maxDelayMs) → DueOk rateBps maxDelayMs s)
      (fun _ => paceLogInit_ok hrate maxDelayMs t0) (fun xs s x s' ih hs hall => ?_) hrun
    exact (ih fun op hop => hall op (List.mem_append_left _ hop)).step hrate
      (hall x (List.mem_append_right _ (List.mem_singleton_self x))) hs
  have h := hrunOk hops
  refine ⟨h.sorted, h.within, fun t => ?_⟩
  have hnone := paceSendWhile_due t s.tx.q.used s.tx (Nat.le_refl _)
  refine ⟨hnone, not_due_of_head hnone ?_⟩
  have hpop : ∀ c e c', pacePopDue t c = some (e, c') → c.q.toList = e :: c'.q.toList ∧ c'.rateBps = c.rateBps :=
    fun _ _ _ => pacePopDue_some
  have hsplit := (paceSendWhile_split hpop s.tx.q.used s.tx).1
  have hsorted := h.sorted
  rw [← hsplit] at hsorted
  exact (List.pairwise_append.mp hsorted).2.1

@[simp] theorem length_sampleOutgoing (sock : Socket) (n : Nat) (b : U8) : (sampleOutgoing sock n b).data.length = n :=
  List.length_replicate

/-- The second datagram waits 19 ms for the bucket, and the third queues behind it. -/
def pacedOps : List PaceOp :=
  [.offer (sampleOutgoing 5 1100 1) 0, .offer (sampleOutgoing 5 1100 2) 0, .popDue 2, .offer (sampleOutgoing 5 20 3) 3]

theorem pacedOps_isSome : (pacedOps.foldlM paceOpStep (paceLogInit 8000 20 0)).isSome = true := by
  decide +kernel

theorem pacer_due_bounded_two :
    let s := (pacedOps.foldlM paceOpStep (paceLogInit 8000 20 0)).get pacedOps_isSome
    s.tx.q.toList.map PaceEntry.dueMs = [19, 21] ∧ List.Forall₂ (DueWithin 20) s.since s.tx.q.toList := by
  have hops : ∀ op ∈ pacedOps, op.Unwrapped 8000 20 := by
    simp only [pacedOps, List.forall_mem_cons]
    exact ⟨PaceOp.unwrapped_of_length _ (by decide) (by simp), PaceOp.unwrapped_of_length _ (by decide) (by simp), trivial,
      PaceOp.unwrapped_of_length _ (by decide) (by simp), nofun⟩
  refine ⟨by decide +kernel, ?_⟩
  exact (pacer_due_bounded 8000 20 (by decide) 0 pacedOps hops _ (Option.some_get _).symm).2.1

/-- The same two at the end of the clock. -/
def wrappedOps : List PaceOp :=
  [.offer (sampleOutgoing 5 1100 1) (-10), .offer (sampleOutgoing 5 1100 2) (-10)]

theorem wrappedOps_isSome : (wrappedOps.foldlM paceOpStep (paceLogInit 8000 20 0)).isSome = true := by
  decide +kernel

/-- The due time wraps, to before the admission. -/
theorem pacer_due_clockWrap :
    let s := (wrappedOps.foldlM paceOpStep (paceLogInit 8000 20 0)).get wrappedOps_isSome
    s.since = [-10] ∧ s.tx.q.toList.map PaceEntry.dueMs = [9] ∧
      ¬ List.Forall₂ (fun a e => a ≤ e.dueMs) s.since s.tx.q.toList := by
  refine ⟨by decide +kernel, by decide +kernel, by decide +kernel⟩

end BzNet
