import BzNet.Dampen.Epoch
import BzNet.Dampen.Suppression
import BzNet.Lib.History

/-!
# How many copies of a sequence go out

From the first copy on, as long as a sequence stays retained, its entry holds the time of the last copy that went
out and a window that doubles with each of them up to `kDampenMaxMs`.

* `copyTimes` : when the copies of a sequence went out, from a call on;
* `BackoffOk`, `entry_succ` : the entry against these times, through one call;
* `dampen_backoff` : the gaps between them and, from the gaps, how many there can be.
-/

namespace BzNet

open Machine

def DampenOp.reading : DampenOp → Option U64
  | .admission _ _ now => some now
  | .observeAck _ _ now => some now
  | .setRtt _ _ => none
  | .purgePeer _ => none

/-- The call, with its answer, sent a copy of a sequence to an address: its time. -/
def copySent (addr seq : U32) : DampenOp × Option DampenDecision → Option Nat
  | (.admission a pay now, some .send) =>
    if a = addr ∧ Sequenced pay ∧ reorderSeqFromPayload pay = seq then some now.toNat else none
  | _ => none

theorem copySent_of_not {addr seq a : U32} {pay : Payload} (now : U64) (d : Option DampenDecision)
    (h : ¬ (a = addr ∧ Sequenced pay ∧ reorderSeqFromPayload pay = seq)) :
    copySent addr seq (.admission a pay now, d) = none := by
  cases d with
  | none => rfl
  | some d =>
    cases d with
    | send => exact if_neg h
    | suppress => rfl

theorem copySent_of_addr {addr seq : U32} {op : DampenOp} (d : Option DampenDecision) (h : op.addr ≠ addr) :
    copySent addr seq (op, d) = none := by
  cases op with
  | admission a pay now => exact copySent_of_not now d fun hown => h hown.1
  | observeAck a ack now => rfl
  | setRtt a rtt => rfl
  | purgePeer a => rfl

/-- When copies went out, by the calls from `f` up to `n`. -/
def copyTimes (enabled : Bool) (ops : List DampenOp) (addr seq : U32) (f n : Nat) : List Nat :=
  (((ops.zip (dampenAnswers enabled ops)).take n).drop f).filterMap (copySent addr seq)

/-- Call `f` sends a copy of the sequence that the record does not hold: it was not retained, or the call resets the
epoch. -/
def FirstCopyAt (enabled : Bool) (ops : List DampenOp) (addr seq : U32) (f : Nat) : Prop :=
  ∃ pay now, ops[f]? = some (.admission addr pay now) ∧ Sequenced pay ∧ reorderSeqFromPayload pay = seq ∧
    (seq ∉ retainedSeqs (dampenAt enabled ops f) addr ∨
      belowOldest (retainedSeqs (dampenAt enabled ops f) addr) seq = true)

/-- The sequence is retained ever after call `f`. An epoch reset forgets it, also where a copy of it is what resets
the epoch and is recorded anew. -/
structure StaysRetained (enabled : Bool) (ops : List DampenOp) (addr seq : U32) (f : Nat) : Prop where
  retained : ∀ n, f < n → n ≤ ops.length → seq ∈ retainedSeqs (dampenAt enabled ops n) addr
  no_reset : ∀ n pay now, f < n → ops[n]? = some (.admission addr pay now) → Sequenced pay →
    reorderSeqFromPayload pay = seq → belowOldest (retainedSeqs (dampenAt enabled ops n) addr) seq = false

/-- The window after `k` copies more than the first, which was sent with window `w`. -/
def backoffWindow (w k : Nat) : Nat := min (2 ^ k * w) kDampenMaxMs.toNat

theorem backoffWindow_zero {w : U32} (h : w ≤ kDampenMaxMs) : backoffWindow w.toNat 0 = w.toNat := by
  rw [backoffWindow, Nat.pow_zero, Nat.one_mul]
  exact Nat.min_eq_left (BitVec.le_def.mp h)

theorem backedOff_toNat {w w' : U32} {k : Nat} (h : w'.toNat = backoffWindow w.toNat k) :
    (backedOff w').toNat = backoffWindow w.toNat (k + 1) := by
  have hmax : kDampenMaxMs.toNat = 400 := rfl
  have hw : w'.toNat ≤ 400 := by
    rw [h]
    exact Nat.min_le_right _ _
  have hdouble : (w' * 2).toNat = w'.toNat * 2 := by
    rw [BitVec.toNat_mul]
    exact Nat.mod_eq_of_lt (by change w'.toNat * 2 < 2 ^ 32; omega)
  have hpow : 2 ^ (k + 1) * w.toNat = 2 * (2 ^ k * w.toNat) := by rw [Nat.pow_succ]; ring
  unfold backoffWindow at h ⊢
  rw [hpow]
  unfold backedOff
  split
  · next hgt =>
    have := BitVec.lt_def.mp hgt
    omega
  · next hle =>
    have := BitVec.le_def.mp (BitVec.not_lt.mp hle)
    omega

theorem sum_backoffWindow {w n : Nat} (hw : 60 ≤ w) (hn : 3 ≤ n) :
    420 + 400 * (n - 3) ≤ ∑ j ∈ Finset.range n, backoffWindow w j := by
  have hmax : kDampenMaxMs.toNat = 400 := rfl
  induction n, hn using Nat.le_induction with
  | base =>
    simp only [Finset.sum_range_succ, Finset.sum_range_zero, backoffWindow, hmax]
    omega
  | succ n hn ih =>
    have hcap : backoffWindow w n = 400 := by
      have hpow : 2 ^ 3 ≤ 2 ^ n := Nat.pow_le_pow_right (by decide) hn
      have hmul : 2 ^ 3 * 60 ≤ 2 ^ n * w := Nat.mul_le_mul hpow hw
      rw [backoffWindow, hmax]
      omega
    rw [Finset.sum_range_succ, hcap]
    omega

/-- The entry of a sequence against the times at which its copies went out. -/
structure BackoffOk (w : U32) (ts : List Nat) (e : DampenEntry) : Prop where
  spaced : Spaced (backoffWindow w.toNat) ts
  last : ts.getLast? = some e.lastSentMs.toNat
  window : e.windowMs.toNat = backoffWindow w.toNat (ts.length - 1)

section
variable {enabled : Bool} {ops : List DampenOp} {addr seq : U32} {f n : Nat}

theorem dampenAt_tableOk (enabled : Bool) (ops : List DampenOp) (n : Nat) : TableOk (dampenAt enabled ops n) :=
  final_tableOk enabled (ops.take n)

theorem entry_unique (hne : addr ≠ 0) {e e' : DampenEntry} (he : e ∈ retainedOf (dampenAt enabled ops n) addr)
    (he' : e' ∈ retainedOf (dampenAt enabled ops n) addr) (hseq : e.seq = e'.seq) : e = e' := by
  obtain ⟨p, hp, hmem⟩ := mem_retainedOf.mp he
  obtain ⟨p', hp', hmem'⟩ := mem_retainedOf.mp he'
  obtain rfl : p = p' := Option.some.inj (hp.symm.trans hp')
  exact List.inj_on_of_nodup_map ((dampenAt_tableOk enabled ops n).records addr hne p hp).2.nodup hmem hmem' hseq

theorem retained_enabled (hne : addr ≠ 0) {e : DampenEntry} (he : e ∈ retainedOf (dampenAt enabled ops n) addr) :
    enabled = true := by
  obtain ⟨p, hp, -⟩ := mem_retainedOf.mp he
  rw [← dampenAt_enabled enabled ops n]
  exact ((dampenAt_tableOk enabled ops n).records addr hne p hp).1

/-- A copy of a retained sequence that goes out does so past the window of its entry, which backs off. -/
theorem entry_resent (hne : addr ≠ 0) {pay : Payload} {now : U64} (hop : ops[n]? = some (.admission addr pay now))
    (hs : Sequenced pay) {e e' : DampenEntry} (he : e ∈ retainedOf (dampenAt true ops n) addr)
    (hseq : reorderSeqFromPayload pay = e.seq) (hlow : belowOldest (retainedSeqs (dampenAt true ops n) addr) e.seq = false)
    (hsent : (dampenAdmit (dampenAt true ops n) addr pay now).2 = .send)
    (he' : e' ∈ retainedOf (dampenAt true ops (n + 1)) addr) (hseq' : e'.seq = e.seq) :
    e' = ⟨e.seq, now, backedOff e.windowMs⟩ ∧ e.windowMs.toNat ≤ Serial.elapsed now e.lastSentMs := by
  have hok := dampenAt_tableOk true ops n
  obtain ⟨p, hp, hmem⟩ := mem_retainedOf.mp he
  obtain ⟨p', hp', hmem'⟩ := mem_retainedOf.mp he'
  rw [retainedSeqs_some hp] at hlow
  obtain ⟨hd, hretry⟩ := @dampenAdmitPeer_retry (LruTable.renew (some p) addr now) (hok.records addr hne p hp).2 e hmem
    hlow now
  obtain ⟨hpeer, hdec⟩ := dampenAdmit_record hok (dampenAt_enabled true ops n) hne hs now
  rw [hp, hseq] at hpeer hdec
  rw [← hdec, hsent] at hd
  have hpast : ¬ Serial.elapsed now e.lastSentMs < e.windowMs.toNat := by
    intro hin
    rw [if_pos hin] at hd
    cases hd
  rw [dampenAt_succ hop] at hp'
  obtain rfl := Option.some.inj (hpeer.symm.trans hp')
  have hnew := hretry e' hmem' hseq'
  rw [if_neg hpast] at hnew
  exact ⟨hnew, Nat.not_lt.mp hpast⟩

/-- **The entry of a sequence through one call**: it stays and no copy goes out, or a copy goes out past the window,
which doubles. -/
theorem entry_succ (hne : addr ≠ 0) (hkept : StaysRetained enabled ops addr seq f) (hf : f < n) {op : DampenOp}
    (hop : ops[n]? = some op) {e e' : DampenEntry} (he : e ∈ retainedOf (dampenAt enabled ops n) addr)
    (hseq : e.seq = seq) (he' : e' ∈ retainedOf (dampenAt enabled ops (n + 1)) addr) (hseq' : e'.seq = seq) :
    (e' = e ∧ copySent addr seq (op, (dampenStep (dampenAt enabled ops n) op).2) = none) ∨
    (op.reading = some e'.lastSentMs ∧
      copySent addr seq (op, (dampenStep (dampenAt enabled ops n) op).2) = some e'.lastSentMs.toNat ∧
      e'.windowMs = backedOff e.windowMs ∧ e.windowMs.toNat ≤ Serial.elapsed e'.lastSentMs e.lastSentMs) := by
  obtain rfl := retained_enabled hne he
  have hok := dampenAt_tableOk true ops n
  by_cases haddr : op.addr = addr
  · obtain ⟨hrec, hans⟩ := @recordAt_self true ops addr hne n op hop haddr
    rw [dampenAnswers_get hop, Option.some.injEq] at hans
    obtain ⟨p', hp', hmem'⟩ := mem_retainedOf.mp he'
    have hp'' : (dampenRecordStep true (recordAt true ops n addr) op).1 = some p' := hrec ▸ hp'
    rcases dampenRecordStep_entry (fun p hp => (hok.records addr hne p hp).2) hp'' hmem' with
      ⟨q, hq, hmem, -, hns⟩ | ⟨pay, hpay, hs, hpayseq, hsend⟩
    · left
      refine ⟨entry_unique hne (mem_retainedOf.mpr ⟨q, hq, hmem⟩) he (hseq'.trans hseq.symm), ?_⟩
      rw [hans]
      cases op with
      | admission a pay now =>
        by_cases hown : Sequenced pay ∧ reorderSeqFromPayload pay = seq
        · rw [hns a pay now rfl hown.1 (hown.2.trans hseq'.symm)]
          rfl
        · exact copySent_of_not now _ fun h => hown h.2
      | observeAck a ack now => rfl
      | setRtt a rtt => rfl
      | purgePeer a => rfl
    · right
      rw [haddr] at hpay
      subst hpay
      have hlow := hkept.no_reset n pay e'.lastSentMs hf hop hs (hpayseq.trans hseq')
      have hsent : (dampenAdmit (dampenAt true ops n) addr pay e'.lastSentMs).2 = .send := by
        rw [hsend] at hans
        exact Option.some.inj hans
      obtain ⟨hnew, hpast⟩ := entry_resent hne hop hs he (hpayseq.trans (hseq'.trans hseq.symm)) (hseq ▸ hlow) hsent he'
        (hseq'.trans hseq.symm)
      refine ⟨rfl, ?_, congrArg DampenEntry.windowMs hnew, hpast⟩
      change copySent addr seq (_, some (dampenAdmit (dampenAt true ops n) addr pay e'.lastSentMs).2) = _
      rw [hsent]
      exact if_pos ⟨rfl, hs, hpayseq.trans hseq'⟩
  · left
    refine ⟨?_, copySent_of_addr _ haddr⟩
    obtain ⟨p', hp', hmem'⟩ := mem_retainedOf.mp he'
    have hsame : recordAt true ops (n + 1) addr = recordAt true ops n addr :=
      (recordAt_of_ne hne hop haddr).resolve_right (by simp [hp'])
    exact entry_unique hne (mem_retainedOf.mpr ⟨p', hsame.symm.trans hp', hmem'⟩) he (hseq'.trans hseq.symm)

theorem copyTimes_self (enabled : Bool) (ops : List DampenOp) (addr seq : U32) (f : Nat) :
    copyTimes enabled ops addr seq f f = [] := by
  rw [copyTimes, List.drop_eq_nil_of_le (List.length_take_le f _), List.filterMap_nil]

theorem copyTimes_succ (hf : f ≤ n) {op : DampenOp} (hop : ops[n]? = some op) :
    copyTimes enabled ops addr seq f (n + 1) =
      copyTimes enabled ops addr seq f n ++ (copySent addr seq (op, (dampenStep (dampenAt enabled ops n) op).2)).toList := by
  have hzip : (ops.zip (dampenAnswers enabled ops))[n]? = some (op, (dampenStep (dampenAt enabled ops n) op).2) :=
    List.getElem?_zip_eq_some.mpr ⟨hop, dampenAnswers_get hop⟩
  have hlen : f ≤ ((ops.zip (dampenAnswers enabled ops)).take n).length := by
    have := (List.getElem?_eq_some_iff.mp hzip).1
    rw [List.length_take]
    omega
  rw [copyTimes, copyTimes, List.take_add_one, hzip, List.drop_append_of_le_length hlen, List.filterMap_append]
  cases h : copySent addr seq (op, (dampenStep (dampenAt enabled ops n) op).2) with
  | none => rw [Option.toList_some, List.filterMap_cons_none h, List.filterMap_nil, Option.toList_none]
  | some t => rw [Option.toList_some, List.filterMap_cons_some h, List.filterMap_nil, Option.toList_some]

theorem mem_retainedSeqs {c : DampenCtx} (h : seq ∈ retainedSeqs c addr) : ∃ e ∈ retainedOf c addr, e.seq = seq :=
  List.mem_map.mp h

/-- **The entry of a first copy**, with the window it is sent with. -/
theorem entry_first (hne : addr ≠ 0) (hfirst : FirstCopyAt enabled ops addr seq f) {e : DampenEntry}
    (he : e ∈ retainedOf (dampenAt enabled ops (f + 1)) addr) (hseq : e.seq = seq) :
    copyTimes enabled ops addr seq f (f + 1) = [e.lastSentMs.toNat] ∧
      (ops[f]?.bind DampenOp.reading) = some e.lastSentMs ∧ kDampenFloorMs ≤ e.windowMs ∧ e.windowMs ≤ kDampenMaxMs := by
  obtain rfl := retained_enabled hne he
  obtain ⟨pay, now, hop, hs, hpayseq, hnew⟩ := hfirst
  have hok := dampenAt_tableOk true ops f
  obtain ⟨hpeer, hdec⟩ := dampenAdmit_record hok (dampenAt_enabled true ops f) hne hs now
  obtain ⟨p', hp', hmem'⟩ := mem_retainedOf.mp he
  rw [dampenAt_succ hop] at hp'
  obtain rfl := Option.some.inj (hpeer.symm.trans hp')
  rw [hpayseq] at hdec hmem'
  have hseqs : (LruTable.renew (dampenRecord (dampenAt true ops f) addr) addr now).seqs =
      retainedSeqs (dampenAt true ops f) addr := by
    cases hr : dampenRecord (dampenAt true ops f) addr with
    | none => rw [retainedSeqs_none hr, renew_none_seqs]
    | some p => rw [retainedSeqs_some hr, renew_seqs]
  rw [← hseqs] at hnew
  have hrenewed : RetainedOk (LruTable.renew (dampenRecord (dampenAt true ops f) addr) addr now).retained :=
    renew_retained_ok (fun p hp => (hok.records addr hne p hp).2) addr now
  have hentry : ∃ w, (kDampenFloorMs ≤ w ∧ w ≤ kDampenMaxMs) ∧
      (dampenAdmitPeer (LruTable.renew (dampenRecord (dampenAt true ops f) addr) addr now) seq now).decision = .send ∧
      (⟨seq, now, w⟩ : DampenEntry) ∈
        (dampenAdmitPeer (LruTable.renew (dampenRecord (dampenAt true ops f) addr) addr now) seq now).peer.retained := by
    cases hre : dampenIsRestart (LruTable.renew (dampenRecord (dampenAt true ops f) addr) addr now) seq with
    | true =>
      obtain ⟨w, hw, hd, hr⟩ := dampenAdmitPeer_restart now hre
      exact ⟨w, hw, hd, hr ▸ List.mem_singleton_self _⟩
    | false =>
      rw [isRestart_eq] at hre
      have hnot := hnew.resolve_right (by rw [hre]; exact Bool.false_ne_true)
      rw [← isRestart_eq] at hre
      obtain ⟨w, hw, hd, hr⟩ := dampenAdmitPeer_new now hre (not_not.mp (mem_seqs.not.mp hnot))
      exact ⟨w, hw, hd, hr ▸ List.mem_append_right _ (List.mem_singleton_self _)⟩
  obtain ⟨w, hw, hd, hmem⟩ := hentry
  have hsame : e = ⟨seq, now, w⟩ :=
    List.inj_on_of_nodup_map (dampenAdmitPeer_ok hrenewed seq now).nodup hmem' hmem hseq
  subst hsame
  refine ⟨?_, by rw [hop]; rfl, hw⟩
  have hsent : copySent addr seq (.admission addr pay now, some (dampenAdmit (dampenAt true ops f) addr pay now).2) =
      some now.toNat := by
    rw [hdec, hd]
    exact if_pos ⟨rfl, hs, hpayseq⟩
  rw [copyTimes_succ (Nat.le_refl f) hop, copyTimes_self, List.nil_append]
  change (copySent addr seq (.admission addr pay now, some (dampenAdmit (dampenAt true ops f) addr pay now).2)).toList = _
  rw [hsent]
  rfl

theorem reading_le (hclock : (ops.filterMap DampenOp.reading).Pairwise (· ≤ ·)) {m n : Nat} (hmn : m < n)
    {t t' : U64} (ht : (ops[m]?.bind DampenOp.reading) = some t) (ht' : (ops[n]?.bind DampenOp.reading) = some t') :
    t ≤ t' := by
  obtain ⟨op, hop, ht⟩ := Option.bind_eq_some_iff.mp ht
  obtain ⟨op', hop', ht'⟩ := Option.bind_eq_some_iff.mp ht'
  obtain ⟨hm, rfl⟩ := List.getElem?_eq_some_iff.mp hop
  obtain ⟨hn, rfl⟩ := List.getElem?_eq_some_iff.mp hop'
  exact List.pairwise_iff_getElem.mp (List.pairwise_filterMap.mp hclock) m n hm hn hmn t ht t' ht'

/-- **The entry all along the run**: the time of the last copy, and the first window doubled with each copy. -/
theorem backoffOk_run (hne : addr ≠ 0) (hclock : (ops.filterMap DampenOp.reading).Pairwise (· ≤ ·))
    (hfirst : FirstCopyAt enabled ops addr seq f) (hkept : StaysRetained enabled ops addr seq f) {e₀ : DampenEntry}
    (he₀ : e₀ ∈ retainedOf (dampenAt enabled ops (f + 1)) addr) (hseq₀ : e₀.seq = seq) (hn : f < n)
    (hlen : n ≤ ops.length) :
    ∃ e ∈ retainedOf (dampenAt enabled ops n) addr, e.seq = seq ∧
      BackoffOk e₀.windowMs (copyTimes enabled ops addr seq f n) e ∧
      (copyTimes enabled ops addr seq f n).head? = some e₀.lastSentMs.toNat ∧
      ∃ m, m < n ∧ (ops[m]?.bind DampenOp.reading) = some e.lastSentMs := by
  induction n, hn using Nat.le_induction with
  | base =>
    obtain ⟨htimes, hread, -, hmax⟩ := entry_first hne hfirst he₀ hseq₀
    refine ⟨e₀, he₀, hseq₀, ?_, by rw [htimes]; rfl, f, Nat.lt_succ_self f, hread⟩
    rw [htimes]
    exact ⟨spaced_singleton _, rfl, (backoffWindow_zero hmax).symm⟩
  | succ n hn ih =>
    obtain ⟨e, he, hseq, hok, hhead, m, hm, hread⟩ := ih (by omega)
    have hop := List.getElem?_eq_getElem (show n < ops.length by omega)
    obtain ⟨e', he', hseq'⟩ := mem_retainedSeqs (hkept.retained (n + 1) (by omega) hlen)
    rw [copyTimes_succ (Nat.le_of_lt hn) hop]
    refine ⟨e', he', hseq', ?_⟩
    rcases entry_succ hne hkept hn hop he hseq he' hseq' with ⟨rfl, hnone⟩ | ⟨hread', hsent, hwin, hpast⟩
    · rw [hnone, Option.toList_none, List.append_nil]
      exact ⟨hok, hhead, m, by omega, hread⟩
    · rw [hsent, Option.toList_some]
      have hread'' : (ops[n]?.bind DampenOp.reading) = some e'.lastSentMs := by rw [hop]; exact hread'
      have hle := reading_le hclock hm hread hread''
      have hne' : copyTimes enabled ops addr seq f n ≠ [] := by
        intro hnil
        rw [hnil] at hhead
        cases hhead
      have hpos := List.length_pos_iff.mpr hne'
      rw [Serial.elapsed_of_le hle, hok.window] at hpast
      have hle' := BitVec.le_def.mp hle
      refine ⟨⟨hok.spaced.concat hok.last (by omega), List.getLast?_concat, ?_⟩, ?_, n, Nat.lt_succ_self n, hread''⟩
      · rw [hwin, backedOff_toNat hok.window, List.length_append, List.length_singleton]
        congr 1
        omega
      · rw [List.head?_append_of_ne_nil _ hne']
        exact hhead

end

/-- **Backoff.** On a clock that never goes back, let call `f` send the first copy of a sequence, with window `w₀`,
and let the sequence stay retained. Then `w₀` is within the floor and the ceiling, the copy after number `k` goes out
at least the `k` times doubled window later, and of all the copies offered at most `4 + (D - 420) / 400` go out
within `D` of the first. -/
theorem dampen_backoff (enabled : Bool) (ops : List DampenOp) (addr seq : U32) (hne : addr ≠ 0) (f : Nat)
    (hclock : (ops.filterMap DampenOp.reading).Pairwise (· ≤ ·)) (hfirst : FirstCopyAt enabled ops addr seq f)
    (hkept : StaysRetained enabled ops addr seq f) :
    ∃ e ∈ retainedOf (dampenAt enabled ops (f + 1)) addr, e.seq = seq ∧
      (60 ≤ e.windowMs.toNat ∧ e.windowMs.toNat ≤ 400) ∧
      (copyTimes enabled ops addr seq f ops.length).head? = some e.lastSentMs.toNat ∧
      Spaced (fun k => min (2 ^ k * e.windowMs.toNat) 400) (copyTimes enabled ops addr seq f ops.length) ∧
      ∀ D, 420 ≤ D → ((copyTimes enabled ops addr seq f ops.length).filter
        fun t => decide (t ≤ e.lastSentMs.toNat + D)).length ≤ 4 + (D - 420) / 400 := by
  have hlen : f < ops.length := by
    obtain ⟨pay, now, hop, -⟩ := hfirst
    exact (List.getElem?_eq_some_iff.mp hop).1
  obtain ⟨e₀, he₀, hseq₀⟩ := mem_retainedSeqs (hkept.retained (f + 1) (Nat.lt_succ_self f) hlen)
  obtain ⟨-, -, hmin, hmax⟩ := entry_first hne hfirst he₀ hseq₀
  obtain ⟨e, -, -, hok, hhead, -⟩ := backoffOk_run hne hclock hfirst hkept he₀ hseq₀ hlen (Nat.le_refl _)
  have hmin' : 60 ≤ e₀.windowMs.toNat := BitVec.le_def.mp hmin
  refine ⟨e₀, he₀, hseq₀, ⟨hmin', BitVec.le_def.mp hmax⟩, hhead, hok.spaced, fun D hD => ?_⟩
  by_contra hmany
  have hzero : (copyTimes enabled ops addr seq f ops.length)[0]? = some e₀.lastSentMs.toNat := by
    rw [← List.head?_eq_getElem?]
    exact hhead
  have hfit := hok.spaced.count hzero (Nat.lt_of_not_le hmany)
  have hsum := sum_backoffWindow hmin' (show 3 ≤ 4 + (D - 420) / 400 by omega)
  omega

def sampleRetries : List DampenOp :=
  [.admission 1 (makePkt true 7 0) 1000, .setRtt 2 300, .admission 1 (makePkt true 7 0) 1010,
    .admission 2 (makePkt true 7 0) 1040, .admission 1 (makePkt true 7 0) 1060]

theorem dampen_backoff_retries :
    copyTimes true sampleRetries 1 7 0 sampleRetries.length = [1000, 1060] ∧
    ∃ e ∈ retainedOf (dampenAt true sampleRetries 1) 1, e.seq = 7 ∧
      (60 ≤ e.windowMs.toNat ∧ e.windowMs.toNat ≤ 400) ∧
      (copyTimes true sampleRetries 1 7 0 sampleRetries.length).head? = some e.lastSentMs.toNat ∧
      Spaced (fun k => min (2 ^ k * e.windowMs.toNat) 400) (copyTimes true sampleRetries 1 7 0 sampleRetries.length) ∧
      ∀ D, 420 ≤ D → ((copyTimes true sampleRetries 1 7 0 sampleRetries.length).filter
        fun t => decide (t ≤ e.lastSentMs.toNat + D)).length ≤ 4 + (D - 420) / 400 := by
  have hseqs : ∀ n, n < 6 → 0 < n → retainedSeqs (dampenAt true sampleRetries n) 1 = [7] := by decide +kernel
  refine ⟨by decide +kernel, dampen_backoff true sampleRetries 1 7 (by decide) 0 (by decide)
    ⟨_, _, rfl, by decide, by decide, Or.inl ?_⟩ ⟨fun n hn hlen => ?_, fun n pay now hn hop _ _ => ?_⟩⟩
  · decide +kernel
  · rw [hseqs n (Nat.lt_succ_of_le hlen) hn]
    exact List.mem_singleton_self 7
  · have hlen : n < sampleRetries.length := (List.getElem?_eq_some_iff.mp hop).1
    rw [hseqs n (Nat.lt_succ_of_lt hlen) hn]
    decide

end BzNet
