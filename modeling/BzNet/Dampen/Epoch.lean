import BzNet.Dampen.Record
import Mathlib.Tactic.IntervalCases

/-!
# Which retries reset the epoch

The oldest retained sequence is the one recorded first, not the serially least one.

* `admitSeqs` : what an admit does to the list of retained sequences (`dampenAdmitPeer_seqs`);
* `retry_kept_iff` : a retry of a retained sequence is judged against its own window exactly when the sequence is
  not below the oldest one;
* `headLeast_admitSeqs` : the oldest sequence stays the least one except where an overflow drops it.
-/

namespace BzNet

open Machine

def DampenPeer.seqs (p : DampenPeer) : List U32 := p.retained.map DampenEntry.seq

def belowOldest (l : List U32) (seq : U32) : Bool := (l.head?.map fun o => decide (seqCmp seq o < 0)).getD false

/-- The retained sequences after an admit. -/
def admitSeqs (l : List U32) (seq : U32) : List U32 :=
  if belowOldest l seq then [seq]
  else if seq ∈ l then l
  else (if l.length < kDampenSlots then l else l.tail) ++ [seq]

/-- Nothing retained is below the oldest. -/
def HeadLeast (l : List U32) : Prop := ∀ s ∈ l, belowOldest l s = false

/-! ## The retained sequences through an admit -/

section Seqs
variable {p : DampenPeer}

@[simp] theorem length_seqs (p : DampenPeer) : p.seqs.length = p.ring.used := by simp [DampenPeer.seqs]

theorem isRestart_eq (p : DampenPeer) (seq : U32) : dampenIsRestart p seq = belowOldest p.seqs seq := by
  unfold dampenIsRestart belowOldest DampenPeer.seqs DampenPeer.retained
  by_cases h : p.ring.used = 0
  · rw [RingBuffer.toList_eq_nil.mpr h]
    simp [h]
  · rw [RingBuffer.toList_eq_cons h]
    simp [Nat.pos_of_ne_zero h]

theorem mem_seqs {seq : U32} : seq ∈ p.seqs ↔ p.ring.find? (fun e => e.seq == seq) ≠ none := by
  constructor
  · intro h hnone
    obtain ⟨e, he, rfl⟩ := List.mem_map.mp h
    simpa using RingBuffer.find?_none hnone he
  · intro h
    obtain ⟨i, hi⟩ := Option.ne_none_iff_exists'.mp h
    obtain ⟨hlt, hseq⟩ := RingBuffer.find?_some hi
    refine List.mem_map.mpr ⟨p.ring.get i, RingBuffer.mem_toList.mpr ⟨i, hlt, rfl⟩, ?_⟩
    simpa using hseq

theorem dampenAdmitPeer_seqs (p : DampenPeer) (seq : U32) (now : U64) :
    (dampenAdmitPeer p seq now).peer.seqs = admitSeqs p.seqs seq := by
  unfold admitSeqs
  rw [← isRestart_eq]
  cases h : dampenIsRestart p seq with
  | true =>
    obtain ⟨w, -, -, hr⟩ := dampenAdmitPeer_restart now h
    simp [DampenPeer.seqs, hr]
  | false =>
    by_cases hmem : seq ∈ p.seqs
    · rw [if_neg Bool.false_ne_true, if_pos hmem]
      obtain ⟨i, hi⟩ := Option.ne_none_iff_exists'.mp (mem_seqs.mp hmem)
      rcases dampenAdmitPeer_copy now h hi with ⟨-, -, hr⟩ | ⟨w, -, -, hr⟩
      · rw [DampenPeer.seqs, hr]
        rfl
      · obtain ⟨hlt, hseq⟩ := RingBuffer.find?_some hi
        have hlt : i < p.seqs.length := by simpa using hlt
        have hget : seq = p.seqs[i] := by
          simp only [DampenPeer.seqs, List.getElem_map, DampenPeer.retained, RingBuffer.getElem_toList]
          exact (beq_iff_eq.mp hseq).symm
        rw [DampenPeer.seqs, hr, List.map_set]
        conv_lhs => rw [hget]
        exact List.set_getElem_self _
    · rw [if_neg Bool.false_ne_true, if_neg hmem]
      have hnone : p.ring.find? (fun e => e.seq == seq) = none := by
        by_contra hne
        exact hmem (mem_seqs.mpr hne)
      obtain ⟨w, -, -, hr⟩ := dampenAdmitPeer_new now h hnone
      rw [DampenPeer.seqs, hr, length_seqs, List.map_append]
      split
      · rfl
      · rw [List.map_tail]
        rfl

def backedOff (w : U32) : U32 := if w * 2 > kDampenMaxMs then kDampenMaxMs else w * 2

/-- **A retry that does not reset the epoch** is judged against the window of its entry, which backs off when the
retry goes out. -/
theorem dampenAdmitPeer_retry (hp : RetainedOk p.retained) {e : DampenEntry} (he : e ∈ p.retained)
    (hlow : belowOldest p.seqs e.seq = false) (now : U64) :
    (dampenAdmitPeer p e.seq now).decision =
        (if Serial.elapsed now e.lastSentMs < e.windowMs.toNat then .suppress else .send) ∧
      ∀ e' ∈ (dampenAdmitPeer p e.seq now).peer.retained, e'.seq = e.seq →
        e' = if Serial.elapsed now e.lastSentMs < e.windowMs.toNat then e else ⟨e.seq, now, backedOff e.windowMs⟩ := by
  rw [← isRestart_eq] at hlow
  have hmem : e.seq ∈ p.seqs := List.mem_map_of_mem he
  obtain ⟨i, hi⟩ := Option.ne_none_iff_exists'.mp (mem_seqs.mp hmem)
  obtain ⟨hlt, hseq⟩ := RingBuffer.find?_some hi
  have hget : p.ring.get i = e := List.inj_on_of_nodup_map hp.nodup (RingBuffer.mem_toList.mpr ⟨i, hlt, rfl⟩) he
    (beq_iff_eq.mp hseq)
  have hwin : Serial.elapsed now e.lastSentMs < e.windowMs.toNat ↔ now - e.lastSentMs < e.windowMs.setWidth 64 := by
    rw [BitVec.lt_def, BitVec.toNat_setWidth_of_le (by decide)]
    rfl
  by_cases hw : now - e.lastSentMs < e.windowMs.setWidth 64
  · rw [if_pos (hwin.mpr hw), if_pos (hwin.mpr hw)]
    have hd : (dampenAdmitPeer p e.seq now).decision = .suppress := by simp [dampenAdmitPeer, hlow, hi, hget, hw]
    have hr : (dampenAdmitPeer p e.seq now).peer.retained = p.retained := by
      simp [dampenAdmitPeer, hlow, hi, hget, hw]
    refine ⟨hd, fun e' he' hs => ?_⟩
    rw [hr] at he'
    exact List.inj_on_of_nodup_map hp.nodup he' he hs
  · rw [if_neg (hwin.not.mpr hw), if_neg (hwin.not.mpr hw)]
    have hd : (dampenAdmitPeer p e.seq now).decision = .send := by simp [dampenAdmitPeer, hlow, hi, hget, hw]
    have hr : (dampenAdmitPeer p e.seq now).peer.retained =
        p.retained.set i ⟨e.seq, now, backedOff e.windowMs⟩ := by
      simp only [dampenAdmitPeer, hlow, hi, Bool.false_eq_true, if_false, DampenPeer.raiseHigh_ring, hget, hw]
      exact RingBuffer.toList_set _ _ hlt
    have hnew : (⟨e.seq, now, backedOff e.windowMs⟩ : DampenEntry) ∈ (dampenAdmitPeer p e.seq now).peer.retained := by
      rw [hr]
      exact List.mem_set (by simpa using hlt) _
    exact ⟨hd, fun e' he' hs => List.inj_on_of_nodup_map (dampenAdmitPeer_ok hp e.seq now).nodup he' hnew hs⟩

end Seqs

/-! ## When the oldest retained sequence is the least -/

theorem headLeast_nil : HeadLeast [] := fun _ h => absurd h List.not_mem_nil

theorem belowOldest_append {l : List U32} (h : l ≠ []) (k : List U32) (s : U32) :
    belowOldest (l ++ k) s = belowOldest l s := by
  cases l with
  | nil => exact absurd rfl h
  | cons o l => rfl

theorem headLeast_singleton (s : U32) : HeadLeast [s] := by
  intro s' hs'
  rw [List.mem_singleton.mp hs']
  simp [belowOldest, seqCmp]

theorem HeadLeast.append {l : List U32} (h : HeadLeast l) {s : U32} (hs : belowOldest l s = false) :
    HeadLeast (l ++ [s]) := by
  by_cases hl : l = []
  · rw [hl]
    exact headLeast_singleton s
  · intro s' hs'
    rw [belowOldest_append hl]
    rcases List.mem_append.mp hs' with h' | h'
    · exact h s' h'
    · rw [List.mem_singleton.mp h']
      exact hs

/-- **The oldest sequence stays the least one**, except where an admit overflows the ring and the next to be the
oldest is not the least of those that stay. -/
theorem headLeast_admitSeqs {l : List U32} (h : HeadLeast l) (s : U32) :
    HeadLeast (admitSeqs l s) ↔
      (kDampenSlots ≤ l.length → s ∉ l → belowOldest l s = false → HeadLeast (l.tail ++ [s])) := by
  unfold admitSeqs
  cases hlow : belowOldest l s with
  | true => simp [headLeast_singleton]
  | false =>
    rw [if_neg Bool.false_ne_true]
    by_cases hmem : s ∈ l
    · simp [hmem, h]
    · rw [if_neg hmem]
      by_cases hroom : l.length < kDampenSlots
      · rw [if_pos hroom]
        exact ⟨fun _ hfull => absurd hroom (Nat.not_lt.mpr hfull), fun _ => h.append hlow⟩
      · rw [if_neg hroom]
        exact ⟨fun h' _ _ _ => h', fun h' => h' (Nat.not_lt.mp hroom) hmem rfl⟩

/-! ## The table -/

/-- What is retained of the sends to an address, oldest first. -/
def retainedOf (c : DampenCtx) (addr : U32) : List DampenEntry :=
  ((dampenRecord c addr).map DampenPeer.retained).getD []

def retainedSeqs (c : DampenCtx) (addr : U32) : List U32 := (retainedOf c addr).map DampenEntry.seq

/-- Another copy of a retained sequence leaves the retained ones as they are, resets nothing and is judged against
its own entry. -/
structure RetryKept (c : DampenCtx) (addr : U32) (e : DampenEntry) (pay : Payload) (now : U64) : Prop where
  seqs : retainedSeqs (dampenAdmit c addr pay now).1 addr = retainedSeqs c addr
  no_reset : (dampenAdmit c addr pay now).1.st.epochResets = c.st.epochResets
  judged : (dampenAdmit c addr pay now).2 =
    if Serial.elapsed now e.lastSentMs < e.windowMs.toNat then .suppress else .send

/-- Every retry of a retained sequence is kept, at any time. -/
def RetriesKept (c : DampenCtx) : Prop :=
  ∀ addr, addr ≠ 0 → ∀ e ∈ retainedOf c addr, ∀ pay now, Sequenced pay → reorderSeqFromPayload pay = e.seq →
    RetryKept c addr e pay now

/-- A first copy that overflows the ring leaves the least of what stays as the oldest. -/
def OverflowInOrder (c : DampenCtx) : DampenOp → Prop
  | .admission addr pay _ =>
    addr ≠ 0 → Sequenced pay → kDampenSlots ≤ (retainedSeqs c addr).length →
      reorderSeqFromPayload pay ∉ retainedSeqs c addr →
      belowOldest (retainedSeqs c addr) (reorderSeqFromPayload pay) = false →
      HeadLeast ((retainedSeqs c addr).tail ++ [reorderSeqFromPayload pay])
  | _ => True

/-- What every reachable state has: one record an address, its sequences retained once, and records only while the
suppressor is enabled. -/
structure TableOk (c : DampenCtx) : Prop where
  distinct : c.Distinct
  records : ∀ addr, addr ≠ 0 → ∀ p, dampenRecord c addr = some p → c.enabled = true ∧ RetainedOk p.retained

section Table
variable {c : DampenCtx} {op : DampenOp} {addr : U32}

theorem retainedSeqs_some {p : DampenPeer} (h : dampenRecord c addr = some p) : retainedSeqs c addr = p.seqs := by
  rw [retainedSeqs, retainedOf, h]
  rfl

theorem retainedSeqs_none (h : dampenRecord c addr = none) : retainedSeqs c addr = [] := by
  rw [retainedSeqs, retainedOf, h]
  rfl

theorem mem_retainedOf {e : DampenEntry} : e ∈ retainedOf c addr ↔ ∃ p, dampenRecord c addr = some p ∧ e ∈ p.retained := by
  unfold retainedOf
  cases dampenRecord c addr with
  | none => simp
  | some p => simp

theorem tableOk_init (enabled : Bool) : TableOk (dampenInit enabled) := by
  refine ⟨dampenInit_distinct enabled, fun addr hne p hp => ?_⟩
  rw [dampenRecord_init enabled hne] at hp
  cases hp

theorem dampenStep_tableOk (h : TableOk c) : TableOk (dampenStep c op).1 := by
  refine ⟨dampenStep_distinct h.distinct, fun addr hne p hp => ?_⟩
  rw [dampenStep_enabled]
  by_cases hop : op.addr = addr
  · subst hop
    rw [(dampenStep_record h.distinct hne).1] at hp
    refine ⟨?_, dampenRecordStep_ok c.enabled (fun q hq => (h.records _ hne q hq).2) p hp⟩
    by_contra hoff
    have hnone : dampenRecord c op.addr = none := by
      cases hr : dampenRecord c op.addr with
      | none => rfl
      | some q => exact absurd (h.records _ hne q hr).1 hoff
    rw [hnone, Bool.not_eq_true _ |>.mp hoff] at hp
    cases op <;> cases hp
  · rcases dampenStep_record_of_ne h.distinct hne (Ne.symm hop) with hsame | hgone
    · exact h.records addr hne p (hsame ▸ hp)
    · rw [hgone] at hp
      cases hp

theorem dampenAdmit_record (h : TableOk c) (hen : c.enabled = true) (hne : addr ≠ 0) {pay : Payload}
    (hs : Sequenced pay) (now : U64) :
    dampenRecord (dampenAdmit c addr pay now).1 addr = some
        (dampenAdmitPeer (LruTable.renew (dampenRecord c addr) addr now) (reorderSeqFromPayload pay) now).peer ∧
      (dampenAdmit c addr pay now).2 =
        (dampenAdmitPeer (LruTable.renew (dampenRecord c addr) addr now) (reorderSeqFromPayload pay) now).decision := by
  have hstep := @dampenStep_record c (.admission addr pay now) h.distinct hne
  simp only [dampenRecordStep, dampenAccess, dampenAnswer, hen, hs, and_self, if_true, LruTable.Access.onRecord,
    dampenStep, DampenOp.addr, Option.some.injEq] at hstep
  exact hstep

theorem dampenAdmit_epochResets (hen : c.enabled = true) {pay : Payload} (hs : Sequenced pay) (now : U64) :
    (dampenAdmit c addr pay now).1.st.epochResets = c.st.epochResets +
      if (dampenAdmitPeer (LruTable.renew (dampenRecord c addr) addr now) (reorderSeqFromPayload pay) now).epochReset
        then 1 else 0 := by
  have hcount : ∀ (st : DampenStats) (len : Nat) (a : DampenAdmitted),
      (dampenCount st len a).epochResets = st.epochResets + if a.epochReset then 1 else 0 := by
    intro st len a
    unfold dampenCount
    simp only
    repeat' split
    all_goals rfl
  have hlen : ¬ pay.length < kReorderSeqMinPay := Nat.not_lt.mpr hs.1
  have hst : ∀ d : DampenCtx, (dampenGetPeer d addr now).1.st.epochResets = d.st.epochResets := by
    intro d
    unfold dampenGetPeer
    simp only
    split <;> rfl
  unfold dampenAdmit
  simp only [hen, Bool.not_true, Bool.false_eq_true, if_false, hlen, hs.2]
  have hrec : ∀ d : DampenCtx, (dampenGetPeer d addr now).1.peers (dampenGetPeer d addr now).2 =
      LruTable.renew (dampenRecord d addr) addr now := fun d => claimed_record d addr now
  rw [hcount, hst, hrec]
  rfl

@[simp] theorem renew_seqs (p : DampenPeer) (addr : U32) (now : U64) :
    (LruTable.renew (some p) addr now : DampenPeer).seqs = p.seqs := rfl

@[simp] theorem renew_none_seqs (addr : U32) (now : U64) :
    (LruTable.renew none addr now : DampenPeer).seqs = [] := rfl

theorem dampenAdmitPeer_epochReset (p : DampenPeer) (seq : U32) (now : U64) :
    (dampenAdmitPeer p seq now).epochReset = belowOldest p.seqs seq := by
  rw [← isRestart_eq]
  simp only [dampenAdmitPeer]
  repeat' split
  all_goals rfl

theorem dampenAdmit_seqs (h : TableOk c) (hen : c.enabled = true) (hne : addr ≠ 0) {pay : Payload}
    (hs : Sequenced pay) (now : U64) :
    retainedSeqs (dampenAdmit c addr pay now).1 addr =
      admitSeqs (retainedSeqs c addr) (reorderSeqFromPayload pay) := by
  rw [retainedSeqs_some (dampenAdmit_record h hen hne hs now).1, dampenAdmitPeer_seqs]
  cases hr : dampenRecord c addr with
  | none => rw [retainedSeqs_none hr, renew_none_seqs]
  | some p => rw [retainedSeqs_some hr, renew_seqs]

/-- **A retry of a retained sequence** is kept exactly when the sequence is not below the oldest one. -/
theorem retry_kept_iff (h : TableOk c) (hne : addr ≠ 0) {e : DampenEntry} (he : e ∈ retainedOf c addr) {pay : Payload}
    (hs : Sequenced pay) (hseq : reorderSeqFromPayload pay = e.seq) (now : U64) :
    RetryKept c addr e pay now ↔ belowOldest (retainedSeqs c addr) e.seq = false := by
  obtain ⟨p, hp, hmem⟩ := mem_retainedOf.mp he
  obtain ⟨hen, hok⟩ := h.records addr hne p hp
  have hresets := @dampenAdmit_epochResets c addr hen pay hs now
  rw [dampenAdmitPeer_epochReset, hp, renew_seqs, ← retainedSeqs_some hp, hseq] at hresets
  constructor
  · intro hkept
    have hsame := hkept.no_reset
    rw [hresets] at hsame
    by_contra hlow
    rw [Bool.not_eq_false] at hlow
    rw [hlow] at hsame
    simp at hsame
  · intro hlow
    constructor
    · have hin : e.seq ∈ retainedSeqs c addr := List.mem_map_of_mem he
      rw [dampenAdmit_seqs h hen hne hs now, hseq, admitSeqs, hlow, if_neg Bool.false_ne_true, if_pos hin]
    · rw [hresets, hlow]
      rfl
    · rw [(dampenAdmit_record h hen hne hs now).2, hp, hseq]
      rw [retainedSeqs_some hp] at hlow
      exact (@dampenAdmitPeer_retry (LruTable.renew (some p) addr now) hok e hmem hlow now).1

theorem reorderSeqFromPayload_makePkt (reliable : Bool) (seq ack : U32) :
    reorderSeqFromPayload (makePkt reliable seq ack) = seq := by
  have hfield : reorderSeqFromPayload (makePkt reliable seq ack) =
      ((seq.extractLsb' 24 8).setWidth 32 <<< 24) ||| ((seq.extractLsb' 16 8).setWidth 32 <<< 16) |||
        ((seq.extractLsb' 8 8).setWidth 32 <<< 8) ||| (seq.extractLsb' 0 8).setWidth 32 := by
    cases reliable <;> rfl
  rw [hfield]
  ext i hi
  interval_cases i <;> simp

theorem sequenced_makePkt (seq ack : U32) : Sequenced (makePkt true seq ack) := by
  refine ⟨by simp [makePkt, kReorderSeqMinPay], ?_⟩
  change ((0xC0 : U8) &&& kBzHdrFlagReliable != 0) = true
  decide

/-- The states whose retries are kept. -/
theorem retriesKept_iff (h : TableOk c) :
    RetriesKept c ↔ ∀ addr, addr ≠ 0 → HeadLeast (retainedSeqs c addr) := by
  constructor
  · intro hkept addr hne s hs
    obtain ⟨e, he, rfl⟩ := List.mem_map.mp hs
    have hpay : reorderSeqFromPayload (makePkt true e.seq 0) = e.seq := reorderSeqFromPayload_makePkt true e.seq 0
    have hsq := sequenced_makePkt e.seq 0
    exact (retry_kept_iff h hne he hsq hpay 0).mp (hkept addr hne e he _ 0 hsq hpay)
  · intro hleast addr hne e he pay now hs hseq
    exact (retry_kept_iff h hne he hs hseq now).mpr (hleast addr hne e.seq (List.mem_map_of_mem he))

theorem dampenStep_seqs_of_ne (h : TableOk c) (hne : addr ≠ 0) (hop : addr ≠ op.addr) :
    retainedSeqs (dampenStep c op).1 addr = retainedSeqs c addr ∨ retainedSeqs (dampenStep c op).1 addr = [] := by
  rcases dampenStep_record_of_ne h.distinct hne hop with hsame | hgone
  · left
    rw [retainedSeqs, retainedSeqs, retainedOf, retainedOf, hsame]
  · exact Or.inr (retainedSeqs_none hgone)

theorem dampenStep_seqs_same (h : TableOk c) (hne : op.addr ≠ 0)
    (hnot : ∀ pay now, op = .admission op.addr pay now → ¬ (c.enabled = true ∧ Sequenced pay))
    (hpurge : op ≠ .purgePeer op.addr) : retainedSeqs (dampenStep c op).1 op.addr = retainedSeqs c op.addr := by
  have hrec := (dampenStep_record h.distinct hne).1
  rw [retainedSeqs, retainedSeqs, retainedOf, retainedOf, hrec]
  cases op with
  | admission addr pay now =>
    simp only [dampenRecordStep, dampenAccess, if_neg (hnot pay now rfl), LruTable.Access.onRecord]
  | observeAck addr ack now =>
    simp only [dampenRecordStep, dampenAccess]
    split
    · simp only [LruTable.Access.onRecord, Option.map_map]
      congr 3
      funext p
      exact dampenSamplePeer_retained p ack now
    · rfl
  | setRtt addr rtt =>
    simp only [dampenRecordStep, dampenAccess]
    split
    · simp only [LruTable.Access.onRecord, Option.map_map]
      rfl
    · rfl
  | purgePeer addr => exact absurd rfl hpurge

/-- The only call that adds to the retained sequences of its address is an admit that is looked up. -/
theorem dampenStep_seqs_self (h : TableOk c) (hne : op.addr ≠ 0) :
    (∃ pay now, op = .admission op.addr pay now ∧ c.enabled = true ∧ Sequenced pay ∧
      retainedSeqs (dampenStep c op).1 op.addr = admitSeqs (retainedSeqs c op.addr) (reorderSeqFromPayload pay)) ∨
    ((∀ pay now, op = .admission op.addr pay now → ¬ (c.enabled = true ∧ Sequenced pay)) ∧
      (retainedSeqs (dampenStep c op).1 op.addr = retainedSeqs c op.addr ∨
        dampenRecord (dampenStep c op).1 op.addr = none)) := by
  by_cases hpurge : op = .purgePeer op.addr
  · right
    refine ⟨fun _ _ hadm => ?_, Or.inr ?_⟩
    · rw [hpurge] at hadm
      cases hadm
    · rw [(dampenStep_record h.distinct hne).1, hpurge]
      rfl
  · by_cases hadm : ∃ pay now, op = .admission op.addr pay now ∧ c.enabled = true ∧ Sequenced pay
    · obtain ⟨pay, now, hop, hen, hs⟩ := hadm
      left
      refine ⟨pay, now, hop, hen, hs, ?_⟩
      have hstep : (dampenStep c op).1 = (dampenAdmit c op.addr pay now).1 := by rw [hop]; rfl
      rw [hstep]
      exact dampenAdmit_seqs h hen hne hs now
    · right
      have hnot : ∀ pay now, op = .admission op.addr pay now → ¬ (c.enabled = true ∧ Sequenced pay) :=
        fun pay now hop hs => hadm ⟨pay, now, hop, hs⟩
      exact ⟨hnot, Or.inl (dampenStep_seqs_same h hne hnot hpurge)⟩

/-- **A step keeps the retries kept** exactly when it overflows in order. -/
theorem dampenStep_retriesKept (h : TableOk c) (hkept : RetriesKept c) :
    RetriesKept (dampenStep c op).1 ↔ OverflowInOrder c op := by
  rw [retriesKept_iff h] at hkept
  rw [retriesKept_iff (dampenStep_tableOk h)]
  have hother : ∀ addr, addr ≠ 0 → addr ≠ op.addr → HeadLeast (retainedSeqs (dampenStep c op).1 addr) := by
    intro addr hne hop
    rcases dampenStep_seqs_of_ne h hne hop with hsame | hgone
    · rw [hsame]
      exact hkept addr hne
    · rw [hgone]
      exact headLeast_nil
  have hself : op.addr ≠ 0 → (HeadLeast (retainedSeqs (dampenStep c op).1 op.addr) ↔ OverflowInOrder c op) := by
    intro hne
    rcases dampenStep_seqs_self h hne with ⟨pay, now, hop, -, hs, hseqs⟩ | ⟨hnot, hseqs⟩
    · rw [hseqs, headLeast_admitSeqs (hkept op.addr hne), hop]
      exact ⟨fun h' _ _ => h', fun h' => h' hne hs⟩
    · have hleast : HeadLeast (retainedSeqs (dampenStep c op).1 op.addr) := by
        rcases hseqs with hsame | hgone
        · rw [hsame]
          exact hkept op.addr hne
        · rw [retainedSeqs_none hgone]
          exact headLeast_nil
      refine ⟨fun _ => ?_, fun _ => hleast⟩
      cases op with
      | admission addr pay now =>
        intro _ hs hfull
        have hnil : retainedSeqs c addr ≠ [] := by
          intro hnil
          rw [hnil] at hfull
          exact absurd hfull (by decide)
        cases hr : dampenRecord c addr with
        | none => exact absurd (retainedSeqs_none hr) hnil
        | some p => exact absurd ⟨(h.records addr hne p hr).1, hs⟩ (hnot pay now rfl)
      | observeAck addr ack now => trivial
      | setRtt addr rtt => trivial
      | purgePeer addr => trivial
  constructor
  · intro hleast
    by_cases hne : op.addr = 0
    · cases op with
      | admission addr pay now => exact fun hne' => absurd hne hne'
      | observeAck addr ack now => trivial
      | setRtt addr rtt => trivial
      | purgePeer addr => trivial
    · exact (hself hne).mp (hleast op.addr hne)
  · intro hover addr hne
    by_cases hop : addr = op.addr
    · subst hop
      exact (hself hne).mpr hover
    · exact hother addr hne hop

end Table

def dampenNext (c : DampenCtx) (op : DampenOp) : Option DampenCtx := some (dampenStep c op).1

theorem final_tableOk (enabled : Bool) (ops : List DampenOp) : TableOk (final dampenStep (dampenInit enabled) ops) :=
  final_inv (tableOk_init enabled) (fun _ _ h => dampenStep_tableOk h) ops

/-- **Retries of what is retained.** In a reachable state another copy of a retained sequence is judged against its
own window exactly when the sequence is not below the oldest one. All along a run every retry is kept exactly when no
first copy overflows a ring out of order. -/
theorem dampen_retries_kept (enabled : Bool) (ops : List DampenOp) :
    (∀ addr, addr ≠ 0 → ∀ e ∈ retainedOf (final dampenStep (dampenInit enabled) ops) addr, ∀ pay now,
      Sequenced pay → reorderSeqFromPayload pay = e.seq →
        (RetryKept (final dampenStep (dampenInit enabled) ops) addr e pay now ↔
          belowOldest (retainedSeqs (final dampenStep (dampenInit enabled) ops) addr) e.seq = false)) ∧
    (StatesMeet dampenNext RetriesKept (dampenInit enabled) ops ↔
      StepsMeet dampenNext OverflowInOrder (dampenInit enabled) ops) := by
  constructor
  · intro addr hne e he pay now hs hseq
    exact retry_kept_iff (final_tableOk enabled ops) hne he hs hseq now
  · have hinit : RetriesKept (dampenInit enabled) := by
      rw [retriesKept_iff (tableOk_init enabled)]
      intro addr hne
      rw [retainedSeqs_none (dampenRecord_init enabled hne)]
      exact headLeast_nil
    refine @statesMeet_iff _ _ dampenNext RetriesKept TableOk OverflowInOrder ?_ _ (tableOk_init enabled) hinit ops
    intro c op c' hok hkept hstep
    obtain rfl : (dampenStep c op).1 = c' := Option.some.inj hstep
    exact ⟨dampenStep_retriesKept hok hkept, fun _ => dampenStep_tableOk hok⟩

/-- First copies fill the ring up in the order in which they come. -/
theorem foldl_admitSeqs {l : List U32} (hl : l ≠ []) {seqs : List U32} (hlow : ∀ s ∈ seqs, belowOldest l s = false)
    (hnodup : (l ++ seqs).Nodup) (hlen : (l ++ seqs).length ≤ kDampenSlots) :
    seqs.foldl admitSeqs l = l ++ seqs := by
  induction seqs generalizing l with
  | nil => rw [List.append_nil, List.foldl_nil]
  | cons s seqs ih =>
    have hmem : s ∉ l := fun hs => (List.nodup_append.mp hnodup).2.2 s hs s List.mem_cons_self rfl
    have hroom : l.length < kDampenSlots := by
      rw [List.length_append, List.length_cons] at hlen
      omega
    have hstep : admitSeqs l s = l ++ [s] := by
      rw [admitSeqs, hlow s List.mem_cons_self, if_neg Bool.false_ne_true, if_neg hmem, if_pos hroom]
    rw [List.append_cons l s seqs] at hnodup hlen ⊢
    rw [List.foldl_cons, hstep]
    refine ih (List.append_ne_nil_of_left_ne_nil hl [s]) (fun s' hs' => ?_) hnodup hlen
    rw [belowOldest_append hl]
    exact hlow s' (List.mem_cons_of_mem _ hs')

/-- First copies of `10`, `12`, `11`, `13` and so on to `521`, as many as the ring holds. -/
def sampleFill : List U32 := [10, 12, 11] ++ (List.range 509).map fun i => 10 + BitVec.ofNat 32 (3 + i)

theorem sampleFill_seqs : sampleFill.foldl admitSeqs [] = sampleFill := by
  have hten : ∀ i ∈ List.range 509, Serial.elapsed (10 + BitVec.ofNat 32 (3 + i)) (10 : U32) = 3 + i := by
    intro i hi
    have hi := List.mem_range.mp hi
    exact Serial.elapsed_add_ofNat (by omega)
  have hnodup : sampleFill.Nodup := by
    apply List.Nodup.of_map (Serial.elapsed · 10)
    have hmap : sampleFill.map (Serial.elapsed · 10) = [0, 2, 1] ++ (List.range 509).map (3 + ·) := by
      rw [sampleFill, List.map_append, List.map_map]
      exact congrArg _ (List.map_congr_left hten)
    rw [hmap, List.nodup_append]
    refine ⟨by decide, List.nodup_range.map (fun a b h => Nat.add_left_cancel h), ?_⟩
    rintro a ha b hb rfl
    obtain ⟨i, -, rfl⟩ := List.mem_map.mp hb
    simp at ha
    omega
  have hthree : ([10, 12, 11] : List U32).foldl admitSeqs [] = [10, 12, 11] := by decide
  rw [sampleFill, List.foldl_append, hthree]
  refine foldl_admitSeqs (by decide) (fun s hs => ?_) hnodup (by simp [kDampenSlots])
  obtain ⟨i, hi, rfl⟩ := List.mem_map.mp hs
  have hlt := List.mem_range.mp hi
  have hge : 0 ≤ seqCmp (10 + BitVec.ofNat 32 (3 + i)) 10 := by
    rw [seqCmp, Serial.cmp_nonneg_iff, hten i hi]
    omega
  have hdef : belowOldest [10, 12, 11] (10 + BitVec.ofNat 32 (3 + i)) =
    decide (seqCmp (10 + BitVec.ofNat 32 (3 + i)) 10 < 0) := rfl
  rw [hdef]
  simpa using hge

def sampleOverflow : List U32 := sampleFill ++ [522]

theorem sampleOverflow_seqs : sampleOverflow.foldl admitSeqs [] = sampleFill.tail ++ [522] := by
  have hlow : belowOldest sampleFill 522 = false := by decide
  have hmem : (522 : U32) ∉ sampleFill := by
    intro h
    rcases List.mem_append.mp h with h | h
    · exact absurd h (by decide)
    · obtain ⟨i, hi, heq⟩ := List.mem_map.mp h
      have hlt := List.mem_range.mp hi
      have helapsed := congrArg (Serial.elapsed · (10 : U32)) heq
      simp only [Serial.elapsed_add_ofNat (show 3 + i < 2 ^ 32 by omega)] at helapsed
      have h522 : Serial.elapsed (522 : U32) 10 = 512 := by decide
      omega
  have hfull : ¬ sampleFill.length < kDampenSlots := by simp [sampleFill, kDampenSlots]
  rw [sampleOverflow, List.foldl_append, sampleFill_seqs, List.foldl_cons, List.foldl_nil, admitSeqs, hlow,
    if_neg Bool.false_ne_true, if_neg hmem, if_neg hfull]

theorem final_sends_seqs (seqs : List U32) :
    retainedSeqs (final dampenStep (dampenInit true) (seqs.map fun s => .admission 1 (makePkt true s 0) 1000)) 1 =
      seqs.foldl admitSeqs [] := by
  induction seqs using List.reverseRecOn with
  | nil => exact retainedSeqs_none (dampenRecord_init true (by decide))
  | append_singleton seqs s ih =>
    rw [List.map_append, List.map_singleton, final_concat, List.foldl_append, ← ih]
    have hen : (final dampenStep (dampenInit true) (seqs.map fun s => .admission 1 (makePkt true s 0) 1000)).enabled =
        true :=
      @final_inv _ _ _ dampenStep (dampenInit true) (fun c => c.enabled = true) rfl
        (fun _ _ h => dampenStep_enabled.trans h) _
    have hone : (1 : U32) ≠ 0 := by decide
    have hadmit := dampenAdmit_seqs (final_tableOk true _) hen hone (sequenced_makePkt s 0) 1000
    rw [reorderSeqFromPayload_makePkt] at hadmit
    exact hadmit

/-- The overflow leaves `12` as the oldest, and a retry of `11` resets the epoch. -/
theorem dampen_retries_kept_overflow :
    ∃ e ∈ retainedOf (final dampenStep (dampenInit true)
        (sampleOverflow.map fun s => .admission 1 (makePkt true s 0) 1000)) 1,
      e.seq = 11 ∧ ¬ RetryKept (final dampenStep (dampenInit true)
        (sampleOverflow.map fun s => .admission 1 (makePkt true s 0) 1000)) 1 e (makePkt true 11 0) 1010 := by
  have hrun : (11 : U32) ∈ sampleOverflow.foldl admitSeqs [] ∧ belowOldest (sampleOverflow.foldl admitSeqs []) 11 = true := by
    rw [sampleOverflow_seqs]
    exact ⟨List.mem_append_left _ (List.mem_cons_of_mem _ List.mem_cons_self), by decide⟩
  rw [← final_sends_seqs] at hrun
  obtain ⟨e, he, hseq⟩ := List.mem_map.mp hrun.1
  refine ⟨e, he, hseq, fun hkept => ?_⟩
  have hlow := (retry_kept_iff (final_tableOk true _) (by decide) he (sequenced_makePkt 11 0)
    ((reorderSeqFromPayload_makePkt true 11 0).trans hseq.symm) 1010).mp hkept
  rw [hseq, hrun.2] at hlow
  cases hlow

end BzNet
