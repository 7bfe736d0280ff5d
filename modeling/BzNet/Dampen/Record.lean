import BzNet.Dampen.Core

/-!
# One record of the suppressor, and the table of them

* `dampenAdmitPeer_cases` : the three things an admit can do to a record's retained sequences;
* `RetainedOk` : what every record keeps, sequences retained once and windows under the ceiling;
* `dampenRecord` : the table read as a map from addresses, with `dampenStep_record` for the record a
  call is about and `dampenStep_record_of_ne` for the others.
-/

namespace BzNet

/-- The retained sequences of a record, oldest first. -/
abbrev DampenPeer.retained (p : DampenPeer) : List DampenEntry := p.ring.toList

theorem cap_le (w m : U32) : (if w > m then m else w) ≤ m := by
  split
  · exact BitVec.le_refl _
  · next h => exact BitVec.not_lt.mp h

theorem dampenWindowFor_le (p : DampenPeer) : dampenWindowFor p ≤ kDampenMaxMs := cap_le _ _

theorem le_cap {w m f : U32} (hw : f ≤ w) (hm : f ≤ m) : f ≤ if w > m then m else w := by
  split
  · exact hm
  · exact hw

theorem le_floor (w f : U32) : f ≤ if w < f then f else w := by
  split
  · exact BitVec.le_refl _
  · next h => exact BitVec.not_lt.mp h

theorem dampenWindowFor_ge (p : DampenPeer) : kDampenFloorMs ≤ dampenWindowFor p := le_cap (le_floor _ _) (by decide)

@[simp] theorem DampenPeer.newEpoch_used (p : DampenPeer) (seq : U32) : (p.newEpoch seq).ring.used = 0 := rfl

@[simp] theorem DampenPeer.newEpoch_retained (p : DampenPeer) (seq : U32) : (p.newEpoch seq).retained = [] := rfl

@[simp] theorem DampenPeer.raiseHigh_ring (p : DampenPeer) (seq : U32) : (p.raiseHigh seq).ring = p.ring := by
  unfold DampenPeer.raiseHigh
  split <;> rfl

@[simp] theorem DampenPeer.raiseHigh_retained (p : DampenPeer) (seq : U32) :
    (p.raiseHigh seq).retained = p.retained := by rw [retained, raiseHigh_ring]

theorem dampenAddSlot_retained (p : DampenPeer) (e : DampenEntry) :
    (dampenAddSlot p e).retained = (if p.ring.used < kDampenSlots then p.retained else p.retained.tail) ++ [e] :=
  RingBuffer.toList_push p.ring e

/-! ## What an admit does to a record -/

section Admit
variable {p : DampenPeer} {seq : U32} (now : U64)

theorem dampenAdmitPeer_restart (h : dampenIsRestart p seq = true) :
    ∃ w, (kDampenFloorMs ≤ w ∧ w ≤ kDampenMaxMs) ∧ (dampenAdmitPeer p seq now).decision = .send ∧
      (dampenAdmitPeer p seq now).peer.retained = [⟨seq, now, w⟩] := by
  refine ⟨dampenWindowFor ((p.newEpoch seq).raiseHigh seq), ⟨dampenWindowFor_ge _, dampenWindowFor_le _⟩, ?_, ?_⟩
  · simp [dampenAdmitPeer, h]
  · simp only [dampenAdmitPeer, h, if_true]
    rw [dampenAddSlot_retained]
    simp

theorem dampenAdmitPeer_new (h : dampenIsRestart p seq = false)
    (hf : p.ring.find? (fun e => e.seq == seq) = none) :
    ∃ w, (kDampenFloorMs ≤ w ∧ w ≤ kDampenMaxMs) ∧ (dampenAdmitPeer p seq now).decision = .send ∧
      (dampenAdmitPeer p seq now).peer.retained =
        (if p.ring.used < kDampenSlots then p.retained else p.retained.tail) ++ [⟨seq, now, w⟩] := by
  refine ⟨dampenWindowFor (p.raiseHigh seq), ⟨dampenWindowFor_ge _, dampenWindowFor_le _⟩, ?_, ?_⟩
  · simp [dampenAdmitPeer, h, hf]
  · simp only [dampenAdmitPeer, h, hf, Bool.false_eq_true, if_false]
    rw [dampenAddSlot_retained, DampenPeer.raiseHigh_retained, DampenPeer.raiseHigh_ring]

theorem dampenAdmitPeer_copy (h : dampenIsRestart p seq = false) {i : Nat}
    (hf : p.ring.find? (fun e => e.seq == seq) = some i) :
    (Serial.elapsed now (p.ring.get i).lastSentMs < (p.ring.get i).windowMs.toNat ∧
      (dampenAdmitPeer p seq now).decision = .suppress ∧
      (dampenAdmitPeer p seq now).peer.retained = p.retained) ∨
    (∃ w, w ≤ kDampenMaxMs ∧ (dampenAdmitPeer p seq now).decision = .send ∧
      (dampenAdmitPeer p seq now).peer.retained = p.retained.set i ⟨seq, now, w⟩) := by
  obtain ⟨hi, hseq⟩ := RingBuffer.find?_some hf
  have hseq : (p.ring.get i).seq = seq := by simpa using hseq
  by_cases hw : now - (p.ring.get i).lastSentMs < (p.ring.get i).windowMs.setWidth 64
  · left
    refine ⟨?_, ?_, ?_⟩
    · have hlt := BitVec.lt_def.mp hw
      rwa [BitVec.toNat_setWidth_of_le (by decide)] at hlt
    · simp [dampenAdmitPeer, h, hf, hw]
    · simp [dampenAdmitPeer, h, hf, hw]
  · right
    refine ⟨_, cap_le ((p.ring.get i).windowMs * 2) kDampenMaxMs, ?_, ?_⟩
    · simp [dampenAdmitPeer, h, hf, hw]
    · simp only [dampenAdmitPeer, h, hf, Bool.false_eq_true, if_false, DampenPeer.raiseHigh_ring, hw]
      rw [DampenPeer.retained, RingBuffer.toList_set _ _ hi, hseq]

/-- **An admit, by cases**: it suppresses against a retained copy inside its window, resends past the
window of the retained copy, or records a sequence that the rest of the ring does not hold. -/
theorem dampenAdmitPeer_cases (p : DampenPeer) (seq : U32) (now : U64) :
    (∃ e ∈ p.retained, e.seq = seq ∧ Serial.elapsed now e.lastSentMs < e.windowMs.toNat ∧
      (dampenAdmitPeer p seq now).decision = .suppress ∧
      (dampenAdmitPeer p seq now).peer.retained = p.retained) ∨
    (∃ i w, i < p.retained.length ∧ (p.retained[i]?.map DampenEntry.seq) = some seq ∧ w ≤ kDampenMaxMs ∧
      (dampenAdmitPeer p seq now).decision = .send ∧
      (dampenAdmitPeer p seq now).peer.retained = p.retained.set i ⟨seq, now, w⟩) ∨
    (∃ l w, l <:+ p.retained ∧ (∀ e ∈ l, e.seq ≠ seq) ∧ w ≤ kDampenMaxMs ∧
      (dampenAdmitPeer p seq now).decision = .send ∧
      (dampenAdmitPeer p seq now).peer.retained = l ++ [⟨seq, now, w⟩]) := by
  cases h : dampenIsRestart p seq with
  | true =>
    obtain ⟨w, ⟨-, hw⟩, hd, hr⟩ := dampenAdmitPeer_restart now h
    exact Or.inr (Or.inr ⟨[], w, List.nil_suffix, by simp, hw, hd, hr⟩)
  | false =>
    cases hf : p.ring.find? (fun e => e.seq == seq) with
    | none =>
      obtain ⟨w, ⟨-, hw⟩, hd, hr⟩ := dampenAdmitPeer_new now h hf
      refine Or.inr (Or.inr ⟨_, w, ?_, ?_, hw, hd, hr⟩)
      · split
        · exact List.suffix_refl _
        · exact List.tail_suffix _
      · intro e he
        have hmem : e ∈ p.retained := by
          split at he
          · exact he
          · exact List.mem_of_mem_tail he
        simpa using RingBuffer.find?_none hf hmem
    | some i =>
      obtain ⟨hi, hseq⟩ := RingBuffer.find?_some hf
      have hseq : (p.ring.get i).seq = seq := by simpa using hseq
      rcases dampenAdmitPeer_copy now h hf with ⟨hw, hd, hr⟩ | ⟨w, hw, hd, hr⟩
      · exact Or.inl ⟨_, RingBuffer.mem_toList.mpr ⟨i, hi, rfl⟩, hseq, hw, hd, hr⟩
      · refine Or.inr (Or.inl ⟨i, w, by simpa using hi, ?_, hw, hd, hr⟩)
        rw [RingBuffer.getElem?_toList _ hi, Option.map_some, hseq]

end Admit

/-! ## What a record keeps -/

/-- Every sequence is retained once, with a window under the ceiling. -/
structure RetainedOk (l : List DampenEntry) : Prop where
  nodup : (l.map DampenEntry.seq).Nodup
  window_le : ∀ e ∈ l, e.windowMs ≤ kDampenMaxMs

theorem retainedOk_nil : RetainedOk [] := ⟨List.nodup_nil, fun _ h => absurd h List.not_mem_nil⟩

theorem RetainedOk.set {l : List DampenEntry} (hl : RetainedOk l) {i : Nat} {e : DampenEntry}
    (hi : (l[i]?.map DampenEntry.seq) = some e.seq) (hw : e.windowMs ≤ kDampenMaxMs) : RetainedOk (l.set i e) := by
  have hseqs : (l.set i e).map DampenEntry.seq = l.map DampenEntry.seq := by
    obtain ⟨e', he', hseq⟩ := Option.map_eq_some_iff.mp hi
    obtain ⟨hlt, rfl⟩ := List.getElem?_eq_some_iff.mp he'
    have hlt' : i < (l.map DampenEntry.seq).length := by simpa using hlt
    have hget : e.seq = (l.map DampenEntry.seq)[i] := by simp [hseq]
    rw [List.map_set, hget, List.set_getElem_self]
  refine ⟨hseqs ▸ hl.nodup, fun e' he' => ?_⟩
  rcases List.mem_or_eq_of_mem_set he' with h | rfl
  · exact hl.window_le e' h
  · exact hw

theorem RetainedOk.append {l k : List DampenEntry} (hl : RetainedOk l) (hk : k <:+ l) {e : DampenEntry}
    (hne : ∀ e' ∈ k, e'.seq ≠ e.seq) (hw : e.windowMs ≤ kDampenMaxMs) : RetainedOk (k ++ [e]) := by
  constructor
  · rw [List.map_append, List.map_singleton, List.nodup_append]
    refine ⟨hl.nodup.sublist (hk.sublist.map _), List.nodup_singleton _, ?_⟩
    rintro s hs s' hs' rfl
    obtain ⟨e', he', rfl⟩ := List.mem_map.mp hs
    exact hne e' he' (List.mem_singleton.mp hs')
  · intro e' he'
    rcases List.mem_append.mp he' with h | h
    · exact hl.window_le e' (hk.mem h)
    · rw [List.mem_singleton.mp h]
      exact hw

theorem dampenAdmitPeer_ok {p : DampenPeer} (hp : RetainedOk p.retained) (seq : U32) (now : U64) :
    RetainedOk (dampenAdmitPeer p seq now).peer.retained := by
  rcases dampenAdmitPeer_cases p seq now with ⟨_, _, _, _, _, hr⟩ | ⟨i, w, _, hi, hw, _, hr⟩ |
    ⟨l, w, hl, hne, hw, _, hr⟩
  · exact hr ▸ hp
  · rw [hr]
    exact hp.set hi hw
  · rw [hr]
    exact hp.append hl hne hw

/-- Where the entries of a record come from: an entry of the admitted sequence that is not left from
before is the record of this very send. -/
theorem dampenAdmitPeer_entry {p : DampenPeer} (hp : RetainedOk p.retained) {seq : U32} {now : U64}
    {e : DampenEntry} (he : e ∈ (dampenAdmitPeer p seq now).peer.retained) :
    (e ∈ p.retained ∧ (e.seq = seq → (dampenAdmitPeer p seq now).decision = .suppress)) ∨
      (e.seq = seq ∧ e.lastSentMs = now ∧ (dampenAdmitPeer p seq now).decision = .send) := by
  rcases dampenAdmitPeer_cases p seq now with ⟨_, _, _, _, hd, hr⟩ | ⟨i, w, hilt, hi, _, hd, hr⟩ |
    ⟨l, w, hl, hne, _, hd, hr⟩
  · exact Or.inl ⟨hr ▸ he, fun _ => hd⟩
  · rw [hr] at he
    obtain ⟨j, hj, rfl⟩ := List.mem_iff_getElem.mp he
    rw [List.getElem_set]
    by_cases hij : i = j
    · rw [if_pos hij]
      exact Or.inr ⟨rfl, rfl, hd⟩
    · rw [if_neg hij]
      rw [List.length_set] at hj
      refine Or.inl ⟨List.getElem_mem hj, fun hseq => absurd ?_ hij⟩
      have hi' : p.retained[i].seq = seq := by simpa [List.getElem?_eq_getElem hilt] using hi
      have hsame : p.retained[i] = p.retained[j] := List.inj_on_of_nodup_map hp.nodup (List.getElem_mem hilt)
        (List.getElem_mem hj) (hi'.trans hseq.symm)
      exact (List.Nodup.of_map _ hp.nodup).getElem_inj_iff.mp hsame
  · rw [hr] at he
    rcases List.mem_append.mp he with h | h
    · exact Or.inl ⟨hl.mem h, fun hseq => absurd hseq (hne e h)⟩
    · rw [List.mem_singleton.mp h]
      exact Or.inr ⟨rfl, rfl, hd⟩

/-! ## One record through one call -/

theorem dampenSamplePeer_retained (p : DampenPeer) (ack : U32) (now : U64) :
    (dampenSamplePeer p ack now).retained = p.retained := by
  simp only [dampenSamplePeer]
  repeat' split
  all_goals rfl

theorem mem_renew_retained {r : Option DampenPeer} {addr : U32} {now : U64} {e : DampenEntry} :
    e ∈ (LruTable.renew r addr now).retained ↔ ∃ p, r = some p ∧ e ∈ p.retained := by
  cases r with
  | none =>
    have hnil : (LruTable.renew none addr now : DampenPeer).retained = [] := rfl
    simp [hnil]
  | some p => simp [LruTable.renew, KeyedRecord.touch]

theorem renew_retained_ok {r : Option DampenPeer} (hr : ∀ p, r = some p → RetainedOk p.retained) (addr : U32)
    (now : U64) : RetainedOk (LruTable.renew r addr now).retained := by
  cases r with
  | none => exact retainedOk_nil
  | some p => exact hr p rfl

variable {r : Option DampenPeer} {op : DampenOp}

@[simp] theorem dampenAccess_key (enabled : Bool) (op : DampenOp) : (dampenAccess enabled op).key = op.addr := by
  cases op
  all_goals simp only [dampenAccess]
  all_goals first | rfl | (split <;> rfl)

theorem dampenRecordStep_ok (enabled : Bool) (hr : ∀ p, r = some p → RetainedOk p.retained) :
    ∀ p, (dampenRecordStep enabled r op).1 = some p → RetainedOk p.retained := by
  intro p hp
  cases op with
  | admission addr pay now =>
    simp only [dampenRecordStep, dampenAccess] at hp
    split at hp
    · rw [← Option.some.inj hp]
      exact dampenAdmitPeer_ok (renew_retained_ok hr addr now) _ now
    · exact hr p hp
  | observeAck addr ack now =>
    simp only [dampenRecordStep, dampenAccess] at hp
    split at hp
    · obtain ⟨q, hq, rfl⟩ := Option.map_eq_some_iff.mp hp
      rw [dampenSamplePeer_retained]
      exact hr q hq
    · exact hr p hp
  | setRtt addr rtt =>
    simp only [dampenRecordStep, dampenAccess] at hp
    split at hp
    · obtain ⟨q, hq, rfl⟩ := Option.map_eq_some_iff.mp hp
      exact hr q hq
    · exact hr p hp
  | purgePeer addr => cases hp

/-- **Provenance of an entry**: it is left from before a call that neither purged the record nor sent
its sequence, or the call is the send it records. -/
theorem dampenRecordStep_entry (hr : ∀ p, r = some p → RetainedOk p.retained) {p : DampenPeer}
    (hp : (dampenRecordStep true r op).1 = some p) {e : DampenEntry} (he : e ∈ p.retained) :
    (∃ q, r = some q ∧ e ∈ q.retained ∧ (∀ addr, op ≠ .purgePeer addr) ∧
      ∀ addr pay now, op = .admission addr pay now → Sequenced pay → reorderSeqFromPayload pay = e.seq →
        (dampenRecordStep true r op).2 = some .suppress) ∨
    (∃ pay, op = .admission op.addr pay e.lastSentMs ∧ Sequenced pay ∧ reorderSeqFromPayload pay = e.seq ∧
      (dampenRecordStep true r op).2 = some .send) := by
  cases op with
  | admission addr pay now =>
    by_cases hs : Sequenced pay
    · have hacc : dampenRecordStep true r (.admission addr pay now) =
          (some (dampenAdmitPeer (LruTable.renew r addr now) (reorderSeqFromPayload pay) now).peer,
            some (dampenAdmitPeer (LruTable.renew r addr now) (reorderSeqFromPayload pay) now).decision) := by
        simp [dampenRecordStep, dampenAccess, dampenAnswer, hs, LruTable.Access.onRecord]
      rw [hacc] at hp ⊢
      rw [← Option.some.inj hp] at he
      rcases dampenAdmitPeer_entry (renew_retained_ok hr addr now) he with ⟨hmem, hd⟩ | ⟨hseq, rfl, hd⟩
      · obtain ⟨q, hq, hmem⟩ := mem_renew_retained.mp hmem
        refine Or.inl ⟨q, hq, hmem, fun _ => nofun, ?_⟩
        rintro _ _ _ h - hseq
        cases h
        exact congrArg some (hd hseq.symm)
      · exact Or.inr ⟨pay, rfl, hs, hseq.symm, congrArg some hd⟩
    · simp only [dampenRecordStep, dampenAccess, true_and, if_neg hs] at hp
      refine Or.inl ⟨p, hp, he, fun _ => nofun, ?_⟩
      rintro _ _ _ h hs'
      cases h
      exact absurd hs' hs
  | observeAck addr ack now =>
    obtain ⟨q, hq, rfl⟩ := Option.map_eq_some_iff.mp hp
    rw [dampenSamplePeer_retained] at he
    exact Or.inl ⟨q, hq, he, fun _ => nofun, fun _ _ _ => nofun⟩
  | setRtt addr rtt =>
    simp only [dampenRecordStep, dampenAccess] at hp
    split at hp
    · obtain ⟨q, hq, rfl⟩ := Option.map_eq_some_iff.mp hp
      exact Or.inl ⟨q, hq, he, fun _ => nofun, fun _ _ _ => nofun⟩
    · exact Or.inl ⟨p, hp, he, fun _ => nofun, fun _ _ _ => nofun⟩
  | purgePeer addr => cases hp

/-- A suppression is made against an entry of the record, less than the ceiling old. -/
theorem dampenRecordStep_suppress (hr : ∀ p, r = some p → RetainedOk p.retained) {addr : U32} {pay : Payload}
    {now : U64} (h : (dampenRecordStep true r (.admission addr pay now)).2 = some .suppress) :
    ∃ p e, r = some p ∧ e ∈ p.retained ∧ e.seq = reorderSeqFromPayload pay ∧
      Serial.elapsed now e.lastSentMs < kDampenMaxMs.toNat := by
  by_cases hs : Sequenced pay
  · simp only [dampenRecordStep, dampenAnswer, true_and, if_pos hs, Option.some.injEq] at h
    rcases dampenAdmitPeer_cases (LruTable.renew r addr now) (reorderSeqFromPayload pay) now with
      ⟨e, he, hseq, hw, -, -⟩ | ⟨_, _, _, _, _, hd, _⟩ | ⟨_, _, _, _, _, hd, _⟩
    · obtain ⟨p, hp, he⟩ := mem_renew_retained.mp he
      exact ⟨p, e, hp, he, hseq, Nat.lt_of_lt_of_le hw (BitVec.le_def.mp ((hr p hp).window_le e he))⟩
    · rw [hd] at h
      cases h
    · rw [hd] at h
      cases h
  · simp [dampenRecordStep, dampenAnswer, hs] at h

/-! ## The table -/

def dampenRecord (c : DampenCtx) (addr : U32) : Option DampenPeer := LruTable.lookup kDampenPeers c.peers addr

abbrev DampenCtx.Distinct (c : DampenCtx) : Prop := LruTable.Distinct kDampenPeers c.peers

section Step
variable {c : DampenCtx} {op : DampenOp} {addr : U32}

theorem dampenInit_distinct (enabled : Bool) : (dampenInit enabled).Distinct :=
  fun _ _ _ _ _ h => absurd rfl h

theorem dampenRecord_init (enabled : Bool) (h : addr ≠ 0) : dampenRecord (dampenInit enabled) addr = none :=
  LruTable.lookup_eq_none.mpr fun _ _ => Ne.symm h

theorem dampenAdmitPeer_addr (p : DampenPeer) (seq : U32) (now : U64) :
    (dampenAdmitPeer p seq now).peer.addr = p.addr := by
  have hraise : ∀ q : DampenPeer, (q.raiseHigh seq).addr = q.addr := by
    intro q
    unfold DampenPeer.raiseHigh
    split <;> rfl
  simp only [dampenAdmitPeer]
  repeat' split
  all_goals simp [dampenAddSlot, DampenPeer.newEpoch, hraise]

theorem dampenSamplePeer_addr (p : DampenPeer) (ack : U32) (now : U64) : (dampenSamplePeer p ack now).addr = p.addr := by
  simp only [dampenSamplePeer]
  repeat' split
  all_goals rfl

theorem dampenAccess_lawful (enabled : Bool) (op : DampenOp) : (dampenAccess enabled op).Lawful := by
  cases op with
  | admission addr pay now =>
    simp only [dampenAccess]
    split
    · exact fun p => dampenAdmitPeer_addr p _ now
    · trivial
  | observeAck addr ack now =>
    simp only [dampenAccess]
    split
    · exact fun p => dampenSamplePeer_addr p ack now
    · trivial
  | setRtt addr rtt =>
    simp only [dampenAccess]
    split
    · exact fun _ => rfl
    · trivial
  | purgePeer addr => trivial

@[simp] theorem dampenAdmit_enabled (pay : Payload) (now : U64) :
    (dampenAdmit c addr pay now).1.enabled = c.enabled := by
  unfold dampenAdmit
  simp only
  repeat' split
  all_goals rfl

@[simp] theorem dampenStep_enabled : (dampenStep c op).1.enabled = c.enabled := by
  cases op with
  | admission addr pay now => exact dampenAdmit_enabled pay now
  | observeAck addr ack now =>
    simp only [dampenStep, dampenObserveAck]
    split <;> rfl
  | setRtt addr rtt =>
    simp only [dampenStep, dampenSetRtt]
    split <;> rfl
  | purgePeer addr => rfl

theorem claimed_record (c : DampenCtx) (addr : U32) (now : U64) :
    (LruTable.claim kDampenPeers c.peers addr now).table (LruTable.claim kDampenPeers c.peers addr now).index =
      LruTable.renew (dampenRecord c addr) addr now :=
  LruTable.claim_record

theorem dampenAdmit_access (c : DampenCtx) (addr : U32) (pay : Payload) (now : U64) :
    (dampenAdmit c addr pay now).1.peers = (dampenAccess c.enabled (.admission addr pay now)).apply kDampenPeers c.peers ∧
      some (dampenAdmit c addr pay now).2 = dampenAnswer c.enabled (dampenRecord c addr) (.admission addr pay now) := by
  by_cases hen : c.enabled = true
  · by_cases hlen : pay.length < kReorderSeqMinPay
    · have hs : ¬ Sequenced pay := fun hs => Nat.not_lt.mpr hs.1 hlen
      simp [dampenAdmit, dampenAccess, dampenAnswer, hen, hlen, hs, LruTable.Access.apply]
    · cases hrel : reorderIsReliable pay with
      | false =>
        have hs : ¬ Sequenced pay := fun hs => by simp [hs.2] at hrel
        simp [dampenAdmit, dampenAccess, dampenAnswer, hen, hlen, hrel, hs, LruTable.Access.apply]
      | true =>
        have hs : Sequenced pay := ⟨Nat.not_lt.mp hlen, hrel⟩
        simp [dampenAdmit, dampenAccess, dampenAnswer, dampenGetPeer, hen, hlen, hrel, hs,
          LruTable.Access.apply, ← claimed_record]
  · simp [dampenAdmit, dampenAccess, dampenAnswer, hen, LruTable.Access.apply]

/-- **A call is one access to the table.** -/
theorem dampenStep_access (c : DampenCtx) (op : DampenOp) :
    (dampenStep c op).1.peers = (dampenAccess c.enabled op).apply kDampenPeers c.peers ∧
      (dampenStep c op).2 = dampenAnswer c.enabled (dampenRecord c op.addr) op := by
  cases op with
  | admission addr pay now => exact dampenAdmit_access c addr pay now
  | observeAck addr ack now =>
    cases hen : c.enabled <;>
      simp [dampenStep, dampenObserveAck, dampenAccess, dampenAnswer, hen, LruTable.Access.apply]
  | setRtt addr rtt =>
    refine ⟨?_, rfl⟩
    by_cases h : c.enabled = true ∧ rtt ≠ 0
    · simp only [dampenStep, dampenSetRtt, dampenAccess, if_pos h]
      rw [if_neg (by simpa using h)]
      rfl
    · simp only [dampenStep, dampenSetRtt, dampenAccess, if_neg h]
      rw [if_pos (by simpa [imp_iff_not_or] using h)]
      rfl
  | purgePeer addr => exact ⟨rfl, rfl⟩

theorem dampenStep_distinct (hd : c.Distinct) : (dampenStep c op).1.Distinct := by
  rw [DampenCtx.Distinct, (dampenStep_access c op).1]
  exact LruTable.Access.apply_distinct (dampenAccess_lawful _ _) hd (by decide)

/-- **The record a call is about** goes through `dampenRecordStep`, and so does the answer. -/
theorem dampenStep_record (hd : c.Distinct) (hop : op.addr ≠ 0) :
    dampenRecord (dampenStep c op).1 op.addr = (dampenRecordStep c.enabled (dampenRecord c op.addr) op).1 ∧
      (dampenStep c op).2 = (dampenRecordStep c.enabled (dampenRecord c op.addr) op).2 := by
  refine ⟨?_, (dampenStep_access c op).2⟩
  have hself := LruTable.Access.lookup_apply_self (dampenAccess_lawful c.enabled op) hd (n := kDampenPeers) (by decide)
    (by rwa [dampenAccess_key])
  rwa [dampenAccess_key, ← (dampenStep_access c op).1] at hself

/-- **The other records**: unchanged, or evicted to make room. -/
theorem dampenStep_record_of_ne (hd : c.Distinct) (hne : addr ≠ 0) (hop : addr ≠ op.addr) :
    dampenRecord (dampenStep c op).1 addr = dampenRecord c addr ∨ dampenRecord (dampenStep c op).1 addr = none := by
  rw [dampenRecord, (dampenStep_access c op).1]
  exact LruTable.Access.lookup_apply_of_ne (dampenAccess_lawful _ _) hd (by decide) hne (by rwa [dampenAccess_key])

theorem dampenStep_record_of_room (hd : c.Distinct) {S : Finset U32} (hS : LruTable.KeysIn kDampenPeers c.peers S)
    (hcard : S.card ≤ kDampenPeers) (hop : op.addr ∈ S) (hne : addr ≠ 0) (haddr : addr ≠ op.addr) :
    dampenRecord (dampenStep c op).1 addr = dampenRecord c addr := by
  rw [dampenRecord, (dampenStep_access c op).1]
  exact LruTable.Access.lookup_apply_of_room (dampenAccess_lawful _ _) hd (by decide) (by rwa [dampenAccess_key])
    hcard hS hne (by rwa [dampenAccess_key])

theorem dampenStep_keysIn {S : Finset U32} (hS : LruTable.KeysIn kDampenPeers c.peers S) (hop : op.addr ∈ S) :
    LruTable.KeysIn kDampenPeers (dampenStep c op).1.peers S := by
  rw [(dampenStep_access c op).1]
  exact LruTable.Access.apply_keysIn (dampenAccess_lawful _ _) hS (by rwa [dampenAccess_key])

end Step

end BzNet
