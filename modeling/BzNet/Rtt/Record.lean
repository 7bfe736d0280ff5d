import BzNet.Rtt.Core

/-!
# One record of the sampler, and the table of them

* `rttSendPeer_cases`, `rttRecvPeer_suffix` : what a send and a receipt do to the outstanding slots;
* `OutstandingOk` : what every record keeps, the outstanding sequences distinct and marked in use;
* `rttRecord` : the table read as a map from addresses, with `rttStep_record` for the record a call is
  about and `rttStep_record_of_ne` for the others.
-/

namespace BzNet

/-- The outstanding slots of a record, oldest first. -/
abbrev RttPeer.outstanding (p : RttPeer) : List RttSlot := p.ring.toList

/-- Every sequence is outstanding once, in a slot in use. -/
structure OutstandingOk (l : List RttSlot) : Prop where
  nodup : (l.map RttSlot.seq).Nodup
  used : ∀ s ∈ l, s.used = true

theorem outstandingOk_nil : OutstandingOk [] := ⟨List.nodup_nil, fun _ h => absurd h List.not_mem_nil⟩

theorem OutstandingOk.suffix {l k : List RttSlot} (hl : OutstandingOk l) (hk : k <:+ l) : OutstandingOk k :=
  ⟨hl.nodup.sublist (hk.sublist.map _), fun s hs => hl.used s (hk.mem hs)⟩

/-! ## Sends -/

/-- **A send, by cases**: it spoils the slot of its outstanding sequence, or adds a slot, over the
oldest one of a full ring. -/
theorem rttSendPeer_cases (p : RttPeer) (seq : U32) (now : U64) :
    (∃ i s, p.outstanding[i]? = some s ∧ s.used = true ∧ s.seq = seq ∧
      (rttSendPeer p seq now).peer.outstanding = p.outstanding.set i { s with ambiguous := true }) ∨
    ((∀ s ∈ p.outstanding, s.used = true → s.seq ≠ seq) ∧ ∃ l, l <:+ p.outstanding ∧
      (rttSendPeer p seq now).peer.outstanding = l ++ [⟨seq, now, true, false⟩]) := by
  cases hf : p.ring.find? (fun s => s.used && s.seq == seq) with
  | some i =>
    obtain ⟨hi, hs⟩ := RingBuffer.find?_some hf
    rw [Bool.and_eq_true, beq_iff_eq] at hs
    refine Or.inl ⟨i, p.ring.get i, RingBuffer.getElem?_toList _ hi, hs.1, hs.2, ?_⟩
    simp only [rttSendPeer, hf]
    exact RingBuffer.toList_set _ _ hi
  | none =>
    refine Or.inr ⟨fun s hs hu heq => ?_, ?_⟩
    · simpa [hu, heq] using RingBuffer.find?_none hf hs
    · simp only [rttSendPeer, hf]
      by_cases hfull : p.ring.used = kRttSlots
      · refine ⟨(p.ring.dropFirst 1).toList, ?_, ?_⟩
        · rw [RingBuffer.toList_dropFirst]
          exact List.drop_suffix 1 _
        · have hlt : (p.ring.dropFirst 1).used < kRttSlots := by
            change p.ring.used - 1 < kRttSlots
            rw [hfull]
            decide
          rw [RttPeer.outstanding, if_pos hfull, RingBuffer.toList_push, if_pos hlt]
      · refine ⟨p.outstanding, List.suffix_refl _, ?_⟩
        have hlt : p.ring.used < kRttSlots := Nat.lt_of_le_of_ne p.ring.used_le hfull
        rw [RttPeer.outstanding, if_neg hfull, RingBuffer.toList_push, if_pos hlt]

theorem rttSendPeer_ok {p : RttPeer} (hp : OutstandingOk p.outstanding) (seq : U32) (now : U64) :
    OutstandingOk (rttSendPeer p seq now).peer.outstanding := by
  rcases rttSendPeer_cases p seq now with ⟨i, s, hi, hu, hseq, heq⟩ | ⟨hne, l, hl, heq⟩
  · rw [heq]
    obtain ⟨hlt, rfl⟩ := List.getElem?_eq_some_iff.mp hi
    constructor
    · have hlt' : i < (p.outstanding.map RttSlot.seq).length := by simpa using hlt
      have hget : p.outstanding[i].seq = (p.outstanding.map RttSlot.seq)[i] := by simp
      rw [List.map_set, hget, List.set_getElem_self]
      exact hp.nodup
    · intro s' hs'
      rcases List.mem_or_eq_of_mem_set hs' with h | rfl
      · exact hp.used s' h
      · exact hu
  · rw [heq]
    have hlok := hp.suffix hl
    constructor
    · rw [List.map_append, List.map_singleton, List.nodup_append]
      refine ⟨hlok.nodup, List.nodup_singleton _, ?_⟩
      rintro a ha b hb rfl
      obtain ⟨s, hs, rfl⟩ := List.mem_map.mp ha
      exact hne s (hl.mem hs) (hlok.used s hs) (List.mem_singleton.mp hb)
    · intro s hs
      rcases List.mem_append.mp hs with h | h
      · exact hlok.used s h
      · rw [List.mem_singleton.mp h]

/-- Where the slots of a record come from: a clean slot was clean before and is not of the sequence
sent, or it is the slot of this very send, whose sequence was not outstanding. -/
theorem rttSendPeer_slot {p : RttPeer} (hp : OutstandingOk p.outstanding) {seq : U32} {now : U64} {s : RttSlot}
    (hs : s ∈ (rttSendPeer p seq now).peer.outstanding) :
    (∃ s' ∈ p.outstanding, s'.seq = s.seq ∧ s'.sentMs = s.sentMs ∧
      (s.ambiguous = false → s'.ambiguous = false ∧ s.seq ≠ seq)) ∨
    (s.seq = seq ∧ s.sentMs = now ∧ ∀ s' ∈ p.outstanding, s'.seq ≠ seq) := by
  rcases rttSendPeer_cases p seq now with ⟨i, s', hi, hu, hseq, heq⟩ | ⟨hne, l, hl, heq⟩
  · left
    rw [heq] at hs
    obtain ⟨hlt, rfl⟩ := List.getElem?_eq_some_iff.mp hi
    obtain ⟨j, hj, rfl⟩ := List.mem_iff_getElem.mp hs
    rw [List.getElem_set]
    by_cases hij : i = j
    · rw [if_pos hij]
      exact ⟨_, List.getElem_mem hlt, rfl, rfl, nofun⟩
    · rw [if_neg hij]
      rw [List.length_set] at hj
      refine ⟨_, List.getElem_mem hj, rfl, rfl, fun hamb => ⟨hamb, fun hsame => hij ?_⟩⟩
      have h := List.inj_on_of_nodup_map hp.nodup (List.getElem_mem hlt) (List.getElem_mem hj) (hseq.trans hsame.symm)
      exact (List.Nodup.of_map _ hp.nodup).getElem_inj_iff.mp h
  · rw [heq] at hs
    have hall : ∀ s' ∈ p.outstanding, s'.seq ≠ seq := fun s' hs' => hne s' hs' (hp.used s' hs')
    rcases List.mem_append.mp hs with h | h
    · exact Or.inl ⟨s, hl.mem h, rfl, rfl, fun hamb => ⟨hamb, hall s (hl.mem h)⟩⟩
    · rw [List.mem_singleton.mp h]
      exact Or.inr ⟨rfl, rfl, hall⟩

/-! ## Receipts -/

abbrev clearUsed (r : RingBuffer RttSlot kRttSlots) (n : Nat) : RingBuffer RttSlot kRttSlots :=
  (List.range n).foldl (fun r i => r.set i { r.get i with used := false }) r

theorem clearUsed_succ (r : RingBuffer RttSlot kRttSlots) (n : Nat) :
    clearUsed r (n + 1) = (clearUsed r n).set n { (clearUsed r n).get n with used := false } := by
  rw [clearUsed, List.range_succ, List.foldl_append]
  rfl

theorem clearUsed_used (r : RingBuffer RttSlot kRttSlots) (n : Nat) : (clearUsed r n).used = r.used := by
  induction n with
  | zero => rfl
  | succ n ih =>
    rw [clearUsed_succ]
    exact ih

theorem clearUsed_get (r : RingBuffer RttSlot kRttSlots) {n k : Nat} (hn : n ≤ k) (hk : k < kRttSlots) :
    (clearUsed r n).get k = r.get k := by
  induction n with
  | zero => rfl
  | succ n ih => rw [clearUsed_succ, RingBuffer.get_set _ _ (by omega) hk, if_neg (by omega), ih (by omega)]

theorem rttRetire_toList (r : RingBuffer RttSlot kRttSlots) (n : Nat) :
    (rttRetire r n).toList = r.toList.drop n := by
  have hused := clearUsed_used r n
  rw [rttRetire, RingBuffer.toList_dropFirst]
  apply List.ext_getElem
  · simp [hused]
  · intro j h1 h2
    have hj : n + j < r.used := by
      rw [List.length_drop, RingBuffer.length_toList] at h2
      omega
    rw [List.getElem_drop, List.getElem_drop, RingBuffer.getElem_toList, RingBuffer.getElem_toList]
    exact clearUsed_get r (Nat.le_add_right n j) (Nat.lt_of_lt_of_le hj r.used_le)

/-- A receipt only retires slots, oldest first. -/
theorem rttRecvPeer_suffix (p : RttPeer) (ack : U32) (now : U64) :
    (rttRecvPeer p ack now).1.outstanding <:+ p.outstanding := by
  have hretire : ∀ n, (rttRetire p.ring n).toList <:+ p.outstanding := by
    intro n
    rw [rttRetire_toList]
    exact List.drop_suffix n _
  simp only [rttRecvPeer]
  split
  · exact List.suffix_refl _
  · split
    · exact List.suffix_refl _
    · repeat' split
      all_goals exact hretire _

theorem rttRecvPeer_sample {p : RttPeer} {ack : U32} {now : U64} {ms : U32}
    (h : (rttRecvPeer p ack now).2 = .sample ms) :
    ∃ s ∈ p.outstanding, s.seq = ack ∧ s.ambiguous = false ∧ s.sentMs ≤ now ∧
      ms.toNat = now.toNat - s.sentMs.toNat := by
  unfold rttRecvPeer at h
  dsimp only at h
  split at h
  · cases h
  · split at h
    · cases h
    · next i hf =>
      obtain ⟨hi, hs⟩ := RingBuffer.find?_some hf
      refine ⟨p.ring.get i, RingBuffer.mem_toList.mpr ⟨i, hi, rfl⟩, beq_iff_eq.mp hs, ?_⟩
      split at h
      · cases h
      · next hamb =>
        split at h
        · cases h
        · next hlt =>
          split at h
          · cases h
          · next hmax =>
            have hle : (p.ring.get i).sentMs ≤ now := BitVec.not_lt.mp hlt
            have hms := RttOutcome.sample.inj h
            refine ⟨by simpa using hamb, hle, ?_⟩
            have hbound := BitVec.le_def.mp (BitVec.not_lt.mp hmax)
            rw [← hms, BitVec.toNat_setWidth, BitVec.toNat_sub_of_le hle]
            rw [BitVec.toNat_sub_of_le hle] at hbound
            exact Nat.mod_eq_of_lt (Nat.lt_of_le_of_lt hbound (by decide))

/-! ## One record through one call -/

theorem mem_renew_outstanding {r : Option RttPeer} {addr : U32} {now : U64} {s : RttSlot} :
    s ∈ (LruTable.renew r addr now).outstanding ↔ ∃ p, r = some p ∧ s ∈ p.outstanding := by
  cases r with
  | none =>
    have hnil : (LruTable.renew none addr now : RttPeer).outstanding = [] := rfl
    simp [hnil]
  | some p => simp [LruTable.renew, KeyedRecord.touch]

theorem renew_outstanding_ok {r : Option RttPeer} (hr : ∀ p, r = some p → OutstandingOk p.outstanding) (addr : U32)
    (now : U64) : OutstandingOk (LruTable.renew r addr now).outstanding := by
  cases r with
  | none => exact outstandingOk_nil
  | some p => exact hr p rfl

def Outstanding (r : Option RttPeer) (seq : U32) : Prop := ∃ p, r = some p ∧ ∃ s ∈ p.outstanding, s.seq = seq

section Access
variable {r : Option RttPeer} {op : RttOp}

@[simp] theorem rttAccess_key (enabled : Bool) (op : RttOp) : (rttAccess enabled op).key = op.addr := by
  cases op
  all_goals simp only [rttAccess]
  all_goals first | rfl | (split <;> rfl)

theorem rttAccess_off {p : RttPeer} (h : (rttAccess false op).onRecord r = some p) : r = some p := by
  cases op with
  | send addr pay now => simpa [rttAccess, LruTable.Access.onRecord] using h
  | recv addr pay now => simpa [rttAccess, LruTable.Access.onRecord] using h
  | purge addr => cases h

theorem rttRecord_ok (enabled : Bool) (hr : ∀ p, r = some p → OutstandingOk p.outstanding) :
    ∀ p, (rttAccess enabled op).onRecord r = some p → OutstandingOk p.outstanding := by
  intro p hp
  cases op with
  | send addr pay now =>
    simp only [rttAccess] at hp
    split at hp
    · rw [← Option.some.inj hp]
      exact rttSendPeer_ok (renew_outstanding_ok hr addr now) _ now
    · exact hr p hp
  | recv addr pay now =>
    simp only [rttAccess] at hp
    split at hp
    · rw [← Option.some.inj hp]
      exact (renew_outstanding_ok hr addr now).suffix (rttRecvPeer_suffix _ _ now)
    · exact hr p hp
  | purge addr => cases hp

/-- **Provenance of a slot**: it is left from before a call that did not purge the record, or the call
is the send it records. A clean slot was clean before, and its sequence not sent by the call. -/
theorem rttRecord_slot (hop : op.addr ≠ 0) (hr : ∀ p, r = some p → OutstandingOk p.outstanding) {p : RttPeer}
    (hp : (rttAccess true op).onRecord r = some p) {s : RttSlot} (hs : s ∈ p.outstanding) :
    (∃ q, r = some q ∧ ∃ s' ∈ q.outstanding, s'.seq = s.seq ∧ s'.sentMs = s.sentMs ∧
      (s.ambiguous = false → s'.ambiguous = false ∧ ∀ addr pay now, op = .send addr pay now → Sequenced pay →
        reorderSeqFromPayload pay ≠ s.seq)) ∨
    (∃ pay, op = .send op.addr pay s.sentMs ∧ Sequenced pay ∧ reorderSeqFromPayload pay = s.seq ∧
      ¬ Outstanding r s.seq) := by
  cases op with
  | send addr pay now =>
    have haddr : addr ≠ 0 := hop
    by_cases hseqd : Sequenced pay
    · simp only [rttAccess, haddr, hseqd, ne_eq, not_false_eq_true, and_self, if_true] at hp
      rw [← Option.some.inj hp] at hs
      rcases rttSendPeer_slot (renew_outstanding_ok hr addr now) hs with
        ⟨s', hs', hseq, hsent, hclean⟩ | ⟨hseq, rfl, hnew⟩
      · obtain ⟨q, hq, hs'⟩ := mem_renew_outstanding.mp hs'
        refine Or.inl ⟨q, hq, s', hs', hseq, hsent, fun hamb => ⟨(hclean hamb).1, ?_⟩⟩
        rintro _ _ _ h -
        cases h
        exact fun heq => (hclean hamb).2 heq.symm
      · refine Or.inr ⟨pay, rfl, hseqd, hseq.symm, ?_⟩
        rintro ⟨q, hq, s', hs', heq⟩
        exact hnew s' (mem_renew_outstanding.mpr ⟨q, hq, hs'⟩) (heq.trans hseq)
    · simp only [rttAccess, hseqd, and_false, if_false] at hp
      refine Or.inl ⟨p, hp, s, hs, rfl, rfl, fun hamb => ⟨hamb, ?_⟩⟩
      rintro _ _ _ h hseqd'
      cases h
      exact absurd hseqd' hseqd
  | recv addr pay now =>
    simp only [rttAccess] at hp
    split at hp
    · rw [← Option.some.inj hp] at hs
      obtain ⟨q, hq, hs⟩ := mem_renew_outstanding.mp ((rttRecvPeer_suffix _ _ now).mem hs)
      exact Or.inl ⟨q, hq, s, hs, rfl, rfl, fun hamb => ⟨hamb, fun _ _ _ => nofun⟩⟩
    · exact Or.inl ⟨p, hp, s, hs, rfl, rfl, fun hamb => ⟨hamb, fun _ _ _ => nofun⟩⟩
  | purge addr => cases hp

/-- A sample answers a receipt whose acknowledgement is outstanding in the record, in a clean slot. -/
theorem rttAnswer_sample {enabled : Bool} {ms : U32} (h : rttAnswer enabled r op = some (.sample ms)) :
    enabled = true ∧ ∃ addr pay now, op = .recv addr pay now ∧ addr ≠ 0 ∧ ∃ p, r = some p ∧ ∃ s ∈ p.outstanding,
      s.seq = reorderAckFromPayload pay ∧ s.ambiguous = false ∧ s.sentMs ≤ now ∧
      ms.toNat = now.toNat - s.sentMs.toNat := by
  cases op with
  | recv addr pay now =>
    simp only [rttAnswer] at h
    split at h
    · next hc =>
      obtain ⟨s, hs, hseq, hamb, hle, hms⟩ := rttRecvPeer_sample (Option.some.inj h)
      obtain ⟨p, hp, hs⟩ := mem_renew_outstanding.mp hs
      exact ⟨hc.1, addr, pay, now, rfl, hc.2.1, p, hp, s, hs, hseq, hamb, hle, hms⟩
    · cases h
  | send addr pay now => cases h
  | purge addr => cases h

end Access

/-! ## The table -/

def rttRecord (c : RttCtx) (addr : U32) : Option RttPeer := LruTable.lookup kRttPeers c.peers addr

abbrev RttCtx.Distinct (c : RttCtx) : Prop := LruTable.Distinct kRttPeers c.peers

section Step
variable {c : RttCtx} {op : RttOp} {addr : U32}

theorem rttInit_distinct (enabled : Bool) : (rttInit enabled).Distinct := fun _ _ _ _ _ h => absurd rfl h

theorem rttRecord_init (enabled : Bool) (h : addr ≠ 0) : rttRecord (rttInit enabled) addr = none :=
  LruTable.lookup_eq_none.mpr fun _ _ => Ne.symm h

theorem rttSendPeer_addr (p : RttPeer) (seq : U32) (now : U64) : (rttSendPeer p seq now).peer.addr = p.addr := by
  simp only [rttSendPeer]
  split <;> rfl

theorem rttRecvPeer_addr (p : RttPeer) (ack : U32) (now : U64) : (rttRecvPeer p ack now).1.addr = p.addr := by
  simp only [rttRecvPeer]
  repeat' split
  all_goals rfl

theorem rttAccess_lawful (enabled : Bool) (op : RttOp) : (rttAccess enabled op).Lawful := by
  cases op with
  | send addr pay now =>
    simp only [rttAccess]
    split
    · exact fun p => rttSendPeer_addr p _ now
    · trivial
  | recv addr pay now =>
    simp only [rttAccess]
    split
    · exact fun p => rttRecvPeer_addr p _ now
    · trivial
  | purge addr => trivial

theorem rttClaimed_record (c : RttCtx) (addr : U32) (now : U64) :
    (LruTable.claim kRttPeers c.peers addr now).table (LruTable.claim kRttPeers c.peers addr now).index =
      LruTable.renew (rttRecord c addr) addr now :=
  LruTable.claim_record

theorem rttGate_iff (c : RttCtx) (addr : U32) (pay : Payload) :
    (!c.enabled || decide (pay.length < kReorderSeqMinPay) || decide (addr = 0)) = false ↔
      c.enabled = true ∧ addr ≠ 0 ∧ kReorderSeqMinPay ≤ pay.length := by
  simp only [Bool.or_eq_false_iff, Bool.not_eq_false', decide_eq_false_iff_not, Nat.not_lt]
  constructor
  · rintro ⟨⟨h1, h2⟩, h3⟩
    exact ⟨h1, h3, h2⟩
  · rintro ⟨h1, h3, h2⟩
    exact ⟨⟨h1, h2⟩, h3⟩

theorem rttStep_access (c : RttCtx) (op : RttOp) :
    (rttStep c op).1.peers = (rttAccess c.enabled op).apply kRttPeers c.peers ∧
      (rttStep c op).2 = rttAnswer c.enabled (rttRecord c op.addr) op := by
  cases op with
  | send addr pay now =>
    refine ⟨?_, rfl⟩
    cases hg : (!c.enabled || decide (pay.length < kReorderSeqMinPay) || decide (addr = 0)) with
    | true =>
      have hno : ¬ (c.enabled = true ∧ addr ≠ 0 ∧ Sequenced pay) := fun h => by
        have := (rttGate_iff c addr pay).mpr ⟨h.1, h.2.1, h.2.2.1⟩
        rw [hg] at this
        cases this
      simp only [rttStep, rttOnSend, hg, if_true, rttAccess, if_neg hno]
      rfl
    | false =>
      obtain ⟨hen, haddr, hlen⟩ := (rttGate_iff c addr pay).mp hg
      cases hrel : reorderIsReliable pay with
      | false =>
        have hno : ¬ (c.enabled = true ∧ addr ≠ 0 ∧ Sequenced pay) := fun h => by simp [h.2.2.2] at hrel
        simp only [rttStep, rttOnSend, hg, hrel, rttAccess, if_neg hno]
        rfl
      | true =>
        have hyes : c.enabled = true ∧ addr ≠ 0 ∧ Sequenced pay := ⟨hen, haddr, hlen, hrel⟩
        simp only [rttStep, rttOnSend, hg, hrel, rttGetPeer, rttAccess, if_pos hyes]
        rfl
  | recv addr pay now =>
    cases hg : (!c.enabled || decide (pay.length < kReorderSeqMinPay) || decide (addr = 0)) with
    | true =>
      have hno : ¬ (c.enabled = true ∧ addr ≠ 0 ∧ kReorderSeqMinPay ≤ pay.length) := fun h => by
        have := (rttGate_iff c addr pay).mpr h
        rw [hg] at this
        cases this
      simp only [rttStep, rttOnRecv, hg, if_true, rttAccess, rttAnswer, if_neg hno, and_true]
      rfl
    | false =>
      have hyes := (rttGate_iff c addr pay).mp hg
      simp only [rttStep, rttOnRecv, hg, rttGetPeer, rttAccess, rttAnswer, if_pos hyes, RttOp.addr,
        ← rttClaimed_record]
      exact ⟨rfl, rfl⟩
  | purge addr => exact ⟨rfl, rfl⟩

@[simp] theorem rttStep_enabled : (rttStep c op).1.enabled = c.enabled := by
  cases op with
  | send addr pay now =>
    simp only [rttStep, rttOnSend, rttGetPeer]
    repeat' split
    all_goals rfl
  | recv addr pay now =>
    simp only [rttStep, rttOnRecv, rttGetPeer]
    split <;> rfl
  | purge addr => rfl

theorem rttStep_distinct (hd : c.Distinct) : (rttStep c op).1.Distinct := by
  rw [RttCtx.Distinct, (rttStep_access c op).1]
  exact LruTable.Access.apply_distinct (rttAccess_lawful _ _) hd (by decide)

/-- **The record a call is about.** -/
theorem rttStep_record (hd : c.Distinct) (hop : op.addr ≠ 0) :
    rttRecord (rttStep c op).1 op.addr = (rttAccess c.enabled op).onRecord (rttRecord c op.addr) := by
  have hself := LruTable.Access.lookup_apply_self (rttAccess_lawful c.enabled op) hd (n := kRttPeers) (by decide)
    (by rwa [rttAccess_key])
  rwa [rttAccess_key, ← (rttStep_access c op).1] at hself

/-- **The other records**: unchanged, or evicted to make room. -/
theorem rttStep_record_of_ne (hd : c.Distinct) (hne : addr ≠ 0) (hop : addr ≠ op.addr) :
    rttRecord (rttStep c op).1 addr = rttRecord c addr ∨ rttRecord (rttStep c op).1 addr = none := by
  rw [rttRecord, (rttStep_access c op).1]
  exact LruTable.Access.lookup_apply_of_ne (rttAccess_lawful _ _) hd (by decide) hne (by rwa [rttAccess_key])

end Step

end BzNet
