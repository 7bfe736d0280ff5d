import BzNet.Rtt.Record

/-!
# What the sampler's state always keeps

* `RttRingOk` : a record's ring, with its cells flagged `used` being exactly the outstanding slots and no sequence
  outstanding twice; a send (`rttSendPeer_ringOk`) and a receipt (`rttRecvPeer_ringOk`) keep it;
* `RttStats.Balanced` : every advancing acknowledgement is counted under one of its four ends;
* `rtt_invariant` : **both, and distinct addresses, in every reachable state**.
-/

namespace BzNet

open Machine

/-- The ring of one record: `used` consecutive slots from `head` on, flagged `used`, no other slot flagged, and their
sequences distinct. -/
structure RttRingOk (p : RttPeer) : Prop where
  head_lt : p.ring.head < kRttSlots
  used_le : p.ring.used ≤ kRttSlots
  flagged : ∀ k, (p.ring.cells k).used = true ↔ ∃ i, i < p.ring.used ∧ p.ring.idx i = k
  distinct : (p.outstanding.map RttSlot.seq).Nodup

theorem RttRingOk.marked {p : RttPeer} (h : RttRingOk p) : p.ring.Marked RttSlot.used := h.flagged

/-- The entries of a ring whose marks are in step are marked. -/
theorem RttRingOk.outstandingOk {p : RttPeer} (h : RttRingOk p) : OutstandingOk p.outstanding where
  nodup := h.distinct
  used := fun s hs => by
    obtain ⟨i, hi, rfl⟩ := RingBuffer.mem_toList.mp hs
    exact (h.flagged _).mpr ⟨i, hi, rfl⟩

theorem RttRingOk.of_marked {p : RttPeer} (hm : p.ring.Marked RttSlot.used)
    (hd : (p.outstanding.map RttSlot.seq).Nodup) : RttRingOk p :=
  ⟨p.ring.head_lt, p.ring.used_le, hm, hd⟩

theorem rttRingOk_zero : RttRingOk RttPeer.zero :=
  .of_marked (RingBuffer.marked_empty (by decide) rfl) List.nodup_nil

/-! ## Sends -/

theorem rttSendPeer_marked {p : RttPeer} (hm : p.ring.Marked RttSlot.used) (seq : U32) (now : U64) :
    (rttSendPeer p seq now).peer.ring.Marked RttSlot.used := by
  unfold rttSendPeer
  cases hf : p.ring.find? (fun s => s.used && s.seq == seq) with
  | some i =>
    obtain ⟨hi, hs⟩ := RingBuffer.find?_some hf
    rw [Bool.and_eq_true] at hs
    exact RingBuffer.marked_set hm hi hs.1
  | none =>
    by_cases hfull : p.ring.used = kRttSlots
    · simp only [if_pos hfull]
      exact RingBuffer.marked_push_full hm hfull rfl
    · simp only [if_neg hfull]
      exact RingBuffer.marked_push_room hm (Nat.lt_of_le_of_ne p.ring.used_le hfull) rfl

theorem rttSendPeer_ringOk {p : RttPeer} (h : RttRingOk p) (seq : U32) (now : U64) :
    RttRingOk (rttSendPeer p seq now).peer :=
  .of_marked (rttSendPeer_marked h.marked seq now) (rttSendPeer_ok h.outstandingOk seq now).nodup

/-! ## Receipts -/

theorem clearUsed_get_lt (r : RingBuffer RttSlot kRttSlots) {n j : Nat} (hn : n ≤ kRttSlots) (hj : j < n) :
    ((clearUsed r n).get j).used = false := by
  induction n with
  | zero => exact absurd hj (Nat.not_lt_zero j)
  | succ n ih =>
    rw [clearUsed_succ, RingBuffer.get_set _ _ (by omega) (by omega)]
    by_cases hjn : j = n
    · rw [if_pos hjn]
    · rw [if_neg hjn]
      exact ih (by omega) (by omega)

theorem rttRetire_marked {r : RingBuffer RttSlot kRttSlots} (hm : r.Marked RttSlot.used) {n : Nat} (hn : n ≤ r.used) :
    (rttRetire r n).Marked RttSlot.used :=
  RingBuffer.marked_dropFirst hm hn (clearUsed_used r n)
    (fun _ hj => clearUsed_get_lt r (Nat.le_trans hn r.used_le) hj) (fun _ hj hlt => clearUsed_get r hj hlt)

theorem rttRecvPeer_marked {p : RttPeer} (hm : p.ring.Marked RttSlot.used) (ack : U32) (now : U64) :
    (rttRecvPeer p ack now).1.ring.Marked RttSlot.used := by
  unfold rttRecvPeer
  split
  · exact hm
  · dsimp only
    cases hf : p.ring.find? (fun s => s.seq == ack) with
    | none => exact hm
    | some i =>
      have hretire : (rttRetire p.ring (i + 1)).Marked RttSlot.used := rttRetire_marked hm (RingBuffer.find?_some hf).1
      dsimp only
      split
      · exact hretire
      · split
        · exact hretire
        · split <;> exact hretire

theorem rttRecvPeer_ringOk {p : RttPeer} (h : RttRingOk p) (ack : U32) (now : U64) :
    RttRingOk (rttRecvPeer p ack now).1 :=
  .of_marked (rttRecvPeer_marked h.marked ack now)
    (h.outstandingOk.suffix (rttRecvPeer_suffix p ack now)).nodup

/-! ## The table -/

theorem renew_ringOk {r : Option RttPeer} (hr : ∀ q, r = some q → RttRingOk q) (addr : U32) (now : U64) :
    RttRingOk (LruTable.renew r addr now) := by
  cases r with
  | none => exact .of_marked rttRingOk_zero.marked List.nodup_nil
  | some q => exact .of_marked (hr q rfl).marked (hr q rfl).distinct

theorem rttAccess_keeps (enabled : Bool) (op : RttOp) : (rttAccess enabled op).Keeps RttRingOk := by
  cases op with
  | send addr pay now =>
    simp only [rttAccess]
    split
    · exact fun r hr => rttSendPeer_ringOk (renew_ringOk hr addr now) _ now
    · trivial
  | recv addr pay now =>
    simp only [rttAccess]
    split
    · exact fun r hr => rttRecvPeer_ringOk (renew_ringOk hr addr now) _ now
    · trivial
  | purge addr => trivial

theorem rttStep_ringOk {c : RttCtx} (h : ∀ i, RttRingOk (c.peers i)) (op : RttOp) (i : Nat) :
    RttRingOk ((rttStep c op).1.peers i) := by
  rw [(rttStep_access c op).1]
  exact LruTable.Access.apply_keeps rttRingOk_zero (rttAccess_keeps c.enabled op) h i

/-! ## The counters -/

/-- Every advancing acknowledgement ends as a sample or in one of three counters. -/
def RttStats.Balanced (st : RttStats) : Prop :=
  st.acksSeen = st.samples + st.unmatched + st.discardedAmbig + st.discardedRange

theorem rttGetPeer_balanced {c : RttCtx} (h : c.st.Balanced) (addr : U32) (now : U64) :
    (rttGetPeer c addr now).1.st.Balanced := by
  simp only [rttGetPeer]
  split
  · exact h
  · exact h

theorem rttCountSend_balanced {st : RttStats} (h : st.Balanced) (s : RttSent) : (rttCountSend st s).Balanced := by
  unfold RttStats.Balanced at h ⊢
  unfold rttCountSend
  cases s.ambiguous <;> cases s.evicted <;> cases s.tracked <;> exact h

theorem rttCountRecv_balanced {st : RttStats} (h : st.Balanced) (o : RttOutcome) : (rttCountRecv st o).Balanced := by
  unfold RttStats.Balanced at h ⊢
  cases o with
  | ignored => exact h
  | repeated => exact h
  | unmatched =>
    change st.acksSeen + 1 = st.samples + (st.unmatched + 1) + st.discardedAmbig + st.discardedRange
    omega
  | discardedAmbig =>
    change st.acksSeen + 1 = st.samples + st.unmatched + (st.discardedAmbig + 1) + st.discardedRange
    omega
  | discardedRange =>
    change st.acksSeen + 1 = st.samples + st.unmatched + st.discardedAmbig + (st.discardedRange + 1)
    omega
  | sample ms =>
    change st.acksSeen + 1 = st.samples + 1 + st.unmatched + st.discardedAmbig + st.discardedRange
    omega

theorem rttStep_balanced {c : RttCtx} (h : c.st.Balanced) (op : RttOp) : (rttStep c op).1.st.Balanced := by
  cases op with
  | send addr pay now =>
    simp only [rttStep, rttOnSend]
    split
    · exact h
    · split
      · exact h
      · exact rttCountSend_balanced (rttGetPeer_balanced h addr now) _
  | recv addr pay now =>
    simp only [rttStep, rttOnRecv]
    split
    · exact h
    · exact rttCountRecv_balanced (rttGetPeer_balanced h addr now) _
  | purge addr => exact h

/-! ## Every reachable state -/

/-- **The invariant.** After any sends, receipts and purges, whatever their payloads, peers and clocks, every record's
ring has its flags in step with `head` and `used` and no sequence twice, no address has two records, and the counters
of the receipts add up. -/
theorem rtt_invariant (enabled : Bool) (ops : List RttOp) :
    let c := final rttStep (rttInit enabled) ops
    (∀ i, i < kRttPeers → RttRingOk (c.peers i)) ∧
      (∀ i j, i < kRttPeers → j < kRttPeers → (c.peers i).addr = (c.peers j).addr → (c.peers i).addr ≠ 0 → i = j) ∧
      c.st.acksSeen = c.st.samples + c.st.unmatched + c.st.discardedAmbig + c.st.discardedRange := by
  intro c
  have hring : ∀ i, RttRingOk (c.peers i) :=
    final_inv (P := fun c : RttCtx => ∀ i, RttRingOk (c.peers i)) (fun _ => rttRingOk_zero)
      (fun _ op h => rttStep_ringOk h op) ops
  have hdistinct : c.Distinct := final_inv (rttInit_distinct enabled) (fun _ _ h => rttStep_distinct h) ops
  have hbalanced : c.st.Balanced :=
    final_inv (P := fun c : RttCtx => c.st.Balanced) (show (rttInit enabled).st.Balanced from rfl)
      (fun _ op h => rttStep_balanced h op) ops
  exact ⟨fun i _ => hring i, hdistinct, hbalanced⟩

end BzNet
