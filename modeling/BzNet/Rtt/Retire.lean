import BzNet.Rtt.Karn

/-!
# What an acknowledgement retires

An acknowledgement covers every sequence at or below it. The sampler retires by position instead: the slots up to the
one that holds the acknowledged sequence, and none where no slot holds it. `rttRecvPeer_covers` says when the two are
the same.
-/

namespace BzNet

open Machine

/-- The slots sent after the acknowledged sequence, which the acknowledgement does not cover. -/
def notCovered (l : List RttSlot) (ack : U32) : List RttSlot := l.filter fun s => decide (0 < seqCmp s.seq ack)

/-- The outstanding slots are in the order of the acknowledgement: those before the one that holds it are covered,
those behind it are not; or none is covered. -/
def AckInOrder (l : List RttSlot) (ack : U32) : Prop :=
  (∃ before s behind, l = before ++ s :: behind ∧ s.seq = ack ∧ (∀ x ∈ before, ¬ 0 < seqCmp x.seq ack) ∧
    ∀ x ∈ behind, 0 < seqCmp x.seq ack) ∨
  ∀ s ∈ l, 0 < seqCmp s.seq ack

theorem drop_eq_filter_iff {α : Type} {P : α → Bool} (l : List α) (k : Nat) :
    l.drop k = l.filter P ↔ (∀ x ∈ l.take k, ¬ P x = true) ∧ ∀ x ∈ l.drop k, P x = true := by
  have hsplit : l.filter P = (l.take k).filter P ++ (l.drop k).filter P := by
    rw [← List.filter_append, List.take_append_drop]
  constructor
  · intro h
    have hrest : ∀ x ∈ l.drop k, P x = true := by
      intro x hx
      rw [h] at hx
      exact (List.mem_filter.mp hx).2
    rw [hsplit, List.filter_eq_self.mpr hrest] at h
    have hnil : (l.take k).filter P = [] := List.self_eq_append_left.mp h
    exact ⟨fun x hx => List.filter_eq_nil_iff.mp hnil x hx, hrest⟩
  · rintro ⟨hfirst, hrest⟩
    rw [hsplit, List.filter_eq_nil_iff.mpr hfirst, List.filter_eq_self.mpr hrest, List.nil_append]

theorem take_drop_of_split {α β : Type} {f : α → β} {l before behind : List α} {a : α} (hnodup : (l.map f).Nodup)
    (hl : l = before ++ a :: behind) {i : Nat} (hi : i < l.length) (hkey : f l[i] = f a) :
    l.take (i + 1) = before ++ [a] ∧ l.drop (i + 1) = behind := by
  have hlt : before.length < l.length := by rw [hl, List.length_append, List.length_cons]; omega
  have hat : l[before.length] = a := by simp [hl]
  have hsame : before.length = i := by
    have hb : before.length < (l.map f).length := by simpa using hlt
    have hi' : i < (l.map f).length := by simpa using hi
    have heq : (l.map f)[before.length] = (l.map f)[i] := by rw [List.getElem_map, List.getElem_map, hat, hkey]
    exact hnodup.getElem_inj_iff.mp heq
  subst hsame
  rw [hl, List.take_length_add_append, List.drop_length_add_append]
  exact ⟨rfl, rfl⟩

/-- The outstanding slots after an advancing acknowledgement. -/
theorem rttRecvPeer_outstanding {p : RttPeer} {ack : U32} (hadv : p.ackInit = true → 0 < seqCmp ack p.lastAck)
    (now : U64) :
    (rttRecvPeer p ack now).1.outstanding =
      p.outstanding.drop (((p.ring.find? fun s => s.seq == ack).map (· + 1)).getD 0) := by
  have hnew : ¬ (p.ackInit ∧ seqCmp ack p.lastAck ≤ 0) := fun h => by
    have := hadv h.1
    omega
  have hretire : ∀ n, (rttRetire p.ring n).toList = p.outstanding.drop n := rttRetire_toList p.ring
  simp only [rttRecvPeer, if_neg hnew]
  cases hf : p.ring.find? fun s => s.seq == ack with
  | none => exact List.drop_zero.symm
  | some i =>
    rw [Option.map_some, Option.getD_some]
    simp only
    repeat' split
    all_goals exact hretire (i + 1)

/-- **One acknowledgement** retires exactly what it covers when the slots are in its order. -/
theorem rttRecvPeer_covers {p : RttPeer} (hok : OutstandingOk p.outstanding) {ack : U32}
    (hadv : p.ackInit = true → 0 < seqCmp ack p.lastAck) (now : U64) :
    (rttRecvPeer p ack now).1.outstanding = notCovered p.outstanding ack ↔ AckInOrder p.outstanding ack := by
  have hself : ¬ 0 < seqCmp ack ack := by simp [seqCmp]
  rw [rttRecvPeer_outstanding hadv, notCovered, drop_eq_filter_iff]
  simp only [decide_eq_true_iff]
  cases hf : p.ring.find? fun s => s.seq == ack with
  | none =>
    have hnone : ∀ s ∈ p.outstanding, s.seq ≠ ack := fun s hs => by simpa using RingBuffer.find?_none hf hs
    rw [Option.map_none, Option.getD_none, List.take_zero, List.drop_zero]
    constructor
    · rintro ⟨-, hall⟩
      exact Or.inr hall
    · rintro (⟨before, s, behind, hl, hs, -⟩ | hall)
      · exact absurd hs (hnone s (hl ▸ List.mem_append_right _ List.mem_cons_self))
      · exact ⟨fun _ h => absurd h List.not_mem_nil, hall⟩
  | some i =>
    obtain ⟨hi, hseq⟩ := RingBuffer.find?_some hf
    have hseq : (p.ring.get i).seq = ack := beq_iff_eq.mp hseq
    have hlen : i < p.outstanding.length := by simpa using hi
    have hget : p.outstanding[i] = p.ring.get i := RingBuffer.getElem_toList _ hlen
    have hcut : p.outstanding = p.outstanding.take i ++ p.ring.get i :: p.outstanding.drop (i + 1) := by
      rw [← hget, List.getElem_cons_drop, List.take_append_drop]
    rw [Option.map_some, Option.getD_some]
    constructor
    · rintro ⟨hfirst, hrest⟩
      refine Or.inl ⟨p.outstanding.take i, p.ring.get i, p.outstanding.drop (i + 1), hcut, hseq, fun x hx => ?_, hrest⟩
      exact hfirst x ((List.take_subset_take_left _ (Nat.le_succ i)) hx)
    · rintro (⟨before, s, behind, hl, hs, hbefore, hbehind⟩ | hall)
      · obtain ⟨htake, hdrop⟩ := take_drop_of_split hok.nodup hl hlen (by rw [hget, hs, hseq])
        rw [htake, hdrop]
        refine ⟨fun x hx => ?_, hbehind⟩
        rcases List.mem_append.mp hx with h | h
        · exact hbefore x h
        · rw [List.mem_singleton.mp h, hs]
          exact hself
      · have := hall _ (hget ▸ List.getElem_mem hlen)
        rw [hseq] at this
        exact absurd this hself

def outstandingOf (c : RttCtx) (addr : U32) : List RttSlot := ((rttRecord c addr).map RttPeer.outstanding).getD []

theorem rttRecordAt_off {ops : List RttOp} {addr : U32} (hne : addr ≠ 0) {k : Nat} (hk : k ≤ ops.length) :
    rttRecordAt false ops k addr = none := by
  induction k with
  | zero => exact rttRecordAt_zero hne
  | succ k ih =>
    have hop := List.getElem?_eq_getElem (show k < ops.length by omega)
    have ih := ih (by omega)
    by_cases haddr : (ops[k]).addr = addr
    · rw [rttRecordAt_self false hne hop haddr, ih]
      cases hr : (rttAccess false ops[k]).onRecord none with
      | none => rfl
      | some q => cases rttAccess_off hr
    · rcases rttRecordAt_of_ne false hne hop haddr with h | h
      · rw [h, ih]
      · exact h

/-- **Cumulative acknowledgements.** In a reachable state, a datagram of a tracked peer whose acknowledgement advances
leaves exactly the slots it does not cover, in their order, precisely when the outstanding slots are in its order. -/
theorem rtt_ack_covers_iff (enabled : Bool) (ops : List RttOp) (addr : U32) (hne : addr ≠ 0) (p : RttPeer)
    (hp : rttRecord (final rttStep (rttInit enabled) ops) addr = some p) (pay : Payload)
    (hlen : kReorderSeqMinPay ≤ pay.length)
    (hadv : p.ackInit = true → 0 < seqCmp (reorderAckFromPayload pay) p.lastAck) (now : U64) :
    outstandingOf (rttOnRecv (final rttStep (rttInit enabled) ops) addr pay now).1 addr =
        notCovered p.outstanding (reorderAckFromPayload pay) ↔
      AckInOrder p.outstanding (reorderAckFromPayload pay) := by
  have hat : final rttStep (rttInit enabled) ops = rttAt enabled ops ops.length := by rw [rttAt, stateAt_length]
  rw [hat] at hp ⊢
  have hen : enabled = true := by
    cases enabled with
    | true => rfl
    | false =>
      have hnone := @rttRecordAt_off ops addr hne _ (Nat.le_refl _)
      cases hp.symm.trans hnone
  have hrec : rttRecord (rttOnRecv (rttAt enabled ops ops.length) addr pay now).1 addr =
      (rttAccess (rttAt enabled ops ops.length).enabled (.recv addr pay now)).onRecord
        (rttRecord (rttAt enabled ops ops.length) addr) :=
    @rttStep_record _ (.recv addr pay now) (rttAt_distinct enabled ops ops.length) hne
  rw [rttAt_enabled, hp, rttAccess, if_pos ⟨hen, hne, hlen⟩] at hrec
  rw [outstandingOf, hrec]
  exact @rttRecvPeer_covers (LruTable.renew (some p) addr now) (rttRecordAt_ok enabled hne (Nat.le_refl _) p hp) _ hadv
    now

/-- Four sequences in order, the third acknowledged. -/
theorem rtt_ack_covers_iff_inOrder :
    let c := final rttStep (rttInit true)
      [.send 1 (makePkt true 5 0) 1000, .send 1 (makePkt true 6 0) 1010, .send 1 (makePkt true 7 0) 1020,
        .send 1 (makePkt true 8 0) 1030]
    ∃ p, rttRecord c 1 = some p ∧
      (outstandingOf (rttOnRecv c 1 (makePkt false 0 7) 1100).1 1 = notCovered p.outstanding 7 ↔
        AckInOrder p.outstanding 7) := by
  intro c
  have hsome : (rttRecord c 1).isSome = true := by decide +kernel
  obtain ⟨p, hp⟩ := Option.isSome_iff_exists.mp hsome
  have hinit : (rttRecord c 1).map RttPeer.ackInit = some false := by decide +kernel
  rw [hp] at hinit
  refine ⟨p, hp, rtt_ack_covers_iff true _ 1 (by decide) p hp (makePkt false 0 7) (by decide) (fun h => ?_) 1100⟩
  rw [Option.map_some, h] at hinit
  cases hinit

/-- Sent out of order: the acknowledgement of `10` retires `11`, which it does not cover. And an acknowledgement that
no slot holds retires nothing. -/
theorem rtt_ack_covers_outOfOrder :
    let c := final rttStep (rttInit true) [.recv 1 (makePkt false 0 5) 900, .send 1 (makePkt true 11 0) 1000,
      .send 1 (makePkt true 10 0) 1010]
    ∃ p, rttRecord c 1 = some p ∧ p.ackInit = true ∧ p.lastAck = 5 ∧
      ((notCovered p.outstanding 10).map RttSlot.seq = [11] ∧
        (outstandingOf (rttOnRecv c 1 (makePkt false 0 10) 1100).1 1).map RttSlot.seq = []) ∧
      ((notCovered p.outstanding 12).map RttSlot.seq = [] ∧
        (outstandingOf (rttOnRecv c 1 (makePkt false 0 12) 1100).1 1).map RttSlot.seq = [11, 10]) := by
  intro c
  have hsome : (rttRecord c 1).isSome = true := by decide +kernel
  obtain ⟨p, hp⟩ := Option.isSome_iff_exists.mp hsome
  have hlast : (rttRecord c 1).map (fun p => (p.ackInit, p.lastAck)) = some (true, 5) := by decide +kernel
  have hcovered : (rttRecord c 1).map (fun p => ((notCovered p.outstanding 10).map RttSlot.seq,
      (notCovered p.outstanding 12).map RttSlot.seq)) = some ([11], []) := by decide +kernel
  rw [hp] at hlast hcovered
  obtain ⟨hinit, hack⟩ := Prod.mk.inj (Option.some.inj hlast)
  obtain ⟨hten, htwelve⟩ := Prod.mk.inj (Option.some.inj hcovered)
  exact ⟨p, hp, hinit, hack, ⟨hten, by decide +kernel⟩, htwelve, by decide +kernel⟩

end BzNet
