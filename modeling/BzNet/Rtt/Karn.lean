import BzNet.Rtt.Record

/-!
# What a sample measures

Runs of the sampler from `rttInit`. Every outstanding slot is backed by the send that took it
(`slot_backed`), at which its sequence was not outstanding; a clean slot has seen no send of its
sequence since.

A sample is therefore the time since a send of the acknowledged sequence, whatever the run. That it was
the only send in the life of the record is not: a sequence that was retired or pushed out of the ring and
is sent again takes a clean slot. `rtt_sample_karn` gives the exact condition.
-/

namespace BzNet

open Machine

section Run
variable (enabled : Bool) (ops : List RttOp)

def rttAt (k : Nat) : RttCtx := stateAt rttStep (rttInit enabled) ops k

/-- The answers, `none` for the calls that give none. -/
def rttOutcomes : List (Option RttOutcome) := outputs rttStep (rttInit enabled) ops

abbrev rttRecordAt (k : Nat) (addr : U32) : Option RttPeer := rttRecord (rttAt enabled ops k) addr

/-- Call `k` reports a reliable send of `seq` to `addr` at time `t`. -/
def RttSendAt (k : Nat) (addr seq : U32) (t : U64) : Prop :=
  ∃ pay, ops[k]? = some (.send addr pay t) ∧ Sequenced pay ∧ reorderSeqFromPayload pay = seq

/-- Call `b` created the record that `addr` still has before call `n`. -/
structure LiveSince (b n : Nat) (addr : U32) : Prop where
  before : b < n
  absent : rttRecordAt enabled ops b addr = none
  kept : ∀ k, b < k → k ≤ n → rttRecordAt enabled ops k addr ≠ none

/-- The slot `s` of `addr` was taken by call `m`. -/
structure SlotTaken (m n : Nat) (addr : U32) (s : RttSlot) : Prop where
  before : m < n
  sent : RttSendAt ops m addr s.seq s.sentMs
  new : ¬ Outstanding (rttRecordAt enabled ops m addr) s.seq
  not_resent : s.ambiguous = false → ∀ k, m < k → k < n → ∀ t, ¬ RttSendAt ops k addr s.seq t
  kept : ∀ k, m < k → k ≤ n → rttRecordAt enabled ops k addr ≠ none

end Run

section
variable {enabled : Bool} {ops : List RttOp} {addr : U32}

theorem rttAt_enabled (enabled : Bool) (ops : List RttOp) (k : Nat) : (rttAt enabled ops k).enabled = enabled :=
  stateAt_inv (P := fun c : RttCtx => c.enabled = enabled) rfl (fun _ _ h => rttStep_enabled.trans h) ops k

theorem rttAt_distinct (enabled : Bool) (ops : List RttOp) (k : Nat) : (rttAt enabled ops k).Distinct :=
  stateAt_inv (P := RttCtx.Distinct) (rttInit_distinct enabled) (fun _ _ h => rttStep_distinct h) ops k

theorem rttOutcomes_get {k : Nat} {op : RttOp} (h : ops[k]? = some op) :
    (rttOutcomes enabled ops)[k]? = some (rttAnswer enabled (rttRecordAt enabled ops k op.addr) op) := by
  rw [rttOutcomes, outputs_getElem? _ _ h, ← rttAt, (rttStep_access _ op).2, rttAt_enabled]

theorem rttRecordAt_zero (h : addr ≠ 0) : rttRecordAt enabled ops 0 addr = none := by
  rw [rttRecordAt, rttAt, stateAt_zero]
  exact rttRecord_init enabled h

theorem rttRecordAt_self (enabled : Bool) (hne : addr ≠ 0) {k : Nat} {op : RttOp} (h : ops[k]? = some op)
    (hop : op.addr = addr) : rttRecordAt enabled ops (k + 1) addr =
      (rttAccess enabled op).onRecord (rttRecordAt enabled ops k addr) := by
  subst hop
  have hstep := rttStep_record (rttAt_distinct enabled ops k) hne
  rwa [rttAt_enabled, rttAt, ← stateAt_succ _ _ h] at hstep

theorem rttRecordAt_of_ne (enabled : Bool) (hne : addr ≠ 0) {k : Nat} {op : RttOp} (h : ops[k]? = some op)
    (hop : op.addr ≠ addr) : rttRecordAt enabled ops (k + 1) addr = rttRecordAt enabled ops k addr ∨
      rttRecordAt enabled ops (k + 1) addr = none := by
  have hstep := rttStep_record_of_ne (rttAt_distinct enabled ops k) hne (Ne.symm hop)
  rwa [rttAt, ← stateAt_succ _ _ h] at hstep

theorem rttRecordAt_ok (enabled : Bool) (hne : addr ≠ 0) {k : Nat} (hk : k ≤ ops.length) :
    ∀ p, rttRecordAt enabled ops k addr = some p → OutstandingOk p.outstanding := by
  induction k with
  | zero =>
    intro p hp
    rw [rttRecordAt_zero hne] at hp
    cases hp
  | succ k ih =>
    have hop := List.getElem?_eq_getElem (show k < ops.length by omega)
    have ih := ih (by omega)
    by_cases haddr : (ops[k]).addr = addr
    · rw [rttRecordAt_self enabled hne hop haddr]
      exact rttRecord_ok enabled ih
    · intro p hp
      rcases rttRecordAt_of_ne enabled hne hop haddr with h | h
      · exact ih p (h ▸ hp)
      · rw [h] at hp
        cases hp

/-! ## Every slot is backed by a send -/

/-- One more call that keeps the record and, for a clean slot, does not resend. -/
theorem SlotTaken.extend {m n : Nat} {s s' : RttSlot} (h : SlotTaken enabled ops m n addr s')
    (hseq : s'.seq = s.seq) (hsent : s'.sentMs = s.sentMs)
    (hclean : s.ambiguous = false → s'.ambiguous = false ∧ ∀ t, ¬ RttSendAt ops n addr s.seq t)
    (hk : rttRecordAt enabled ops (n + 1) addr ≠ none) : SlotTaken enabled ops m (n + 1) addr s where
  before := Nat.lt_succ_of_lt h.before
  sent := hseq ▸ hsent ▸ h.sent
  new := hseq ▸ h.new
  not_resent hamb k h1 h2 := by
    rcases Nat.lt_succ_iff_lt_or_eq.mp h2 with hlt | rfl
    · exact hseq ▸ h.not_resent (hclean hamb).1 k h1 hlt
    · exact (hclean hamb).2
  kept k h1 h2 := by
    rcases Nat.le_succ_iff.mp h2 with hle | rfl
    · exact h.kept k h1 hle
    · exact hk

theorem slot_backed (hne : addr ≠ 0) {n : Nat} (hn : n ≤ ops.length) :
    ∀ p, rttRecordAt true ops n addr = some p → ∀ s ∈ p.outstanding, ∃ m, SlotTaken true ops m n addr s := by
  induction n with
  | zero =>
    intro p hp
    rw [rttRecordAt_zero hne] at hp
    cases hp
  | succ n ih =>
    intro p hp s hs
    have hop := List.getElem?_eq_getElem (show n < ops.length by omega)
    have ih := ih (by omega)
    have hkept : rttRecordAt true ops (n + 1) addr ≠ none := by simp [hp]
    by_cases haddr : (ops[n]).addr = addr
    · have hrec := rttRecordAt_self true hne hop haddr
      have hok := rttRecordAt_ok true hne (show n ≤ ops.length by omega)
      rcases rttRecord_slot (haddr ▸ hne) hok (hrec ▸ hp) hs with
        ⟨q, hq, s', hs', hseq, hsent, hclean⟩ | ⟨pay, hpay, hsd, hseq, hnew⟩
      · obtain ⟨m, hm⟩ := ih q hq s' hs'
        refine ⟨m, hm.extend hseq hsent (fun hamb => ⟨(hclean hamb).1, ?_⟩) hkept⟩
        rintro t ⟨pay, hpay, hsd, hseq'⟩
        exact (hclean hamb).2 addr pay t (Option.some.inj (hop.symm.trans hpay)) hsd hseq'
      · refine ⟨n, Nat.lt_succ_self n, ⟨pay, ?_, hsd, hseq⟩, hnew, ?_, ?_⟩
        · rw [hop, hpay, haddr]
        · intro _ k h1 h2
          omega
        · intro k h1 h2
          obtain rfl : k = n + 1 := by omega
          exact hkept
    · have hsame : rttRecordAt true ops (n + 1) addr = rttRecordAt true ops n addr :=
        (rttRecordAt_of_ne true hne hop haddr).resolve_right hkept
      obtain ⟨m, hm⟩ := ih p (hsame ▸ hp) s hs
      refine ⟨m, hm.extend rfl rfl (fun hamb => ⟨hamb, ?_⟩) hkept⟩
      rintro t ⟨pay, hpay, -⟩
      exact haddr (by rw [Option.some.inj (hop.symm.trans hpay)]; rfl)

end

/-! ## The main result -/

section
variable {enabled : Bool} {ops : List RttOp} {addr : U32}

theorem sample_slot {n : Nat} {pay : Payload} {now : U64} {ms : U32} (h : ops[n]? = some (.recv addr pay now))
    (hs : (rttOutcomes enabled ops)[n]? = some (some (.sample ms))) :
    enabled = true ∧ addr ≠ 0 ∧ rttRecordAt true ops n addr ≠ none ∧
      ∃ m s, SlotTaken true ops m n addr s ∧ s.seq = reorderAckFromPayload pay ∧ s.ambiguous = false ∧
        s.sentMs ≤ now ∧ ms.toNat = now.toNat - s.sentMs.toNat := by
  have hlen : n < ops.length := (List.getElem?_eq_some_iff.mp h).1
  rw [rttOutcomes_get h, Option.some.injEq] at hs
  obtain ⟨hen, a, pay', now', hop, hne, p, hp, s, hmem, hseq, hamb, hle, hms⟩ := rttAnswer_sample hs
  obtain ⟨rfl, rfl, rfl⟩ := RttOp.recv.inj hop
  subst hen
  have hp : rttRecordAt true ops n addr = some p := hp
  obtain ⟨m, hm⟩ := slot_backed hne (Nat.le_of_lt hlen) p hp s hmem
  exact ⟨rfl, hne, by simp [hp], m, s, hm, hseq, hamb, hle, hms⟩

theorem exists_liveSince (hne : addr ≠ 0) {n : Nat} (h : rttRecordAt enabled ops n addr ≠ none) :
    ∃ b, LiveSince enabled ops b n addr := by
  obtain ⟨b, hb, habs, hkept⟩ :=
    exists_last (P := fun k => rttRecordAt enabled ops k addr = none) (rttRecordAt_zero hne) h
  exact ⟨b, hb, habs, hkept⟩

end

/-- **Karn's rule, as far as it holds.** A sample is the time since a reliable send, in the life of the
record, of the sequence it acknowledges. That send was the only one in the life of the record exactly when
every send of the sequence in that life was its first or found it still outstanding. -/
theorem rtt_sample_karn (enabled : Bool) (ops : List RttOp) (n : Nat) (addr : U32) (pay : Payload) (now : U64)
    (ms : U32) (h : ops[n]? = some (.recv addr pay now))
    (hs : (rttOutcomes enabled ops)[n]? = some (some (.sample ms))) :
    ∃ b, LiveSince enabled ops b n addr ∧
      (∃ m t, b ≤ m ∧ m < n ∧ RttSendAt ops m addr (reorderAckFromPayload pay) t ∧ t.toNat ≤ now.toNat ∧
        ms.toNat = now.toNat - t.toNat) ∧
      ((∃! m, b ≤ m ∧ m < n ∧ ∃ t, RttSendAt ops m addr (reorderAckFromPayload pay) t) ↔
        ∀ m t, b ≤ m → m < n → RttSendAt ops m addr (reorderAckFromPayload pay) t →
          Outstanding (rttRecordAt enabled ops m addr) (reorderAckFromPayload pay) ∨
            ∀ k, b ≤ k → k < m → ∀ t', ¬ RttSendAt ops k addr (reorderAckFromPayload pay) t') := by
  obtain ⟨rfl, hne, hlive, m, s, hm, hseq, hamb, hle, hms⟩ := sample_slot h hs
  obtain ⟨b, hb⟩ := exists_liveSince hne hlive
  rw [← hseq]
  have hbm : b ≤ m := by
    by_contra hlt
    exact hm.kept b (by omega) (Nat.le_of_lt hb.before) hb.absent
  refine ⟨b, hb, ⟨m, s.sentMs, hbm, hm.before, hm.sent, BitVec.le_def.mp hle, hms⟩, ?_, ?_⟩
  · rintro ⟨m', -, huniq⟩ i t hbi hin hi
    refine Or.inr fun k hbk hki t' hk => ?_
    have h1 := huniq i ⟨hbi, hin, t, hi⟩
    have h2 := huniq k ⟨hbk, by omega, t', hk⟩
    omega
  · intro hcond
    refine ⟨m, ⟨hbm, hm.before, s.sentMs, hm.sent⟩, ?_⟩
    rintro i ⟨hbi, hin, t, hi⟩
    rcases Nat.lt_trichotomy i m with hlt | heq | hgt
    · -- a send before the one that took the slot: that one was neither first nor still outstanding
      rcases hcond m s.sentMs hbm hm.before hm.sent with hout | hfirst
      · exact absurd hout hm.new
      · exact absurd hi (hfirst i hbi hlt t)
    · exact heq
    · exact absurd hi (hm.not_resent hamb i hgt hin t)

/-- One send and its acknowledgement. -/
theorem rtt_sample_karn_roundTrip :
    let ops : List RttOp := [.send 1 (makePkt true 5 0) 1000, .recv 1 (makePkt true 1 5) 1042]
    ∃ b, LiveSince true ops b 1 1 ∧
      (∃ m t, b ≤ m ∧ m < 1 ∧ RttSendAt ops m 1 (reorderAckFromPayload (makePkt true 1 5)) t ∧
        t.toNat ≤ (1042 : U64).toNat ∧ (42 : U32).toNat = (1042 : U64).toNat - t.toNat) ∧
      ((∃! m, b ≤ m ∧ m < 1 ∧ ∃ t, RttSendAt ops m 1 (reorderAckFromPayload (makePkt true 1 5)) t) ↔
        ∀ m t, b ≤ m → m < 1 → RttSendAt ops m 1 (reorderAckFromPayload (makePkt true 1 5)) t →
          Outstanding (rttRecordAt true ops m 1) (reorderAckFromPayload (makePkt true 1 5)) ∨
            ∀ k, b ≤ k → k < m → ∀ t', ¬ RttSendAt ops k 1 (reorderAckFromPayload (makePkt true 1 5)) t') :=
  rtt_sample_karn true _ 1 1 _ 1042 42 rfl (by decide)

/-- A sequence retired by the acknowledgement of a younger slot, then resent and acknowledged: it is timed
although it was sent twice. -/
theorem rtt_sample_twiceSent :
    let ops : List RttOp := [.send 1 (makePkt true 10 0) 1000, .send 1 (makePkt true 3 0) 1001,
      .recv 1 (makePkt true 1 3) 1050, .send 1 (makePkt true 10 0) 2000, .recv 1 (makePkt true 2 10) 2007]
    (rttOutcomes true ops)[4]? = some (some (.sample 7)) ∧
      (∀ k, 0 < k → k ≤ 4 → rttRecordAt true ops k 1 ≠ none) ∧
      RttSendAt ops 0 1 10 1000 ∧ RttSendAt ops 3 1 10 2000 := by
  refine ⟨by decide, ?_, ⟨makePkt true 10 0, rfl, by decide, by decide⟩,
    ⟨makePkt true 10 0, rfl, by decide, by decide⟩⟩
  have hsome : ∀ k : Fin 5, 0 < k.val → (rttRecordAt true [.send 1 (makePkt true 10 0) 1000,
      .send 1 (makePkt true 3 0) 1001, .recv 1 (makePkt true 1 3) 1050, .send 1 (makePkt true 10 0) 2000,
      .recv 1 (makePkt true 2 10) 2007] k.val 1).isSome = true := by decide
  intro k h1 h2
  exact Option.isSome_iff_ne_none.mp (hsome ⟨k, by omega⟩ h1)

/-! ## Runs from a state without the record -/

theorem rttRun_distinct {c : RttCtx} (hd : c.Distinct) (ops : List RttOp) : (final rttStep c ops).Distinct :=
  final_inv hd (fun _ _ h => rttStep_distinct h) ops

theorem slot_sentSince {c : RttCtx} (hd : c.Distinct) {addr : U32} (hne : addr ≠ 0) (hnone : rttRecord c addr = none)
    (ops : List RttOp) : ∀ p, rttRecord (final rttStep c ops) addr = some p → OutstandingOk p.outstanding ∧
      ∀ s ∈ p.outstanding, ∃ pay, RttOp.send addr pay s.sentMs ∈ ops ∧ Sequenced pay ∧
        reorderSeqFromPayload pay = s.seq := by
  induction ops using List.reverseRecOn with
  | nil =>
    intro p hp
    rw [final_nil, hnone] at hp
    cases hp
  | append_singleton ops op ih =>
    have hd' := rttRun_distinct hd ops
    have hkeep : ∀ {s : RttSlot}, (∃ pay, RttOp.send addr pay s.sentMs ∈ ops ∧ Sequenced pay ∧
        reorderSeqFromPayload pay = s.seq) → ∃ pay, RttOp.send addr pay s.sentMs ∈ ops ++ [op] ∧ Sequenced pay ∧
          reorderSeqFromPayload pay = s.seq := fun ⟨pay, hmem, h⟩ => ⟨pay, List.mem_append_left _ hmem, h⟩
    intro p hp
    rw [final_concat] at hp
    by_cases haddr : op.addr = addr
    · have hrec := @rttStep_record _ op hd' (haddr ▸ hne)
      rw [haddr] at hrec
      rw [hrec] at hp
      refine ⟨rttRecord_ok _ (fun q hq => (ih q hq).1) p hp, fun s hs => ?_⟩
      cases hen : (final rttStep c ops).enabled with
      | false =>
        rw [hen] at hp
        exact hkeep ((ih p (rttAccess_off hp)).2 s hs)
      | true =>
        rw [hen] at hp
        rcases rttRecord_slot (haddr ▸ hne) (fun q hq => (ih q hq).1) hp hs with
          ⟨q, hq, s', hs', hseq, hsent, -⟩ | ⟨pay, hop, hpay, hseq, -⟩
        · rw [← hseq, ← hsent]
          exact hkeep ((ih q hq).2 s' hs')
        · exact ⟨pay, by simp [← haddr, ← hop], hpay, hseq⟩
    · rcases rttStep_record_of_ne hd' hne (Ne.symm haddr) with h | h
      · rw [h] at hp
        exact ⟨(ih p hp).1, fun s hs => hkeep ((ih p hp).2 s hs)⟩
      · rw [h] at hp
        cases hp

/-- A sample of an address that had no record at first is timed against a send since. -/
theorem sample_sentSince {c : RttCtx} (hd : c.Distinct) {addr : U32} (hnone : addr ≠ 0 → rttRecord c addr = none)
    (ops : List RttOp) {pay : Payload} {now : U64} {ms : U32}
    (h : (rttStep (final rttStep c ops) (.recv addr pay now)).2 = some (.sample ms)) :
    ∃ pay' t, RttOp.send addr pay' t ∈ ops ∧ Sequenced pay' ∧
      reorderSeqFromPayload pay' = reorderAckFromPayload pay ∧ ms.toNat = now.toNat - t.toNat := by
  rw [(rttStep_access _ _).2] at h
  obtain ⟨-, a, pay₀, now₀, hop, hne, p, hp, s, hs, hseq, -, -, hms⟩ := rttAnswer_sample h
  obtain ⟨rfl, rfl, rfl⟩ := RttOp.recv.inj hop
  obtain ⟨pay', hmem, hpay', hseq'⟩ := (slot_sentSince hd hne (hnone hne) ops p hp).2 s hs
  exact ⟨pay', s.sentMs, hmem, hpay', hseq'.trans hseq, hms⟩

/-- A sample is timed against the last send of its sequence, which was not outstanding when it was sent. -/
theorem sample_last (calls : List RttOp) {addr : U32} {pay : Payload} {now : U64} {ms : U32}
    (h : (rttStep (final rttStep (rttInit true) calls) (.recv addr pay now)).2 = some (.sample ms)) :
    ∃ cs pay' t cs', calls = cs ++ RttOp.send addr pay' t :: cs' ∧ Sequenced pay' ∧
      reorderSeqFromPayload pay' = reorderAckFromPayload pay ∧ ms.toNat = now.toNat - t.toNat ∧
      ¬ Outstanding (rttRecord (final rttStep (rttInit true) cs) addr) (reorderAckFromPayload pay) ∧
      ∀ pay'' t', RttOp.send addr pay'' t' ∈ cs' → Sequenced pay'' →
        reorderSeqFromPayload pay'' ≠ reorderAckFromPayload pay := by
  have hop : (calls ++ [RttOp.recv addr pay now])[calls.length]? = some (.recv addr pay now) := by simp
  have hout : (rttOutcomes true (calls ++ [.recv addr pay now]))[calls.length]? = some (some (.sample ms)) := by
    rw [rttOutcomes, outputs_concat, List.getElem?_append_right (by simp), length_outputs, Nat.sub_self, h]
    rfl
  obtain ⟨-, -, -, m, s, hm, hseq, hamb, -, hms⟩ := sample_slot hop hout
  have hin : ∀ k, k < calls.length → (calls ++ [RttOp.recv addr pay now])[k]? = calls[k]? :=
    fun k hk => List.getElem?_append_left hk
  obtain ⟨pay', hsend, hpay', hseq'⟩ := hm.sent
  rw [hin m hm.before] at hsend
  have hnew := hm.new
  rw [rttRecordAt, rttAt, stateAt, List.take_append_of_le_length (Nat.le_of_lt hm.before), hseq] at hnew
  obtain ⟨hlt, hget⟩ := List.getElem?_eq_some_iff.mp hsend
  refine ⟨calls.take m, pay', s.sentMs, calls.drop (m + 1), ?_, hpay', hseq'.trans hseq, hms, hnew, ?_⟩
  · rw [← hget, List.getElem_cons_drop, List.take_append_drop]
  · intro pay'' t' hmem hpay'' heq
    obtain ⟨k, hk⟩ := List.mem_iff_getElem?.mp hmem
    rw [List.getElem?_drop] at hk
    have hk' := (List.getElem?_eq_some_iff.mp hk).1
    exact hm.not_resent hamb (m + 1 + k) (by omega) hk' t' ⟨pay'', (hin _ hk').trans hk, hpay'', heq.trans hseq.symm⟩

end BzNet
