import BzNet.Dampen.Record

/-!
# What a suppression proves

Runs of the suppressor from `dampenInit`. Every entry of a record is backed by the call that sent it
(`backed`), and nothing since has sent the sequence again, purged the record or evicted it (`LastSend`). A
suppressed datagram is therefore a copy of one that did go out less than `kDampenMaxMs` earlier.

Clock readings are differenced in 64 bits, as the code does it; `Serial.le_of_elapsed_lt` turns the
difference into the ordinary one once the clock has passed the ceiling.
-/

namespace BzNet

open Machine

section Run
variable (enabled : Bool) (ops : List DampenOp)

def dampenAt (k : Nat) : DampenCtx := stateAt dampenStep (dampenInit enabled) ops k

/-- The answers, `none` for the calls that give none. -/
def dampenAnswers : List (Option DampenDecision) := outputs dampenStep (dampenInit enabled) ops

def SentAt (k : Nat) (addr seq : U32) (t : U64) : Prop :=
  (∃ pay, ops[k]? = some (.admission addr pay t) ∧ Sequenced pay ∧ reorderSeqFromPayload pay = seq) ∧
    (dampenAnswers enabled ops)[k]? = some (some .send)

def PurgedAt (k : Nat) (addr : U32) : Prop := ops[k]? = some (.purgePeer addr)

/-- The record of `addr` before call `k`. -/
abbrev recordAt (k : Nat) (addr : U32) : Option DampenPeer := dampenRecord (dampenAt enabled ops k) addr

/-- Call `m` sent `seq` to `addr` at `t`, and up to call `n` the record has been kept and the sequence
has not been sent again. -/
structure LastSend (m n : Nat) (addr seq : U32) (t : U64) : Prop where
  before : m < n
  sent : SentAt enabled ops m addr seq t
  not_resent : ∀ k, m < k → k < n → ∀ t', ¬ SentAt enabled ops k addr seq t'
  not_purged : ∀ k, m < k → k < n → ¬ PurgedAt ops k addr
  kept : ∀ k, m < k → k ≤ n → recordAt enabled ops k addr ≠ none

end Run

section
variable {enabled : Bool} {ops : List DampenOp} {addr : U32}

theorem dampenAt_enabled (enabled : Bool) (ops : List DampenOp) (k : Nat) : (dampenAt enabled ops k).enabled = enabled :=
  stateAt_inv (P := fun c : DampenCtx => c.enabled = enabled) rfl
    (fun _ _ h => dampenStep_enabled.trans h) ops k

theorem dampenAt_distinct (enabled : Bool) (ops : List DampenOp) (k : Nat) : (dampenAt enabled ops k).Distinct :=
  stateAt_inv (P := DampenCtx.Distinct) (dampenInit_distinct enabled) (fun _ _ h => dampenStep_distinct h) ops k

theorem dampenAt_succ {k : Nat} {op : DampenOp} (h : ops[k]? = some op) :
    dampenAt enabled ops (k + 1) = (dampenStep (dampenAt enabled ops k) op).1 :=
  stateAt_succ _ _ h

theorem dampenAnswers_get {k : Nat} {op : DampenOp} (h : ops[k]? = some op) :
    (dampenAnswers enabled ops)[k]? = some (dampenStep (dampenAt enabled ops k) op).2 :=
  outputs_getElem? _ _ h

theorem recordAt_zero (h : addr ≠ 0) : recordAt enabled ops 0 addr = none := by
  rw [recordAt, dampenAt, stateAt_zero]
  exact dampenRecord_init enabled h

theorem recordAt_self (hne : addr ≠ 0) {k : Nat} {op : DampenOp} (h : ops[k]? = some op) (hop : op.addr = addr) :
    recordAt enabled ops (k + 1) addr = (dampenRecordStep enabled (recordAt enabled ops k addr) op).1 ∧
      (dampenAnswers enabled ops)[k]? = some (dampenRecordStep enabled (recordAt enabled ops k addr) op).2 := by
  subst hop
  have hstep := dampenStep_record (dampenAt_distinct enabled ops k) hne
  rw [dampenAt_enabled] at hstep
  rw [recordAt, dampenAt_succ h, dampenAnswers_get h, hstep.1, hstep.2]
  exact ⟨rfl, rfl⟩

theorem recordAt_of_ne (hne : addr ≠ 0) {k : Nat} {op : DampenOp} (h : ops[k]? = some op) (hop : op.addr ≠ addr) :
    recordAt enabled ops (k + 1) addr = recordAt enabled ops k addr ∨ recordAt enabled ops (k + 1) addr = none := by
  rw [recordAt, dampenAt_succ h]
  exact dampenStep_record_of_ne (dampenAt_distinct enabled ops k) hne (Ne.symm hop)

theorem recordAt_ok (hne : addr ≠ 0) {k : Nat} (hk : k ≤ ops.length) :
    ∀ p, recordAt enabled ops k addr = some p → RetainedOk p.retained := by
  induction k with
  | zero =>
    intro p hp
    rw [recordAt_zero hne] at hp
    cases hp
  | succ k ih =>
    have hop := List.getElem?_eq_getElem (show k < ops.length by omega)
    have ih := ih (by omega)
    by_cases haddr : (ops[k]).addr = addr
    · rw [(recordAt_self hne hop haddr).1]
      exact dampenRecordStep_ok enabled ih
    · intro p hp
      rcases @recordAt_of_ne enabled _ _ hne _ _ hop haddr with h | h
      · exact ih p (h ▸ hp)
      · rw [h] at hp
        cases hp

/-! ## Every entry is backed by a send -/

/-- One more call that neither resends nor purges. -/
theorem LastSend.extend {m n : Nat} {seq : U32} {t : U64} (h : LastSend enabled ops m n addr seq t)
    (hs : ∀ t', ¬ SentAt enabled ops n addr seq t') (hp : ¬ PurgedAt ops n addr)
    (hk : recordAt enabled ops (n + 1) addr ≠ none) : LastSend enabled ops m (n + 1) addr seq t where
  before := Nat.lt_succ_of_lt h.before
  sent := h.sent
  not_resent k h1 h2 := by
    rcases Nat.lt_succ_iff_lt_or_eq.mp h2 with hlt | rfl
    · exact h.not_resent k h1 hlt
    · exact hs
  not_purged k h1 h2 := by
    rcases Nat.lt_succ_iff_lt_or_eq.mp h2 with hlt | rfl
    · exact h.not_purged k h1 hlt
    · exact hp
  kept k h1 h2 := by
    rcases Nat.le_succ_iff.mp h2 with hle | rfl
    · exact h.kept k h1 hle
    · exact hk

/-- **Backing.** An entry of a record is the last send of its sequence, with nothing forgotten since. -/
theorem backed (hne : addr ≠ 0) {n : Nat} (hn : n ≤ ops.length) :
    ∀ p, recordAt true ops n addr = some p → ∀ e ∈ p.retained,
      ∃ m, LastSend true ops m n addr e.seq e.lastSentMs := by
  induction n with
  | zero =>
    intro p hp
    rw [recordAt_zero hne] at hp
    cases hp
  | succ n ih =>
    intro p hp e he
    have hop := List.getElem?_eq_getElem (show n < ops.length by omega)
    have ih := ih (by omega)
    have hkept : recordAt true ops (n + 1) addr ≠ none := by simp [hp]
    by_cases haddr : (ops[n]).addr = addr
    · obtain ⟨hrec, hans⟩ := @recordAt_self true _ _ hne _ _ hop haddr
      have hok := @recordAt_ok true _ _ hne _ (show n ≤ ops.length by omega)
      rcases dampenRecordStep_entry hok (hrec ▸ hp) he with ⟨q, hq, hmem, hnp, hns⟩ | ⟨pay, hpay, hs, hseq, hd⟩
      · obtain ⟨m, hm⟩ := ih q hq e hmem
        refine ⟨m, hm.extend ?_ ?_ hkept⟩
        · rintro t' ⟨⟨pay, hpay, hs, hseq⟩, hsend⟩
          have hsup := hns addr pay t' (Option.some.inj (hop.symm.trans hpay)) hs hseq
          rw [hans, hsup] at hsend
          cases hsend
        · intro hpurge
          exact hnp addr (Option.some.inj (hop.symm.trans hpurge))
      · refine ⟨n, Nat.lt_succ_self n, ⟨⟨pay, ?_, hs, hseq⟩, ?_⟩, ?_, ?_, ?_⟩
        · rw [hop, hpay, haddr]
        · rw [hans, hd]
        · intro k h1 h2
          omega
        · intro k h1 h2
          omega
        · intro k h1 h2
          obtain rfl : k = n + 1 := by omega
          exact hkept
    · have hsame : recordAt true ops (n + 1) addr = recordAt true ops n addr :=
        (recordAt_of_ne hne hop haddr).resolve_right hkept
      obtain ⟨m, hm⟩ := ih p (hsame ▸ hp) e he
      refine ⟨m, hm.extend ?_ ?_ hkept⟩
      · rintro t' ⟨⟨pay, hpay, -⟩, -⟩
        exact haddr (by rw [Option.some.inj (hop.symm.trans hpay)]; rfl)
      · intro hpurge
        exact haddr (by rw [Option.some.inj (hop.symm.trans hpurge)]; rfl)

theorem answer_bypass {k : Nat} {pay : Payload} {now : U64} (h : ops[k]? = some (.admission addr pay now))
    (hby : ¬ (enabled = true ∧ Sequenced pay)) : (dampenAnswers enabled ops)[k]? = some (some .send) := by
  rw [dampenAnswers_get h, (dampenStep_access _ _).2, dampenAt_enabled]
  simp [dampenAnswer, hby]

/-- A suppressed datagram repeats the last send of its sequence. -/
theorem suppressed_lastSend (hne : addr ≠ 0) {n : Nat} {pay : Payload} {now : U64}
    (h : ops[n]? = some (.admission addr pay now)) (hd : (dampenAnswers enabled ops)[n]? = some (some .suppress)) :
    ∃ m t, LastSend enabled ops m n addr (reorderSeqFromPayload pay) t ∧
      Serial.elapsed now t < kDampenMaxMs.toNat := by
  have hlen : n < ops.length := (List.getElem?_eq_some_iff.mp h).1
  have hen : enabled = true := by
    by_contra hfalse
    rw [answer_bypass h fun hb => hfalse hb.1] at hd
    cases hd
  subst hen
  rw [(recordAt_self hne h rfl).2, Option.some.injEq] at hd
  obtain ⟨p, e, hp, he, hseq, hw⟩ := dampenRecordStep_suppress (recordAt_ok hne (Nat.le_of_lt hlen)) hd
  obtain ⟨m, hm⟩ := backed hne (Nat.le_of_lt hlen) p hp e he
  exact ⟨m, e.lastSentMs, hseq ▸ hm, hw⟩

end

/-! ## The main result -/

/-- **Soundness of suppression**, for call `n` of any run. A suppressed datagram repeats a sequence
sent to the same address less than `kDampenMaxMs` before, since when that sequence was not sent again
and the record was neither purged nor evicted. So the first copy since the record was empty is sent,
and so is everything the damper does not look up. -/
theorem dampen_suppression_sound (enabled : Bool) (ops : List DampenOp) (addr : U32) (hne : addr ≠ 0) (n : Nat)
    (pay : Payload) (now : U64) (h : ops[n]? = some (.admission addr pay now)) :
    ((dampenAnswers enabled ops)[n]? = some (some .suppress) →
      ∃ m t, LastSend enabled ops m n addr (reorderSeqFromPayload pay) t ∧
        Serial.elapsed now t < kDampenMaxMs.toNat ∧
        (kDampenMaxMs.toNat ≤ now.toNat → t.toNat ≤ now.toNat ∧ now.toNat - t.toNat < kDampenMaxMs.toNat)) ∧
    (∀ l, l ≤ n → recordAt enabled ops l addr = none →
      (∀ k, l ≤ k → k < n → ∀ t, ¬ SentAt enabled ops k addr (reorderSeqFromPayload pay) t) →
      (dampenAnswers enabled ops)[n]? = some (some .send)) ∧
    (¬ (enabled = true ∧ Sequenced pay) → (dampenAnswers enabled ops)[n]? = some (some .send)) := by
  refine ⟨fun hd => ?_, fun l hl hnone hfirst => ?_, answer_bypass h⟩
  · obtain ⟨m, t, hm, hw⟩ := suppressed_lastSend hne h hd
    refine ⟨m, t, hm, hw, fun hclock => ?_⟩
    have hle := Serial.le_of_elapsed_lt hw hclock
    rw [Serial.elapsed_of_le hle] at hw
    exact ⟨BitVec.le_def.mp hle, hw⟩
  · have hans := @dampenAnswers_get enabled _ _ _ h
    cases hdec : (dampenAdmit (dampenAt enabled ops n) addr pay now).2 with
    | send => simp [hans, dampenStep, hdec]
    | suppress =>
      have hsup : (dampenAnswers enabled ops)[n]? = some (some .suppress) := by simp [hans, dampenStep, hdec]
      obtain ⟨m, t, hm, -⟩ := suppressed_lastSend hne h hsup
      by_cases hml : m < l
      · exact absurd hnone (hm.kept l hml hl)
      · exact absurd hm.sent (hfirst m (Nat.not_lt.mp hml) hm.before t)

/-- A retry ten milliseconds after the first copy. -/
theorem dampen_suppression_sound_retry :
    let ops : List DampenOp := [.admission 1 (makePkt true 7 0) 1000, .admission 1 (makePkt true 7 0) 1010]
    (dampenAnswers true ops)[1]? = some (some .suppress) ∧
      ∃ m t, LastSend true ops m 1 1 (reorderSeqFromPayload (makePkt true 7 0)) t ∧
        Serial.elapsed 1010 t < kDampenMaxMs.toNat ∧
        (kDampenMaxMs.toNat ≤ (1010 : U64).toNat →
          t.toNat ≤ (1010 : U64).toNat ∧ (1010 : U64).toNat - t.toNat < kDampenMaxMs.toNat) := by
  have hsup : (dampenAnswers true [.admission 1 (makePkt true 7 0) 1000, .admission 1 (makePkt true 7 0) 1010])[1]? =
      some (some .suppress) := by decide
  exact ⟨hsup, (dampen_suppression_sound true _ 1 (by decide) 1 _ 1010 rfl).1 hsup⟩

/-- Over the wrap of the 64-bit clock a copy is suppressed against a send whose reading is the later
of the two. -/
theorem dampen_suppression_clockWrap :
    let ops : List DampenOp := [.admission 1 (makePkt true 7 0) (BitVec.allOnes 64), .admission 1 (makePkt true 7 0) 0]
    (dampenAnswers true ops)[1]? = some (some .suppress) ∧
      ¬ ∃ m t, m < 1 ∧ SentAt true ops m 1 7 t ∧ (0 : Int) ≤ ((0 : U64).toNat : Int) - (t.toNat : Int) := by
  refine ⟨by decide, ?_⟩
  rintro ⟨m, t, hm, ⟨⟨pay, hpay, -⟩, -⟩, ht⟩
  obtain rfl : m = 0 := by omega
  cases hpay
  revert ht
  decide

end BzNet
