import BzNet.Dampen.Backoff

/-!
# What a suppressed datagram carries

The suppressor tells datagrams apart by their sequence, which numbers messages: the datagrams of one message all
carry the same one. A suppressed datagram is therefore a copy of the one it is judged against only where both have
the same bytes after the header.
-/

namespace BzNet

/-- The bytes after the header; the clock and the acknowledgement in it differ from copy to copy. -/
def datagramBody (pay : Payload) : Payload := pay.drop kReorderSeqMinPay

/-- The entry that a datagram is judged against, inside its window. -/
def JudgedInside (c : DampenCtx) (addr : U32) (pay : Payload) (now : U64) (e : DampenEntry) : Prop :=
  Sequenced pay ∧ e ∈ retainedOf c addr ∧ e.seq = reorderSeqFromPayload pay ∧
    belowOldest (retainedSeqs c addr) e.seq = false ∧ Serial.elapsed now e.lastSentMs < e.windowMs.toNat

section
variable (enabled : Bool) (ops : List DampenOp) (n : Nat) (addr : U32) (pay : Payload) (now : U64)

/-- Call `m` sent a datagram with these bytes after the header to `addr` at time `t`. -/
def BodySentAt (m : Nat) (addr : U32) (body : Payload) (t : U64) : Prop :=
  (∃ pay, ops[m]? = some (.admission addr pay t) ∧ datagramBody pay = body) ∧
    (dampenAnswers enabled ops)[m]? = some (some .send)

/-- If call `n` is suppressed, the body of its datagram went out to the address inside the window of its sequence. -/
def OnlyCopies : Prop :=
  (dampenAnswers enabled ops)[n]? = some (some .suppress) →
    ∃ e ∈ retainedOf (dampenAt enabled ops n) addr, e.seq = reorderSeqFromPayload pay ∧
      ∃ m t, m < n ∧ BodySentAt enabled ops m addr (datagramBody pay) t ∧ Serial.elapsed now t < e.windowMs.toNat

/-- A datagram whose sequence last went out less than that entry's window ago is a copy of the one that went out. -/
def SameMessage : Prop :=
  ∀ e, JudgedInside (dampenAt enabled ops n) addr pay now e →
    ∀ m pay', LastSend enabled ops m n addr e.seq e.lastSentMs →
      ops[m]? = some (.admission addr pay' e.lastSentMs) → datagramBody pay' = datagramBody pay

/-- Another datagram than the one it is judged against carried its body to the address inside the window. -/
def SentBesides : Prop :=
  ∃ e, JudgedInside (dampenAt enabled ops n) addr pay now e ∧
    ∃ m t, m < n ∧ BodySentAt enabled ops m addr (datagramBody pay) t ∧ Serial.elapsed now t < e.windowMs.toNat ∧
      ¬ LastSend enabled ops m n addr e.seq t

end

section
variable {enabled : Bool} {ops : List DampenOp} {addr : U32} {n : Nat} {pay : Payload} {now : U64}

/-- **What is suppressed** is judged against an entry inside its window. -/
theorem suppressed_iff (hne : addr ≠ 0) (h : ops[n]? = some (.admission addr pay now)) :
    (dampenAnswers enabled ops)[n]? = some (some .suppress) ↔
      ∃ e, JudgedInside (dampenAt enabled ops n) addr pay now e := by
  have hok := dampenAt_tableOk enabled ops n
  have hans : (dampenAnswers enabled ops)[n]? = some (some (dampenAdmit (dampenAt enabled ops n) addr pay now).2) :=
    dampenAnswers_get h
  rw [hans, Option.some.injEq, Option.some.injEq]
  constructor
  · intro hsup
    have hby : enabled = true ∧ Sequenced pay := by
      by_contra hby
      have hsend := answer_bypass h hby
      rw [hans, hsup] at hsend
      cases hsend
    obtain ⟨rfl, hs⟩ := hby
    rw [(dampenAdmit_record hok (dampenAt_enabled true ops n) hne hs now).2] at hsup
    rcases dampenAdmitPeer_cases (LruTable.renew (dampenRecord (dampenAt true ops n) addr) addr now)
        (reorderSeqFromPayload pay) now with
      ⟨e, he, hseq, hw, -, -⟩ | ⟨_, _, _, _, _, hd, _⟩ | ⟨_, _, _, _, _, hd, _⟩
    · obtain ⟨p, hp, hmem⟩ := mem_renew_retained.mp he
      refine ⟨e, hs, mem_retainedOf.mpr ⟨p, hp, hmem⟩, hseq, ?_, hw⟩
      cases hlow : belowOldest (retainedSeqs (dampenAt true ops n) addr) e.seq with
      | false => rfl
      | true =>
        rw [retainedSeqs_some hp, hseq] at hlow
        obtain ⟨_, _, hd, _⟩ := dampenAdmitPeer_restart now ((isRestart_eq
          (LruTable.renew (dampenRecord (dampenAt true ops n) addr) addr now) (reorderSeqFromPayload pay)).trans (by
            rw [hp]
            exact hlow))
        rw [hd] at hsup
        cases hsup
    · rw [hd] at hsup
      cases hsup
    · rw [hd] at hsup
      cases hsup
  · rintro ⟨e, hs, he, hseq, hlow, hw⟩
    rw [((retry_kept_iff hok hne he hs hseq.symm now).mpr hlow).judged, if_pos hw]

theorem judged_lastSend (hne : addr ≠ 0) (h : ops[n]? = some (.admission addr pay now)) {e : DampenEntry}
    (he : JudgedInside (dampenAt enabled ops n) addr pay now e) :
    ∃ m pay', LastSend enabled ops m n addr e.seq e.lastSentMs ∧
      ops[m]? = some (.admission addr pay' e.lastSentMs) := by
  obtain rfl := retained_enabled hne he.2.1
  obtain ⟨p, hp, hmem⟩ := mem_retainedOf.mp he.2.1
  obtain ⟨m, hm⟩ := backed hne (Nat.le_of_lt (List.getElem?_eq_some_iff.mp h).1) p hp e hmem
  obtain ⟨⟨pay', hpay, -⟩, -⟩ := hm.sent
  exact ⟨m, pay', hm, hpay⟩

theorem exists_other (hother : ¬ SameMessage enabled ops n addr pay now) :
    ∃ e, JudgedInside (dampenAt enabled ops n) addr pay now e ∧
      ∃ m pay', LastSend enabled ops m n addr e.seq e.lastSentMs ∧
        ops[m]? = some (.admission addr pay' e.lastSentMs) ∧ datagramBody pay' ≠ datagramBody pay := by
  unfold SameMessage at hother
  push Not at hother
  obtain ⟨e, he, m, pay', hm, hpay, hbody⟩ := hother
  exact ⟨e, he, m, pay', hm, hpay, hbody⟩

theorem LastSend.unique {m m' : Nat} {seq : U32} {t t' : U64} (h : LastSend enabled ops m n addr seq t)
    (h' : LastSend enabled ops m' n addr seq t') : m = m' := by
  rcases Nat.lt_trichotomy m m' with hlt | heq | hlt
  · exact absurd h'.sent (h.not_resent m' hlt h'.before t')
  · exact heq
  · exact absurd h.sent (h'.not_resent m hlt h.before t)

/-- **When a suppression is of a copy.** -/
theorem onlyCopies_iff (hne : addr ≠ 0) (h : ops[n]? = some (.admission addr pay now)) :
    OnlyCopies enabled ops n addr pay now ↔
      SameMessage enabled ops n addr pay now ∨ SentBesides enabled ops n addr pay now := by
  constructor
  · intro honly
    by_contra hboth
    obtain ⟨hother, hnone⟩ := not_or.mp hboth
    obtain ⟨e, he, m, pay', hm, hpay, hbody⟩ := exists_other hother
    obtain ⟨e', he', hseq, m', t, hm', hsent, hw⟩ := honly ((suppressed_iff hne h).mpr ⟨e, he⟩)
    obtain rfl := entry_unique hne he.2.1 he' (he.2.2.1.trans hseq.symm)
    have hlast : LastSend enabled ops m' n addr e.seq t := by
      by_contra hnot
      exact hnone ⟨e, he, m', t, hm', hsent, hw, hnot⟩
    obtain rfl := hm.unique hlast
    obtain ⟨pay'', hpay'', hbody''⟩ := hsent.1
    cases hpay.symm.trans hpay''
    exact hbody hbody''
  · rintro (hsame | ⟨e, he, m, t, hm, hsent, hw, -⟩) hsup
    · obtain ⟨e, he⟩ := (suppressed_iff hne h).mp hsup
      obtain ⟨m, pay', hm, hpay⟩ := judged_lastSend hne h he
      exact ⟨e, he.2.1, he.2.2.1, m, e.lastSentMs, hm.before, ⟨⟨pay', hpay, hsame e he m pay' hm hpay⟩, hm.sent.2⟩,
        he.2.2.2.2⟩
    · exact ⟨e, he.2.1, he.2.2.1, m, t, hm, hsent, hw⟩

/-- Where all datagrams of one sequence to one address carry one body, only copies are suppressed. -/
theorem onlyCopies_of_oneBody (hne : addr ≠ 0) (h : ops[n]? = some (.admission addr pay now))
    (hone : ∀ (m : Nat) (pay' : Payload) (t : U64), m < n → ops[m]? = some (.admission addr pay' t) → Sequenced pay' →
      reorderSeqFromPayload pay' = reorderSeqFromPayload pay → datagramBody pay' = datagramBody pay) :
    OnlyCopies enabled ops n addr pay now := by
  refine (onlyCopies_iff hne h).mpr (Or.inl fun e he m pay' hm hpay => ?_)
  obtain ⟨⟨pay'', hpay'', hs, hseq⟩, -⟩ := hm.sent
  cases hpay.symm.trans hpay''
  exact hone m pay' _ hm.before hpay hs (hseq.trans he.2.2.1)

end

/-- **Only copies are suppressed, where one sequence is one datagram.** A suppression of call `n` means that the body
of its datagram went out to the address inside the window, exactly when the datagram is a copy of the one its sequence
last went out with, or that was not less than the window ago, or another datagram with its body went out in that time.
A datagram that is no such copy is suppressed all the same. -/
theorem dampen_suppressed_body (enabled : Bool) (ops : List DampenOp) (addr : U32) (hne : addr ≠ 0) (n : Nat)
    (pay : Payload) (now : U64) (h : ops[n]? = some (.admission addr pay now)) :
    (OnlyCopies enabled ops n addr pay now ↔
      SameMessage enabled ops n addr pay now ∨ SentBesides enabled ops n addr pay now) ∧
    (¬ SameMessage enabled ops n addr pay now → (dampenAnswers enabled ops)[n]? = some (some .suppress) ∧
      ∃ m pay' t, LastSend enabled ops m n addr (reorderSeqFromPayload pay) t ∧
        ops[m]? = some (.admission addr pay' t) ∧ datagramBody pay' ≠ datagramBody pay) := by
  refine ⟨onlyCopies_iff hne h, fun hother => ?_⟩
  obtain ⟨e, he, m, pay', hm, hpay, hbody⟩ := exists_other hother
  refine ⟨(suppressed_iff hne h).mpr ⟨e, he⟩, m, pay', e.lastSentMs, ?_, hpay, hbody⟩
  rw [← he.2.2.1]
  exact hm

/-- A retry of the datagram that went out ten milliseconds before. -/
theorem dampen_suppressed_body_retry :
    let ops : List DampenOp := [.admission 1 (makePkt true 7 0 ++ [1]) 1000, .admission 1 (makePkt true 7 5 ++ [1]) 1010]
    (dampenAnswers true ops)[1]? = some (some .suppress) ∧
      ∃ e ∈ retainedOf (dampenAt true ops 1) 1, e.seq = reorderSeqFromPayload (makePkt true 7 5 ++ [1]) ∧
        ∃ m t, m < 1 ∧ BodySentAt true ops m 1 (datagramBody (makePkt true 7 5 ++ [1])) t ∧
          Serial.elapsed 1010 t < e.windowMs.toNat := by
  intro ops
  have hsup : (dampenAnswers true ops)[1]? = some (some .suppress) := by decide
  refine ⟨hsup, (dampen_suppressed_body true ops 1 (by decide) 1 _ 1010 rfl).1.mpr (Or.inl ?_) hsup⟩
  intro e _ m pay' hm hpay
  obtain rfl : m = 0 := Nat.lt_one_iff.mp hm.before
  injection Option.some.inj hpay with _ hpay' _
  rw [← hpay']
  decide

/-- The second datagram of a message, ten milliseconds after the first: it is suppressed, and its body was not sent
before. -/
theorem dampen_suppressed_body_secondPart :
    let ops : List DampenOp := [.admission 1 (makePkt true 7 0 ++ [1]) 1000, .admission 1 (makePkt true 7 0 ++ [2]) 1010]
    (dampenAnswers true ops)[1]? = some (some .suppress) ∧ ¬ OnlyCopies true ops 1 1 (makePkt true 7 0 ++ [2]) 1010 ∧
      ∀ m < 1, ∀ t, ¬ BodySentAt true ops m 1 (datagramBody (makePkt true 7 0 ++ [2])) t := by
  intro ops
  have hsup : (dampenAnswers true ops)[1]? = some (some .suppress) := by decide
  have hnone : ∀ m < 1, ∀ t, ¬ BodySentAt true ops m 1 (datagramBody (makePkt true 7 0 ++ [2])) t := by
    rintro m hm t ⟨⟨pay', hpay, hbody⟩, -⟩
    obtain rfl : m = 0 := Nat.lt_one_iff.mp hm
    cases hpay
    revert hbody
    decide
  refine ⟨hsup, fun honly => ?_, hnone⟩
  obtain ⟨e, -, -, m, t, hm, hsent, -⟩ := honly hsup
  exact hnone m hm t hsent

end BzNet
