import BzNet.Proxy.Sends

/-!
# What the sections of a send hook make of a call

* `SendArgs.Visible`, `noted_eq_iff` : the sampler's section records a reliable datagram for a peer exactly when it
  is shown it;
* `PacerQueues`, `paceTake_taken_iff` : the state in which the pacer takes a datagram.
-/

namespace BzNet

/-! ## What the sampler's section sees of a call -/

section Call

theorem flattenSegments_eq {flat : Payload} {buffers : List (Option Payload)}
    (h : flat.length ≤ kReorderMaxPktBytes) : flattenSegments flat buffers =
      if (flat ++ (buffers.map fun b => b.getD []).flatten).length ≤ kReorderMaxPktBytes
      then some (flat ++ (buffers.map fun b => b.getD []).flatten) else none := by
  induction buffers generalizing flat with
  | nil => simp [flattenSegments, h]
  | cons b buffers ih =>
    cases b with
    | none => simp [flattenSegments, ih h]
    | some b =>
      rw [flattenSegments]
      split
      · next hbig =>
        rw [if_neg]
        simp only [List.map_cons, Option.getD_some, List.flatten_cons, List.length_append]
        omega
      · next hfit =>
        rw [ih (by rw [List.length_append]; omega)]
        simp only [List.map_cons, Option.getD_some, List.flatten_cons, List.append_assoc]

/-- The forms whose datagram the hook puts in one piece: a scattered one is synchronous and fits the flat copy. -/
def SendForm.Shown : SendForm → Prop
  | .sendto _ => True
  | .wsaSendTo buffers overlapped =>
    overlapped = false ∧ (buffers.map fun b => b.getD []).flatten.length ≤ kReorderMaxPktBytes

/-- The calls whose datagram the sampler's section looks at. -/
def SendArgs.Visible (a : SendArgs) : Prop := a.flags = 0 ∧ a.form.Shown

variable {a : SendArgs}

theorem flat_eq_data {f : SendForm} {pay : Payload} (h : f.flat = some pay) : pay = f.data := by
  cases f with
  | sendto buf =>
    have hb : buf = some pay := h
    rw [SendForm.data, hb, Option.getD_some]
  | wsaSendTo buffers overlapped =>
    simp only [SendForm.flat, wsaSendPayload] at h
    split at h
    · cases h
    · rw [flattenSegments_eq (Nat.zero_le _)] at h
      split at h
      · exact (Option.some.inj h).symm
      · cases h

theorem flat_isSome_iff {f : SendForm} (hne : f.data ≠ []) : f.flat = some f.data ↔ f.Shown := by
  cases f with
  | sendto buf =>
    cases buf with
    | none => exact absurd rfl hne
    | some buf => exact ⟨fun _ => trivial, fun _ => rfl⟩
  | wsaSendTo buffers overlapped =>
    have hbuf : buffers.isEmpty = false := by
      cases buffers with
      | nil => exact absurd rfl hne
      | cons b buffers => rfl
    simp only [SendForm.flat, wsaSendPayload, SendForm.Shown, hbuf, Bool.or_false]
    cases overlapped with
    | true => simp
    | false =>
      rw [if_neg Bool.false_ne_true, flattenSegments_eq (Nat.zero_le _)]
      simp [SendForm.data]

theorem call_gate (a : SendArgs) (admitMs rttMs : U64) :
    (a.call admitMs rttMs).gate = sendGate a.flags (a.dest.map readSockAddr) a.form.flat := by
  obtain ⟨sock, form, flags, dest⟩ := a
  cases form <;> rfl

def SendArgs.noted (a : SendArgs) (rttMs : U64) : Option Copy :=
  (sendGate a.flags (a.dest.map readSockAddr) a.form.flat).bind fun g => recordOf (.send g.1.addr g.2 rttMs)

theorem sendGate_eq_some_iff {flags : U32} {dest : Option SockAddr} {pay : Option Payload} {d : SockAddr}
    {b : Payload} : sendGate flags dest pay = some (d, b) ↔
      dest = some d ∧ pay = some b ∧ flags = 0 ∧ b ≠ [] ∧ isRemoteInet d = true := by
  unfold sendGate isRemoteInet
  constructor
  · intro h
    split at h
    · split at h
      · next hc =>
        cases h
        exact ⟨rfl, rfl, hc.1, hc.2.1, by simp [hc.2.2.1, hc.2.2.2]⟩
      · cases h
    · cases h
  · rintro ⟨rfl, rfl, hflags, hne, hinet⟩
    rw [Bool.and_eq_true, beq_iff_eq, Bool.not_eq_true'] at hinet
    exact if_pos ⟨hflags, hne, hinet⟩

theorem tracked_data_ne (h : a.outgoing.Tracked) : a.form.data ≠ [] := by
  intro hnil
  have hlen : kReorderSeqMinPay ≤ a.form.data.length := h.1.1
  rw [hnil] at hlen
  exact absurd hlen (by decide)

theorem gate_of_visible (h : a.outgoing.Tracked) (hv : a.Visible) :
    sendGate a.flags (a.dest.map readSockAddr) a.form.flat =
      some (readSockAddr a.outgoing.dest, a.form.data) := by
  have hdest : a.dest.map readSockAddr = some (readSockAddr a.outgoing.dest) := by
    cases hd : a.dest with
    | some bs => simp [SendArgs.outgoing, hd]
    | none =>
      have hinet := h.2
      simp only [SendArgs.outgoing, hd, Option.getD_none] at hinet
      exact absurd hinet (by decide)
  have hne := tracked_data_ne h
  exact sendGate_eq_some_iff.mpr ⟨hdest, (flat_isSome_iff hne).mpr hv.2, hv.1, hne, h.2⟩

theorem visible_of_gate {g : SockAddr × Payload}
    (h : sendGate a.flags (a.dest.map readSockAddr) a.form.flat = some g) : a.Visible := by
  obtain ⟨-, hflat, hflags, hne, -⟩ := sendGate_eq_some_iff.mp h
  have hdata := flat_eq_data hflat
  rw [hdata] at hflat hne
  exact ⟨hflags, (flat_isSome_iff hne).mp hflat⟩

/-- The sampler's section records the copy of a visible call, and of any other nothing. -/
theorem noted_eq_iff (a : SendArgs) (rttMs : U64) :
    a.noted rttMs = copyOf a.outgoing rttMs ↔ (a.outgoing.Tracked → a.Visible) := by
  unfold SendArgs.noted
  cases hg : sendGate a.flags (a.dest.map readSockAddr) a.form.flat with
  | none =>
    rw [Option.bind_none, copyOf]
    constructor
    · intro h ht
      rw [if_pos ht] at h
      cases h
    · intro h
      rw [if_neg]
      intro ht
      rw [gate_of_visible ht (h ht)] at hg
      cases hg
  | some g =>
    have hvis := visible_of_gate hg
    obtain ⟨d, b⟩ := g
    obtain ⟨hd, hb, -, -, hinet⟩ := sendGate_eq_some_iff.mp hg
    obtain rfl := flat_eq_data hb
    have hdest : readSockAddr a.outgoing.dest = d := by
      cases hs : a.dest with
      | none =>
        rw [hs] at hd
        cases hd
      | some bs =>
        rw [hs] at hd
        simpa [SendArgs.outgoing, hs] using hd
    have htracked : a.outgoing.Tracked ↔ Sequenced a.form.data := by
      unfold Outgoing.Tracked
      rw [hdest]
      exact ⟨fun h => h.1, fun h => ⟨h, hinet⟩⟩
    refine ⟨fun _ _ => hvis, fun _ => ?_⟩
    rw [Option.bind_some, recordOf, copyOf, hdest]
    exact if_congr htracked.symm rfl rfl

end Call

/-! ## When the pacer takes a datagram -/

/-- The pacer is on and stores datagrams of this size, its queue has room, the bucket does not cover the datagram (or
others wait before it), and the wait for the bucket is within the budget. -/
def PacerQueues (c : PaceCtx) (o : Outgoing) (now : U64) : Prop :=
  let len := BitVec.ofNat 32 o.data.length
  let filled := paceRefill (paceObserve c len now) now
  c.rateBps ≠ 0 ∧ o.Paceable ∧ c.q.used < kPaceQueueSlots ∧
    ¬ (c.q.used = 0 ∧ (len.toNat : Int) ≤ filled.tokens.toInt) ∧
    (paceWaitMs filled len).toNat ≤ filled.maxDelayMs.toNat

theorem paceAdmit_queued_iff (c : PaceCtx) (len : U32) (now : U64) :
    (paceAdmit c len now).2.1 = .queued ↔
      c.rateBps ≠ 0 ∧ kReorderSeqMinPay ≤ len.toNat ∧ c.q.used < kPaceQueueSlots ∧
        ¬ (c.q.used = 0 ∧ (len.toNat : Int) ≤ (paceRefill (paceObserve c len now) now).tokens.toInt) ∧
        (paceWaitMs (paceRefill (paceObserve c len now) now) len).toNat ≤
          (paceRefill (paceObserve c len now) now).maxDelayMs.toNat := by
  unfold paceAdmit
  dsimp only
  rw [paceObserve_rateBps]
  by_cases hrate : c.rateBps = 0
  · simp [hrate]
  · rw [if_neg hrate]
    by_cases hsmall : len.toNat < kReorderSeqMinPay
    · rw [if_pos hsmall]
      simp only [reduceCtorEq, false_iff]
      intro h
      omega
    · rw [if_neg hsmall]
      simp only [paceRefill_q, paceObserve_q]
      by_cases hcov : c.q.used = 0 ∧ (len.toNat : Int) ≤ (paceRefill (paceObserve c len now) now).tokens.toInt
      · rw [if_pos hcov]
        simp only [reduceCtorEq, false_iff]
        exact fun h => h.2.2.2.1 hcov
      · rw [if_neg hcov]
        split
        · next hgive =>
          have hne : (if 0 < c.q.used then PaceDecision.flushThenSend else .sendNow) ≠ .queued := by split <;> simp
          simp only [hne, false_iff]
          intro h
          omega
        · next hgive =>
          simp only [true_iff]
          exact ⟨hrate, by omega, by omega, hcov, by omega⟩

theorem paceTake_taken_iff (c : PaceCtx) (o : Outgoing) (now : U64) :
    (paceTake c o now).2.1 = true ↔ PacerQueues c o now := by
  unfold paceTake PacerQueues
  split
  · next hbad =>
    simp only [Bool.false_eq_true, false_iff]
    rintro ⟨-, ⟨h1, h2, h3, h4⟩, -⟩
    rcases hbad with h | h | h | h
    · rw [h] at h3
      exact absurd h3 (by decide)
    · rw [h] at h1
      exact absurd h1 (by decide)
    · omega
    · omega
  · next hok =>
    push Not at hok
    obtain ⟨hdest, -, hmax, haddr⟩ := hok
    have hlen : (BitVec.ofNat 32 o.data.length).toNat = o.data.length := by
      rw [BitVec.toNat_ofNat]
      exact Nat.mod_eq_of_lt (by unfold kReorderMaxPktBytes at hmax; omega)
    have hpace : o.Paceable ↔ kReorderSeqMinPay ≤ o.data.length :=
      ⟨fun h => h.1, fun h => ⟨h, hmax, List.length_pos_iff.mpr hdest, haddr⟩⟩
    have hiff := paceAdmit_queued_iff c (BitVec.ofNat 32 o.data.length) now
    obtain ⟨hq, -, -⟩ := paceAdmit_step c (BitVec.ofNat 32 o.data.length) now
    rw [hlen] at hiff
    dsimp only
    rw [hpace, hlen, ← hiff]
    cases hdec : (paceAdmit c (BitVec.ofNat 32 o.data.length) now).2.1 with
    | sendNow => simp
    | flushThenSend => simp
    | queued =>
      obtain ⟨-, -, hroom, -⟩ := hiff.mp hdec
      have hstore : ¬ (kPaceQueueSlots ≤ (paceAdmit c (BitVec.ofNat 32 o.data.length) now).1.q.used ∨
          kReorderMaxPktBytes < o.data.length ∨ o.dest = [] ∨ kPaceAddrBytes < o.dest.length) := by
        rw [hq]
        push Not
        exact ⟨hroom, hmax, hdest, haddr⟩
      simp only [paceEnqueue, if_neg hstore]

end BzNet
