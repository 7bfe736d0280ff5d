import BzNet.Proxy.Calls

/-!
# Which close ends a session

Runs of hooked calls with the suppressor on. The hooks remember the socket of the last send that passed the gate,
whatever the suppressor made of it, and the close of that socket purges.

* `sentSincePurge` : the sends since the last purge, with `TrackedOn` for a socket that the suppressor tracked
  reliable datagrams on, and `Remembered` for the one whose close purges;
* `PurgeInv` : the invariant, which ties the two to the state;
* `dampen_purge_gating` : a close does what it should exactly when the socket remembered is the one tracked.
-/

namespace BzNet

open Machine

/-- A reliable datagram with a sequence that the suppressor keeps a record for. -/
def SendCall.tracked (c : SendCall) : Bool :=
  match c.gate with
  | some (dest, pay) => dest.addr ≠ 0 && decide (Sequenced pay)
  | none => false

/-- The sends since the last purge, through one more call. -/
def sinceStep (sends : List SendCall) : ProxyOp × ProxyOut → List SendCall
  | (.send c, _) => sends ++ [c]
  | (.closesocket _, .closed true) => []
  | _ => sends

def sentSincePurge (cfg : ProxyCfg) (ops : List ProxyOp) : List SendCall :=
  (ops.zip (outputs proxyStep (proxyInit cfg) ops)).foldl sinceStep []

/-- The suppressor tracked a datagram sent on the socket. -/
def TrackedOn (sends : List SendCall) (s : Socket) : Prop := ∃ c ∈ sends, c.sock = s ∧ c.tracked = true

instance (sends : List SendCall) (s : Socket) : Decidable (TrackedOn sends s) :=
  inferInstanceAs (Decidable (∃ c ∈ sends, c.sock = s ∧ c.tracked = true))

/-- The socket of the last send that passed the gate. -/
def lastGated (sends : List SendCall) : Option Socket :=
  ((sends.filter fun c => c.gate.isSome).getLast?).map SendCall.sock

def Remembered (sends : List SendCall) (s : Socket) : Prop :=
  lastGated sends = some s ∧ s ≠ 0 ∧ s ≠ invalidSocket

/-! ## The sends since the last purge -/

section Since
variable {cfg : ProxyCfg} {sends : List SendCall} {c : SendCall}

theorem sentSincePurge_concat (cfg : ProxyCfg) (ops : List ProxyOp) (op : ProxyOp) :
    sentSincePurge cfg (ops ++ [op]) =
      sinceStep (sentSincePurge cfg ops) (op, (proxyStep (final proxyStep (proxyInit cfg) ops) op).2) := by
  rw [sentSincePurge, outputs_concat, List.zip_append (by simp), List.foldl_append]
  rfl

theorem trackedOn_concat {s : Socket} :
    TrackedOn (sends ++ [c]) s ↔ TrackedOn sends s ∨ (c.sock = s ∧ c.tracked = true) := by
  simp [TrackedOn, or_and_right, exists_or]

theorem exists_trackedOn_concat :
    (∃ s, TrackedOn (sends ++ [c]) s) ↔ (∃ s, TrackedOn sends s) ∨ c.tracked = true := by
  simp [trackedOn_concat, exists_or]

theorem lastGated_concat : lastGated (sends ++ [c]) = if c.gate.isSome then some c.sock else lastGated sends := by
  unfold lastGated
  rw [List.filter_append]
  split
  · next h => simp [h]
  · next h => simp [h]

end Since

/-! ## The invariant -/

/-- What the state of the suppressor says about the sends since the last purge. -/
structure PurgeInv (sends : List SendCall) (p : Proxy) : Prop where
  enabled : p.dampen.enabled = true
  /-- The socket remembered. -/
  sock : p.dampenSock = (lastGated sends).getD invalidSocket
  /-- There is a record in use when something was tracked. -/
  occupied : LruTable.Occupied kDampenPeers p.dampen.peers ↔ ∃ s, TrackedOn sends s

variable {sends : List SendCall} {p : Proxy}

theorem occupied_iff_record {d : DampenCtx} :
    LruTable.Occupied kDampenPeers d.peers ↔ ∃ addr, addr ≠ 0 ∧ dampenRecord d addr ≠ none :=
  LruTable.occupied_iff_lookup

/-- An admit leaves the table occupied when it tracks the datagram or the table was occupied. -/
theorem dampenStep_occupied {d : DampenCtx} (hen : d.enabled = true) (addr : U32) (pay : Payload) (now : U64) :
    LruTable.Occupied kDampenPeers (dampenStep d (.admission addr pay now)).1.peers ↔
      LruTable.Occupied kDampenPeers d.peers ∨ (addr ≠ 0 ∧ Sequenced pay) := by
  rw [(dampenStep_access d _).1, hen]
  have hlaw := dampenAccess_lawful true (.admission addr pay now)
  by_cases hs : Sequenced pay
  · simp only [dampenAccess, hs, and_self, if_true, and_true] at hlaw ⊢
    constructor
    · intro hocc
      by_cases haddr : addr = 0
      · subst haddr
        exact Or.inl (LruTable.Access.occupied_of_claim_free hlaw hocc)
      · exact Or.inr haddr
    · exact fun h => LruTable.Access.apply_claim_occupied hlaw (by decide) h.symm
  · simp [dampenAccess, hs, LruTable.Access.apply]

theorem hookedSend_purgeInv (h : PurgeInv sends p) (c : SendCall) : PurgeInv (sends ++ [c]) (hookedSend p c).1 := by
  cases hg : c.gate with
  | none =>
    rw [hookedSend_ungated hg]
    refine ⟨h.enabled, ?_, ?_⟩
    · rw [lastGated_concat, hg]
      exact h.sock
    · rw [exists_trackedOn_concat, h.occupied]
      simp [SendCall.tracked, hg]
  | some g =>
    obtain ⟨dest, pay⟩ := g
    obtain ⟨hd, hsock, -⟩ := hookedSend_on hg h.enabled
    refine ⟨?_, ?_, ?_⟩
    · rw [hd, dampenStep_enabled]
      exact h.enabled
    · rw [hsock, lastGated_concat, hg]
      rfl
    · rw [hd, dampenStep_occupied h.enabled, exists_trackedOn_concat, h.occupied]
      simp [SendCall.tracked, hg]

theorem hookedClosesocket_purgeInv (h : PurgeInv sends p) {s : Socket}
    (hends : dampenCloseEndsSession s p.dampenSock = true) : PurgeInv [] (hookedClosesocket p s).1 := by
  obtain ⟨hd, -, hs, -⟩ := hookedClosesocket_ends hends
  refine ⟨?_, hs, ?_⟩
  · rw [hd, purgeSession_dampen]
    exact h.enabled
  · rw [hd, occupied_iff_record]
    constructor
    · rintro ⟨addr, hne, hrec⟩
      exact absurd (purgeSession_record p.dampen p.rtt hne) hrec
    · rintro ⟨t, c, hc, -⟩
      cases hc

theorem PurgeInv.of_same {p' : Proxy} (h : PurgeInv sends p) (hd : p'.dampen = p.dampen)
    (hs : p'.dampenSock = p.dampenSock) : PurgeInv sends p' :=
  ⟨hd ▸ h.enabled, hs ▸ h.sock, hd ▸ h.occupied⟩

theorem proxyStep_purgeInv (h : PurgeInv sends p) (op : ProxyOp) :
    PurgeInv (sinceStep sends (op, (proxyStep p op).2)) (proxyStep p op).1 := by
  cases op with
  | send c => exact hookedSend_purgeInv h c
  | recvfrom sock wantsFrom reals feedMs =>
    obtain ⟨hd, hs⟩ := hookedRecvfrom_dampen p wantsFrom reals feedMs
    exact h.of_same hd hs
  | wsaRecvFrom a call =>
    obtain ⟨hd, hs⟩ := wsaRecvFrom_dampen p a call
    exact h.of_same hd hs
  | closesocket s =>
    cases hends : dampenCloseEndsSession s p.dampenSock with
    | true =>
      simp only [proxyStep, sinceStep, (hookedClosesocket_ends hends).2.2.2]
      exact hookedClosesocket_purgeInv h hends
    | false =>
      obtain ⟨hd, -, hs, hout⟩ := hookedClosesocket_stays hends
      simp only [proxyStep, sinceStep, hout]
      exact h.of_same hd hs

theorem proxyRun_purgeInv (cfg : ProxyCfg) (hen : cfg.dampen = true) (ops : List ProxyOp) :
    PurgeInv (sentSincePurge cfg ops) (final proxyStep (proxyInit cfg) ops) := by
  induction ops using List.reverseRecOn with
  | nil =>
    refine ⟨hen, rfl, ⟨?_, ?_⟩⟩
    · rintro ⟨i, -, hne⟩
      exact absurd rfl hne
    · rintro ⟨s, c, hc, -⟩
      cases hc
  | append_singleton ops op ih =>
    rw [final_concat, sentSincePurge_concat]
    exact proxyStep_purgeInv ih op

/-! ## The close -/

/-- A close purges when its socket is the one remembered. -/
theorem closeEnds_iff (h : PurgeInv sends p) (s : Socket) :
    dampenCloseEndsSession s p.dampenSock = true ↔ Remembered sends s := by
  rw [dampenCloseEndsSession, h.sock, Remembered]
  cases hl : lastGated sends with
  | none => simp
  | some t =>
    by_cases ht : t = 0 ∨ t = invalidSocket
    · simp only [Option.getD_some, if_pos ht, Option.some.injEq, Bool.false_eq_true, false_iff]
      rintro ⟨rfl, h0, hinv⟩
      exact ht.elim h0 hinv
    · rw [not_or] at ht
      simp only [Option.getD_some, ht.1, ht.2, or_self, if_false, beq_iff_eq, Option.some.injEq]
      constructor
      · rintro rfl
        exact ⟨rfl, ht⟩
      · exact fun hs => hs.1.symm

theorem proxyRun_off (cfg : ProxyCfg) (hoff : cfg.dampen = false) (ops : List ProxyOp) :
    (final proxyStep (proxyInit cfg) ops).dampen.enabled = false ∧
      (final proxyStep (proxyInit cfg) ops).dampenSock = invalidSocket := by
  refine final_inv (P := fun p : Proxy => p.dampen.enabled = false ∧ p.dampenSock = invalidSocket) ⟨hoff, rfl⟩ ?_ ops
  rintro p op ⟨hen, hs⟩
  cases op with
  | send c =>
    cases hg : c.gate with
    | none =>
      rw [proxyStep, hookedSend_ungated hg]
      exact ⟨hen, hs⟩
    | some g =>
      obtain ⟨dest, pay⟩ := g
      rw [proxyStep, hookedSend_off hg hen]
      exact ⟨hen, hs⟩
  | recvfrom sock wantsFrom reals feedMs =>
    obtain ⟨h1, h2⟩ := hookedRecvfrom_dampen p wantsFrom reals feedMs
    exact ⟨(congrArg DampenCtx.enabled h1).trans hen, h2.trans hs⟩
  | wsaRecvFrom a call =>
    obtain ⟨h1, h2⟩ := wsaRecvFrom_dampen p a call
    exact ⟨(congrArg DampenCtx.enabled h1).trans hen, h2.trans hs⟩
  | closesocket s =>
    have hstays : dampenCloseEndsSession s p.dampenSock = false := by simp [dampenCloseEndsSession, hs]
    obtain ⟨h1, -, h2, -⟩ := hookedClosesocket_stays hstays
    exact ⟨(congrArg DampenCtx.enabled h1).trans hen, h2.trans hs⟩

/-- Which close ends a session, from the calls made. -/
theorem proxyRun_closeEnds (cfg : ProxyCfg) (ops : List ProxyOp) (s : Socket) :
    dampenCloseEndsSession s (final proxyStep (proxyInit cfg) ops).dampenSock = true ↔
      cfg.dampen = true ∧ Remembered (sentSincePurge cfg ops) s := by
  cases hen : cfg.dampen with
  | true => simpa using closeEnds_iff (proxyRun_purgeInv cfg hen ops) s
  | false => simp [dampenCloseEndsSession, (proxyRun_off cfg hen ops).2]

theorem purgeSession_dampen_idle {d : DampenCtx} (r : RttCtx) (h : ¬ LruTable.Occupied kDampenPeers d.peers) :
    (purgeSession d r).1 = d := by
  have hclear : clearedTo d.peers kDampenPeers = d.peers := by
    funext i
    exact if_neg fun hi => h ⟨i, hi⟩
  rw [purgeSession_dampen, hclear]

/-- **Gating of the purge.** With the suppressor on, in every state a run reaches, the close of `s` purges every
record if `s` was tracked since the last purge, and else leaves the suppressor as it is, exactly when the socket
remembered, if it is `s`, is tracked or nothing is, and `s` is not tracked if it is not the socket remembered. -/
theorem dampen_purge_gating (cfg : ProxyCfg) (hen : cfg.dampen = true) (ops : List ProxyOp) (s : Socket) :
    let p := final proxyStep (proxyInit cfg) ops
    let sends := sentSincePurge cfg ops
    ((TrackedOn sends s → ∀ addr, addr ≠ 0 → dampenRecord (hookedClosesocket p s).1.dampen addr = none) ∧
        (¬ TrackedOn sends s → (hookedClosesocket p s).1.dampen = p.dampen)) ↔
      ((Remembered sends s → TrackedOn sends s ∨ ∀ t, ¬ TrackedOn sends t) ∧
        (¬ Remembered sends s → ¬ TrackedOn sends s)) := by
  intro p sends
  have hinv : PurgeInv sends p := proxyRun_purgeInv cfg hen ops
  have hocc := occupied_iff_record.symm.trans hinv.occupied
  cases hends : dampenCloseEndsSession s p.dampenSock with
  | true =>
    have hrem : Remembered sends s := (closeEnds_iff hinv s).mp hends
    rw [(hookedClosesocket_ends hends).1]
    have hpurged : ∀ addr, addr ≠ 0 → dampenRecord (purgeSession p.dampen p.rtt).1 addr = none :=
      fun _ hne => purgeSession_record p.dampen p.rtt hne
    constructor
    · rintro ⟨-, hkeep⟩
      refine ⟨fun _ => ?_, fun hno => absurd hrem hno⟩
      by_contra hcon
      rw [not_or, not_forall_not] at hcon
      obtain ⟨addr, hne, hrec⟩ := hocc.mpr hcon.2
      exact hrec (hkeep hcon.1 ▸ hpurged addr hne)
    · rintro ⟨hcond, -⟩
      refine ⟨fun _ => hpurged, fun hno => purgeSession_dampen_idle _ fun h => ?_⟩
      obtain ⟨t, ht⟩ := hinv.occupied.mp h
      exact (hcond hrem).elim hno fun hnone => hnone t ht
  | false =>
    have hrem : ¬ Remembered sends s := fun h => by
      rw [(closeEnds_iff hinv s).mpr h] at hends
      cases hends
    rw [(hookedClosesocket_stays hends).1]
    constructor
    · rintro ⟨hpurge, -⟩
      refine ⟨fun h => absurd h hrem, fun _ htr => ?_⟩
      obtain ⟨addr, hne, hrec⟩ := hocc.mpr ⟨s, htr⟩
      exact hrec (hpurge htr addr hne)
    · rintro ⟨-, hcond⟩
      exact ⟨fun htr => absurd htr (hcond hrem), fun _ => rfl⟩

/-- One P2P socket, and its close. -/
theorem dampen_purge_gating_oneSocket :
    let ops : List ProxyOp := [.send (sampleSend 7 (sampleAddr 1) 17770 (makePkt true 5 0) 1000)]
    TrackedOn (sentSincePurge (sampleCfg true) ops) 7 ∧ ∀ addr, addr ≠ 0 →
      dampenRecord (hookedClosesocket (final proxyStep (proxyInit (sampleCfg true)) ops) 7).1.dampen addr = none := by
  intro ops
  have htr : TrackedOn (sentSincePurge (sampleCfg true) ops) 7 := by decide +kernel
  have hrem : Remembered (sentSincePurge (sampleCfg true) ops) 7 := ⟨by decide +kernel, by decide, by decide⟩
  exact ⟨htr, ((dampen_purge_gating (sampleCfg true) rfl ops 7).mpr
    ⟨fun _ => Or.inl htr, fun hno => absurd hrem hno⟩).1 htr⟩

/-- A reliable datagram on socket 7, then four bytes to a lobby server on socket 9: the close of 7 keeps the
record, the close of 9 purges it. -/
theorem dampen_purge_gating_lobby :
    let ops : List ProxyOp := [.send (sampleSend 7 (sampleAddr 1) 17770 (makePkt true 5 0) 1000),
      .send (sampleSend 9 (sampleAddr 2) 61111 [1, 2, 3, 4] 1001)]
    let p := final proxyStep (proxyInit (sampleCfg true)) ops
    TrackedOn (sentSincePurge (sampleCfg true) ops) 7 ∧ ¬ TrackedOn (sentSincePurge (sampleCfg true) ops) 9 ∧
      (dampenRecord (hookedClosesocket p 7).1.dampen (sampleAddr 1)).isSome = true ∧
      (dampenRecord p.dampen (sampleAddr 1)).isSome = true ∧
      dampenRecord (hookedClosesocket p 9).1.dampen (sampleAddr 1) = none := by
  refine ⟨by decide +kernel, by decide +kernel, by decide +kernel, by decide +kernel, ?_⟩
  exact Option.isNone_iff_eq_none.mp (by decide +kernel)

end BzNet
