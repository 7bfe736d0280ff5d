import BzNet.Proxy.PurgeGate
import BzNet.Rtt.Karn

/-!
# Sessions of the sampler

Runs of hooked calls. The sampler has no session of its own: its records are purged by the walk over the
suppressor's table, on the close that ends the suppressor's session.

* `OfSession` : the sampler's record of an address holds what traffic on a socket put there since its last close;
* `SampledSince` : no sample after a close is timed against a send before it;
* `rtt_close_session` : the close of the socket that carried the reliable traffic ends the sampler's session exactly
  when it ends the suppressor's one and every address of the session has a record there too.
-/

namespace BzNet

open Machine

/-- The calls that find or create the record of their address. -/
def RttOp.tracks : RttOp → Bool
  | .send addr pay _ => addr ≠ 0 && decide (Sequenced pay)
  | .recv addr pay _ => addr ≠ 0 && decide (kReorderSeqMinPay ≤ pay.length)
  | .purge _ => false

abbrev proxyAt (cfg : ProxyCfg) (ops : List ProxyOp) (k : Nat) : Proxy := stateAt proxyStep (proxyInit cfg) ops k

/-- The socket was not closed after call `k`. -/
def OpenSince (ops : List ProxyOp) (k : Nat) (s : Socket) : Prop := ∀ j, k < j → ops[j]? ≠ some (.closesocket s)

/-- A reliable datagram with a sequence was sent on the socket since its last close. -/
def Carried (ops : List ProxyOp) (s : Socket) : Prop :=
  ∃ k c, ops[k]? = some (.send c) ∧ c.sock = s ∧ c.tracked = true ∧ OpenSince ops k s

/-- The record of the address holds what a call on the socket since its last close put there. -/
def OfSession (cfg : ProxyCfg) (ops : List ProxyOp) (s : Socket) (addr : U32) : Prop :=
  ∃ k op, ops[k]? = some op ∧ op.sock = s ∧ OpenSince ops k s ∧
    (∃ call ∈ rttCalls (proxyAt cfg ops k) op, call.addr = addr ∧ call.tracks = true) ∧
    ∀ j, k < j → j ≤ ops.length → rttRecord (proxyAt cfg ops j).rtt addr ≠ none

/-- Whatever the game does next, a sample of the address is timed against a send made from now on. -/
def SampledSince (p : Proxy) (addr : U32) : Prop :=
  ∀ later before pay now after ms, callsOf proxyStep rttCalls p later = before ++ .recv addr pay now :: after →
    (rttStep (final rttStep p.rtt before) (.recv addr pay now)).2 = some (.sample ms) →
    ∃ pay' t, RttOp.send addr pay' t ∈ before ∧ Sequenced pay' ∧
      reorderSeqFromPayload pay' = reorderAckFromPayload pay ∧ ms.toNat = now.toNat - t.toNat

section
variable {cfg : ProxyCfg} {ops : List ProxyOp} {s : Socket} {addr : U32} {p : Proxy}

theorem proxyRun_rttDistinct (cfg : ProxyCfg) (ops : List ProxyOp) :
    (final proxyStep (proxyInit cfg) ops).rtt.Distinct := by
  rw [proxyRtt_final]
  exact rttRun_distinct (rttInit_distinct cfg.rtt) _

theorem sampledSince_of_none (hd : p.rtt.Distinct) (hnone : rttRecord p.rtt addr = none) : SampledSince p addr :=
  fun _ before _ _ _ _ _ hs => sample_sentSince hd (fun _ => hnone) before hs

theorem OfSession.addr_ne (h : OfSession cfg ops s addr) : addr ≠ 0 := by
  obtain ⟨k, op, -, -, -, ⟨call, -, rfl, htr⟩, -⟩ := h
  cases call with
  | send a pay now =>
    rw [RttOp.tracks, Bool.and_eq_true, decide_eq_true_iff] at htr
    exact htr.1
  | recv a pay now =>
    rw [RttOp.tracks, Bool.and_eq_true, decide_eq_true_iff] at htr
    exact htr.1
  | purge a => cases htr

theorem OfSession.record (h : OfSession cfg ops s addr) :
    rttRecord (final proxyStep (proxyInit cfg) ops).rtt addr ≠ none := by
  obtain ⟨k, op, hop, -, -, -, hkept⟩ := h
  have := hkept ops.length (List.getElem?_eq_some_iff.mp hop).1 (Nat.le_refl _)
  rwa [proxyAt, stateAt_length] at this

/-! ## The sampler through a close -/

theorem rttRecord_purges {c : RttCtx} (hd : c.Distinct) (hne : addr ≠ 0) (addrs : List U32) :
    rttRecord (final rttStep c (addrs.map RttOp.purge)) addr = if addr ∈ addrs then none else rttRecord c addr := by
  induction addrs using List.reverseRecOn with
  | nil => rfl
  | append_singleton addrs a ih =>
    have hd' := rttRun_distinct hd (addrs.map RttOp.purge)
    rw [List.map_append, List.map_singleton, final_concat]
    by_cases ha : addr = a
    · subst ha
      rw [if_pos (by simp)]
      exact LruTable.lookup_purge_self hd' hne
    · have hsame : rttRecord (rttStep (final rttStep c (addrs.map RttOp.purge)) (.purge a)).1 addr =
          rttRecord (final rttStep c (addrs.map RttOp.purge)) addr := LruTable.lookup_purge_of_ne hne ha
      rw [hsame, ih]
      simp [ha]

/-- **The sampler's record through a close**: it goes when the close ends the suppressor's session and the
suppressor has a record of the address too. -/
theorem hookedClosesocket_rttRecord (hd : p.rtt.Distinct) (hne : addr ≠ 0) (s : Socket) :
    rttRecord (hookedClosesocket p s).1.rtt addr =
      if dampenCloseEndsSession s p.dampenSock = true ∧ dampenRecord p.dampen addr ≠ none then none
      else rttRecord p.rtt addr := by
  cases hends : dampenCloseEndsSession s p.dampenSock with
  | true =>
    rw [(hookedClosesocket_ends hends).2.1, purgeSession_rtt, rttRecord_purges hd hne]
    exact if_congr (mem_sessionAddrs.trans ⟨fun h => ⟨rfl, h.2⟩, fun h => ⟨hne, h.2⟩⟩) rfl rfl
  | false => simp [(hookedClosesocket_stays hends).2.1]

end

/-- **The end of a session of the sampler.** In every state a run reaches, with the suppressor on or off: after
the close of a socket that carried the reliable traffic no record of the session is left, and no later sample is
timed against an earlier send, exactly when the suppressor is on, the socket is the one it remembers, and it has a
record for every address of the session. -/
theorem rtt_close_session (cfg : ProxyCfg) (ops : List ProxyOp) (s : Socket) :
    let p := final proxyStep (proxyInit cfg) ops
    let p' := (hookedClosesocket p s).1
    (Carried ops s → ∀ addr, OfSession cfg ops s addr → rttRecord p'.rtt addr = none ∧ SampledSince p' addr) ↔
      (Carried ops s → ∀ addr, OfSession cfg ops s addr →
        (cfg.dampen = true ∧ Remembered (sentSincePurge cfg ops) s) ∧ dampenRecord p.dampen addr ≠ none) := by
  intro p p'
  have hd : p.rtt.Distinct := proxyRun_rttDistinct cfg ops
  have hd' : p'.rtt.Distinct := by
    have := proxyRun_rttDistinct cfg (ops ++ [.closesocket s])
    rwa [final_concat] at this
  refine imp_congr_right fun _ => forall_congr' fun addr => imp_congr_right fun hses => ?_
  have hafter := hookedClosesocket_rttRecord hd hses.addr_ne s
  rw [← proxyRun_closeEnds]
  constructor
  · rintro ⟨hnone, -⟩
    by_contra hno
    rw [if_neg hno] at hafter
    exact hses.record (hafter.symm.trans hnone)
  · intro hcond
    rw [if_pos hcond] at hafter
    exact ⟨hafter, sampledSince_of_none hd' hafter⟩

/-- The suppressor off, as shipped: the record outlives the close of its socket, and an acknowledgement of the next
session is timed against the send of the closed one. -/
theorem rtt_close_session_damperOff :
    let ops : List ProxyOp := [.send (sampleSend 7 (sampleAddr 1) 17770 (makePkt true 5 0) 1000)]
    let p' := (hookedClosesocket (final proxyStep (proxyInit (sampleCfg false)) ops) 7).1
    Carried ops 7 ∧ OfSession (sampleCfg false) ops 7 (sampleAddr 1) ∧
      rttRecord p'.rtt (sampleAddr 1) ≠ none ∧ ¬ SampledSince p' (sampleAddr 1) := by
  intro ops p'
  have hopen : OpenSince ops 0 7 := fun j hj h => by
    have := (List.getElem?_eq_some_iff.mp h).1
    simp only [ops, List.length_singleton] at this
    omega
  refine ⟨⟨0, _, rfl, rfl, by decide +kernel, hopen⟩, ⟨0, _, rfl, rfl, hopen, ?_, ?_⟩, ?_, ?_⟩
  · exact ⟨_, List.mem_singleton_self _, rfl, by decide +kernel⟩
  · intro j hj hle
    obtain rfl : j = 1 := by
      simp only [ops, List.length_singleton] at hle
      omega
    exact Option.isSome_iff_ne_none.mp (by decide +kernel)
  · exact Option.isSome_iff_ne_none.mp (by decide +kernel)
  · intro h
    let ack : Datagram := ⟨⟨afInet, sampleAddr 1, 17770⟩, makePkt true 1 5, by decide⟩
    obtain ⟨pay', t, hmem, -⟩ := h [sampleRecv 8 ack 21000] [] (makePkt true 1 5) 21000 [] 20000 (by rfl)
      (by decide +kernel)
    cases hmem

end BzNet
