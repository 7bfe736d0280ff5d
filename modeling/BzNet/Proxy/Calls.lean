import BzNet.Proxy.Hooks

/-!
# What the hooks do to the modules

* `hookedSend_ungated`, `hookedSend_on`, `hookedSend_off` : a send, by the gate and by the suppressor's switch;
* `purgeSession_dampen`, `purgeSession_rtt` : the walk at the end of a session empties the suppressor's table,
  and purges the sampler under the addresses found there;
* `rttCalls`, `proxyRtt_final` : the sampler of a proxy has been run through the calls the hooks make into it.
-/

namespace BzNet

/-! ## Sends -/

theorem sendGate_some {flags : U32} {dest : Option SockAddr} {pay : Option Payload} {d : SockAddr}
    {b : Payload} (h : sendGate flags dest pay = some (d, b)) :
    dest = some d ∧ pay = some b ∧ d.family = afInet := by
  unfold sendGate at h
  split at h
  · split at h
    · next hc =>
      cases h
      exact ⟨rfl, rfl, hc.2.2.1⟩
    · cases h
  · cases h

section Send
variable {p : Proxy} {c : SendCall} {dest : SockAddr} {pay : Payload}

theorem hookedSend_ungated (h : c.gate = none) : hookedSend p c = (p, false) := by
  rw [hookedSend_gate, h]
  rfl

theorem hookedSend_off (h : c.gate = some (dest, pay)) (hen : p.dampen.enabled = false) :
    hookedSend p c = ({ p with rtt := rttOnSend p.rtt dest.addr pay c.rttMs }, false) := by
  rw [hookedSend_gate, h]
  simp [sendThrough, hen]

theorem hookedSend_on (h : c.gate = some (dest, pay)) (hen : p.dampen.enabled = true) :
    (hookedSend p c).1.dampen = (dampenStep p.dampen (.admission dest.addr pay c.admitMs)).1 ∧
      (hookedSend p c).1.dampenSock = c.sock ∧
      ((hookedSend p c).2 = true ↔
        (dampenStep p.dampen (.admission dest.addr pay c.admitMs)).2 = some .suppress) := by
  rw [hookedSend_gate, h]
  by_cases hd : (dampenAdmit p.dampen dest.addr pay c.admitMs).2 = .suppress
  · simp [sendThrough, dampenStep, hen, hd]
  · simp [sendThrough, dampenStep, hen, hd]

theorem hookedSend_rtt (h : c.gate = some (dest, pay)) : (hookedSend p c).1.rtt =
    if (hookedSend p c).2 then p.rtt else rttOnSend p.rtt dest.addr pay c.rttMs := by
  rw [hookedSend_gate, h]
  simp only [sendThrough]
  split
  · split <;> rfl
  · rfl

end Send

/-! ## Receives -/

section Receive
variable (p : Proxy)

@[simp] theorem rttCall_dampen (op : Option RttOp) : (p.rttCall op).1.dampen = p.dampen := by cases op <;> rfl

@[simp] theorem rttCall_rx (op : Option RttOp) : (p.rttCall op).1.rx = p.rx := by cases op <;> rfl

@[simp] theorem rttCall_dampenSock (op : Option RttOp) : (p.rttCall op).1.dampenSock = p.dampenSock := by
  cases op <;> rfl

theorem hookedRecvfrom_dampen (wantsFrom : Bool) (reals : List (Option Packet)) (feedMs : U64) :
    (hookedRecvfrom p wantsFrom reals feedMs).1.dampen = p.dampen ∧
      (hookedRecvfrom p wantsFrom reals feedMs).1.dampenSock = p.dampenSock := by
  simp [hookedRecvfrom]

theorem wsaRecvFrom_dampen (a : RecvArgs) (call : RecvCall) :
    (wsaRecvFrom p a call).1.dampen = p.dampen ∧ (wsaRecvFrom p a call).1.dampenSock = p.dampenSock := by
  unfold wsaRecvFrom
  split <;> simp

end Receive

/-! ## The end of a session -/

def sessionAddrs (d : DampenCtx) : List U32 :=
  ((List.range kDampenPeers).map fun i => (d.peers i).addr).filter (· ≠ 0)

theorem mem_sessionAddrs {d : DampenCtx} {addr : U32} :
    addr ∈ sessionAddrs d ↔ addr ≠ 0 ∧ dampenRecord d addr ≠ none := by
  rw [sessionAddrs, List.mem_filter, List.mem_map, dampenRecord, ne_eq _ none, LruTable.lookup_eq_none]
  constructor
  · rintro ⟨⟨i, hi, rfl⟩, hne⟩
    exact ⟨by simpa using hne, fun h => h i (List.mem_range.mp hi) rfl⟩
  · rintro ⟨hne, h⟩
    by_contra hno
    refine h fun i hi heq => hno ⟨⟨i, List.mem_range.mpr hi, heq⟩, by simpa using hne⟩

/-- The table with the records in use among the first `m` freed. -/
def clearedTo (t : Nat → DampenPeer) (m : Nat) : Nat → DampenPeer := fun i =>
  if i < m ∧ (t i).addr ≠ 0 then DampenPeer.zero else t i

theorem clearedTo_addr {t : Nat → DampenPeer} {m i : Nat} (hi : i < m) : (clearedTo t m i).addr = 0 := by
  unfold clearedTo
  split
  · rfl
  · next h =>
    by_contra hne
    exact h ⟨hi, hne⟩

theorem clearedTo_self (t : Nat → DampenPeer) (m : Nat) : clearedTo t m m = t m := if_neg fun h => Nat.lt_irrefl m h.1

theorem clearedTo_succ_free {t : Nat → DampenPeer} {m : Nat} (h : (t m).addr = 0) :
    clearedTo t (m + 1) = clearedTo t m := by
  funext i
  by_cases him : i = m
  · subst him
    simp [clearedTo, h]
  · have hiff : i < m + 1 ↔ i < m := by omega
    simp [clearedTo, hiff]

/-- What the walk has freed lies behind it, so the address it meets is found in the record it is at. -/
theorem clearedTo_succ_purge {t : Nat → DampenPeer} {m : Nat} (hm : m < kDampenPeers) (h : (t m).addr ≠ 0) :
    LruTable.purge kDampenPeers (clearedTo t m) (t m).addr = clearedTo t (m + 1) := by
  have hhere : KeyedRecord.key (clearedTo t m m) = (t m).addr := by
    rw [clearedTo_self]
    rfl
  rw [LruTable.purge_first hm hhere fun j hj he => h (he.symm.trans (clearedTo_addr hj))]
  funext i
  by_cases him : i = m
  · subst him
    rw [Function.update_self, clearedTo, if_pos ⟨Nat.lt_succ_self i, h⟩]
    rfl
  · have hiff : i < m + 1 ↔ i < m := by omega
    rw [Function.update_of_ne him]
    simp [clearedTo, hiff]

theorem purgeWalk (d : DampenCtx) (r : RttCtx) {m : Nat} (hm : m ≤ kDampenPeers) :
    (List.range m).foldl (fun dr i =>
      let addr := (dr.1.peers i).addr
      if addr ≠ 0 then (dampenPurgePeer dr.1 addr, rttPurgePeer dr.2 addr) else dr) (d, r) =
    ({ d with peers := clearedTo d.peers m },
      (((List.range m).map fun i => (d.peers i).addr).filter (· ≠ 0)).foldl rttPurgePeer r) := by
  induction m with
  | zero =>
    have hnone : clearedTo d.peers 0 = d.peers := by
      funext i
      exact if_neg fun h => Nat.not_lt_zero i h.1
    rw [hnone]
    rfl
  | succ m ih =>
    rw [List.range_succ, List.foldl_append, ih (by omega), List.map_append, List.filter_append, List.foldl_append]
    by_cases h : (d.peers m).addr = 0
    · simp [clearedTo_self, clearedTo_succ_free, h]
    · have hone : [(d.peers m).addr].filter (fun a => decide (a ≠ 0)) = [(d.peers m).addr] := by simpa using h
      simp only [List.map_cons, List.map_nil, hone, List.foldl_cons, List.foldl_nil, clearedTo_self, ne_eq, h,
        not_false_eq_true, if_true, dampenPurgePeer, clearedTo_succ_purge hm h]

/-- **The walk empties the suppressor's table.** -/
theorem purgeSession_dampen (d : DampenCtx) (r : RttCtx) :
    (purgeSession d r).1 = { d with peers := clearedTo d.peers kDampenPeers } := by
  rw [purgeSession, purgeWalk d r (Nat.le_refl _)]

theorem purgeSession_rtt (d : DampenCtx) (r : RttCtx) :
    (purgeSession d r).2 = Machine.final rttStep r ((sessionAddrs d).map RttOp.purge) := by
  rw [purgeSession, purgeWalk d r (Nat.le_refl _), Machine.final, List.foldl_map]
  rfl

theorem purgeSession_record (d : DampenCtx) (r : RttCtx) {addr : U32} (hne : addr ≠ 0) :
    dampenRecord (purgeSession d r).1 addr = none := by
  rw [purgeSession_dampen, dampenRecord, LruTable.lookup_eq_none]
  intro i hi he
  exact hne (he.symm.trans (clearedTo_addr hi))

section Close
variable {p : Proxy} {s : Socket}

theorem hookedClosesocket_ends (h : dampenCloseEndsSession s p.dampenSock = true) :
    (hookedClosesocket p s).1.dampen = (purgeSession p.dampen p.rtt).1 ∧
      (hookedClosesocket p s).1.rtt = (purgeSession p.dampen p.rtt).2 ∧
      (hookedClosesocket p s).1.dampenSock = invalidSocket ∧ (hookedClosesocket p s).2 = true := by
  simp [hookedClosesocket, h]

theorem hookedClosesocket_stays (h : dampenCloseEndsSession s p.dampenSock = false) :
    (hookedClosesocket p s).1.dampen = p.dampen ∧ (hookedClosesocket p s).1.rtt = p.rtt ∧
      (hookedClosesocket p s).1.dampenSock = p.dampenSock ∧ (hookedClosesocket p s).2 = false := by
  simp [hookedClosesocket, h]

end Close

/-! ## The calls into the sampler -/

/-- What the sampler is shown by a receive through `WSARecvFrom`. -/
def wsaRecvFeed (p : Proxy) (a : RecvArgs) (call : RecvCall) : Option RttOp :=
  if bypassesBuffer p a then
    if a.wantsBytes && a.wantsFrom then a.real.bind a.feed else none
  else if p.cfg.platform = Platform.windows then ((hookedWSARecvFrom p.rx call).2.handed.map Datagram.packet).bind a.feed
  else none

/-- The calls a hooked call makes into the sampler. -/
def rttCalls (p : Proxy) : ProxyOp → List RttOp
  | .send c => if (hookedSend p c).2 then [] else (c.gate.map fun g => RttOp.send g.1.addr g.2 c.rttMs).toList
  | .recvfrom _ wantsFrom reals feedMs =>
    (recvfromFeed p.cfg.platform wantsFrom (skipWakes reals) feedMs).toList
  | .wsaRecvFrom a call => (wsaRecvFeed p a call).toList
  | .closesocket s =>
    if dampenCloseEndsSession s p.dampenSock then (sessionAddrs p.dampen).map RttOp.purge else []

theorem rttCall_rtt (p : Proxy) (op : Option RttOp) :
    (p.rttCall op).1.rtt = Machine.final rttStep p.rtt op.toList := by
  cases op <;> rfl

theorem proxyStep_rtt (p : Proxy) (op : ProxyOp) :
    (proxyStep p op).1.rtt = Machine.final rttStep p.rtt (rttCalls p op) := by
  cases op with
  | send c =>
    simp only [proxyStep, rttCalls]
    cases hg : c.gate with
    | none => simp [hookedSend_ungated hg]
    | some g =>
      obtain ⟨dest, pay⟩ := g
      rw [hookedSend_rtt hg]
      split
      · rfl
      · rfl
  | recvfrom sock wantsFrom reals feedMs => exact rttCall_rtt p _
  | wsaRecvFrom a call =>
    simp only [proxyStep, rttCalls, wsaRecvFrom, wsaRecvFeed]
    split
    · exact rttCall_rtt p _
    · exact rttCall_rtt { p with rx := (hookedWSARecvFrom p.rx call).1 } _
  | closesocket s =>
    simp only [proxyStep, rttCalls]
    cases h : dampenCloseEndsSession s p.dampenSock with
    | true =>
      rw [(hookedClosesocket_ends h).2.1, purgeSession_rtt]
      rfl
    | false =>
      rw [(hookedClosesocket_stays h).2.1]
      rfl

/-- **The sampler of a proxy** has been run through the calls of the hooks. -/
theorem proxyRtt_final (p : Proxy) (ops : List ProxyOp) : (Machine.final proxyStep p ops).rtt =
    Machine.final rttStep p.rtt (Machine.callsOf proxyStep rttCalls p ops) :=
  Machine.final_calls proxyStep_rtt p ops

end BzNet
