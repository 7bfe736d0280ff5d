import BzNet.Link.Inbox
import BzNet.Link.Outbox
import BzNet.Proxy.RttFeed

/-!
# Where a datagram that reaches a game comes from

* `HostMove` : what a step of one machine may do to what it has and has to send;
* `Net.onWay` : how much of a datagram is on its way to a machine, `netStep_move` what an action of anybody makes of that
  and of what the machine has;
* `net_authentic` : nothing reaches a game that no game has sent there;
* `net_counts` : nor is it given more often than it is delivered, or delivered more often than it was sent and the
  network repeated it.
-/

namespace BzNet

section Machine
/-! ## One machine -/

/-- The wake thread never sends. -/
def HostCfg.quiet (cfg : HostCfg) : Bool := !(cfg.wake && cfg.proxy.reorder)

/-- What holds of a machine between any two steps. -/
structure HostOk (cfg : HostCfg) (h : Host) : Prop where
  inbox : InboxOk h.rx
  sendDup : h.tx.sendDup = cfg.tx.sendDup
  proxy : h.rx.proxy.cfg = cfg.proxy
  wake : h.rx.enabled = cfg.wake
  aim : h.rx.aim ≠ none → cfg.quiet = false

/-- What a step of a machine may do: send and keep no more than it had and was given, and receive no more than it had,
unless it peeks. -/
structure HostMove (cfg : HostCfg) (h : Host) (given : List Outgoing) (peek : Bool) (r : Host × List Handed) : Prop where
  ok : HostOk cfg r.1
  tx : ∀ q : Outgoing → Bool, r.2.countP (fun w => q w.out) + r.1.tx.outbox.countP q ≤
    h.tx.outbox.countP q + given.countP q
  rx : ∀ p : Packet, p.data ≠ kWakeMagic ∨ cfg.quiet = true → r.1.rx.stock p ≤ peekFactor peek * h.rx.stock p

variable {cfg : HostCfg} {h : Host} {r : Host × List Handed}

theorem hookedSend_rx (p : Proxy) (c : SendCall) :
    (hookedSend p c).1.rx = p.rx ∧ (hookedSend p c).1.cfg = p.cfg := by
  rw [hookedSend_gate]
  cases c.gate with
  | none => exact ⟨rfl, rfl⟩
  | some g =>
    unfold sendThrough
    dsimp only
    split
    · split <;> exact ⟨rfl, rfl⟩
    · exact ⟨rfl, rfl⟩

theorem sendSysStep_rx {s t : SendSys} {act : SendAct} (hs : sendSysStep s act = some t) :
    t.proxy.rx = s.proxy.rx ∧ t.proxy.cfg = s.proxy.cfg := by
  cases act with
  | start a admitMs rttMs =>
    simp only [sendSysStep] at hs
    split at hs
    · cases hs
    · obtain rfl := Option.some.inj hs
      unfold SendSys.start
      dsimp only
      split <;> exact hookedSend_rx _ _
  | offer now ms =>
    obtain ⟨f, -, rfl⟩ := Option.map_eq_some_iff.mp hs
    unfold SendSys.offer
    split <;> exact ⟨rfl, rfl⟩
  | real ok ms =>
    obtain ⟨f, -, rfl⟩ := Option.map_eq_some_iff.mp hs
    exact ⟨rfl, rfl⟩
  | dup ms =>
    obtain ⟨f, -, rfl⟩ := Option.map_eq_some_iff.mp hs
    unfold SendSys.duplicate
    split <;> exact ⟨rfl, rfl⟩
  | turn now ms =>
    obtain rfl := Option.some.inj hs
    exact ⟨rfl, rfl⟩
  | dupPop now =>
    simp only [sendSysStep] at hs
    split at hs
    · cases hs
    · obtain ⟨r, -, rfl⟩ := Option.map_eq_some_iff.mp hs
      exact ⟨rfl, rfl⟩
  | dupSend ms =>
    obtain ⟨o, -, rfl⟩ := Option.map_eq_some_iff.mp hs
    exact ⟨rfl, rfl⟩
  | recv addr pay now =>
    obtain rfl := Option.some.inj hs
    exact ⟨rfl, rfl⟩

theorem HostOk.proxyTo (hok : HostOk cfg h) {tx : SendSys} {p' : Proxy} {closing : Socket → Option CloseStage}
    (hdup : tx.sendDup = h.tx.sendDup) (hrx : p'.rx = h.rx.proxy.rx) (hcfg : p'.cfg = h.rx.proxy.cfg) :
    HostOk cfg ⟨tx, { h.rx with proxy := p' }, closing⟩ where
  inbox := ⟨hrx ▸ hok.inbox.ok, hok.inbox.real⟩
  sendDup := hdup.trans hok.sendDup
  proxy := hcfg.trans hok.proxy
  wake := hok.wake
  aim := hok.aim

theorem stay_le {m n : Nat} (h : m ≤ n) : m ≤ peekFactor false * n := h.trans (Nat.le_mul_of_pos_left n (peekFactor_pos _))

theorem Host.send_move (hok : HostOk cfg h) {act : SendAct} (hr : h.send act = some r) :
    HostMove cfg h (act.brings cfg.tx.sendDup) false r := by
  have hsend : (sendSysStep { h.tx with proxy := h.rx.proxy } act).map (fun t : SendSys =>
      (({ h with tx := t, rx := { h.rx with proxy := t.proxy } } : Host), t.wire.drop h.tx.wire.length)) = some r := by
    cases act with
    | recv addr pay now => cases hr
    | _ => exact hr
  obtain ⟨t, hs, rfl⟩ := Option.map_eq_some_iff.mp hsend
  obtain ⟨hrx, hcfg⟩ := sendSysStep_rx hs
  obtain ⟨-, -, hdup, -⟩ := sendSysStep_outbox hs fun _ => true
  refine ⟨hok.proxyTo hdup hrx hcfg, fun q => ?_, fun p _ => stay_le (stock_proxy hrx p).le⟩
  obtain ⟨ws, hwire, -, hle⟩ := sendSysStep_outbox hs q
  rw [hwire, List.drop_left, ← hok.sendDup]
  exact hle

theorem wakeLook_aim (s : WakeSys) (now : U64) (haim : (wakeLook s now).aim ≠ none) :
    s.aim ≠ none ∨ (s.enabled = true ∧ s.proxy.cfg.reorder = true) := by
  unfold wakeLook at haim
  dsimp only at haim
  split at haim
  · exact Or.inl haim
  · next hon =>
    simp only [Bool.or_eq_true, Bool.not_eq_true', not_or, Bool.not_eq_false] at hon
    exact Or.inr hon

theorem wakeStep_settings (s : WakeSys) (op : WakeOp) (hown : op.own = true) :
    (wakeStep s op).proxy.cfg = s.proxy.cfg ∧ (wakeStep s op).enabled = s.enabled ∧
      ((wakeStep s op).aim ≠ none → s.aim ≠ none ∨ (s.enabled = true ∧ s.proxy.cfg.reorder = true)) := by
  cases op with
  | arrive sock pkt => cases hown
  | look now =>
    refine ⟨by rw [wakeStep, (wakeLook_log s now).2.2.2.1], ?_, wakeLook_aim s now⟩
    rw [wakeStep]
    unfold wakeLook
    dsimp only
    repeat' split
    all_goals rfl
  | wake sender bound arrives =>
    refine ⟨by rw [wakeStep, (wakeSend_log s sender bound arrives).2.2.2.1], ?_, fun haim => ?_⟩
    · rw [wakeStep]
      unfold wakeSend
      split
      · split <;> rfl
      · rfl
    · rw [wakeStep] at haim
      unfold wakeSend at haim
      split at haim
      · split at haim <;> exact absurd rfl haim
      · exact absurd rfl haim
  | recvfrom sock len peek wantsFrom avail feedMs =>
    exact ⟨rttCall_cfg s.proxy _, rfl, Or.inl⟩
  | wsaRecvFrom a sock peek avail pollMs clock nowMs =>
    refine ⟨?_, rfl, Or.inl⟩
    simp only [wakeStep, wsaRecvFrom]
    split <;> exact rttCall_cfg _ _
  | closesocket sock => cases hown

theorem Host.recv_move (hok : HostOk cfg h) {op : WakeOp} (hr : h.recv op = some r) :
    HostMove cfg h [] op.peeks r := by
  unfold Host.recv at hr
  split at hr
  · next hown =>
    obtain rfl := Option.some.inj hr
    obtain ⟨hcfg, henabled, haim⟩ := wakeStep_settings h.rx op hown
    have hinbox : ∀ p : Packet, p.data ≠ kWakeMagic ∨ cfg.quiet = true →
        InboxOk (wakeStep h.rx op) ∧ (wakeStep h.rx op).stock p ≤ peekFactor op.peeks * h.rx.stock p := by
      intro p hp
      refine wakeStep_stock hok.inbox hown (hp.imp_right fun hquiet => ?_)
      by_contra hne
      rw [hok.aim hne] at hquiet
      cases hquiet
    have hany := hinbox ⟨⟨0, 0, 0⟩, []⟩ (Or.inl (by decide))
    refine ⟨⟨hany.1, hok.sendDup, hcfg.trans hok.proxy, henabled.trans hok.wake, fun hne => ?_⟩, fun q => ?_,
      fun p hp => (hinbox p hp).2⟩
    · rcases haim hne with hne | ⟨hon, hreorder⟩
      · exact hok.aim hne
      · rw [HostCfg.quiet, ← hok.wake, ← hok.proxy, hon, hreorder]
        rfl
    · exact Nat.le_of_eq (Nat.zero_add _)
  · cases hr

/-! ## The sections of a close -/

theorem Host.realClose_move (hok : HostOk cfg h) {sock : Socket} (hr : h.realClose sock = some r) :
    HostMove cfg h [] false r := by
  unfold Host.realClose at hr
  split at hr
  · cases hr
  · obtain rfl := Option.some.inj hr
    refine ⟨⟨⟨.empty _ 0 _, fun k d hd => ?_⟩, hok.sendDup, hok.proxy, hok.wake, hok.aim⟩,
      fun q => Nat.le_of_eq (Nat.zero_add _), fun p _ => stay_le (stock_close h.rx sock p)⟩
    by_cases hk : k = sock
    · subst hk
      simp at hd
    · simp only [Function.update_of_ne hk] at hd
      exact hok.inbox.real k d hd

/-- The send side with fewer datagrams in its queues. -/
theorem outbox_mono {s t : SendSys} (hdup : t.sendDup = s.sendDup) (hflight : t.flight = s.flight)
    (hhand : t.hand = s.hand) {q : Outgoing → Bool} {n : Nat}
    (hle : n + t.tx.pending.countP q + t.dup.pending.countP q ≤ s.tx.pending.countP q + s.dup.pending.countP q) :
    n + t.outbox.countP q ≤ s.outbox.countP q := by
  rw [countP_outbox, countP_outbox, SendSys.inFlight, SendSys.inFlight, hdup, hflight, hhand]
  omega

theorem Host.dupPurge_move (hok : HostOk cfg h) {sock : Socket} (hr : h.dupPurge sock = some r) :
    HostMove cfg h [] false r := by
  unfold Host.dupPurge at hr
  split at hr
  · obtain rfl := Option.some.inj hr
    refine ⟨⟨hok.inbox, hok.sendDup, hok.proxy, hok.wake, hok.aim⟩, fun q => ?_,
      fun p _ => stay_le (Nat.le_refl _)⟩
    refine outbox_mono (by rfl) (by rfl) (by rfl) ?_
    have hfilter := (List.filter_sublist (l := h.tx.dup.pending) (p := fun o => o.sock != sock)).countP_le (p := q)
    simp only [dupPurgeSocket_pending, List.countP_nil]
    omega
  · cases hr

theorem closeSession_rx (p : Proxy) (sock : Socket) :
    (closeSession p sock).rx = p.rx ∧ (closeSession p sock).cfg = p.cfg := by
  unfold closeSession
  split <;> exact ⟨rfl, rfl⟩

theorem Host.pacePurge_move (hok : HostOk cfg h) {sock : Socket} {ms : Nat → U64} (hr : h.pacePurge sock ms = some r) :
    HostMove cfg h [] false r := by
  unfold Host.pacePurge at hr
  split at hr
  · obtain rfl := Option.some.inj hr
    obtain ⟨hrx, hcfg⟩ := closeSession_rx h.rx.proxy sock
    refine ⟨hok.proxyTo (by rfl) hrx hcfg, fun q => ?_, fun p _ => stay_le (stock_proxy hrx p).le⟩
    refine outbox_mono (by rfl) (by rfl) (by rfl) ?_
    obtain ⟨hall, hnil, -⟩ := paceFlushLocked_all h.tx.tx
    have hall' : (paceFlushLocked h.tx.tx).2 ++ (paceFlushLocked h.tx.tx).1.q.toList = h.tx.tx.q.toList := by
      rw [hall, hnil, List.append_nil]
    have hflush := countP_pending (q := q) hall'
    have hpurge : (pacePurgeSocket (paceFlushLocked h.tx.tx).1 sock).pending = [] := by
      rw [PaceCtx.pending, pacePurgeSocket, RingBuffer.toList_keep, hnil]
      rfl
    simp only [countP_handOver, hpurge, List.countP_nil]
    omega
  · cases hr

end Machine

/-! ## The network -/

section Network
variable {ι : Type} [DecidableEq ι] [Fintype ι] {top : Topology ι} {conf : ι → HostCfg} {s t : Net ι} {j : ι} {p : Packet}

def Parcel.Is (j : ι) (p : Packet) (k : Parcel ι) : Prop := k.dst = j ∧ k.pkt = p

instance (j : ι) (p : Packet) (k : Parcel ι) : Decidable (k.Is j p) := inferInstanceAs (Decidable (_ ∧ _))

/-- A datagram that machine `i` sends is the datagram `p` for machine `j`. -/
def Topology.leads (top : Topology ι) (j : ι) (p : Packet) (i : ι) (o : Outgoing) : Bool :=
  (top.route i o).any fun k => k.Is j p

/-- How much of the datagram `p` is on its way to machine `j`, from the send hooks to its sockets. -/
noncomputable def Net.onWay (top : Topology ι) (j : ι) (p : Packet) (s : Net ι) : Nat :=
  s.air.countP (Parcel.Is j p) + ∑ i, (s.host i).tx.outbox.countP (top.leads j p i)

structure NetOk (conf : ι → HostCfg) (s : Net ι) : Prop where
  hosts : ∀ i, HostOk (conf i) (s.host i)
  air : ∀ k ∈ s.air, k.pkt.src.Real

/-- What an action brings into the world: a game's send, once or with its duplicate, and the network's repetitions. -/
def NetAct.brings (top : Topology ι) (conf : ι → HostCfg) : NetAct ι → List (Parcel ι)
  | .send i act => (act.brings (conf i).tx.sendDup).filterMap (top.route i)
  | .copy k => [k]
  | _ => []

/-- What an action brings to a socket. -/
def NetAct.delivers : NetAct ι → List (Parcel ι)
  | .deliver k => [k]
  | _ => []

omit [Fintype ι] in
theorem countP_route (i : ι) (os : List Outgoing) :
    (os.filterMap (top.route i)).countP (Parcel.Is j p) = os.countP (top.leads j p i) := by
  rw [List.countP_filterMap]
  refine List.countP_congr fun o _ => ?_
  rw [Topology.leads]
  cases top.route i o <;> simp

omit [Fintype ι] in
theorem goesOn_ok (hs : NetOk conf s) {i : ι} {given : List Outgoing} {peek : Bool} {r : Host × List Handed}
    (hmove : HostMove (conf i) (s.host i) given peek r) : NetOk conf (s.goesOn top i r) := by
  refine ⟨fun k => ?_, fun k hk => ?_⟩
  · by_cases hki : k = i
    · subst hki
      simp only [Net.goesOn, Function.update_self]
      exact hmove.ok
    · simp only [Net.goesOn, Function.update_of_ne hki]
      exact hs.hosts k
  · rcases Multiset.mem_add.mp hk with hk | hk
    · exact hs.air k hk
    · obtain ⟨w, -, hw⟩ := List.mem_filterMap.mp (Multiset.mem_coe.mp hk)
      obtain ⟨d, -, rfl⟩ := Option.map_eq_some_iff.mp hw
      exact top.endpoint_ne i w.out.sock

theorem goesOn_onWay (j : ι) (p : Packet) {i : ι} {given : List Outgoing} {peek : Bool} {r : Host × List Handed}
    (hmove : HostMove (conf i) (s.host i) given peek r) : (s.goesOn top i r).onWay top j p ≤
      s.onWay top j p + (given.filterMap (top.route i)).countP (Parcel.Is j p) := by
  have hsum := Ledger.stock_update (fun i (h : Host) => h.tx.outbox.countP (top.leads j p i)) s.host i r.1
  have htx := hmove.tx (top.leads j p i)
  have hair : (r.2.filterMap fun w => top.route i w.out).countP (Parcel.Is j p) =
      r.2.countP fun w => top.leads j p i w.out := by
    have hmap : (r.2.filterMap fun w => top.route i w.out) = (r.2.map Handed.out).filterMap (top.route i) := by
      rw [List.filterMap_map]
      rfl
    rw [hmap, countP_route, List.countP_map]
    rfl
  rw [countP_route, Net.onWay, Net.onWay, Net.goesOn, Multiset.countP_add, Multiset.coe_countP, hair]
  simp only at hsum ⊢
  omega

omit [Fintype ι] in
theorem goesOn_inbox (hp : p.data ≠ kWakeMagic ∨ (conf j).quiet = true) {i : ι} {given : List Outgoing} {peek : Bool}
    {r : Host × List Handed} (hmove : HostMove (conf i) (s.host i) given peek r) :
    ((s.goesOn top i r).host j).rx.stock p ≤ peekFactor peek * (s.host j).rx.stock p := by
  show (Function.update s.host i r.1 j).rx.stock p ≤ _
  by_cases hji : j = i
  · subst hji
    rw [Function.update_self]
    exact hmove.rx p hp
  · rw [Function.update_of_ne hji]
    exact Nat.le_mul_of_pos_left _ (peekFactor_pos peek)

omit [Fintype ι] in
theorem arrives_ok (hs : NetOk conf s) {k : Parcel ι} (hk : k ∈ s.air) : NetOk conf (s.arrives k) := by
  have hok := hs.hosts k.dst
  refine ⟨fun i => ?_, fun k' hk' => hs.air k' (Multiset.mem_of_mem_erase hk')⟩
  by_cases hik : i = k.dst
  · subst hik
    simp only [Net.arrives, Function.update_self]
    refine ⟨?_, hok.sendDup, hok.proxy, hok.wake, hok.aim⟩
    exact hok.inbox.append (d := ⟨k.pkt, false⟩) (Or.inr (hs.air k hk)) rfl rfl
  · simp only [Net.arrives, Function.update_of_ne hik]
    exact hs.hosts i

theorem arrives_onWay (top : Topology ι) (j : ι) (p : Packet) {k : Parcel ι} (hk : k ∈ s.air) :
    [k].countP (Parcel.Is j p) + (s.arrives k).onWay top j p = s.onWay top j p := by
  have hsum := Ledger.stock_update (fun i (h : Host) => h.tx.outbox.countP (top.leads j p i)) s.host k.dst
    { s.host k.dst with rx := wakeStep (s.host k.dst).rx (.arrive k.sock k.pkt) }
  have hair : s.air.countP (Parcel.Is j p) = (s.air.erase k).countP (Parcel.Is j p) + if k.Is j p then 1 else 0 := by
    rw [← Multiset.countP_cons, Multiset.cons_erase hk]
  rw [List.countP_singleton, Net.onWay, Net.onWay, hair]
  simp only [Net.arrives, decide_eq_true_eq] at hsum ⊢
  omega

omit [Fintype ι] in
theorem arrives_inbox (s : Net ι) (j : ι) (p : Packet) (k : Parcel ι) :
    ((s.arrives k).host j).rx.stock p = (s.host j).rx.stock p + [k].countP (Parcel.Is j p) := by
  rw [List.countP_singleton]
  simp only [decide_eq_true_eq]
  by_cases hjk : j = k.dst
  · subst hjk
    have hadd : (wakeStep (s.host k.dst).rx (.arrive k.sock k.pkt)).stock p = _ :=
      stock_append (s.host k.dst).rx rfl rfl rfl
    simp only [Net.arrives, Function.update_self, hadd, Parcel.Is, true_and]
  · have hnot : ¬ k.Is j p := fun his => hjk his.1.symm
    simp only [Net.arrives, Function.update_of_ne hjk, if_neg hnot, Nat.add_zero]

/-- A receive that leaves on the socket what it returns. -/
def NetAct.peeks : NetAct ι → Bool
  | .recv _ op => op.peeks
  | _ => false

/-- What an action may do about the datagram `p` for machine `j`. -/
structure NetMove (top : Topology ι) (conf : ι → HostCfg) (s : Net ι) (act : NetAct ι) (j : ι) (p : Packet)
    (t : Net ι) : Prop where
  ok : NetOk conf t
  onWay : act.delivers.countP (Parcel.Is j p) + t.onWay top j p ≤
    s.onWay top j p + (act.brings top conf).countP (Parcel.Is j p)
  inbox : p.data ≠ kWakeMagic ∨ (conf j).quiet = true →
    (t.host j).rx.stock p ≤ peekFactor act.peeks * (s.host j).rx.stock p + act.delivers.countP (Parcel.Is j p)

theorem HostMove.net (hs : NetOk conf s) {i : ι} {act : NetAct ι} {given : List Outgoing} {r : Host × List Handed}
    (hmove : HostMove (conf i) (s.host i) given act.peeks r) (hdelivers : act.delivers = [])
    (hbrings : act.brings top conf = given.filterMap (top.route i)) (j : ι) (p : Packet) :
    NetMove top conf s act j p (s.goesOn top i r) where
  ok := goesOn_ok hs hmove
  onWay := by
    rw [hdelivers, hbrings, List.countP_nil, Nat.zero_add]
    exact goesOn_onWay j p hmove
  inbox hp := (goesOn_inbox hp hmove).trans (Nat.le_add_right _ _)

/-- **One action of anybody.** -/
theorem netStep_move (hs : NetOk conf s) {act : NetAct ι} (h : netStep top s act = some t) (j : ι) (p : Packet) :
    NetMove top conf s act j p t := by
  cases act with
  | send i act =>
    obtain ⟨r, hr, rfl⟩ := Option.map_eq_some_iff.mp h
    exact (Host.send_move (hs.hosts i) hr).net hs rfl rfl j p
  | recv i op =>
    obtain ⟨r, hr, rfl⟩ := Option.map_eq_some_iff.mp h
    exact HostMove.net hs (Host.recv_move (hs.hosts i) hr) rfl rfl j p
  | realClose i sock =>
    obtain ⟨r, hr, rfl⟩ := Option.map_eq_some_iff.mp h
    exact HostMove.net hs (Host.realClose_move (hs.hosts i) hr) rfl rfl j p
  | dupPurge i sock =>
    obtain ⟨r, hr, rfl⟩ := Option.map_eq_some_iff.mp h
    exact HostMove.net hs (Host.dupPurge_move (hs.hosts i) hr) rfl rfl j p
  | pacePurge i sock ms =>
    obtain ⟨r, hr, rfl⟩ := Option.map_eq_some_iff.mp h
    exact HostMove.net hs (Host.pacePurge_move (hs.hosts i) hr) rfl rfl j p
  | deliver k =>
    simp only [netStep] at h
    split at h
    · next hk =>
      obtain rfl := Option.some.inj h
      refine ⟨arrives_ok hs hk, (arrives_onWay top j p hk).le, fun _ => ?_⟩
      rw [arrives_inbox]
      exact Nat.add_le_add_right (stay_le (Nat.le_refl _)) _
    · cases h
  | lose k =>
    simp only [netStep] at h
    split at h
    · obtain rfl := Option.some.inj h
      refine ⟨⟨hs.hosts, fun k' hk' => hs.air k' (Multiset.mem_of_mem_erase hk')⟩, ?_, fun _ => stay_le (Nat.le_refl _)⟩
      have hle := Multiset.countP_le_of_le (Parcel.Is j p) (Multiset.erase_le k s.air)
      simp only [Net.onWay, NetAct.delivers, NetAct.brings, List.countP_nil]
      omega
    · cases h
  | copy k =>
    simp only [netStep] at h
    split at h
    · next hk =>
      obtain rfl := Option.some.inj h
      refine ⟨⟨hs.hosts, fun k' hk' => ?_⟩, ?_, fun _ => stay_le (Nat.le_refl _)⟩
      · rcases Multiset.mem_cons.mp hk' with rfl | hk'
        · exact hs.air _ hk
        · exact hs.air k' hk'
      · simp only [Net.onWay, NetAct.delivers, NetAct.brings, List.countP_nil, List.countP_singleton, Multiset.countP_cons,
          decide_eq_true_eq]
        omega
    · cases h

/-! ## Runs -/

theorem hostInit_ok (cfg : HostCfg) : HostOk cfg (hostInit cfg) where
  inbox := ⟨reorderInit_ok cfg.proxy.buffer, fun _ _ hd => absurd hd List.not_mem_nil⟩
  sendDup := rfl
  proxy := rfl
  wake := rfl
  aim h := absurd rfl h

omit [DecidableEq ι] [Fintype ι] in
theorem netInit_ok (conf : ι → HostCfg) : NetOk conf (netInit conf) := by
  refine ⟨fun i => hostInit_ok (conf i), fun k hk => ?_⟩
  exact absurd hk (Multiset.notMem_zero k)

theorem netInit_onWay (top : Topology ι) (conf : ι → HostCfg) (j : ι) (p : Packet) : (netInit conf).onWay top j p = 0 := by
  have houtbox : ∀ i, ((netInit conf).host i).tx.outbox = [] := by
    intro i
    simp [netInit, hostInit, sendSysInit, SendSys.outbox, SendSys.inFlight, PaceCtx.pending, DupCtx.pending, paceInit,
      dupInit]
  rw [Net.onWay, Finset.sum_eq_zero fun i _ => by rw [houtbox i]; rfl]
  rfl

omit [DecidableEq ι] [Fintype ι] in
theorem netInit_inbox (conf : ι → HostCfg) (j : ι) (p : Packet) : ((netInit conf).host j).rx.stock p = 0 :=
  wakeInit_stock (conf j).proxy (conf j).wake p

def NetAct.Sends (top : Topology ι) (j : ι) (p : Packet) (act : NetAct ι) : Prop :=
  ∃ i a admitMs rttMs sock, act = .send i (.start a admitMs rttMs) ∧ top.route i a.outgoing = some ⟨j, sock, p⟩

/-- Where there is none of a datagram, only a game can bring it in. -/
theorem brings_none (conf : ι → HostCfg) {act : NetAct ι} (h : netStep top s act = some t) (hz : s.onWay top j p = 0)
    (hsends : ¬ act.Sends top j p) : (act.brings top conf).countP (Parcel.Is j p) = 0 := by
  cases act with
  | send i act =>
    cases act with
    | start a admitMs rttMs =>
      rw [NetAct.brings, SendAct.brings, countP_route, List.countP_replicate, if_neg]
      intro hleads
      obtain ⟨k, hk, his⟩ := (Option.any_eq_true _ _).mp hleads
      obtain ⟨rfl, rfl⟩ := of_decide_eq_true his
      exact hsends ⟨i, a, admitMs, rttMs, k.sock, rfl, hk⟩
    | _ => rfl
  | copy k =>
    simp only [netStep] at h
    split at h
    · next hk =>
      rw [NetAct.brings, List.countP_singleton, if_neg]
      intro his
      have hpos := Multiset.countP_pos.mpr ⟨k, hk, of_decide_eq_true his⟩
      rw [Net.onWay] at hz
      omega
    · cases h
  | _ => rfl

/-- Two machines with the defaults, where `true` has a socket behind the endpoint `10.0.0.2:17770`. -/
def pingConf (_ : Bool) : HostCfg := ⟨sampleCfg true, ⟨0, 20, false, 0, 0, 0⟩, false⟩

def pingTop : Topology Bool where
  endpoint i _ := ⟨afInet, sampleAddr (if i then 2 else 1), 17770⟩
  home a := if a.addr = sampleAddr 2 then some (true, 7) else none
  endpoint_ne i _ := Or.inl (by cases i <;> decide)

def ping : Packet := ⟨⟨afInet, sampleAddr 1, 17770⟩, [5]⟩

/-- A datagram that arrives twice and is received once. -/
def pingActs : List (NetAct Bool) :=
  [.send false (.start ⟨7, .sendto (some [5]), 0, some [2, 0, 0x45, 0x6a, 10, 0, 0, 2]⟩ 0 0),
    .send false (.offer 0 fun _ => 0), .send false (.real true 0), .copy ⟨true, 7, ping⟩, .deliver ⟨true, 7, ping⟩,
    .deliver ⟨true, 7, ping⟩, .recv true (.recvfrom 7 64 false true 1 0)]

theorem pingActs_runs : (pingActs.foldlM (netStep pingTop) (netInit pingConf)).isSome = true := by decide +kernel

/-- **Nothing is given more often than it is delivered.** In every run of any number of machines on a network that loses,
repeats and reorders what it carries, with any interleaving of their games, threads and closes: a datagram is delivered
to the sockets of a machine no more often than the games have sent it there (twice, where duplication is on) and the
network has repeated it; and where no receive peeks, its game is given it no more often than it was delivered. Wake
datagrams excepted, where the wake thread sends any. -/
theorem net_counts (top : Topology ι) (conf : ι → HostCfg) (acts : List (NetAct ι)) {s : Net ι}
    (hrun : acts.foldlM (netStep top) (netInit conf) = some s) (j : ι) (p : Packet) :
    (acts.flatMap NetAct.delivers).countP (Parcel.Is j p) ≤ (acts.flatMap (NetAct.brings top conf)).countP (Parcel.Is j p) ∧
      ((∀ act ∈ acts, act.peeks = false) → p.data ≠ kWakeMagic ∨ (conf j).quiet = true →
        (s.given j).count p ≤ (acts.flatMap NetAct.delivers).countP (Parcel.Is j p)) := by
  constructor
  · have hstep : ∀ s act t, NetOk conf s → True → netStep top s act = some t → NetOk conf t ∧
        act.delivers.countP (Parcel.Is j p) + t.onWay top j p ≤
          s.onWay top j p + (act.brings top conf).countP (Parcel.Is j p) :=
      fun s act t hs _ h => ⟨(netStep_move hs h j p).ok, (netStep_move hs h j p).onWay⟩
    have hway := Ledger.foldlM_stock hstep (netInit_ok conf) (fun _ _ => trivial) hrun
    rw [netInit_onWay, Nat.zero_add] at hway
    exact (Nat.le_add_right _ _).trans hway
  · intro hpeek hp
    have hstep : ∀ s act t, NetOk conf s → NetAct.peeks act = false → netStep top s act = some t → NetOk conf t ∧
        ([] : List (Parcel ι)).countP (Parcel.Is j p) + (t.host j).rx.stock p ≤
          (s.host j).rx.stock p + act.delivers.countP (Parcel.Is j p) := by
      intro s act t hs hx h
      have hmove := netStep_move hs h j p
      have hinbox := hmove.inbox hp
      rw [hx, peekFactor, if_neg Bool.false_ne_true, Nat.one_mul] at hinbox
      exact ⟨hmove.ok, by rwa [List.countP_nil, Nat.zero_add]⟩
    have hin := Ledger.foldlM_stock hstep (netInit_ok conf) hpeek hrun
    rw [netInit_inbox, Nat.zero_add] at hin
    exact (count_handed_le (s.host j).rx p).trans ((Nat.le_add_left _ _).trans hin)

/-- Received once, of the twice that it was delivered. -/
theorem net_counts_ping : ∃ s, pingActs.foldlM (netStep pingTop) (netInit pingConf) = some s ∧
    (s.given true).count ping = 1 ∧ (pingActs.flatMap NetAct.delivers).countP (Parcel.Is true ping) = 2 ∧
    (s.given true).count ping ≤ (pingActs.flatMap NetAct.delivers).countP (Parcel.Is true ping) :=
  ⟨_, (Option.some_get pingActs_runs).symm, by decide +kernel, by decide +kernel,
    (net_counts pingTop pingConf pingActs (Option.some_get pingActs_runs).symm true ping).2 (by decide)
      (Or.inl (by decide))⟩

/-- **Nothing reaches a game that no game has sent.** In every run of any number of machines on a network that loses,
repeats and reorders what it carries, with any interleaving of their games, threads and closes: every datagram that a
game is given was passed to a send hook by the game of some machine, with the same bytes, for a socket of this machine
and from a socket whose endpoint is its source. The one exception are wake datagrams, where the wake thread is on. -/
theorem net_authentic (top : Topology ι) (conf : ι → HostCfg) (acts : List (NetAct ι)) {s : Net ι}
    (hrun : acts.foldlM (netStep top) (netInit conf) = some s) {j : ι} {p : Packet} (hgiven : p ∈ s.given j) :
    (p.data = kWakeMagic ∧ (conf j).quiet = false) ∨
      ∃ i a admitMs rttMs sock,
        NetAct.send i (.start a admitMs rttMs) ∈ acts ∧ top.route i a.outgoing = some ⟨j, sock, p⟩ := by
  by_contra hno
  push Not at hno
  obtain ⟨hwake, hsend⟩ := hno
  have hp : p.data ≠ kWakeMagic ∨ (conf j).quiet = true := by
    by_cases hmagic : p.data = kWakeMagic
    · exact Or.inr (by simpa using hwake hmagic)
    · exact Or.inl hmagic
  have hnone : NetOk conf s ∧ ((∀ act ∈ acts, ¬ act.Sends top j p) →
      s.onWay top j p = 0 ∧ (s.host j).rx.stock p = 0) := by
    refine Machine.foldlM_inv (P := fun xs s => NetOk conf s ∧ ((∀ act ∈ xs, ¬ act.Sends top j p) →
      s.onWay top j p = 0 ∧ (s.host j).rx.stock p = 0))
      ⟨netInit_ok conf, fun _ => ⟨netInit_onWay top conf j p, netInit_inbox conf j p⟩⟩ ?_ hrun
    rintro xs u act v ⟨hu, hzero⟩ hstep
    have hmove := netStep_move hu hstep j p
    refine ⟨hmove.ok, fun hsends => ?_⟩
    obtain ⟨hway, hin⟩ := hzero fun act hact => hsends act (List.mem_append_left _ hact)
    have hbrings := brings_none conf hstep hway (hsends act (List.mem_append_right _ (List.mem_singleton_self _)))
    have hway' := hmove.onWay
    have hin' := hmove.inbox hp
    rw [hway, hbrings] at hway'
    rw [hin, Nat.mul_zero] at hin'
    omega
  obtain ⟨-, hin⟩ := hnone.2 fun act hact hs => by
    obtain ⟨i, a, admitMs, rttMs, sock, rfl, hroute⟩ := hs
    exact hsend i a admitMs rttMs sock hact hroute
  have hle := count_handed_le (s.host j).rx p
  rw [hin] at hle
  exact absurd (List.count_pos_iff.mpr hgiven) (Nat.not_lt.mpr hle)

theorem net_authentic_ping : ∃ s, pingActs.foldlM (netStep pingTop) (netInit pingConf) = some s ∧ ping ∈ s.given true ∧
    ((ping.data = kWakeMagic ∧ (pingConf true).quiet = false) ∨ ∃ i a admitMs rttMs sock,
      NetAct.send i (.start a admitMs rttMs) ∈ pingActs ∧ pingTop.route i a.outgoing = some ⟨true, sock, ping⟩) :=
  have hgiven : ping ∈ ((pingActs.foldlM (netStep pingTop) (netInit pingConf)).get pingActs_runs).given true := by
    decide +kernel
  ⟨_, (Option.some_get pingActs_runs).symm, hgiven,
    net_authentic pingTop pingConf pingActs (Option.some_get pingActs_runs).symm hgiven⟩

end Network

end BzNet
