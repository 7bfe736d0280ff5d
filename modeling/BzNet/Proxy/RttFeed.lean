import BzNet.Proxy.Calls

/-!
# Which receives the round-trip sampler sees

The call into the sampler stands by hand at several exits of the receive hooks, and not at the same ones in both
proxies: the Windows proxy has it on the delivery from the reorder buffer, the Linux proxy on the plain receive.

* `Hands`, `Delivers` : a synchronous receive that hands an IPv4 datagram to the game, at a position of a run;
* `presented` : the calls of `rtt_on_recv` it makes;
* `FeedReaches` : when the exit it takes is wired and sees the whole datagram;
* `rtt_feed_iff_reaches` : exactly then the datagram is presented once, with its source, its bytes and its length,
  and where that holds of all receives under both proxies, the samplers end in the same state.
-/

namespace BzNet

open Machine

/-! ## What a receive hands over, and what it presents -/

def ProxyOut.handed : ProxyOut → Option Packet
  | .received r => r.handed
  | .sent _ => none
  | .closed _ => none

/-- The receives that return with their datagram. -/
def ProxyOp.Synchronous : ProxyOp → Prop
  | .recvfrom _ _ _ _ => True
  | .wsaRecvFrom a _ => a.overlapped = false
  | .send _ => False
  | .closesocket _ => False

/-- The clock a receive shows the sampler. -/
def ProxyOp.feedMs : ProxyOp → U64
  | .recvfrom _ _ _ feedMs => feedMs
  | .wsaRecvFrom a _ => a.feedMs
  | .send c => c.rttMs
  | .closesocket _ => 0

/-- The calls of `rtt_on_recv` a receive makes: with the sampler off the hooks leave them out. -/
def presented (p : Proxy) (op : ProxyOp) : List RttOp := if p.rtt.enabled then rttCalls p op else []

/-- A synchronous receive that hands the IPv4 datagram `d` to the game. -/
structure Hands (p : Proxy) (op : ProxyOp) (d : Packet) : Prop where
  sync : op.Synchronous
  handed : (proxyStep p op).2.handed = some d
  inet : d.src.family = afInet

/-- Call number `k` of a run is one. -/
def Delivers (p : Proxy) (ops : List ProxyOp) (k : Nat) (op : ProxyOp) (d : Packet) : Prop :=
  ops[k]? = some op ∧ Hands (stateAt proxyStep p ops k) op d

/-! ## When the sampler sees a datagram -/

/-- The memory from the first buffer on reads as the datagram: the buffer holds it whole, or what lies behind the
buffer happens to be the rest. -/
def RecvArgs.FirstReads (a : RecvArgs) (d : Packet) : Prop :=
  ∃ len, a.segments.head? = some (some len) ∧ ∀ i (h : len + i < d.data.length), a.behind i = d.data[len + i]

/-- The exits with a call into the sampler, and what they need of the caller's arguments. -/
def FeedReaches (cfg : ProxyCfg) (op : ProxyOp) (d : Packet) : Prop :=
  cfg.rtt = true ∧ d.data ≠ [] ∧
    match op with
    | .recvfrom _ wantsFrom _ _ => cfg.platform = .linux ∧ wantsFrom = true
    | .wsaRecvFrom a _ =>
      a.FirstReads d ∧
        if cfg.reorder = true ∧ a.segments ≠ [] then cfg.platform = .windows ∧ d.data.length ≤ a.capacity
        else a.wantsBytes = true ∧ a.wantsFrom = true
    | .send _ => False
    | .closesocket _ => False

/-! ## The bytes shown -/

section Scatter

theorem scatterCopy_flatten (segments : List (Option Nat)) (src : Payload) :
    (scatterCopy segments src).flatten = src.take ((segments.map fun s => s.getD 0).sum) := by
  induction segments generalizing src with
  | nil => rw [scatterCopy, List.map_nil, List.sum_nil, List.take_zero, List.flatten_nil]
  | cons s segments ih =>
    cases s with
    | none =>
      rw [scatterCopy, List.flatten_cons, ih, List.nil_append, List.map_cons, List.sum_cons, Option.getD_none,
        Nat.zero_add]
    | some len =>
      rw [scatterCopy, List.flatten_cons, ih, List.map_cons, List.sum_cons, Option.getD_some, List.take_add]

variable {a : RecvArgs} {d : Packet}

theorem length_copied (a : RecvArgs) (d : Packet) :
    (scatterCopy a.segments d.data).flatten.length = min a.capacity d.data.length := by
  rw [scatterCopy_flatten, List.length_take]
  rfl

/-- The view from the first buffer on is the datagram exactly when that memory reads as it. -/
theorem atFirst_eq_iff : a.atFirst d.data d.data.length = some d.data ↔ a.FirstReads d := by
  unfold RecvArgs.FirstReads
  cases hs : a.segments with
  | nil => simp [RecvArgs.atFirst, hs]
  | cons s segments =>
    cases s with
    | none => simp [RecvArgs.atFirst, hs]
    | some len =>
      simp only [RecvArgs.atFirst, hs, List.head?_cons, Option.some.injEq, exists_eq_left']
      have hsplit : d.data = d.data.take len ++ d.data.drop len := (List.take_append_drop len d.data).symm
      have hlen : d.data.length - (d.data.take len).length = d.data.length - len := by
        rw [List.length_take]
        omega
      rw [hlen]
      constructor
      · intro h i hi
        have hrest : (List.range (d.data.length - len)).map a.behind = d.data.drop len :=
          List.append_cancel_left (h.trans hsplit)
        have hget := congrArg (fun l => l[i]?) hrest
        have hin : i < d.data.length - len := by omega
        simpa [hin, hi] using hget
      · intro h
        refine Eq.trans ?_ hsplit.symm
        congr 1
        apply List.ext_getElem
        · simp
        · intro i h1 h2
          have hi : len + i < d.data.length := by
            rw [List.length_drop] at h2
            omega
          simp [h i hi]

theorem length_atFirst {v : Payload} (h : a.atFirst d.data (min a.capacity d.data.length) = some v) :
    v.length = min a.capacity d.data.length := by
  unfold RecvArgs.atFirst at h
  split at h
  · next len segments hs =>
    have hcap : len ≤ a.capacity := by
      rw [RecvArgs.capacity, hs, List.map_cons, List.sum_cons, Option.getD_some]
      exact Nat.le_add_right _ _
    cases h
    simp only [List.length_append, List.length_take, List.length_map, List.length_range]
    omega
  · cases h

/-- What the sampler is shown is the datagram exactly when all of it was copied and it reads from the first buffer
on. -/
theorem feed_eq_iff (h4 : d.src.family = afInet) : a.feed d = some (.recv d.src.addr d.data a.feedMs) ↔
    d.data ≠ [] ∧ a.FirstReads d ∧ d.data.length ≤ a.capacity := by
  have hpos : 0 < d.data.length ↔ d.data ≠ [] := List.length_pos_iff
  rw [RecvArgs.feed, length_copied, ← atFirst_eq_iff]
  constructor
  · intro h
    split at h
    · next hc =>
      obtain ⟨v, hv, heq⟩ := Option.map_eq_some_iff.mp h
      cases heq
      have hlen := length_atFirst hv
      have hfit : min a.capacity d.data.length = d.data.length := hlen.symm
      rw [hfit] at hv hc
      exact ⟨hpos.mp hc.1, hv, by omega⟩
    · cases h
  · rintro ⟨hne, hfirst, hfit⟩
    have hpos := hpos.mpr hne
    rw [Nat.min_eq_right hfit, if_pos ⟨hpos, h4⟩, hfirst, Option.map_some]

theorem feed_of_other (h4 : d.src.family ≠ afInet) : a.feed d = none := by
  rw [RecvArgs.feed, if_neg fun h => h4 h.2]

theorem real_fits (h : a.real = some d) : d.data.length ≤ a.capacity := by
  rw [RecvArgs.real, Option.filter_eq_some_iff] at h
  simpa using h.2

end Scatter

/-! ## One receive -/

section Receive
variable {p : Proxy} {op : ProxyOp} {d : Packet}

theorem recvfromFeed_eq_iff {platform : Platform} {wantsFrom : Bool} {feedMs : U64} (h4 : d.src.family = afInet) :
    recvfromFeed platform wantsFrom (some d) feedMs = some (.recv d.src.addr d.data feedMs) ↔
      d.data ≠ [] ∧ platform = .linux ∧ wantsFrom = true := by
  cases platform with
  | windows => simp [recvfromFeed]
  | linux => simp [recvfromFeed, h4]

theorem bypassesBuffer_iff {a : RecvArgs} (h : a.overlapped = false) :
    bypassesBuffer p a = false ↔ p.cfg.reorder = true ∧ a.segments ≠ [] := by
  simp [bypassesBuffer, h]

theorem wsaRecv_plain {a : RecvArgs} {call : RecvCall} (h : bypassesBuffer p a = true) :
    (proxyStep p (.wsaRecvFrom a call)).2.handed = a.real := by
  rw [proxyStep, ProxyOut.handed, wsaRecvFrom, if_pos h]

theorem wsaRecv_buffered {a : RecvArgs} {call : RecvCall} (h : bypassesBuffer p a = false) :
    (proxyStep p (.wsaRecvFrom a call)).2.handed = (hookedWSARecvFrom p.rx call).2.handed.map Datagram.packet := by
  rw [proxyStep, ProxyOut.handed, wsaRecvFrom, h, if_neg Bool.false_ne_true]

/-- The datagram a receive hands over is presented exactly when its exit is wired and sees it. -/
theorem presented_iff (hen : p.rtt.enabled = p.cfg.rtt) (h : Hands p op d) :
    presented p op = [.recv d.src.addr d.data op.feedMs] ↔ FeedReaches p.cfg op d := by
  obtain ⟨hsync, hh, h4⟩ := h
  unfold presented FeedReaches
  rw [hen]
  cases op with
  | send c => exact hsync.elim
  | closesocket s => exact hsync.elim
  | recvfrom sock wantsFrom reals feedMs =>
    have hd : skipWakes reals = some d := hh
    have hiff := @recvfromFeed_eq_iff d p.cfg.platform wantsFrom feedMs h4
    cases hr : p.cfg.rtt with
    | false => simp
    | true =>
      simp only [if_true, rttCalls, hd, ProxyOp.feedMs, true_and, ← hiff, Option.toList_eq_singleton_iff]
  | wsaRecvFrom a call =>
    have hiff := @feed_eq_iff a d h4
    cases hr : p.cfg.rtt with
    | false => simp
    | true =>
      simp only [if_true, rttCalls, ProxyOp.feedMs, true_and, Option.toList_eq_singleton_iff]
      by_cases hbuf : p.cfg.reorder = true ∧ a.segments ≠ []
      · have hby := (bypassesBuffer_iff hsync).mpr hbuf
        rw [wsaRecv_buffered hby] at hh
        rw [wsaRecvFeed, hby, if_neg Bool.false_ne_true, hh, Option.bind_some, if_pos hbuf]
        by_cases hw : p.cfg.platform = .windows
        · rw [if_pos hw, hiff]
          tauto
        · rw [if_neg hw]
          simp [hw]
      · have hby := Bool.eq_true_of_not_eq_false fun h => hbuf ((bypassesBuffer_iff hsync).mp h)
        rw [wsaRecv_plain hby] at hh
        have hfit := real_fits hh
        rw [wsaRecvFeed, if_pos hby, hh, Option.bind_some, if_neg hbuf]
        by_cases hw : a.wantsBytes = true ∧ a.wantsFrom = true
        · rw [if_pos (by simp [hw.1, hw.2]), hiff]
          tauto
        · rw [if_neg (by simpa using hw)]
          simp [hw]

theorem rttCalls_idle (hsync : op.Synchronous) (h : ∀ d, ¬ Hands p op d) : rttCalls p op = [] := by
  have hother : ∀ d, (proxyStep p op).2.handed = some d → d.src.family ≠ afInet :=
    fun d hd h4 => h d ⟨hsync, hd, h4⟩
  cases op with
  | send c => exact hsync.elim
  | closesocket s => exact hsync.elim
  | recvfrom sock wantsFrom reals feedMs =>
    rw [rttCalls, Option.toList_eq_nil_iff]
    cases hd : skipWakes reals with
    | none => cases p.cfg.platform <;> rfl
    | some d =>
      have h4 := hother d hd
      cases p.cfg.platform with
      | windows => rfl
      | linux => rw [recvfromFeed, if_neg fun hc => h4 hc.2.2]
  | wsaRecvFrom a call =>
    have hnone : ∀ o : Option Packet, (∀ d, o = some d → d.src.family ≠ afInet) → o.bind a.feed = none := by
      intro o ho
      cases o with
      | none => rfl
      | some d => exact feed_of_other (ho d rfl)
    rw [rttCalls, Option.toList_eq_nil_iff, wsaRecvFeed]
    cases hby : bypassesBuffer p a with
    | true =>
      rw [wsaRecv_plain hby] at hother
      rw [if_pos rfl, hnone _ hother, ite_self]
    | false =>
      rw [wsaRecv_buffered hby] at hother
      rw [if_neg Bool.false_ne_true, hnone _ hother, ite_self]

end Receive

/-! ## Runs -/

section Run
variable {p : Proxy}

theorem proxyStep_rttEnabled (p : Proxy) (op : ProxyOp) : (proxyStep p op).1.rtt.enabled = p.rtt.enabled := by
  rw [proxyStep_rtt]
  exact final_inv (P := fun c : RttCtx => c.enabled = p.rtt.enabled) rfl (fun _ _ h => rttStep_enabled.trans h) _

@[simp] theorem rttCall_cfg (p : Proxy) (op : Option RttOp) : (p.rttCall op).1.cfg = p.cfg := by cases op <;> rfl

theorem proxyStep_cfg (p : Proxy) (op : ProxyOp) : (proxyStep p op).1.cfg = p.cfg := by
  cases op with
  | send c =>
    rw [proxyStep, hookedSend_gate]
    cases c.gate with
    | none => rfl
    | some g =>
      simp only [sendThrough]
      split
      · split <;> rfl
      · rfl
  | recvfrom sock wantsFrom reals feedMs => exact rttCall_cfg p _
  | wsaRecvFrom a call =>
    simp only [proxyStep, wsaRecvFrom]
    split
    · exact rttCall_cfg p _
    · exact rttCall_cfg { p with rx := (hookedWSARecvFrom p.rx call).1 } _
  | closesocket s =>
    simp only [proxyStep, hookedClosesocket]
    split <;> rfl

theorem stateAt_settings (cfg : ProxyCfg) (ops : List ProxyOp) (k : Nat) :
    (stateAt proxyStep (proxyInit cfg) ops k).cfg = cfg ∧
      (stateAt proxyStep (proxyInit cfg) ops k).rtt.enabled = cfg.rtt :=
  stateAt_inv (P := fun p => p.cfg = cfg ∧ p.rtt.enabled = cfg.rtt) ⟨rfl, rfl⟩
    (fun p op h => ⟨(proxyStep_cfg p op).trans h.1, (proxyStep_rttEnabled p op).trans h.2⟩) ops k

/-! ## The two proxies -/

/-- Two proxies that differ in nothing but the platform. -/
structure Alike (p q : Proxy) : Prop where
  reorder : p.cfg.reorder = q.cfg.reorder
  dampen : p.dampen = q.dampen
  dampenSock : p.dampenSock = q.dampenSock
  rtt : p.rtt = q.rtt
  rx : p.rx = q.rx

variable {q : Proxy} {op : ProxyOp}

theorem Alike.bypasses (h : Alike p q) (a : RecvArgs) : bypassesBuffer p a = bypassesBuffer q a := by
  rw [bypassesBuffer, h.reorder, bypassesBuffer]

theorem Alike.suppressed (h : Alike p q) (c : SendCall) : (hookedSend p c).2 = (hookedSend q c).2 := by
  rw [hookedSend_gate, hookedSend_gate]
  cases c.gate with
  | none => rfl
  | some g =>
    simp only [sendThrough, h.dampen]
    split
    · split <;> rfl
    · rfl

theorem Alike.hands (h : Alike p q) (d : Packet) : Hands p op d ↔ Hands q op d := by
  have hout : op.Synchronous → (proxyStep p op).2.handed = (proxyStep q op).2.handed := by
    intro hsync
    cases op with
    | send c => exact hsync.elim
    | closesocket s => exact hsync.elim
    | recvfrom sock wantsFrom reals feedMs => rfl
    | wsaRecvFrom a call =>
      cases hby : bypassesBuffer q a with
      | true => rw [wsaRecv_plain ((h.bypasses a).trans hby), wsaRecv_plain hby]
      | false => rw [wsaRecv_buffered ((h.bypasses a).trans hby), wsaRecv_buffered hby, h.rx]
  exact ⟨fun hd => ⟨hd.sync, (hout hd.sync).symm.trans hd.handed, hd.inet⟩,
    fun hd => ⟨hd.sync, (hout hd.sync).trans hd.handed, hd.inet⟩⟩

theorem rttCalls_reached (hen : p.rtt.enabled = p.cfg.rtt) {d : Packet} (h : Hands p op d)
    (hr : FeedReaches p.cfg op d) : rttCalls p op = [.recv d.src.addr d.data op.feedMs] := by
  have hp := (presented_iff hen h).mpr hr
  rwa [presented, hen, hr.1, if_pos rfl] at hp

/-- Where both see what is handed over, both make the same calls into the sampler. -/
theorem Alike.calls (h : Alike p q) (hp : p.rtt.enabled = p.cfg.rtt) (hq : q.rtt.enabled = q.cfg.rtt)
    (hfed : ∀ d, Hands p op d → FeedReaches p.cfg op d ∧ FeedReaches q.cfg op d) : rttCalls p op = rttCalls q op := by
  by_cases hsync : op.Synchronous
  · by_cases hd : ∃ d, Hands p op d
    · obtain ⟨d, hd⟩ := hd
      rw [rttCalls_reached hp hd (hfed d hd).1, rttCalls_reached hq ((h.hands d).mp hd) (hfed d hd).2]
    · have hnone : ∀ d, ¬ Hands p op d := fun d hh => hd ⟨d, hh⟩
      rw [rttCalls_idle hsync hnone, rttCalls_idle hsync fun d hh => hnone d ((h.hands d).mpr hh)]
  · cases op with
    | send c => rw [rttCalls, rttCalls, h.suppressed]
    | closesocket s => rw [rttCalls, rttCalls, h.dampen, h.dampenSock]
    | recvfrom sock wantsFrom reals feedMs => exact absurd trivial hsync
    | wsaRecvFrom a call =>
      have hov : a.overlapped = true := Bool.eq_true_of_not_eq_false hsync
      have hby : ∀ r : Proxy, bypassesBuffer r a = true := fun r => by rw [bypassesBuffer, hov, Bool.or_true]; rfl
      rw [rttCalls, rttCalls, wsaRecvFeed, wsaRecvFeed, if_pos (hby p), if_pos (hby q)]

theorem Alike.step_rest (h : Alike p q) : (proxyStep p op).1.dampen = (proxyStep q op).1.dampen ∧
    (proxyStep p op).1.dampenSock = (proxyStep q op).1.dampenSock ∧ (proxyStep p op).1.rx = (proxyStep q op).1.rx := by
  cases op with
  | send c =>
    simp only [proxyStep, hookedSend_gate]
    cases c.gate with
    | none => exact ⟨h.dampen, h.dampenSock, h.rx⟩
    | some g =>
      simp only [sendThrough, h.dampen]
      split
      · split <;> exact ⟨rfl, rfl, h.rx⟩
      · exact ⟨rfl, h.dampenSock, h.rx⟩
  | recvfrom sock wantsFrom reals feedMs => simp [proxyStep, hookedRecvfrom, h.dampen, h.dampenSock, h.rx]
  | wsaRecvFrom a call =>
    simp only [proxyStep, wsaRecvFrom, h.bypasses a]
    split <;> simp [h.dampen, h.dampenSock, h.rx]
  | closesocket s =>
    simp only [proxyStep, hookedClosesocket, h.dampen, h.dampenSock, h.rx, h.rtt]
    split <;> exact ⟨rfl, rfl, rfl⟩

theorem Alike.step (h : Alike p q) (hcalls : rttCalls p op = rttCalls q op) :
    Alike (proxyStep p op).1 (proxyStep q op).1 where
  reorder := by rw [proxyStep_cfg, proxyStep_cfg, h.reorder]
  dampen := h.step_rest.1
  dampenSock := h.step_rest.2.1
  rtt := by rw [proxyStep_rtt, proxyStep_rtt, h.rtt, hcalls]
  rx := h.step_rest.2.2

theorem delivers_succ {ops : List ProxyOp} {k : Nat} {op' : ProxyOp} {d : Packet} :
    Delivers p (op :: ops) (k + 1) op' d ↔ Delivers (proxyStep p op).1 ops k op' d := Iff.rfl

/-- **The samplers of both proxies go through the same states** while every receive reaches them. -/
theorem Alike.run {ops : List ProxyOp} (h : Alike p q) (hp : p.rtt.enabled = p.cfg.rtt)
    (hq : q.rtt.enabled = q.cfg.rtt) (hpf : ∀ k op d, Delivers p ops k op d → FeedReaches p.cfg op d)
    (hqf : ∀ k op d, Delivers q ops k op d → FeedReaches q.cfg op d) :
    (final proxyStep p ops).rtt = (final proxyStep q ops).rtt := by
  induction ops generalizing p q with
  | nil => exact h.rtt
  | cons op ops ih =>
    have hcalls : rttCalls p op = rttCalls q op :=
      h.calls hp hq fun d hd => ⟨hpf 0 op d ⟨rfl, hd⟩, hqf 0 op d ⟨rfl, (h.hands d).mp hd⟩⟩
    rw [final_cons, final_cons]
    apply ih (h.step hcalls)
    · rw [proxyStep_rttEnabled, proxyStep_cfg, hp]
    · rw [proxyStep_rttEnabled, proxyStep_cfg, hq]
    · intro k op' d hd
      rw [proxyStep_cfg]
      exact hpf (k + 1) op' d (delivers_succ.mpr hd)
    · intro k op' d hd
      rw [proxyStep_cfg]
      exact hqf (k + 1) op' d (delivers_succ.mpr hd)

end Run

def ProxyCfg.on (cfg : ProxyCfg) (platform : Platform) : ProxyCfg := { cfg with platform := platform }

/-- **A datagram handed to the game is presented to the sampler exactly when its exit is wired and sees all of
it**; a receive that hands over none presents none; and when all of a run's are presented under both proxies, the
samplers end in the same state. -/
theorem rtt_feed_iff_reaches (cfg : ProxyCfg) (ops : List ProxyOp) :
    (∀ k op d, Delivers (proxyInit cfg) ops k op d →
      (presented (stateAt proxyStep (proxyInit cfg) ops k) op = [.recv d.src.addr d.data op.feedMs] ↔
        FeedReaches cfg op d)) ∧
    (∀ k op, ops[k]? = some op → op.Synchronous → (∀ d, ¬ Delivers (proxyInit cfg) ops k op d) →
      presented (stateAt proxyStep (proxyInit cfg) ops k) op = []) ∧
    ((∀ platform k op d, Delivers (proxyInit (cfg.on platform)) ops k op d →
        FeedReaches (cfg.on platform) op d) →
      (final proxyStep (proxyInit (cfg.on .windows)) ops).rtt =
        (final proxyStep (proxyInit (cfg.on .linux)) ops).rtt) := by
  refine ⟨fun k op d hd => ?_, fun k op hk hsync hno => ?_, fun h => ?_⟩
  · obtain ⟨hcfg, hen⟩ := stateAt_settings cfg ops k
    have hiff := presented_iff (hen.trans (congrArg ProxyCfg.rtt hcfg).symm) hd.2
    rwa [hcfg] at hiff
  · have hidle := rttCalls_idle hsync fun d hd => hno d ⟨hk, hd⟩
    rw [presented, hidle, ite_self]
  · have halike : Alike (proxyInit (cfg.on .windows)) (proxyInit (cfg.on .linux)) := ⟨rfl, rfl, rfl, rfl, rfl⟩
    exact halike.run rfl rfl (h .windows) (h .linux)

/-- A reliable datagram goes out and its acknowledgement comes in through `recvfrom`: the Windows proxy hands it to
the game without showing it to the sampler, where the Linux proxy takes a sample. Through the reorder buffer it is
the Linux proxy that shows the sampler nothing. -/
theorem rtt_feed_missed :
    let ack : Datagram := ⟨⟨afInet, sampleAddr 1, 17770⟩, makePkt true 1 5, by decide⟩
    let recv : ProxyOp := .recvfrom 7 true [some ack.packet] 1030
    let ops : List ProxyOp := [.send (sampleSend 7 (sampleAddr 1) 17770 (makePkt true 5 0) 1000), recv]
    let windows := sampleCfg false
    let linux := windows.on .linux
    let buffered := { linux with reorder := true }
    (Delivers (proxyInit windows) ops 1 recv ack.packet ∧
        presented (stateAt proxyStep (proxyInit windows) ops 1) recv ≠ [.recv ack.src.addr ack.data 1030]) ∧
      (final proxyStep (proxyInit windows) ops).rtt.st.samples = 0 ∧
      (final proxyStep (proxyInit linux) ops).rtt.st.samples = 1 ∧
      (Delivers (proxyInit buffered) [sampleRecv 7 ack 1030] 0 (sampleRecv 7 ack 1030) ack.packet ∧
        presented (proxyInit buffered) (sampleRecv 7 ack 1030) ≠ [.recv ack.src.addr ack.data 1030]) := by
  intro ack recv ops windows linux buffered
  refine ⟨⟨⟨rfl, trivial, rfl, rfl⟩, ?_⟩, by decide +kernel, by decide +kernel, ⟨⟨rfl, rfl, by decide +kernel, rfl⟩, ?_⟩⟩
  · intro h
    cases h
  · intro h
    cases h

end BzNet
