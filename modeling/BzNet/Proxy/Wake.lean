import BzNet.Proxy.Calls
import BzNet.Reorder.Window

/-!
# Wake datagrams

The wake thread (`ReorderWakeThread`, `reorder_wake_thread`) nudges an idle game by a datagram to its own socket, and
the receive hooks are to take that back out: what is on a socket, which datagrams the thread sent, and what becomes of
each that a receive takes off.

* `Queued` : a datagram on a socket, and whether the thread sent it;
* `Taking` : what one real receive, or the calls of one hook, do to a socket; `recvfromTaking`, `drainTaking`,
  `bypassTaking` for the three forms, with `rxDrain_taken` for the drain;
* `WakeSys`, `wakeStep` : sockets, the thread and the hooks together;
* `WakesApart` : no wake datagram passed on, and no other dropped; `WakeOp.Meets` is the exact condition for a step;
* `wake_never_leaks` : it is exact along every run, and whatever the game gets was passed on.
-/

namespace BzNet

open Machine

def kReorderWakeIdleMs : U64 := 10
def kReorderWakeBurstCap : Nat := 8

/-! ## What is on a socket -/

/-- A datagram on a socket; `wake` says that the wake thread sent it. -/
structure Queued where
  pkt : Packet
  wake : Bool
deriving DecidableEq

/-- What a real call of the drain returns for it. -/
def Queued.real (d : Queued) : RecvResult :=
  if h : d.pkt.data.length ≤ kReorderMaxPktBytes then .datagram ⟨d.pkt.src, d.pkt.data, h⟩ else .msgsize

/-- The drain drops it: too large for its buffer, empty, or what it takes for a wake datagram. -/
def Queued.drops (d : Queued) : Bool :=
  kReorderMaxPktBytes < d.pkt.data.length || d.pkt.data = [] || d.pkt.data = kWakeMagic

/-- What a receive does to a socket: the datagrams it passes on, to the game or into the buffer, those it drops, and
how many the socket loses. -/
structure Taking where
  passed : List Queued
  dropped : List Queued
  reads : Nat

/-- The retry loop of the plain receive. A peek leaves what it returns; a datagram larger than the buffer fails the
call, cut off, and is passed on all the same. -/
def recvfromTaking (len : Nat) (peek : Bool) : List Queued → Taking
  | [] => ⟨[], [], 0⟩
  | d :: ds =>
    if d.pkt.data = kWakeMagic ∧ d.pkt.data.length ≤ len then
      let t := recvfromTaking len peek ds
      { t with dropped := d :: t.dropped, reads := t.reads + 1 }
    else ⟨[d], [], if peek then 0 else 1⟩

def recvfromReals (len : Nat) (ds : List Queued) : List (Option Packet) :=
  ds.map fun d => if d.pkt.data.length ≤ len then some d.pkt else none

/-- How many datagrams the drain takes off the socket, each with the clock read after it. -/
def drainReads : Nat → ReorderCtx → List (Queued × U64) → Nat
  | 0, _, _ => 0
  | _ + 1, _, [] => 0
  | n + 1, c, (d, t) :: ds =>
    if reorderDrainSaturated c then 0
    else
      match d.real with
      | .datagram dg =>
        if dg.data = [] then 1
        else if isWake dg then drainReads n c ds + 1
        else if isUnsequenced dg then 1
        else
          let a := rxArrive c dg t
          if !a.tracked || a.out.isSome then 1 else drainReads n a.ctx ds + 1
      | _ => drainReads n { c with stats := { c.stats with emsgsize := c.stats.emsgsize + 1 } } ds + 1

/-- The datagrams themselves. -/
def drainRead (n : Nat) (c : ReorderCtx) (ds : List (Queued × U64)) : List Queued :=
  (ds.take (drainReads n c ds)).map Prod.fst

def drainTaking (n : Nat) (c : ReorderCtx) (ds : List (Queued × U64)) : Taking :=
  ⟨(drainRead n c ds).filter fun d => !d.drops, (drainRead n c ds).filter Queued.drops, drainReads n c ds⟩

/-- The one real call past the buffer. -/
def bypassTaking (peek : Bool) (ds : List Queued) : Taking :=
  match ds with
  | [] => ⟨[], [], 0⟩
  | d :: _ => ⟨[d], [], if peek then 0 else 1⟩

/-! ## The sockets, the wake thread and the hooks -/

structure WakeSys where
  proxy : Proxy
  /-- `g_wake_enabled`. -/
  enabled : Bool
  /-- What the kernel holds for each socket. -/
  queue : Socket → List Queued
  seenCall : U64
  burst : Nat
  /-- The socket the wake thread is about to send to. -/
  aim : Option Socket
  passed : List Queued
  dropped : List Queued
  /-- What the game got. -/
  handed : List Packet

def wakeInit (cfg : ProxyCfg) (enabled : Bool) : WakeSys where
  proxy := proxyInit cfg
  enabled := enabled
  queue _ := []
  seenCall := 0
  burst := 0
  aim := none
  passed := []
  dropped := []
  handed := []

inductive WakeOp where
  /-- A datagram of somebody else's. -/
  | arrive (sock : Socket) (pkt : Packet)
  /-- A round of the wake thread, up to its decision. -/
  | look (nowMs : U64)
  /-- Its send: the address of its own socket, that of the game's, and whether the datagram gets there. -/
  | wake (sender bound : Option SockAddr) (arrives : Bool)
  /-- A plain receive; the real calls find the first `avail` datagrams, and then fail. -/
  | recvfrom (sock : Socket) (len : Nat) (peek wantsFrom : Bool) (avail : Nat) (feedMs : U64)
  | wsaRecvFrom (a : RecvArgs) (sock : Socket) (peek : Bool) (avail : Nat) (pollMs : U64) (clock : Nat → U64) (nowMs : U64)
  | closesocket (sock : Socket)

/-- Something is held for a source. -/
def reorderHolds (c : ReorderCtx) : Bool :=
  (List.range c.cfg.peers).any fun i => (c.tbl i).key ≠ 0 ∧ 0 < (c.tbl i).filled

/-- A round of the wake thread, up to its decision. -/
def wakeLook (s : WakeSys) (now : U64) : WakeSys :=
  let rx := s.proxy.rx
  if !s.enabled || !s.proxy.cfg.reorder then s
  else if !reorderHolds rx.rx || rx.reorderSock = invalidSocket then s
  -- the game is polling on its own
  else if now - rx.lastRecvCallMs < kReorderWakeIdleMs then s
  else
    -- a poll of the game resets the budget
    let s := if rx.lastRecvCallMs ≠ s.seenCall then { s with seenCall := rx.lastRecvCallMs, burst := 0 } else s
    if kReorderWakeBurstCap ≤ s.burst then s else { s with aim := some rx.reorderSock }

def wakeSend (s : WakeSys) (sender bound : Option SockAddr) (arrives : Bool) : WakeSys :=
  match s.aim, sender, bound with
  | some target, some src, some b =>
    if b.family ≠ afInet ∨ b.port = 0 then { s with aim := none }
    else
      { s with
        queue := if arrives then Function.update s.queue target (s.queue target ++ [⟨⟨src, kWakeMagic⟩, true⟩]) else s.queue
        burst := s.burst + 1
        aim := none }
  | _, _, _ => { s with aim := none }

/-- What a receive leaves behind. -/
def WakeSys.receive (s : WakeSys) (sock : Socket) (p : Proxy) (t : Taking) (handed : Option Packet) : WakeSys :=
  { s with
    proxy := p
    queue := Function.update s.queue sock ((s.queue sock).drop t.reads)
    passed := s.passed ++ t.passed
    dropped := s.dropped ++ t.dropped
    handed := s.handed ++ handed.toList }

/-- What a receive finds, with the clock after each real call. -/
def WakeSys.found (s : WakeSys) (sock : Socket) (avail : Nat) : List Queued := (s.queue sock).take avail

def timed (clock : Nat → U64) (ds : List Queued) : List (Queued × U64) := ds.zipIdx.map fun p => (p.1, clock p.2)

def wakeStep (s : WakeSys) : WakeOp → WakeSys
  | .arrive sock pkt => { s with queue := Function.update s.queue sock (s.queue sock ++ [⟨pkt, false⟩]) }
  | .look now => wakeLook s now
  | .wake sender bound arrives => wakeSend s sender bound arrives
  | .recvfrom sock len peek wantsFrom avail feedMs =>
    let found := s.found sock avail
    let r := hookedRecvfrom s.proxy wantsFrom (recvfromReals len found) feedMs
    s.receive sock r.1 (recvfromTaking len peek found) r.2.handed
  | .wsaRecvFrom a sock peek avail pollMs clock nowMs =>
    let found := s.found sock avail
    let ds := timed clock found
    let r := wsaRecvFrom s.proxy { a with waiting := found.head?.map Queued.pkt }
      ⟨sock, pollMs, ds.map fun p => (p.1.real, p.2), nowMs⟩
    let t := if bypassesBuffer s.proxy a then bypassTaking peek found else drainTaking s.proxy.rx.drain s.proxy.rx.rx ds
    s.receive sock r.1 t r.2.handed
  | .closesocket sock =>
    { s with proxy := (hookedClosesocket s.proxy sock).1, queue := Function.update s.queue sock [] }

def wakeNext (s : WakeSys) (op : WakeOp) : Option WakeSys := some (wakeStep s op)

/-- No wake datagram was passed on, and no other dropped. -/
structure WakesApart (s : WakeSys) : Prop where
  passed : ∀ d ∈ s.passed, d.wake = false
  dropped : ∀ d ∈ s.dropped, d.wake = true

/-- The condition for one step, on the sockets before it. -/
def WakeOp.Meets (s : WakeSys) : WakeOp → Prop
  | .recvfrom sock len _ _ avail _ =>
    if kWakeMagic.length ≤ len then
      -- nobody else sent what looks like a wake datagram
      ∀ d ∈ (s.found sock avail).takeWhile fun d => d.pkt.data = kWakeMagic, d.wake = true
    else ∀ d ∈ (s.found sock avail).head?, d.wake = false
  | .wsaRecvFrom a sock _ avail _ clock _ =>
    if bypassesBuffer s.proxy a then ∀ d ∈ (s.found sock avail).head?, d.wake = false
    else
      -- of the others' datagrams the drain drops none
      ∀ d ∈ drainRead s.proxy.rx.drain s.proxy.rx.rx (timed clock (s.found sock avail)), d.wake = false → d.drops = false
  | _ => True

/-! ## The drain reads what it takes -/

theorem Queued.real_cases (d : Queued) :
    (∃ dg : Datagram, d.real = .datagram dg ∧ dg.packet = d.pkt ∧ d.drops = (dg.data = [] || isWake dg)) ∨
      (d.real = .msgsize ∧ d.drops = true) := by
  unfold Queued.real Queued.drops
  split
  · next hfits =>
    left
    refine ⟨_, rfl, rfl, ?_⟩
    have hnot : ¬ kReorderMaxPktBytes < d.pkt.data.length := Nat.not_lt.mpr hfits
    simp [hnot, isWake]
  · next hlong =>
    right
    have hover : kReorderMaxPktBytes < d.pkt.data.length := Nat.not_le.mp hlong
    simp [hover]

/-- **What the drain takes** for the game is what it reads and does not drop. -/
theorem rxDrain_taken (sock : Socket) (n : Nat) (s : RxState) (ds : List (Queued × U64)) (drained : Nat) :
    (rxDrain sock n s (ds.map fun p => (p.1.real, p.2)) drained).taken.map (fun m => m.pkt.packet) =
      ((drainRead n s.rx ds).filter fun d => !d.drops).map Queued.pkt := by
  induction n generalizing s ds drained with
  | zero => rfl
  | succ n ih =>
    cases ds with
    | nil =>
      unfold rxDrain drainRead
      split <;> rfl
    | cons p ds =>
      obtain ⟨d, t⟩ := p
      rw [List.map_cons]
      unfold rxDrain drainRead drainReads
      by_cases hsat : reorderDrainSaturated s.rx = true
      · rw [if_pos hsat, if_pos hsat]
        rfl
      rw [if_neg hsat, if_neg hsat]
      rcases d.real_cases with ⟨dg, hreal, hpkt, hdrops⟩ | ⟨hreal, hdrops⟩
      · rw [hreal]
        dsimp only
        by_cases hempty : dg.data = []
        · simp [hempty, hdrops]
        rw [if_neg hempty, if_neg hempty]
        by_cases hwake : isWake dg = true
        · rw [if_pos hwake, if_pos hwake, List.take_succ_cons, List.map_cons,
            List.filter_cons_of_neg (by simp [hdrops, hwake])]
          exact ih s ds (drained + 1)
        rw [if_neg hwake, if_neg hwake]
        have hkeep : d.drops = false := by simp [hdrops, hempty, hwake]
        by_cases hun : isUnsequenced dg = true
        · rw [if_pos hun, if_pos hun]
          simp [hkeep, hpkt]
        rw [if_neg hun, if_neg hun]
        by_cases htracked : (rxArrive s.rx dg t).tracked = true
        · cases hout : (rxArrive s.rx dg t).out with
          | some out => simp [htracked, hkeep, hpkt]
          | none =>
            simp only [htracked, Bool.not_true, Option.isSome_none, Bool.or_self, Bool.false_eq_true, if_false,
              List.take_succ_cons, List.map_cons]
            rw [List.filter_cons_of_pos (by simp [hkeep]), List.map_cons, hpkt]
            exact congrArg _ (ih { s with rx := (rxArrive s.rx dg t).ctx, reorderSock := sock, lastRecvCallMs := t } ds
              (drained + 1))
        · simp [htracked, hkeep, hpkt]
      · rw [hreal]
        dsimp only
        rw [List.take_succ_cons, List.map_cons, List.filter_cons_of_neg (by simp [hdrops])]
        exact ih { s with rx := { s.rx with stats := { s.rx.stats with emsgsize := s.rx.stats.emsgsize + 1 } } } ds
          (drained + 1)

/-! ## What one step passes on and drops -/

def WakesMagic (s : WakeSys) : Prop := ∀ sock, ∀ d ∈ s.queue sock, d.wake = true → d.pkt.data = kWakeMagic

section Steps
variable {s : WakeSys}

theorem mem_found {sock : Socket} {avail : Nat} {d : Queued} (h : d ∈ s.found sock avail) : d ∈ s.queue sock :=
  List.mem_of_mem_take h

theorem mem_drainRead {n : Nat} {c : ReorderCtx} {clock : Nat → U64} {ds : List Queued} {d : Queued}
    (h : d ∈ drainRead n c (timed clock ds)) : d ∈ ds := by
  obtain ⟨p, hp, rfl⟩ := List.mem_map.mp h
  obtain ⟨q, hq, rfl⟩ := List.mem_map.mp (List.mem_of_mem_take hp)
  exact List.fst_mem_of_mem_zipIdx hq

/-- What a plain receive drops is the leading run of what looks like wake datagrams, if they fit its buffer. -/
theorem recvfromTaking_spec (len : Nat) (peek : Bool) (ds : List Queued) :
    (recvfromTaking len peek ds).dropped =
        (if kWakeMagic.length ≤ len then ds.takeWhile (fun d => d.pkt.data = kWakeMagic) else []) ∧
      (∀ d ∈ (recvfromTaking len peek ds).passed,
        d ∈ ds ∧ (kWakeMagic.length ≤ len → d.pkt.data ≠ kWakeMagic)) ∧
      (¬ kWakeMagic.length ≤ len → (recvfromTaking len peek ds).passed = ds.head?.toList) := by
  induction ds with
  | nil => exact ⟨by split <;> rfl, by simp [recvfromTaking], fun _ => rfl⟩
  | cons d ds ih =>
    obtain ⟨hdropped, hpassed, hshort⟩ := ih
    unfold recvfromTaking
    by_cases hmagic : d.pkt.data = kWakeMagic
    · by_cases hfits : kWakeMagic.length ≤ len
      · rw [if_pos ⟨hmagic, hmagic ▸ hfits⟩, if_pos hfits, List.takeWhile_cons_of_pos (by simpa using hmagic)]
        rw [if_pos hfits] at hdropped
        refine ⟨congrArg _ hdropped, fun e he => ?_, fun h => absurd hfits h⟩
        exact ⟨List.mem_cons_of_mem _ (hpassed e he).1, (hpassed e he).2⟩
      · rw [if_neg (fun h => hfits (hmagic ▸ h.2)), if_neg hfits]
        refine ⟨rfl, fun e he => ⟨?_, fun h => absurd h hfits⟩, fun _ => rfl⟩
        rw [List.mem_singleton.mp he]
        exact List.mem_cons_self
    · rw [if_neg (fun h => hmagic h.1), List.takeWhile_cons_of_neg (by simpa using hmagic)]
      refine ⟨by rw [ite_self], fun e he => ?_, fun _ => rfl⟩
      rw [List.mem_singleton.mp he]
      exact ⟨List.mem_cons_self, fun _ => hmagic⟩

/-- A receive keeps the system clean exactly when it drops only wake datagrams and passes none on. -/
theorem receive_apart (h : WakesApart s) (sock : Socket) (p : Proxy) (t : Taking) (handed : Option Packet) :
    WakesApart (s.receive sock p t handed) ↔ (∀ d ∈ t.passed, d.wake = false) ∧ ∀ d ∈ t.dropped, d.wake = true := by
  constructor
  · intro hc
    exact ⟨fun d hd => hc.passed d (List.mem_append_right _ hd), fun d hd => hc.dropped d (List.mem_append_right _ hd)⟩
  · rintro ⟨hpassed, hdropped⟩
    refine ⟨fun d hd => ?_, fun d hd => ?_⟩
    · rcases List.mem_append.mp hd with hd | hd
      · exact h.passed d hd
      · exact hpassed d hd
    · rcases List.mem_append.mp hd with hd | hd
      · exact h.dropped d hd
      · exact hdropped d hd

theorem not_wake_of {d : Queued} (hmagic : d.wake = true → d.pkt.data = kWakeMagic) (hne : d.pkt.data ≠ kWakeMagic) :
    d.wake = false := by
  cases hw : d.wake with
  | false => rfl
  | true => exact absurd (hmagic hw) hne

theorem recvfrom_apart (hinv : WakesMagic s) {sock : Socket} {len avail : Nat} (peek : Bool) :
    ((∀ d ∈ (recvfromTaking len peek (s.found sock avail)).passed, d.wake = false) ∧
        ∀ d ∈ (recvfromTaking len peek (s.found sock avail)).dropped, d.wake = true) ↔
      if kWakeMagic.length ≤ len then
        ∀ d ∈ (s.found sock avail).takeWhile fun d => d.pkt.data = kWakeMagic, d.wake = true
      else ∀ d ∈ (s.found sock avail).head?, d.wake = false := by
  obtain ⟨hdropped, hpassed, hshort⟩ := recvfromTaking_spec len peek (s.found sock avail)
  by_cases hfits : kWakeMagic.length ≤ len
  · rw [if_pos hfits] at hdropped ⊢
    rw [hdropped]
    refine ⟨fun h => h.2, fun h => ⟨fun d hd => ?_, h⟩⟩
    obtain ⟨hfound, hother⟩ := hpassed d hd
    exact not_wake_of (hinv sock d (mem_found hfound)) (hother hfits)
  · rw [if_neg hfits] at hdropped ⊢
    rw [hdropped, hshort hfits]
    simp

theorem drain_apart (hinv : WakesMagic s) {sock : Socket} {avail n : Nat} {c : ReorderCtx} {clock : Nat → U64} :
    ((∀ d ∈ (drainTaking n c (timed clock (s.found sock avail))).passed, d.wake = false) ∧
        ∀ d ∈ (drainTaking n c (timed clock (s.found sock avail))).dropped, d.wake = true) ↔
      ∀ d ∈ drainRead n c (timed clock (s.found sock avail)), d.wake = false → d.drops = false := by
  constructor
  · rintro ⟨-, hdropped⟩ d hd hwake
    cases hdrops : d.drops with
    | false => rfl
    | true =>
      have := hdropped d (List.mem_filter.mpr ⟨hd, hdrops⟩)
      rw [hwake] at this
      cases this
  · intro h
    refine ⟨fun d hd => ?_, fun d hd => ?_⟩
    · obtain ⟨hread, hkeep⟩ := List.mem_filter.mp hd
      refine not_wake_of (hinv sock d (mem_found (mem_drainRead hread))) fun hmagic => ?_
      simp [Queued.drops, hmagic] at hkeep
    · obtain ⟨hread, hdrops⟩ := List.mem_filter.mp hd
      cases hwake : d.wake with
      | true => rfl
      | false =>
        rw [h d hread hwake] at hdrops
        cases hdrops

theorem bypass_apart {ds : List Queued} (peek : Bool) :
    ((∀ d ∈ (bypassTaking peek ds).passed, d.wake = false) ∧ ∀ d ∈ (bypassTaking peek ds).dropped, d.wake = true) ↔
      ∀ d ∈ ds.head?, d.wake = false := by
  cases ds with
  | nil => simp [bypassTaking]
  | cons d ds => simp [bypassTaking]

/-! ## One step -/

theorem wakeLook_log (s : WakeSys) (now : U64) :
    (wakeLook s now).queue = s.queue ∧ (wakeLook s now).passed = s.passed ∧ (wakeLook s now).dropped = s.dropped ∧
      (wakeLook s now).proxy = s.proxy ∧ (wakeLook s now).handed = s.handed := by
  unfold wakeLook
  dsimp only
  repeat' split
  all_goals exact ⟨rfl, rfl, rfl, rfl, rfl⟩

theorem wakeSend_log (s : WakeSys) (sender bound : Option SockAddr) (arrives : Bool) :
    ((wakeSend s sender bound arrives).queue = s.queue ∨
        ∃ target src, (wakeSend s sender bound arrives).queue =
          Function.update s.queue target (s.queue target ++ [⟨⟨src, kWakeMagic⟩, true⟩])) ∧
      (wakeSend s sender bound arrives).passed = s.passed ∧ (wakeSend s sender bound arrives).dropped = s.dropped ∧
      (wakeSend s sender bound arrives).proxy = s.proxy ∧ (wakeSend s sender bound arrives).handed = s.handed := by
  unfold wakeSend
  split
  · next target src b _ =>
    split
    · exact ⟨Or.inl rfl, rfl, rfl, rfl, rfl⟩
    · refine ⟨?_, rfl, rfl, rfl, rfl⟩
      cases arrives with
      | false => exact Or.inl rfl
      | true => exact Or.inr ⟨target, src, rfl⟩
  · exact ⟨Or.inl rfl, rfl, rfl, rfl, rfl⟩

theorem WakesMagic.append (h : WakesMagic s) {s' : WakeSys} {sock : Socket} {d : Queued}
    (hd : d.wake = true → d.pkt.data = kWakeMagic)
    (hqueue : s'.queue = Function.update s.queue sock (s.queue sock ++ [d])) : WakesMagic s' := by
  intro k e he
  rw [hqueue] at he
  by_cases hk : k = sock
  · subst hk
    rw [Function.update_self] at he
    rcases List.mem_append.mp he with he | he
    · exact h k e he
    · rw [List.mem_singleton.mp he]
      exact hd
  · rw [Function.update_of_ne hk] at he
    exact h k e he

theorem WakesMagic.fewer (h : WakesMagic s) {s' : WakeSys} {sock : Socket} {ds : List Queued}
    (hds : ∀ d ∈ ds, d ∈ s.queue sock) (hqueue : s'.queue = Function.update s.queue sock ds) : WakesMagic s' := by
  intro k e he
  rw [hqueue] at he
  by_cases hk : k = sock
  · subst hk
    rw [Function.update_self] at he
    exact h k e (hds e he)
  · rw [Function.update_of_ne hk] at he
    exact h k e he

theorem wakeStep_magic (h : WakesMagic s) (op : WakeOp) : WakesMagic (wakeStep s op) := by
  cases op with
  | arrive sock pkt => exact h.append (d := ⟨pkt, false⟩) (fun hw => by cases hw) rfl
  | look now =>
    intro k d hd
    rw [wakeStep, (wakeLook_log s now).1] at hd
    exact h k d hd
  | wake sender bound arrives =>
    rcases (wakeSend_log s sender bound arrives).1 with hq | ⟨target, src, hq⟩
    · intro k d hd
      rw [wakeStep, hq] at hd
      exact h k d hd
    · exact h.append (fun _ => rfl) hq
  | recvfrom sock len peek wantsFrom avail feedMs => exact h.fewer (fun d hd => List.mem_of_mem_drop hd) rfl
  | wsaRecvFrom a sock peek avail pollMs clock nowMs => exact h.fewer (fun d hd => List.mem_of_mem_drop hd) rfl
  | closesocket sock =>
    have hnone : ∀ d ∈ ([] : List Queued), d ∈ s.queue sock := fun d hd => absurd hd List.not_mem_nil
    exact h.fewer hnone rfl

/-- **One step** keeps the system clean exactly when it meets its condition. -/
theorem wakeStep_apart (hinv : WakesMagic s) (h : WakesApart s) (op : WakeOp) : WakesApart (wakeStep s op) ↔ op.Meets s := by
  cases op with
  | arrive sock pkt => exact ⟨fun _ => trivial, fun _ => ⟨h.passed, h.dropped⟩⟩
  | look now =>
    refine ⟨fun _ => trivial, fun _ => ?_⟩
    obtain ⟨-, hpassed, hdropped, -⟩ := wakeLook_log s now
    exact ⟨fun d hd => h.passed d (hpassed ▸ hd), fun d hd => h.dropped d (hdropped ▸ hd)⟩
  | wake sender bound arrives =>
    refine ⟨fun _ => trivial, fun _ => ?_⟩
    obtain ⟨-, hpassed, hdropped, -⟩ := wakeSend_log s sender bound arrives
    exact ⟨fun d hd => h.passed d (hpassed ▸ hd), fun d hd => h.dropped d (hdropped ▸ hd)⟩
  | recvfrom sock len peek wantsFrom avail feedMs =>
    simp only [wakeStep, WakeOp.Meets]
    rw [receive_apart h, recvfrom_apart hinv]
  | wsaRecvFrom a sock peek avail pollMs clock nowMs =>
    simp only [wakeStep, WakeOp.Meets]
    rw [receive_apart h]
    split
    · exact bypass_apart peek
    · exact drain_apart hinv
  | closesocket sock => exact ⟨fun _ => trivial, fun _ => ⟨h.passed, h.dropped⟩⟩

end Steps

/-! ## Whatever the game gets was passed on -/

def HoldsOnly (P : Packet → Prop) (c : ReorderCtx) : Prop :=
  ∀ i, i < c.cfg.peers → ∀ slot ∈ (c.tbl i).held c.cfg, P slot.pkt.packet

section Provenance
variable {P : Packet → Prop} {c : ReorderCtx}

theorem HoldsOnly.mono {Q : Packet → Prop} (h : HoldsOnly P c) (hPQ : ∀ p, P p → Q p) : HoldsOnly Q c :=
  fun i hi slot hs => hPQ _ (h i hi slot hs)

theorem HoldsOnly.empty (P : Packet → Prop) (cfg : ReorderCfg) (rr : Nat) (st : ReorderStats) :
    HoldsOnly P ⟨cfg, fun _ => PeerBuf.zero, rr, st⟩ := by
  intro i _ slot hs
  change slot ∈ PeerBuf.zero.held cfg at hs
  rw [zero_held] at hs
  cases hs

theorem HoldsOnly.put (h : HoldsOnly P c) {i : Nat} {pb : PeerBuf} (hpb : ∀ slot ∈ pb.held c.cfg, P slot.pkt.packet)
    (rr : Nat) (st : ReorderStats) : HoldsOnly P { c with tbl := Function.update c.tbl i pb, rr := rr, stats := st } := by
  intro j hj slot hs
  by_cases hji : j = i
  · subst hji
    simp only [Function.update_self] at hs
    exact hpb slot hs
  · simp only [Function.update_of_ne hji] at hs
    exact h j hj slot hs

theorem rxArrive_holds (h : HoldsOnly P c) {d : Datagram} (hd : P d.packet) (t : U64) :
    HoldsOnly P (rxArrive c d t).ctx ∧ ∀ o ∈ (rxArrive c d t).out, P o.packet := by
  unfold rxArrive
  cases hget : reorderGetPeer c d.src t with
  | none =>
    refine ⟨h, fun o ho => ?_⟩
    cases ho
    exact hd
  | some r =>
    obtain ⟨c', i⟩ := r
    obtain ⟨hi, pb, st, rfl, hentry⟩ := reorderGetPeer_entry hget
    have hpb : ∀ slot ∈ pb.held c.cfg, P slot.pkt.packet := by
      rcases hentry with ⟨-, rfl⟩ | ⟨-, rfl⟩
      · exact h i hi
      · intro slot hs
        rw [reorderFresh_held] at hs
        cases hs
    simp only [Function.update_self, Function.update_idem]
    have hadapt := (reorderAdaptOnArrival_same c.cfg pb d.seq t).held c.cfg
    generalize reorderAdaptOnArrival c.cfg pb d.seq t = pb' at hadapt ⊢
    obtain ⟨hheld, hout⟩ := reorderInsert_held c.cfg pb' d.seq t d
    rw [hadapt] at hheld hout
    have hins : ∀ slot ∈ (reorderInsert c.cfg pb' d.seq t d).1.held c.cfg, P slot.pkt.packet := by
      intro slot hs
      rcases hheld slot hs with hs | hs
      · exact hpb slot hs
      · rw [hs]
        exact hd
    split
    · next out hev =>
      have hkeeps := (reorderNoteDelivery_keeps c.cfg (reorderInsert c.cfg pb' d.seq t d).1 out.seq t).2.2
      refine ⟨h.put (fun slot hs => hins slot (hkeeps slot hs)) c.rr _, fun o ho => ?_⟩
      cases ho
      exact hpb out (hout out hev)
    · refine ⟨h.put hins c.rr _, fun o ho => ?_⟩
      split at ho
      · cases ho
        exact hd
      · cases ho

theorem rxRelease_holds (hok : RxOk c) (h : HoldsOnly P c) (t : U64) :
    HoldsOnly P (rxRelease c t).ctx ∧ ∀ o ∈ (rxRelease c t).out, P o.packet := by
  have hstep := rxRelease_step c t
  generalize rxRelease c t = r at hstep ⊢
  cases hstep with
  | nothing => exact ⟨h, nofun⟩
  | take i slot kind hi hkey hpick hslot hu =>
    have hpeer := hok.entries i hi hkey
    refine ⟨h.put (fun slot' hs => h i hi slot' ((mem_held_take hpeer hslot hu).mp hs).1) _ _, fun o ho => ?_⟩
    cases ho
    exact h i hi _ (Slots.mem_held_of hslot hu)

/-- **One receive through the buffer.** -/
theorem hookedWSARecvFrom_holds {s : RxState} (hok : RxOk s.rx) (h : HoldsOnly P s.rx) (call : RecvCall) :
    RxOk (hookedWSARecvFrom s call).1.rx ∧
      HoldsOnly (fun p => P p ∨ p ∈ (hookedWSARecvFrom s call).2.taken.map fun m => m.pkt.packet)
        (hookedWSARecvFrom s call).1.rx ∧
      ∀ o ∈ (hookedWSARecvFrom s call).2.handed,
        P o.packet ∨ o.packet ∈ (hookedWSARecvFrom s call).2.taken.map fun m => m.pkt.packet := by
  have hkept : Kept (fun _ _ => True) fun c T H => RxOk c ∧ HoldsOnly (fun p => P p ∨ p ∈ T.map Datagram.packet) c ∧
      ∀ o ∈ H, P o.packet ∨ o.packet ∈ T.map Datagram.packet := by
    have hgrow : ∀ (T : List Datagram) (d : Datagram) (p : Packet), P p ∨ p ∈ T.map Datagram.packet →
        P p ∨ p ∈ (T ++ [d]).map Datagram.packet := by
      intro T d p hp
      rw [List.map_append]
      exact hp.imp_right (List.mem_append_left _)
    have hself : ∀ (T : List Datagram) (d : Datagram), d.packet ∈ (T ++ [d]).map Datagram.packet :=
      fun T d => List.mem_map_of_mem (List.mem_append_right _ (List.mem_singleton_self d))
    constructor
    · rintro c T H st - - - - ⟨hok, hholds, hH⟩
      exact ⟨hok.stats st, hholds, hH⟩
    · rintro c T H d - - ⟨hok, hholds, hH⟩
      refine ⟨hok, hholds.mono (hgrow T d), fun o ho => ?_⟩
      rcases List.mem_append.mp ho with ho | ho
      · exact hgrow T d _ (hH o ho)
      · rw [List.mem_singleton.mp ho]
        exact Or.inr (hself T d)
    · rintro c T H d t - - - ⟨hok, hholds, hH⟩
      obtain ⟨hholds', hout⟩ := rxArrive_holds (hholds.mono (hgrow T d)) (Or.inr (hself T d)) t
      refine ⟨rxArrive_ok hok d t, hholds', fun o ho => ?_⟩
      rcases List.mem_append.mp ho with ho | ho
      · exact hgrow T d _ (hH o ho)
      · exact hout o (Option.mem_toList.mp ho)
    · rintro c T H t ⟨hok, hholds, hH⟩
      obtain ⟨hholds', hout⟩ := rxRelease_holds hok hholds t
      refine ⟨(rxRelease_step c t).ok hok, hholds', fun o ho => ?_⟩
      rcases List.mem_append.mp ho with ho | ho
      · exact hH o ho
      · exact hout o (Option.mem_toList.mp ho)
  have hcall := hookedWSARecvFrom_inv hkept s call (fun _ _ => trivial) (T := []) (H := [])
    ⟨hok, h.mono fun _ => Or.inl, nofun⟩
  rw [List.nil_append, List.nil_append, List.map_map] at hcall
  obtain ⟨hok', hholds, hH⟩ := hcall
  exact ⟨hok', hholds, fun o ho => hH o (Option.mem_toList.mpr ho)⟩

theorem hookedWSARecvFrom_taken (s : RxState) (sock : Socket) (pollMs nowMs : U64) (ds : List (Queued × U64)) :
    (hookedWSARecvFrom s ⟨sock, pollMs, ds.map fun p => (p.1.real, p.2), nowMs⟩).2.taken.map (fun m => m.pkt.packet) =
      (drainTaking s.drain s.rx ds).passed.map Queued.pkt := by
  unfold hookedWSARecvFrom
  dsimp only
  have hpoll : (if sock = s.reorderSock then { s with lastRecvCallMs := pollMs } else s).rx = s.rx ∧
      (if sock = s.reorderSock then { s with lastRecvCallMs := pollMs } else s).drain = s.drain := by
    split <;> exact ⟨rfl, rfl⟩
  generalize (if sock = s.reorderSock then { s with lastRecvCallMs := pollMs } else s) = s' at hpoll ⊢
  obtain ⟨hrx, hdrain⟩ := hpoll
  have htaken := rxDrain_taken sock s'.drain s' ds 0
  rw [hrx, hdrain] at htaken
  rw [hdrain]
  split <;> exact htaken

theorem skipWakes_passed (len : Nat) (peek : Bool) {ds : List Queued} {p : Packet}
    (h : skipWakes (recvfromReals len ds) = some p) : ∃ d ∈ (recvfromTaking len peek ds).passed, d.pkt = p := by
  induction ds with
  | nil => cases h
  | cons d ds ih =>
    simp only [recvfromReals, List.map_cons] at h
    unfold recvfromTaking
    by_cases hfits : d.pkt.data.length ≤ len
    · rw [if_pos hfits, skipWakes] at h
      by_cases hmagic : d.pkt.data = kWakeMagic
      · rw [if_pos hmagic] at h
        rw [if_pos ⟨hmagic, hfits⟩]
        exact ih h
      · rw [if_neg hmagic] at h
        rw [if_neg (fun hc => hmagic hc.1)]
        exact ⟨d, List.mem_singleton_self d, Option.some.inj h⟩
    · rw [if_neg hfits, skipWakes] at h
      · cases h
      · exact fun _ _ hc => by cases hc

theorem head_passed (peek : Bool) {ds : List Queued} {keep : Packet → Bool} {p : Packet}
    (h : (ds.head?.map Queued.pkt).filter keep = some p) : ∃ d ∈ (bypassTaking peek ds).passed, d.pkt = p := by
  obtain ⟨hhead, -⟩ := Option.filter_eq_some_iff.mp h
  obtain ⟨d, hd, rfl⟩ := Option.map_eq_some_iff.mp hhead
  cases ds with
  | nil => cases hd
  | cons d' ds =>
    obtain rfl := Option.some.inj hd
    exact ⟨d', List.mem_singleton_self d', rfl⟩

/-- What the game got, and what the buffer holds, was passed on. -/
structure HandedPassed (s : WakeSys) : Prop where
  ok : RxOk s.proxy.rx.rx
  holds : HoldsOnly (fun p => ∃ d ∈ s.passed, d.pkt = p) s.proxy.rx.rx
  handed : ∀ p ∈ s.handed, ∃ d ∈ s.passed, d.pkt = p

theorem wakeInit_handed (cfg : ProxyCfg) (enabled : Bool) : HandedPassed (wakeInit cfg enabled) where
  ok := reorderInit_ok cfg.buffer
  holds := .empty _ cfg.buffer 0 {}
  handed _ hp := absurd hp List.not_mem_nil

theorem HandedPassed.of_eq {s s' : WakeSys} (h : HandedPassed s) (hpassed : s'.passed = s.passed)
    (hproxy : s'.proxy = s.proxy) (hhanded : s'.handed = s.handed) : HandedPassed s' where
  ok := hproxy ▸ h.ok
  holds := by
    rw [hproxy, hpassed]
    exact h.holds
  handed := by
    rw [hhanded, hpassed]
    exact h.handed

theorem HandedPassed.receive {s : WakeSys} (h : HandedPassed s) (sock : Socket) {p : Proxy} {t : Taking}
    {handed : Option Packet} (hok : RxOk p.rx.rx)
    (hholds : HoldsOnly (fun q => (∃ d ∈ s.passed, d.pkt = q) ∨ ∃ d ∈ t.passed, d.pkt = q) p.rx.rx)
    (hhanded : ∀ q ∈ handed, (∃ d ∈ s.passed, d.pkt = q) ∨ ∃ d ∈ t.passed, d.pkt = q) :
    HandedPassed (s.receive sock p t handed) := by
  have hjoin : ∀ q, ((∃ d ∈ s.passed, d.pkt = q) ∨ ∃ d ∈ t.passed, d.pkt = q) → ∃ d ∈ s.passed ++ t.passed, d.pkt = q := by
    rintro q (⟨d, hd, hq⟩ | ⟨d, hd, hq⟩)
    · exact ⟨d, List.mem_append_left _ hd, hq⟩
    · exact ⟨d, List.mem_append_right _ hd, hq⟩
  refine ⟨hok, hholds.mono hjoin, fun q hq => hjoin q ?_⟩
  rcases List.mem_append.mp hq with hq | hq
  · exact Or.inl (h.handed q hq)
  · exact hhanded q (Option.mem_toList.mp hq)

/-- **One step.** -/
theorem wakeStep_handed {s : WakeSys} (h : HandedPassed s) (op : WakeOp) : HandedPassed (wakeStep s op) := by
  cases op with
  | arrive sock pkt => exact ⟨h.ok, h.holds, h.handed⟩
  | look now =>
    obtain ⟨-, hpassed, -, hproxy, hhanded⟩ := wakeLook_log s now
    exact h.of_eq hpassed hproxy hhanded
  | wake sender bound arrives =>
    obtain ⟨-, hpassed, -, hproxy, hhanded⟩ := wakeSend_log s sender bound arrives
    exact h.of_eq hpassed hproxy hhanded
  | recvfrom sock len peek wantsFrom avail feedMs =>
    simp only [wakeStep, hookedRecvfrom]
    have hrx := rttCall_rx s.proxy (recvfromFeed s.proxy.cfg.platform wantsFrom
      (skipWakes (recvfromReals len (s.found sock avail))) feedMs)
    refine h.receive sock (hrx ▸ h.ok) (hrx ▸ h.holds.mono fun _ => Or.inl) fun q hq => Or.inr ?_
    exact skipWakes_passed len peek hq
  | wsaRecvFrom a sock peek avail pollMs clock nowMs =>
    simp only [wakeStep, wsaRecvFrom]
    by_cases hb : bypassesBuffer s.proxy a = true
    · have hb' : bypassesBuffer s.proxy { a with waiting := (s.found sock avail).head?.map Queued.pkt } = true := hb
      rw [if_pos hb', if_pos hb]
      exact h.receive sock (by rw [rttCall_rx]; exact h.ok) (by rw [rttCall_rx]; exact h.holds.mono fun _ => Or.inl)
        fun q hq => Or.inr (head_passed peek hq)
    · have hb' : ¬ bypassesBuffer s.proxy { a with waiting := (s.found sock avail).head?.map Queued.pkt } = true := hb
      rw [if_neg hb', if_neg hb]
      have hcall := hookedWSARecvFrom_holds h.ok h.holds
        ⟨sock, pollMs, (timed clock (s.found sock avail)).map fun p => (p.1.real, p.2), nowMs⟩
      rw [hookedWSARecvFrom_taken] at hcall
      obtain ⟨hok, hholds, hout⟩ := hcall
      have hpassed : ∀ q, q ∈ (drainTaking s.proxy.rx.drain s.proxy.rx.rx (timed clock (s.found sock avail))).passed.map
          Queued.pkt → ∃ d ∈ (drainTaking s.proxy.rx.drain s.proxy.rx.rx (timed clock (s.found sock avail))).passed,
            d.pkt = q := fun q hq => List.mem_map.mp hq
      refine h.receive sock (by rw [rttCall_rx]; exact hok) ?_ fun q hq => ?_
      · rw [rttCall_rx]
        exact hholds.mono fun q hq => hq.imp_right (hpassed q)
      · obtain ⟨o, ho, rfl⟩ := Option.map_eq_some_iff.mp hq
        exact (hout o ho).imp_right (hpassed _)
  | closesocket sock =>
    have hrx : (hookedClosesocket s.proxy sock).1.rx = closeReorder s.proxy.rx sock := by
      unfold hookedClosesocket
      dsimp only
      split <;> rfl
    rw [wakeStep]
    refine ⟨?_, ?_, h.handed⟩
    · change RxOk (hookedClosesocket s.proxy sock).1.rx.rx
      rw [hrx]
      exact .empty _ 0 _
    · change HoldsOnly _ (hookedClosesocket s.proxy sock).1.rx.rx
      rw [hrx]
      exact .empty _ _ 0 _

end Provenance

/-- What the drain passes on is handed over at once, or stored. -/
theorem rxArrive_accepts (c : ReorderCtx) (d : Datagram) (t : U64) :
    (rxArrive c d t).out = some d ∨ insertResultOf c d t = some .buffered ∨
      ∃ out, insertResultOf c d t = some (.evicted out) := by
  unfold rxArrive insertResultOf
  cases hget : reorderGetPeer c d.src t with
  | none => exact Or.inl rfl
  | some r =>
    obtain ⟨c', i⟩ := r
    dsimp only [Option.map_some]
    cases (reorderInsert c'.cfg (reorderAdaptOnArrival c'.cfg (c'.tbl i) d.seq t) d.seq t d).2 with
    | buffered => exact Or.inr (Or.inl rfl)
    | stale => exact Or.inl rfl
    | duplicate => exact Or.inl rfl
    | evicted out => exact Or.inr (Or.inr ⟨out, rfl⟩)

/-! ## Runs -/

/-- **Wake datagrams and the game's.** In every run of the network, the wake thread and the receive hooks: no wake
datagram is passed on and no other is dropped, in every state, exactly when every step meets its condition; whatever
the game got was passed on, and what is passed on to the buffer is handed over at once or stored. -/
theorem wake_never_leaks (cfg : ProxyCfg) (enabled : Bool) (ops : List WakeOp) :
    (StatesMeet wakeNext WakesApart (wakeInit cfg enabled) ops ↔ StepsMeet wakeNext WakeOp.Meets (wakeInit cfg enabled) ops) ∧
      (∀ p ∈ (ops.foldl wakeStep (wakeInit cfg enabled)).handed,
        ∃ d ∈ (ops.foldl wakeStep (wakeInit cfg enabled)).passed, d.pkt = p) ∧
      ∀ (c : ReorderCtx) (d : Datagram) (t : U64), (rxArrive c d t).out = some d ∨
        insertResultOf c d t = some .buffered ∨ ∃ out, insertResultOf c d t = some (.evicted out) := by
  refine ⟨?_, ?_, rxArrive_accepts⟩
  · refine @statesMeet_iff _ _ wakeNext WakesApart WakesMagic WakeOp.Meets ?_ _ (fun _ d hd => absurd hd List.not_mem_nil)
      ⟨fun d hd => absurd hd List.not_mem_nil, fun d hd => absurd hd List.not_mem_nil⟩ ops
    intro s op s' hinv hapart hs
    obtain rfl := Option.some.inj hs
    exact ⟨wakeStep_apart hinv hapart op, fun _ => wakeStep_magic hinv op⟩
  · suffices h : ∀ s, HandedPassed s → HandedPassed (ops.foldl wakeStep s) from
      (h _ (wakeInit_handed cfg enabled)).handed
    induction ops with
    | nil => exact fun s hs => hs
    | cons op ops ih => exact fun s hs => ih _ (wakeStep_handed hs op)

def bufferedCfg : ProxyCfg := ⟨.windows, false, false, true, .default, kReorderDrainCapDef⟩

def gameRecv (overlapped : Bool) (now : U64) : WakeOp :=
  .wsaRecvFrom ⟨[some kReorderMaxPktBytes], fun _ => 0, true, true, overlapped, now, none⟩ 7 false 8 now (fun _ => now) now

def wakeSender : SockAddr := ⟨afInet, 0x0100007f, 50000⟩

/-- Sequence 12 is held behind a gap, the game stops polling, and the thread nudges it; the next receive of the game
is an overlapped one. -/
def nudgedOps : List WakeOp :=
  [.arrive 7 (sampleFrom samplePeer 10).packet, gameRecv false 0, .arrive 7 (sampleFrom samplePeer 12).packet,
    gameRecv false 1, .look 20, .wake (some wakeSender) (some ⟨afInet, 0x0100007f, 17770⟩) true, gameRecv true 20]

/-- A peer sends the eight bytes of a wake datagram. -/
def lookalikeOps : List WakeOp := [.arrive 7 ⟨samplePeer, kWakeMagic⟩, gameRecv false 0]

/-- The wake datagram reaches the game, and the peer's datagram does not. -/
theorem wake_leaks_overlapped :
    (nudgedOps.foldl wakeStep (wakeInit bufferedCfg true)).handed =
        [(sampleFrom samplePeer 10).packet, ⟨wakeSender, kWakeMagic⟩] ∧
      ¬ WakesApart (nudgedOps.foldl wakeStep (wakeInit bufferedCfg true)) ∧
      (lookalikeOps.foldl wakeStep (wakeInit bufferedCfg true)).handed = [] ∧
      ¬ WakesApart (lookalikeOps.foldl wakeStep (wakeInit bufferedCfg true)) := by
  have hleak : ⟨⟨wakeSender, kWakeMagic⟩, true⟩ ∈ (nudgedOps.foldl wakeStep (wakeInit bufferedCfg true)).passed := by
    decide +kernel
  have heaten : ⟨⟨samplePeer, kWakeMagic⟩, false⟩ ∈
      (lookalikeOps.foldl wakeStep (wakeInit bufferedCfg true)).dropped := by
    decide +kernel
  refine ⟨by decide +kernel, fun h => ?_, by decide +kernel, fun h => ?_⟩
  · cases h.passed _ hleak
  · cases h.dropped _ heaten

end BzNet
