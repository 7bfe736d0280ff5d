import BzNet.Reorder.Core
import BzNet.Lib.Run

/-!
# The overlapped receive path

The opt-in part of `netcode_hooks.cpp` that reorders overlapped receives: `Hooked_GetQueuedCompletionStatus`
holds back a completion that runs ahead of its peer's cursor, at most `kIocpHoldCap` at a time, and hands
it over on a later round of its loop or in a later call.

* `IocpState` : the tracked receives, the held completions and the watchdog's latch, next to the peer table;
* `iocpTrackRecv` : a receive of the game is posted;
* `iocpPickReady`, `iocpPickOldest`, `iocpRelease` : what can be handed over, and handing it over;
* `iocpArrive` : what becomes of a completion that was taken off the port;
* `iocpRound`, `iocpLoop`, `iocpCall` : one round of the loop, the loop, the hooked call;
* `iocpStep` : the machine.

What the real function answers, what its buffers then hold, and every clock reading are inputs. A pointer
is a word, `0` for null; of the pointers of a tracked receive it matters only whether they are null.
-/

namespace BzNet

def kIocpRecvTrack : Nat := 128
def kIocpHoldCap : Nat := 4
def kIocpWatchdogX : Nat := 5
def infiniteMs : U32 := 0xffffffff

/-- An overlapped receive the game posted; `ov = 0` is a free place. -/
structure IocpRecv where
  ov : U64
  hasBuf : Bool
  hasFrom : Bool

/-- What the port hands out: whether the operation succeeded, and the three results. -/
structure Completion where
  ok : Bool
  bytes : U32
  key : U64
  ov : U64
deriving DecidableEq

structure IocpHeld where
  used : Bool
  bytes : U32
  key : U64
  ov : U64
  seq : U32
  ts : U64
  src : SockAddr

def IocpHeld.zero : IocpHeld := ⟨false, 0, 0, 0, 0, 0, ⟨0, 0, 0⟩⟩

def IocpHeld.completion (h : IocpHeld) : Completion := ⟨true, h.bytes, h.key, h.ov⟩

structure IocpState where
  /-- `BZ_IOCP_REORDER`. -/
  reorder : Bool
  rx : ReorderCtx
  recvs : Nat → IocpRecv
  held : Nat → IocpHeld
  disabled : Bool
  posted : Nat
  completed : Nat
  deferred : Nat
  inorder : Nat
  forced : Nat

def iocpInit (reorder : Bool) (cfg : ReorderCfg) : IocpState :=
  ⟨reorder, reorderInit cfg, fun _ => ⟨0, false, false⟩, fun _ => IocpHeld.zero, false, 0, 0, 0, 0, 0⟩

/-- Remember where an overlapped receive will land, in the place it had or the first free one; `buffers` is how many
buffers it names, none where the array is null. -/
def iocpTrackRecv (s : IocpState) (r : IocpRecv) (buffers : Nat) : IocpState :=
  if r.ov = 0 ∨ buffers = 0 then s
  else
    let slot := ((List.range kIocpRecvTrack).find? fun i => (s.recvs i).ov == r.ov).or
      ((List.range kIocpRecvTrack).find? fun i => (s.recvs i).ov == 0)
    { s with
      posted := s.posted + 1
      recvs := match slot with
        | some i => Function.update s.recvs i r
        | none => s.recvs }

def iocpFindRecv (s : IocpState) (ov : U64) : Option Nat :=
  (List.range kIocpRecvTrack).find? fun i => (s.recvs i).ov == ov

/-- Nothing is tracked at place `i` any more. -/
def IocpState.forget (s : IocpState) (i : Nat) : IocpState :=
  { s with recvs := Function.update s.recvs i { s.recvs i with ov := 0 } }

/-! ## Deliveries -/

def iocpNote (c : ReorderCtx) (i : Nat) (seq : U32) (ts now : U64) (kind : DeliverKind) : ReorderCtx :=
  let r := reorderNoteDelivery c.cfg (c.tbl i) seq now
  { c with
    tbl := Function.update c.tbl i r.1
    stats := reorderCountDelivery c.stats r.2 ts now kind }

def reorderIsSuccessor (pb : Option PeerBuf) (seq : U32) : Bool :=
  match pb with
  | none => false
  | some pb => pb.seqInit && seq == seqNext pb.lastSeq

/-- `reorder_hold_window`, also for a source without an entry. -/
def iocpHoldWindow (cfg : ReorderCfg) : Option PeerBuf → U32
  | none => if cfg.maxHoldMs ≠ 0 ∧ cfg.winMinMs > cfg.maxHoldMs then cfg.maxHoldMs else cfg.winMinMs
  | some pb => reorderHoldWindow cfg pb

/-- Look the source up: the table, and its entry if there is one. -/
def iocpPeer (c : ReorderCtx) (src : SockAddr) (now : U64) : ReorderCtx × Option PeerBuf :=
  match reorderGetPeer c src now with
  | none => (c, none)
  | some (c, i) => (c, some (c.tbl i))

def iocpRelease (s : IocpState) (i : Nat) (now : U64) (kind : DeliverKind) : IocpState × Completion :=
  let h := s.held i
  let rx := match reorderGetPeer s.rx h.src now with
    | none => s.rx
    | some (c, j) => iocpNote c j h.seq h.ts now kind
  ({ s with rx := rx, held := Function.update s.held i { h with used := false } }, h.completion)

/-- The scan for a held completion that is ready; `oldest` is the earliest found so far that has waited its
time. -/
def iocpScan (held : Nat → IocpHeld) (now : U64) :
    List Nat → ReorderCtx → Option Nat → ReorderCtx × Option (Nat × DeliverKind)
  | [], c, oldest => (c, oldest.map (·, .forced))
  | i :: is, c, oldest =>
    if !(held i).used then iocpScan held now is c oldest
    else
      let p := iocpPeer c (held i).src now
      if reorderIsSuccessor p.2 (held i).seq then (p.1, some (i, .inOrder))
      else
        let aged := (iocpHoldWindow p.1.cfg p.2).toNat ≤ (now - (held i).ts).toNat
        let earlier := oldest.all fun o => (held i).ts < (held o).ts
        iocpScan held now is p.1 (if aged ∧ earlier then some i else oldest)

/-- The in-order successor first, else the earliest of those that have waited out their peer's window. -/
def iocpPickReady (s : IocpState) (now : U64) : ReorderCtx × Option (Nat × DeliverKind) :=
  iocpScan s.held now (List.range kIocpHoldCap) s.rx none

/-- The earliest held completion, whatever its window. -/
def iocpPickOldest (s : IocpState) : Option Nat :=
  Slots.best kIocpHoldCap (fun i => (s.held i).used) fun i b => (s.held i).ts < (s.held b).ts

/-! ## A completion off the port -/

/-- What a real call answers, and what the tracked receive's memory then holds. -/
structure PortAnswer where
  completion : Completion
  data : Payload
  src : SockAddr

/-- A real call without a result reports failure and no overlapped; a packet posted by hand may carry none
and be a success. -/
def PortAnswer.dequeued (a : PortAnswer) : Option Completion :=
  if a.completion.ok ∨ a.completion.ov ≠ 0 then some a.completion else none

/-- What becomes of a successful completion: the state, and whether it was deferred. -/
def iocpArrive (s : IocpState) (a : PortAnswer) (now : U64) : IocpState × Bool :=
  match iocpFindRecv s a.completion.ov with
  | none => (s, false)
  | some r =>
    if a.completion.bytes.toNat < kReorderSeqMinPay ∨ !(s.recvs r).hasBuf ∨ !(s.recvs r).hasFrom ∨
        a.src.family ≠ afInet then (s.forget r, false)
    else
      let s := { s.forget r with completed := s.completed + 1 }
      let seq := reorderSeqFromPayload a.data
      match reorderGetPeer s.rx a.src now with
      | none => ({ s with inorder := s.inorder + 1 }, false)
      | some (c, i) =>
        let pb := c.tbl i
        if !pb.seqInit ∨ seq = seqNext pb.lastSeq then
          let kind := if pb.seqInit then DeliverKind.inOrder else .first
          ({ s with rx := iocpNote c i seq now now kind, inorder := s.inorder + 1 }, false)
        else if seqCmp seq pb.lastSeq ≤ 0 then
          ({ s with rx := { c with stats := { c.stats with droppedStale := c.stats.droppedStale + 1 } } }, false)
        else
          let c := { c with tbl := Function.update c.tbl i (reorderAdaptOnArrival c.cfg pb seq now) }
          match (List.range kIocpHoldCap).find? fun k => !(s.held k).used with
          | none => ({ s with rx := iocpNote c i seq now now .forced, forced := s.forced + 1 }, false)
          | some k =>
            ({ s with
                rx := c
                held := Function.update s.held k
                  ⟨true, a.completion.bytes, a.completion.key, a.completion.ov, seq, now, a.src⟩
                deferred := s.deferred + 1 }, true)

/-! ## The hooked call -/

/-- One round of the loop: the clock before, the real call's answer, and the clock after it and at the
watchdog. -/
structure IocpRound where
  nowMs : U64
  answer : PortAnswer
  afterMs : U64
  watchMs : U64

/-- A call of the game. `last` answers the real call that is made outside the loop. -/
structure IocpCall where
  timeout : U32
  enteredMs : U64
  rounds : Nat → IocpRound
  last : PortAnswer

/-- What a call takes off the port and what it returns. -/
structure IocpOut where
  dequeued : List Completion
  returned : Option Completion

/-- How a round ends. -/
inductive RoundEnd where
  | returns (s : IocpState) (o : IocpOut)
  | defers (s : IocpState) (c : Completion)

def iocpRound (s : IocpState) (r : IocpRound) : RoundEnd :=
  let ready := iocpPickReady s r.nowMs
  let s := { s with rx := ready.1 }
  match ready.2 with
  | some (i, kind) =>
    let t := iocpRelease s i r.nowMs kind
    .returns (if kind = .inOrder then { t.1 with inorder := t.1.inorder + 1 } else { t.1 with forced := t.1.forced + 1 })
      ⟨[], some t.2⟩
  | none =>
    let c := r.answer.completion
    if c.ov = 0 then
      match iocpPickOldest s with
      | some i =>
        let t := iocpRelease s i r.afterMs .forced
        .returns { t.1 with forced := t.1.forced + 1 } ⟨r.answer.dequeued.toList, some t.2⟩
      | none => .returns s ⟨r.answer.dequeued.toList, r.answer.dequeued⟩
    else if !c.ok then
      .returns (match iocpFindRecv s c.ov with
        | some i => s.forget i
        | none => s) ⟨[c], some c⟩
    else
      let t := iocpArrive s r.answer r.afterMs
      if t.2 then .defers t.1 c else .returns t.1 ⟨[c], some c⟩

/-- Never longer than the caller asked, and never longer than a window. -/
def iocpBudget (s : IocpState) (timeout : U32) : U32 :=
  if timeout = infiniteMs then s.rx.cfg.winMaxMs
  else if timeout < s.rx.cfg.winMaxMs then timeout else s.rx.cfg.winMaxMs

/-- Far longer here than the window allows. -/
def iocpOverrun (c : IocpCall) (budget : U32) (r : IocpRound) : Prop :=
  budget.toNat * kIocpWatchdogX < (r.watchMs - c.enteredMs).toNat

instance (c : IocpCall) (budget : U32) (r : IocpRound) : Decidable (iocpOverrun c budget r) :=
  inferInstanceAs (Decidable (_ < _))

/-- The loop from round `k` on. A round that goes on fills a place of the table, so `kIocpHoldCap + 1` rounds
are enough (`iocpLoop_returns`). -/
def iocpLoop (c : IocpCall) (budget : U32) : Nat → Nat → IocpState → Option (IocpState × IocpOut)
  | 0, _, _ => none
  | fuel + 1, k, s =>
    match iocpRound s (c.rounds k) with
    | .returns s o => some (s, o)
    | .defers s d =>
      if iocpOverrun c budget (c.rounds k) then
        some ({ s with disabled := true }, ⟨d :: c.last.dequeued.toList, c.last.dequeued⟩)
      else
        (iocpLoop c budget fuel (k + 1) s).map fun r => (r.1, { r.2 with dequeued := d :: r.2.dequeued })

/-- `Hooked_GetQueuedCompletionStatus`. -/
def iocpCall (s : IocpState) (c : IocpCall) : IocpState × IocpOut :=
  if !s.reorder || s.disabled then (s, ⟨c.last.dequeued.toList, c.last.dequeued⟩)
  else (iocpLoop c (iocpBudget s c.timeout) (kIocpHoldCap + 1) 0 s).getD (s, ⟨[], none⟩)

/-! ## The machine -/

inductive IocpOp where
  | track (r : IocpRecv) (buffers : Nat)
  | call (c : IocpCall)

def iocpStep (s : IocpState) : IocpOp → IocpState × IocpOut
  | .track r buffers => (iocpTrackRecv s r buffers, ⟨[], none⟩)
  | .call c => iocpCall s c

end BzNet
