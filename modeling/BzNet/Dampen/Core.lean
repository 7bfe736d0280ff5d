import BzNet.Wire
import BzNet.Lib.RingBuffer
import BzNet.Lib.LruTable
import BzNet.Lib.Run

/-!
# The duplicate suppressor

`shared/send_dampen.h`: the table of peers, each with a ring of recently sent sequences, and the
decision whether an outbound datagram is a redundant copy.

* `DampenPeer`, `DampenCtx` : the state; the bounds of a ring are part of its type;
* `dampenAdmitPeer` : the decision as far as it concerns one peer, `dampenAdmit` the whole of it;
* `dampenStep` : one call of the module, `dampenRecordStep` what it means for one peer's record.

The 64-bit counters of `DampenStats` are natural numbers.
-/

namespace BzNet

def kDampenPeers : Nat := 16
def kDampenSlots : Nat := 512
def kDampenFloorMs : U32 := 60
def kDampenMaxMs : U32 := 400
def kDampenRttShift : Nat := 3

inductive DampenDecision where
  | send
  | suppress
deriving DecidableEq

structure DampenEntry where
  seq : U32
  lastSentMs : U64
  windowMs : U32

structure DampenPeer where
  /-- `0` is an empty record. -/
  addr : U32
  rttEwmaMs : U32
  highSeq : U32
  lastUseMs : U64
  ring : RingBuffer DampenEntry kDampenSlots

/-- A record of zero bytes. -/
def DampenPeer.zero : DampenPeer := ⟨0, 0, 0, 0, RingBuffer.empty ⟨0, 0, 0⟩ (by decide)⟩

structure DampenStats where
  seen : Nat := 0
  suppressed : Nat := 0
  bytesSaved : Nat := 0
  peersEvicted : Nat := 0
  bypassShort : Nat := 0
  bypassNotretx : Nat := 0
  tblFull : Nat := 0
  epochResets : Nat := 0

/-- The first `kDampenPeers` records of `peers` are the table. -/
structure DampenCtx where
  enabled : Bool
  peers : Nat → DampenPeer
  st : DampenStats

instance : KeyedRecord DampenPeer U32 U64 where
  key := DampenPeer.addr
  lastUse := DampenPeer.lastUseMs
  touch now p := { p with lastUseMs := now }
  fresh addr now := { DampenPeer.zero with addr := addr, lastUseMs := now }
  vacant := DampenPeer.zero
  key_touch _ _ := rfl
  key_fresh _ _ := rfl

/-! ## Pieces of the decision -/

/-- The suppression window: `1.2` times the estimate (in 32 bits), within the floor and the ceiling. -/
def dampenWindowFor (p : DampenPeer) : U32 :=
  let w := p.rttEwmaMs * 12 / 10
  let w := if w < kDampenFloorMs then kDampenFloorMs else w
  if w > kDampenMaxMs then kDampenMaxMs else w

/-- Look up or create the record of `addr`: the context and the index of the record. -/
def dampenGetPeer (c : DampenCtx) (addr : U32) (now : U64) : DampenCtx × Nat :=
  let r := LruTable.claim kDampenPeers c.peers addr now
  let st := if r.evicted then { c.st with peersEvicted := c.st.peersEvicted + 1 } else c.st
  ({ c with peers := r.table, st := st }, r.index)

/-- Take a slot of the ring, the oldest one on overflow, and fill it with `e`. -/
def dampenAddSlot (p : DampenPeer) (e : DampenEntry) : DampenPeer := { p with ring := p.ring.push e }

def dampenInit (enabled : Bool) : DampenCtx := ⟨enabled, fun _ => DampenPeer.zero, {}⟩

/-- A sequence below the oldest retained one: the peer restarted its counter. -/
def dampenIsRestart (p : DampenPeer) (seq : U32) : Bool :=
  0 < p.ring.used && seqCmp seq (p.ring.get 0).seq < 0

def DampenPeer.newEpoch (p : DampenPeer) (seq : U32) : DampenPeer := { p with ring := p.ring.clear, highSeq := seq }

def DampenPeer.raiseHigh (p : DampenPeer) (seq : U32) : DampenPeer :=
  if seqCmp seq p.highSeq > 0 then { p with highSeq := seq } else p

/-- What `dampenAdmit` does to one record, and which counters it moves. -/
structure DampenAdmitted where
  peer : DampenPeer
  decision : DampenDecision
  epochReset : Bool
  tblFull : Bool

def dampenAdmitPeer (p : DampenPeer) (seq : U32) (now : U64) : DampenAdmitted :=
  let found := p.ring.find? (fun e => e.seq == seq)
  let restart := dampenIsRestart p seq
  let found := if restart then none else found
  let p := if restart then p.newEpoch seq else p
  let p := p.raiseHigh seq
  match found with
  | none =>
    -- first copy of this sequence: record it and always send
    { peer := dampenAddSlot p { seq := seq, lastSentMs := now, windowMs := dampenWindowFor p }
      decision := .send
      epochReset := restart
      tblFull := kDampenSlots ≤ p.ring.used }
  | some i =>
    let e := p.ring.get i
    if now - e.lastSentMs < e.windowMs.setWidth 64 then
      -- the window runs from the last actual send, so `lastSentMs` stays
      { peer := p, decision := .suppress, epochReset := restart, tblFull := false }
    else
      let w := e.windowMs * 2
      let w := if w > kDampenMaxMs then kDampenMaxMs else w
      { peer := { p with ring := p.ring.set i { e with lastSentMs := now, windowMs := w } }
        decision := .send
        epochReset := restart
        tblFull := false }

def dampenCount (st : DampenStats) (len : Nat) (a : DampenAdmitted) : DampenStats :=
  let st := if a.epochReset then { st with epochResets := st.epochResets + 1 } else st
  let st := if a.tblFull then { st with tblFull := st.tblFull + 1 } else st
  if a.decision = .suppress then
    { st with suppressed := st.suppressed + 1, bytesSaved := st.bytesSaved + len }
  else st

/-! ## The calls -/

def dampenAdmit (c : DampenCtx) (peerAddr : U32) (pay : Payload) (now : U64) : DampenCtx × DampenDecision :=
  let st := { c.st with seen := c.st.seen + 1 }
  if !c.enabled then ({ c with st := st }, .send)
  else if pay.length < kReorderSeqMinPay then
    ({ c with st := { st with bypassShort := st.bypassShort + 1 } }, .send)
  else if !reorderIsReliable pay then
    ({ c with st := { st with bypassNotretx := st.bypassNotretx + 1 } }, .send)
  else
    let seq := reorderSeqFromPayload pay
    let (c, i) := dampenGetPeer { c with st := st } peerAddr now
    let a := dampenAdmitPeer (c.peers i) seq now
    ({ c with peers := Function.update c.peers i a.peer, st := dampenCount c.st pay.length a }, a.decision)

/-- The estimate after an exact acknowledgement of `ackedSeq`. -/
def dampenSamplePeer (p : DampenPeer) (ackedSeq : U32) (now : U64) : DampenPeer :=
  match p.ring.find? (fun e => e.seq == ackedSeq) with
  | none => p
  | some i =>
    let e := p.ring.get i
    let sample : U32 := if now > e.lastSentMs then (now - e.lastSentMs).setWidth 32 else 0
    if p.rttEwmaMs = 0 then { p with rttEwmaMs := sample }
    else
      let delta := sample - p.rttEwmaMs
      { p with rttEwmaMs := p.rttEwmaMs + delta.sshiftRight kDampenRttShift }

def dampenObserveAck (c : DampenCtx) (peerAddr ackedSeq : U32) (now : U64) : DampenCtx :=
  if !c.enabled then c
  else { c with peers := LruTable.modify kDampenPeers c.peers peerAddr (dampenSamplePeer · ackedSeq now) }

/-- Feed an externally measured estimate; it never creates a record. -/
def dampenSetRtt (c : DampenCtx) (peerAddr rttMs : U32) : DampenCtx :=
  if !c.enabled || rttMs = 0 then c
  else { c with peers := LruTable.modify kDampenPeers c.peers peerAddr ({ · with rttEwmaMs := rttMs }) }

def dampenPurgePeer (c : DampenCtx) (peerAddr : U32) : DampenCtx :=
  { c with peers := LruTable.purge kDampenPeers c.peers peerAddr }

/-- `kDampenInvalidSock` and `0` are no tracked socket. -/
def dampenCloseEndsSession (closing dampenSock : Socket) : Bool :=
  if dampenSock = 0 ∨ dampenSock = invalidSocket then false else closing == dampenSock

/-! ## The module as a machine -/

inductive DampenOp where
  | admission (peerAddr : U32) (pay : Payload) (now : U64)
  | observeAck (peerAddr ackedSeq : U32) (now : U64)
  | setRtt (peerAddr rttMs : U32)
  | purgePeer (peerAddr : U32)

def DampenOp.addr : DampenOp → U32
  | .admission a _ _ => a
  | .observeAck a _ _ => a
  | .setRtt a _ => a
  | .purgePeer a => a

def dampenStep (c : DampenCtx) : DampenOp → DampenCtx × Option DampenDecision
  | .admission a pay now => ((dampenAdmit c a pay now).1, some (dampenAdmit c a pay now).2)
  | .observeAck a ack now => (dampenObserveAck c a ack now, none)
  | .setRtt a rtt => (dampenSetRtt c a rtt, none)
  | .purgePeer a => (dampenPurgePeer c a, none)

/-- The table access of a call. -/
def dampenAccess (enabled : Bool) : DampenOp → LruTable.Access DampenPeer U32 U64
  | .admission addr pay now =>
    if enabled = true ∧ Sequenced pay then
      .claim addr now fun p => (dampenAdmitPeer p (reorderSeqFromPayload pay) now).peer
    else .idle addr
  | .observeAck addr ack now => if enabled then .modify addr (dampenSamplePeer · ack now) else .idle addr
  | .setRtt addr rtt =>
    if enabled = true ∧ rtt ≠ 0 then .modify addr ({ · with rttEwmaMs := rtt }) else .idle addr
  | .purgePeer addr => .purge addr

def dampenAnswer (enabled : Bool) (r : Option DampenPeer) : DampenOp → Option DampenDecision
  | .admission addr pay now =>
    if enabled = true ∧ Sequenced pay then
      some (dampenAdmitPeer (LruTable.renew r addr now) (reorderSeqFromPayload pay) now).decision
    else some .send
  | _ => none

def dampenRecordStep (enabled : Bool) (r : Option DampenPeer) (op : DampenOp) :
    Option DampenPeer × Option DampenDecision :=
  ((dampenAccess enabled op).onRecord r, dampenAnswer enabled r op)

end BzNet
