import BzNet.Wire
import BzNet.Lib.RingBuffer
import BzNet.Lib.LruTable
import BzNet.Lib.Run

/-!
# The round-trip sampler

`shared/net_rtt.h`: for every peer the outstanding sequences of our reliable sends, and a sample when
the peer's acknowledgement advances to one of them that was not seen to be sent twice.

* `RttPeer`, `RttCtx` : the state;
* `rttSendPeer`, `rttRecvPeer` : a send and a receipt as far as they concern one record, `rttOnSend` and
  `rttOnRecv` the calls;
* `rttStep` : one call of the module, `rttAccess` and `rttAnswer` what it means for one peer's record.

The 64-bit counters and sums are natural numbers.
-/

namespace BzNet

def kRttPeers : Nat := 16
def kRttSlots : Nat := 512
def kRttMaxSampleMs : U64 := 30000

structure RttSlot where
  seq : U32
  /-- When the first copy went out. -/
  sentMs : U64
  used : Bool
  /-- Resent before it was acknowledged. -/
  ambiguous : Bool

structure RttPeer where
  /-- `0` is an empty record. -/
  addr : U32
  lastUseMs : U64
  ring : RingBuffer RttSlot kRttSlots
  lastAck : U32
  ackInit : Bool
  samples : Nat
  sumMs : Nat
  minMs : U32
  maxMs : U32
  winSamples : Nat
  winSumMs : Nat
  winMinMs : U32
  winMaxMs : U32
  srttMs : U32
  rttvarMs : U32
  srttInit : Bool

def RttPeer.zero : RttPeer where
  addr := 0
  lastUseMs := 0
  ring := RingBuffer.empty ⟨0, 0, false, false⟩ (by decide)
  lastAck := 0
  ackInit := false
  samples := 0
  sumMs := 0
  minMs := 0
  maxMs := 0
  winSamples := 0
  winSumMs := 0
  winMinMs := 0
  winMaxMs := 0
  srttMs := 0
  rttvarMs := 0
  srttInit := false

structure RttStats where
  sendsTracked : Nat := 0
  sendsAmbiguous : Nat := 0
  slotsEvicted : Nat := 0
  acksSeen : Nat := 0
  samples : Nat := 0
  unmatched : Nat := 0
  discardedAmbig : Nat := 0
  discardedRange : Nat := 0
  peersEvicted : Nat := 0

/-- The first `kRttPeers` records of `peers` are the table. -/
structure RttCtx where
  enabled : Bool
  peers : Nat → RttPeer
  st : RttStats

instance : KeyedRecord RttPeer U32 U64 where
  key := RttPeer.addr
  lastUse := RttPeer.lastUseMs
  touch now p := { p with lastUseMs := now }
  fresh addr now := { RttPeer.zero with addr := addr, lastUseMs := now }
  vacant := RttPeer.zero
  key_touch _ _ := rfl
  key_fresh _ _ := rfl

def rttInit (enabled : Bool) : RttCtx := ⟨enabled, fun _ => RttPeer.zero, {}⟩

/-- Find or claim the record of `addr`: the context and the index of the record. -/
def rttGetPeer (c : RttCtx) (addr : U32) (now : U64) : RttCtx × Nat :=
  let r := LruTable.claim kRttPeers c.peers addr now
  let st := if r.evicted then { c.st with peersEvicted := c.st.peersEvicted + 1 } else c.st
  ({ c with peers := r.table, st := st }, r.index)

def rttPurgePeer (c : RttCtx) (addr : U32) : RttCtx :=
  { c with peers := LruTable.purge kRttPeers c.peers addr }

/-! ## Sends -/

/-- What a send does to one record, and which counters it moves. -/
structure RttSent where
  peer : RttPeer
  ambiguous : Bool
  evicted : Bool
  tracked : Bool

def rttSendPeer (p : RttPeer) (seq : U32) (now : U64) : RttSent :=
  match p.ring.find? (fun s => s.used && s.seq == seq) with
  | some i =>
    -- still outstanding: this is a resend, and the sample is spoiled
    let s := p.ring.get i
    { peer := { p with ring := p.ring.set i { s with ambiguous := true } }
      ambiguous := !s.ambiguous
      evicted := false
      tracked := false }
  | none =>
    let full := p.ring.used = kRttSlots
    let evicted := full ∧ (p.ring.get 0).used = true
    let ring := if full then p.ring.dropFirst 1 else p.ring
    { peer := { p with ring := ring.push { seq := seq, sentMs := now, used := true, ambiguous := false } }
      ambiguous := false
      evicted := evicted
      tracked := true }

def rttCountSend (st : RttStats) (s : RttSent) : RttStats :=
  let st := if s.ambiguous then { st with sendsAmbiguous := st.sendsAmbiguous + 1 } else st
  let st := if s.evicted then { st with slotsEvicted := st.slotsEvicted + 1 } else st
  if s.tracked then { st with sendsTracked := st.sendsTracked + 1 } else st

def rttOnSend (c : RttCtx) (peerAddr : U32) (pay : Payload) (now : U64) : RttCtx :=
  if !c.enabled || pay.length < kReorderSeqMinPay || peerAddr = 0 then c
  else if !reorderIsReliable pay then c
  else
    let (c, i) := rttGetPeer c peerAddr now
    let s := rttSendPeer (c.peers i) (reorderSeqFromPayload pay) now
    { c with peers := Function.update c.peers i s.peer, st := rttCountSend c.st s }

/-! ## Receipts -/

/-- How a receipt ends. -/
inductive RttOutcome where
  /-- Disabled, too short or from address `0`. -/
  | ignored
  /-- The acknowledgement does not advance. -/
  | repeated
  | unmatched
  | discardedAmbig
  | discardedRange
  | sample (ms : U32)
deriving DecidableEq

/-- The value `rtt_on_recv` returns. -/
def RttOutcome.value : RttOutcome → U32
  | .sample ms => ms
  | _ => 0

/-- Retire the `n` oldest slots. -/
def rttRetire (r : RingBuffer RttSlot kRttSlots) (n : Nat) : RingBuffer RttSlot kRttSlots :=
  ((List.range n).foldl (fun r i => r.set i { r.get i with used := false }) r).dropFirst n

/-- Fold a sample into the totals, the window and the smoothed pair. -/
def rttAddSample (p : RttPeer) (r : U32) : RttPeer :=
  let delta := if r > p.srttMs then r - p.srttMs else p.srttMs - r
  { p with
    samples := p.samples + 1
    sumMs := p.sumMs + r.toNat
    minMs := if p.minMs = 0 ∨ r < p.minMs then r else p.minMs
    maxMs := if r > p.maxMs then r else p.maxMs
    winSamples := p.winSamples + 1
    winSumMs := p.winSumMs + r.toNat
    winMinMs := if p.winMinMs = 0 ∨ r < p.winMinMs then r else p.winMinMs
    winMaxMs := if r > p.winMaxMs then r else p.winMaxMs
    srttMs := if !p.srttInit then r else (7 * p.srttMs + r) / 8
    rttvarMs := if !p.srttInit then r / 2 else (3 * p.rttvarMs + delta) / 4
    srttInit := true }

def rttRecvPeer (p : RttPeer) (ack : U32) (now : U64) : RttPeer × RttOutcome :=
  if p.ackInit ∧ seqCmp ack p.lastAck ≤ 0 then (p, .repeated)
  else
    let p := { p with lastAck := ack, ackInit := true }
    match p.ring.find? (fun s => s.seq == ack) with
    | none => (p, .unmatched)
    | some i =>
      let s := p.ring.get i
      -- everything at or below the acknowledged slot is delivered
      let p := { p with ring := rttRetire p.ring (i + 1) }
      if s.ambiguous then (p, .discardedAmbig)
      else if now < s.sentMs then (p, .discardedRange)
      else if now - s.sentMs > kRttMaxSampleMs then (p, .discardedRange)
      else
        let r := (now - s.sentMs).setWidth 32
        (rttAddSample p r, .sample r)

def rttCountRecv (st : RttStats) (o : RttOutcome) : RttStats :=
  match o with
  | .ignored => st
  | .repeated => st
  | .unmatched => { st with acksSeen := st.acksSeen + 1, unmatched := st.unmatched + 1 }
  | .discardedAmbig => { st with acksSeen := st.acksSeen + 1, discardedAmbig := st.discardedAmbig + 1 }
  | .discardedRange => { st with acksSeen := st.acksSeen + 1, discardedRange := st.discardedRange + 1 }
  | .sample _ => { st with acksSeen := st.acksSeen + 1, samples := st.samples + 1 }

def rttOnRecv (c : RttCtx) (peerAddr : U32) (pay : Payload) (now : U64) : RttCtx × RttOutcome :=
  if !c.enabled || pay.length < kReorderSeqMinPay || peerAddr = 0 then (c, .ignored)
  else
    let (c, i) := rttGetPeer c peerAddr now
    let r := rttRecvPeer (c.peers i) (reorderAckFromPayload pay) now
    ({ c with peers := Function.update c.peers i r.1, st := rttCountRecv c.st r.2 }, r.2)

def RttPeer.resetWindow (p : RttPeer) : RttPeer :=
  { p with winSamples := 0, winSumMs := 0, winMinMs := 0, winMaxMs := 0 }

def rttWindowReset (c : RttCtx) : RttCtx :=
  { c with peers := LruTable.rewriteAll kRttPeers c.peers RttPeer.resetWindow }

/-! ## The module as a machine -/

inductive RttOp where
  | send (peerAddr : U32) (pay : Payload) (now : U64)
  | recv (peerAddr : U32) (pay : Payload) (now : U64)
  | purge (peerAddr : U32)

def RttOp.addr : RttOp → U32
  | .send a _ _ => a
  | .recv a _ _ => a
  | .purge a => a

def rttStep (c : RttCtx) : RttOp → RttCtx × Option RttOutcome
  | .send a pay now => (rttOnSend c a pay now, none)
  | .recv a pay now => ((rttOnRecv c a pay now).1, some (rttOnRecv c a pay now).2)
  | .purge a => (rttPurgePeer c a, none)

def rttAccess (enabled : Bool) : RttOp → LruTable.Access RttPeer U32 U64
  | .send addr pay now =>
    if enabled = true ∧ addr ≠ 0 ∧ Sequenced pay then
      .claim addr now fun p => (rttSendPeer p (reorderSeqFromPayload pay) now).peer
    else .idle addr
  | .recv addr pay now =>
    if enabled = true ∧ addr ≠ 0 ∧ kReorderSeqMinPay ≤ pay.length then
      .claim addr now fun p => (rttRecvPeer p (reorderAckFromPayload pay) now).1
    else .idle addr
  | .purge addr => .purge addr

def rttAnswer (enabled : Bool) (r : Option RttPeer) : RttOp → Option RttOutcome
  | .recv addr pay now =>
    if enabled = true ∧ addr ≠ 0 ∧ kReorderSeqMinPay ≤ pay.length then
      some (rttRecvPeer (LruTable.renew r addr now) (reorderAckFromPayload pay) now).2
    else some .ignored
  | _ => none

end BzNet
