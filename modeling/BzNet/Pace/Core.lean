import BzNet.Reorder.Core
import BzNet.Lib.RingBuffer

/-!
# The send pacer

`shared/send_pace.h`: what every outbound datagram goes through before the real send, and the functions
of the two proxies that call it under the pacer's lock.

* `PaceCtx` : the state; the pending queue is a ring;
* `paceTick`, `paceObserve`, `paceAdmit` : the measurement window and the token bucket;
* `paceEnqueue`, `pacePopDue`, `pacePopAny`, `pacePurgeSocket` : the queue;
* `paceTake`, `paceFlushLocked`, `sendPaceTurn` : the locked sections of the proxies. What they pass to the
  real send function, in order, is part of their result.

The 64-bit counters of the statistics are natural numbers; `tokens` is a word read with its sign.
-/

namespace BzNet

def kPaceQueueSlots : Nat := 256
def kPaceMaxDelayDef : U32 := 20
def kPaceBurstPps : U32 := 100
def kPaceAddrBytes : Nat := 128

inductive PaceDecision where
  | sendNow
  | queued
  | flushThenSend
deriving DecidableEq

/-- A datagram as a send function gets it: socket, destination and bytes. -/
structure Outgoing where
  sock : Socket
  dest : List U8
  data : Payload
deriving DecidableEq

structure PaceEntry extends Outgoing where
  dueMs : U64
deriving DecidableEq

structure PaceStats where
  packets : Nat := 0
  bytes : Nat := 0
  paced : Nat := 0
  exemptSmall : Nat := 0
  overBudgetPassed : Nat := 0
  queueFullPassed : Nat := 0
  peakPps : U32 := 0
  peakBps : U32 := 0
  burstSeconds : Nat := 0
  maxDelayMs : U32 := 0
  peakQueue : Nat := 0

structure PaceCtx where
  /-- `0` measures only. -/
  rateBps : U32
  burstBytes : U32
  maxDelayMs : U32
  tokens : U64
  lastFillMs : U64
  winStartMs : U64
  winPackets : U32
  winBytes : U32
  q : RingBuffer PaceEntry kPaceQueueSlots
  stats : PaceStats

def paceInit (rateBps maxDelayMs : U32) (now : U64) : PaceCtx :=
  let burst := if rateBps ≠ 0 then rateBps / 20 else 0
  let burst := if burst.toNat < kReorderMaxPktBytes then BitVec.ofNat 32 kReorderMaxPktBytes else burst
  { rateBps := rateBps
    burstBytes := burst
    maxDelayMs := maxDelayMs
    tokens := burst.setWidth 64
    lastFillMs := now
    winStartMs := now
    winPackets := 0
    winBytes := 0
    q := RingBuffer.empty ⟨⟨0, [], []⟩, 0⟩ (by decide)
    stats := {} }

/-! ## The measurement window -/

def paceTick (c : PaceCtx) (now : U64) : PaceCtx :=
  if now - c.winStartMs < 1000 then c
  else
    { c with
      stats := { c.stats with
        peakPps := if c.stats.peakPps < c.winPackets then c.winPackets else c.stats.peakPps
        peakBps := if c.stats.peakBps < c.winBytes then c.winBytes else c.stats.peakBps
        burstSeconds := c.stats.burstSeconds + if kPaceBurstPps < c.winPackets then 1 else 0 }
      winStartMs := now - (now - c.winStartMs) % 1000
      winPackets := 0
      winBytes := 0 }

def paceObserve (c : PaceCtx) (len : U32) (now : U64) : PaceCtx :=
  let c := paceTick c now
  { c with
    winPackets := c.winPackets + 1
    winBytes := c.winBytes + len
    stats := { c.stats with packets := c.stats.packets + 1, bytes := c.stats.bytes + len.toNat } }

/-! ## The token bucket -/

def paceRefill (c : PaceCtx) (now : U64) : PaceCtx :=
  let elapsed := now - c.lastFillMs
  if 0 < elapsed then
    let tokens := c.tokens + elapsed * c.rateBps.setWidth 64 / 1000
    { c with
      tokens := if (c.burstBytes.toNat : Int) < tokens.toInt then c.burstBytes.setWidth 64 else tokens
      lastFillMs := now }
  else c

/-- How long the bucket needs to make up for a datagram. -/
def paceWaitMs (c : PaceCtx) (len : U32) : U64 :=
  let deficit := len.setWidth 64 - c.tokens
  if 0 < deficit.toInt then deficit * 1000 / c.rateBps.setWidth 64 else 0

/-- The decision on a datagram, and when the pacer should send it. -/
def paceAdmit (c : PaceCtx) (len : U32) (now : U64) : PaceCtx × PaceDecision × U64 :=
  let c := paceObserve c len now
  if c.rateBps = 0 then (c, .sendNow, now)
  else if len.toNat < kReorderSeqMinPay then
    -- too small to carry a sequence: never delayed
    ({ c with stats := { c.stats with exemptSmall := c.stats.exemptSmall + 1 } }, .sendNow, now)
  else
    let c := paceRefill c now
    if c.q.used = 0 ∧ (len.toNat : Int) ≤ c.tokens.toInt then
      ({ c with tokens := c.tokens - len.setWidth 64 }, .sendNow, now)
    else
      let waitMs := paceWaitMs c len
      if c.maxDelayMs.toNat < waitMs.toNat ∨ kPaceQueueSlots ≤ c.q.used then
        -- give up on shaping; what is queued has to leave first
        let stats := if c.maxDelayMs.toNat < waitMs.toNat
          then { c.stats with overBudgetPassed := c.stats.overBudgetPassed + 1 }
          else { c.stats with queueFullPassed := c.stats.queueFullPassed + 1 }
        ({ c with tokens := 0, stats := stats }, if 0 < c.q.used then .flushThenSend else .sendNow, now)
      else
        ({ c with
          tokens := c.tokens - len.setWidth 64
          stats := { c.stats with
            paced := c.stats.paced + 1
            maxDelayMs := if c.stats.maxDelayMs.toNat < waitMs.toNat then waitMs.setWidth 32
              else c.stats.maxDelayMs } }, .queued, now + waitMs)

/-! ## The queue -/

def paceEnqueue (c : PaceCtx) (o : Outgoing) (dueMs : U64) : Option PaceCtx :=
  if kPaceQueueSlots ≤ c.q.used ∨ kReorderMaxPktBytes < o.data.length ∨ o.dest = [] ∨
      kPaceAddrBytes < o.dest.length then none
  else
    let q := c.q.push ⟨o, dueMs⟩
    some { c with q := q, stats := { c.stats with peakQueue := max c.stats.peakQueue q.used } }

def pacePopAny (c : PaceCtx) : Option (PaceEntry × PaceCtx) :=
  if c.q.used = 0 then none else some (c.q.get 0, { c with q := c.q.dropFirst 1 })

def pacePopDue (now : U64) (c : PaceCtx) : Option (PaceEntry × PaceCtx) :=
  if c.q.used = 0 ∨ now < (c.q.get 0).dueMs then none
  else some (c.q.get 0, { c with q := c.q.dropFirst 1 })

def pacePurgeSocket (c : PaceCtx) (sock : Socket) : PaceCtx :=
  { c with q := c.q.keep fun e => e.sock != sock }

/-! ## The locked sections of the proxies -/

/-- Pop and send until there is nothing left to pop; each turn takes one entry off the queue. -/
def paceSendWhile (pop : PaceCtx → Option (PaceEntry × PaceCtx)) : Nat → PaceCtx → PaceCtx × List PaceEntry
  | 0, c => (c, [])
  | n + 1, c =>
    match pop c with
    | none => (c, [])
    | some (e, c') => ((paceSendWhile pop n c').1, e :: (paceSendWhile pop n c').2)

/-- Flush everything queued, in order. -/
def paceFlushLocked (c : PaceCtx) : PaceCtx × List PaceEntry := paceSendWhile pacePopAny c.q.used c

/-- Offer a datagram to the pacer: whether it has taken it, and what was flushed before. -/
def paceTake (c : PaceCtx) (o : Outgoing) (now : U64) : PaceCtx × Bool × List PaceEntry :=
  if o.dest = [] ∨ o.data = [] ∨ kReorderMaxPktBytes < o.data.length ∨ kPaceAddrBytes < o.dest.length then
    (c, false, [])
  else
    let a := paceAdmit c (BitVec.ofNat 32 o.data.length) now
    match a.2.1 with
    | .sendNow => (a.1, false, [])
    | .queued =>
      match paceEnqueue a.1 o a.2.2 with
      | some c => (c, true, [])
      | none => ((paceFlushLocked a.1).1, false, (paceFlushLocked a.1).2)
    | .flushThenSend => ((paceFlushLocked a.1).1, false, (paceFlushLocked a.1).2)

/-- One waking of the pacer thread: it sends what is due. -/
def sendPaceTurn (c : PaceCtx) (now : U64) : PaceCtx × List PaceEntry :=
  let c := paceTick c now
  paceSendWhile (pacePopDue now) c.q.used c

end BzNet
