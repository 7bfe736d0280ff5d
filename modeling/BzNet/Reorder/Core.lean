import BzNet.Wire
import BzNet.Lib.LruTable
import BzNet.Lib.Slots

/-!
# The reorder buffer

`shared/reorder_core.h`: per source a ring of slots that holds out-of-order arrivals, the cursor of the
last sequence handed over, and an adaptive hold window.

* `ReorderCfg` : the configuration, its clamps part of the type;
* `PeerBuf`, `ReorderCtx` : the state;
* `reorderGetPeer`, `reorderAdaptOnArrival`, `reorderInsert` : what an arrival does;
* `reorderPick`, `reorderNextReady`, `reorderTake` : what a release does.

The first `depth` slots of an entry and the first `peers` entries of the table are in use. Counters are
natural numbers.
-/

namespace BzNet

def kReorderDefaultMs : U32 := 100
def kReorderMinMsDef : U32 := 5
def kReorderGrowPadMs : U32 := 5
def kReorderDecayMs : U64 := 500
def kReorderDecayKeepNum : U32 := 3
def kReorderDecayKeepDen : U32 := 4
def kReorderSlotCap : Nat := 32
def kReorderPeerCap : Nat := 16
def kReorderDrainCapDef : Nat := 96
def kReorderMaxPktBytes : Nat := 2048
def kReorderPeerIdleMs : U64 := 30000

/-- A datagram that fits the drain buffer. -/
structure Datagram where
  src : SockAddr
  data : Payload
  len_le : data.length ≤ kReorderMaxPktBytes

theorem Datagram.ext_iff' {d e : Datagram} : d = e ↔ d.src = e.src ∧ d.data = e.data := by
  cases d
  cases e
  simp

instance : DecidableEq Datagram := fun _ _ => decidable_of_iff _ Datagram.ext_iff'.symm

def Datagram.seq (d : Datagram) : U32 := reorderSeqFromPayload d.data

inductive DeliverKind where
  | first
  | inOrder
  | forced
  | evicted
deriving DecidableEq

/-- An occupied slot holds a datagram with its sequence and arrival time. -/
structure ReorderSlot where
  ts : U64
  seq : U32
  used : Bool
  pkt : Datagram

def ReorderSlot.zero : ReorderSlot := ⟨0, 0, false, ⟨⟨0, 0, 0⟩, [], Nat.zero_le _⟩⟩

structure PeerBuf where
  /-- `0` is an empty entry. -/
  key : U64
  seqInit : Bool
  lastSeq : U32
  filled : Nat
  winMs : U32
  lastAdjustMs : U64
  lastActivityMs : U64
  lastDeliverMs : U64
  delivered : Nat
  slots : Nat → ReorderSlot

def PeerBuf.zero : PeerBuf := ⟨0, false, 0, 0, 0, 0, 0, 0, 0, fun _ => ReorderSlot.zero⟩

structure ReorderStats where
  deliveredFirst : Nat := 0
  deliveredInOrder : Nat := 0
  deliveredForced : Nat := 0
  deliveredEvicted : Nat := 0
  droppedStale : Nat := 0
  droppedDuplicate : Nat := 0
  purgedStale : Nat := 0
  droppedReclaim : Nat := 0
  bypassShort : Nat := 0
  bypassTableFull : Nat := 0
  emsgsize : Nat := 0
  truncated : Nat := 0
  peersReclaimed : Nat := 0
  holdMsSum : Nat := 0
  holdMsMax : U32 := 0
  maxDrainDepth : Nat := 0
  /-- Hold times of 0, 1-5, 6-15, 16-30, 31-60 and 61+ ms. -/
  holdHist : Nat → Nat := fun _ => 0

/-- The configuration read at startup, within its clamps. -/
structure ReorderCfg where
  adapt : Bool
  winMaxMs : U32
  winMinMs : U32
  maxHoldMs : U32
  depth : Nat
  peers : Nat
  depth_pos : 0 < depth
  depth_le : depth ≤ kReorderSlotCap
  peers_pos : 0 < peers
  peers_le : peers ≤ kReorderPeerCap
  win_le : winMinMs ≤ winMaxMs

structure ReorderCtx where
  cfg : ReorderCfg
  tbl : Nat → PeerBuf
  rr : Nat
  stats : ReorderStats

instance : KeyedRecord PeerBuf U64 U64 where
  key := PeerBuf.key
  lastUse := PeerBuf.lastActivityMs
  touch now p := { p with lastActivityMs := now }
  fresh k now := { PeerBuf.zero with key := k, lastAdjustMs := now, lastActivityMs := now, lastDeliverMs := now }
  vacant := PeerBuf.zero
  key_touch _ _ := rfl
  key_fresh _ _ := rfl

/-- The configuration of `reorder_init`. -/
def ReorderCfg.default : ReorderCfg where
  adapt := true
  winMaxMs := kReorderDefaultMs
  winMinMs := kReorderMinMsDef
  maxHoldMs := kReorderDefaultMs
  depth := kReorderSlotCap
  peers := kReorderPeerCap
  depth_pos := by decide
  depth_le := Nat.le_refl _
  peers_pos := by decide
  peers_le := Nat.le_refl _
  win_le := by decide

def reorderInit (cfg : ReorderCfg) : ReorderCtx := ⟨cfg, fun _ => PeerBuf.zero, 0, {}⟩

/-- Forget all buffered traffic; configuration and counters survive. -/
def reorderReset (c : ReorderCtx) : ReorderCtx := { c with tbl := fun _ => PeerBuf.zero, rr := 0 }

/-- Some live ring is full. -/
def reorderDrainSaturated (c : ReorderCtx) : Bool :=
  (List.range c.cfg.peers).any fun i => (c.tbl i).key ≠ 0 ∧ c.cfg.depth ≤ (c.tbl i).filled

/-! ## The peer table -/

def reorderKey (a : SockAddr) : U64 := (a.addr.setWidth 64 <<< 16) ||| a.port.setWidth 64

def reorderFresh (cfg : ReorderCfg) (key now : U64) : PeerBuf :=
  { (KeyedRecord.fresh key now : PeerBuf) with winMs := if cfg.adapt then cfg.winMinMs else cfg.winMaxMs }

/-- Look up or create the entry of `addr`: the context and the index of the entry. A full table gives
up its least recently active entry only once that one is idle. -/
def reorderGetPeer (c : ReorderCtx) (addr : SockAddr) (now : U64) : Option (ReorderCtx × Nat) :=
  let k := reorderKey addr
  match LruTable.locate c.cfg.peers c.tbl k with
  | .found i => some ({ c with tbl := Function.update c.tbl i (KeyedRecord.touch now (c.tbl i)) }, i)
  | .free i => some ({ c with tbl := Function.update c.tbl i (reorderFresh c.cfg k now) }, i)
  | .full oldest =>
    if now - (c.tbl oldest).lastActivityMs < kReorderPeerIdleMs then none
    else
      let stats := { c.stats with
        peersReclaimed := c.stats.peersReclaimed + 1
        droppedReclaim := c.stats.droppedReclaim + (c.tbl oldest).filled }
      some ({ c with tbl := Function.update c.tbl oldest (reorderFresh c.cfg k now), stats := stats }, oldest)

/-! ## The hold window -/

/-- Grow the window to `measured` plus a pad, up to the ceiling. -/
def reorderGrow (cfg : ReorderCfg) (pb : PeerBuf) (measured : U64) (now : U64) : PeerBuf :=
  let w := measured.setWidth 32 + kReorderGrowPadMs
  let w := if w > cfg.winMaxMs then cfg.winMaxMs else w
  if w > pb.winMs then { pb with winMs := w, lastAdjustMs := now } else pb

/-- The earliest arrival held, `now` when there is none before. -/
def reorderOldestTs (cfg : ReorderCfg) (pb : PeerBuf) (now : U64) : U64 :=
  (List.range cfg.depth).foldl
    (fun o i => if (pb.slots i).used ∧ (pb.slots i).ts < o then (pb.slots i).ts else o) now

def reorderAdaptOnArrival (cfg : ReorderCfg) (pb : PeerBuf) (seq : U32) (now : U64) : PeerBuf :=
  if !cfg.adapt || !pb.seqInit then pb
  else if seqCmp seq pb.lastSeq = 0 then pb
  else if seqCmp seq pb.lastSeq < 0 then
    -- a late arrival: its successors were released this long too early
    reorderGrow cfg pb (now - pb.lastDeliverMs) now
  else if seq = seqNext pb.lastSeq ∧ pb.filled > 0 then
    -- the gap just closed: this is how long the held packets waited
    reorderGrow cfg pb (now - reorderOldestTs cfg pb now) now
  else pb

def reorderDecay (cfg : ReorderCfg) (pb : PeerBuf) (now : U64) : PeerBuf :=
  if !cfg.adapt || now - pb.lastAdjustMs < kReorderDecayMs then pb
  else if pb.winMs ≤ cfg.winMinMs then { pb with winMs := cfg.winMinMs, lastAdjustMs := now }
  else
    let excess := pb.winMs - cfg.winMinMs
    let keep := excess * kReorderDecayKeepNum / kReorderDecayKeepDen
    let keep := if keep ≥ excess then excess - 1 else keep
    { pb with winMs := cfg.winMinMs + keep, lastAdjustMs := now }

/-! ## Deliveries -/

def PeerBuf.release (pb : PeerBuf) (i : Nat) : PeerBuf :=
  { pb with
    slots := Function.update pb.slots i { pb.slots i with used := false }
    filled := if pb.filled > 0 then pb.filled - 1 else pb.filled }

/-- The packet in slot `i` is behind the cursor. -/
def PeerBuf.isStale (pb : PeerBuf) (i : Nat) : Bool :=
  (pb.slots i).used && decide (seqCmp (pb.slots i).seq pb.lastSeq ≤ 0)

/-- Destroy the buffered packets the cursor has passed: the entry and how many. -/
def reorderPurgeStale (cfg : ReorderCfg) (pb : PeerBuf) : PeerBuf × Nat :=
  if !pb.seqInit then (pb, 0)
  else
    (List.range cfg.depth).foldl
      (fun s i => if s.1.isStale i then (s.1.release i, s.2 + 1) else s) (pb, 0)

/-- The histogram bucket of a hold time. -/
def reorderHoldBucket (held : U32) : Nat :=
  if held = 0 then 0
  else if held ≤ 5 then 1
  else if held ≤ 15 then 2
  else if held ≤ 30 then 3
  else if held ≤ 60 then 4
  else 5

def reorderCountDelivery (st : ReorderStats) (purged : Nat) (arrivalTs now : U64) (kind : DeliverKind) :
    ReorderStats :=
  let held : U64 := if now > arrivalTs then now - arrivalTs else 0
  let held : U32 := if held > 0xffffffff then 0xffffffff else held.setWidth 32
  let st := { st with
    purgedStale := st.purgedStale + purged
    holdMsSum := st.holdMsSum + held.toNat
    holdMsMax := if held > st.holdMsMax then held else st.holdMsMax
    holdHist := Function.update st.holdHist (reorderHoldBucket held) (st.holdHist (reorderHoldBucket held) + 1) }
  match kind with
  | .first => { st with deliveredFirst := st.deliveredFirst + 1 }
  | .inOrder => { st with deliveredInOrder := st.deliveredInOrder + 1 }
  | .forced => { st with deliveredForced := st.deliveredForced + 1 }
  | .evicted => { st with deliveredEvicted := st.deliveredEvicted + 1 }

/-- Advance the cursor to `seq`; it never moves back. -/
def PeerBuf.advance (pb : PeerBuf) (seq : U32) : PeerBuf :=
  { pb with
    lastSeq := if !pb.seqInit || decide (seqCmp seq pb.lastSeq > 0) then seq else pb.lastSeq
    seqInit := true }

/-- Record a delivery: the entry and how many packets it made stale. -/
def reorderNoteDelivery (cfg : ReorderCfg) (pb : PeerBuf) (seq : U32) (now : U64) : PeerBuf × Nat :=
  let (pb, purged) := reorderPurgeStale cfg (pb.advance seq)
  ({ pb with lastDeliverMs := now, lastActivityMs := now, delivered := pb.delivered + 1 }, purged)

/-! ## Arrivals -/

inductive InsertResult where
  | buffered
  | stale
  | duplicate
  /-- The ring was full: the displaced packet has to be handed over now. -/
  | evicted (out : ReorderSlot)

def reorderMustPassThrough : InsertResult → Bool
  | .stale => true
  | .duplicate => true
  | _ => false

/-- The slot an eviction takes: the oldest arrival. -/
def reorderOldestSlot (cfg : ReorderCfg) (pb : PeerBuf) : Nat :=
  (List.range cfg.depth).foldl
    (fun o i => if (pb.slots i).used ∧ (pb.slots i).ts < (pb.slots o).ts then i else o) 0

def reorderInsert (cfg : ReorderCfg) (pb : PeerBuf) (seq : U32) (ts : U64) (pkt : Datagram) :
    PeerBuf × InsertResult :=
  if pb.seqInit ∧ seqCmp seq pb.lastSeq ≤ 0 then (pb, .stale)
  else
    match (List.range cfg.depth).find? (fun i => (pb.slots i).used && (pb.slots i).seq == seq) with
    | some _ => (pb, .duplicate)
    | none =>
      match (List.range cfg.depth).find? (fun i => !(pb.slots i).used) with
      | some i => ({ pb with slots := Function.update pb.slots i ⟨ts, seq, true, pkt⟩, filled := pb.filled + 1 }, .buffered)
      | none =>
        let o := reorderOldestSlot cfg pb
        ({ pb with slots := Function.update pb.slots o { pb.slots o with ts := ts, seq := seq, pkt := pkt } },
          .evicted (pb.slots o))

def reorderCountInsert (st : ReorderStats) : InsertResult → ReorderStats
  | .stale => { st with droppedStale := st.droppedStale + 1 }
  | .duplicate => { st with droppedDuplicate := st.droppedDuplicate + 1 }
  | _ => st

/-! ## Releases -/

/-- How long a packet of this peer is held. -/
def reorderHoldWindow (cfg : ReorderCfg) (pb : PeerBuf) : U32 :=
  if cfg.maxHoldMs ≠ 0 ∧ pb.winMs > cfg.maxHoldMs then cfg.maxHoldMs else pb.winMs

/-- The packet in slot `i` has waited its time. -/
def PeerBuf.isAged (cfg : ReorderCfg) (pb : PeerBuf) (now : U64) (i : Nat) : Bool :=
  (pb.slots i).used && !decide (now < (pb.slots i).ts) &&
    !decide (now - (pb.slots i).ts < (reorderHoldWindow cfg pb).setWidth 64)

/-- The first delivery takes the lowest sequence, the earlier arrival of two equal ones. -/
def reorderPickFirst (cfg : ReorderCfg) (pb : PeerBuf) : Option Nat :=
  Slots.best cfg.depth (fun i => (pb.slots i).used) fun i b =>
    seqCmp (pb.slots i).seq (pb.slots b).seq < 0 ∨
      seqCmp (pb.slots i).seq (pb.slots b).seq = 0 ∧ (pb.slots i).ts < (pb.slots b).ts

/-- Among the packets that have waited their time, the nearest one ahead, else the oldest. -/
def reorderPickAged (cfg : ReorderCfg) (pb : PeerBuf) (now : U64) : Option Nat :=
  let want := seqNext pb.lastSeq
  let bestAhead := Slots.best cfg.depth
    (fun i => pb.isAged cfg now i && seqAheadOrEqual (pb.slots i).seq want)
    fun i b => (pb.slots i).seq - want < (pb.slots b).seq - want
  let bestOldest := Slots.best cfg.depth (pb.isAged cfg now) fun i b => (pb.slots i).ts < (pb.slots b).ts
  bestAhead.or bestOldest

def reorderPick (cfg : ReorderCfg) (pb : PeerBuf) (now : U64) : Option (Nat × DeliverKind) :=
  if pb.filled = 0 then none
  else if !pb.seqInit then (reorderPickFirst cfg pb).map (·, .first)
  else
    let want := seqNext pb.lastSeq
    match (List.range cfg.depth).find? (fun i => (pb.slots i).used && (pb.slots i).seq == want) with
    | some i => some (i, .inOrder)
    | none => (reorderPickAged cfg pb now).map (·, .forced)

/-- Scan the peers from `rr` on: the context with `rr` moved past the peer found, the peer, the slot. -/
def reorderNextReady (c : ReorderCtx) (now : U64) : Option (ReorderCtx × Nat × Nat × DeliverKind) :=
  (List.range c.cfg.peers).findSome? fun n =>
    let i := (c.rr + n) % c.cfg.peers
    if (c.tbl i).key = 0 then none
    else (reorderPick c.cfg (c.tbl i) now).map fun s => ({ c with rr := (i + 1) % c.cfg.peers }, i, s.1, s.2)

/-- Release slot `slot` of an entry: the entry and how many packets that made stale. -/
def reorderTakePeer (cfg : ReorderCfg) (pb : PeerBuf) (slot : Nat) (now : U64) : PeerBuf × Nat :=
  let r := reorderNoteDelivery cfg (pb.release slot) (pb.slots slot).seq now
  (reorderDecay cfg r.1 now, r.2)

def reorderTake (c : ReorderCtx) (i slot : Nat) (now : U64) (kind : DeliverKind) : ReorderCtx × ReorderSlot :=
  let r := reorderTakePeer c.cfg (c.tbl i) slot now
  ({ c with
      tbl := Function.update c.tbl i r.1
      stats := reorderCountDelivery c.stats r.2 ((c.tbl i).slots slot).ts now kind },
    (c.tbl i).slots slot)

end BzNet
