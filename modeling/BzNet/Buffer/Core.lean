import BzNet.Lib.Bytes
import BzNet.Proxy.Hooks

/-!
# The buffer log: what a capture records

The ring of socket events both proxies keep for a bug report, and the two files it is flushed to when the
process ends.

* `BufferLogCfg` : what the environment decided, clamped: the bytes kept of a payload, the records kept;
* `getSocketId`, `forgetSocketId` : the small numbers that stand for sockets in a capture;
* `BufferLogRecordHeader`, `bytes` : the packed structure before the payload prefix of a record;
* `bufferLogEvent` : one event, written over the oldest record when the ring is full;
* `flushBin`, `flushMeta` : the records from the oldest on, and the text that says how to read them.

The locks are ready and the ring is allocated from initialisation on.
-/

namespace BzNet

/-! ## Settings -/

def kBufferLogVersion : U32 := 1

/-- `'BZLG'`. -/
def kBufferLogMagic : U32 := 0x474c5a42

def kMinPayloadBytes : Nat := 8
def kMaxPayloadBytes : Nat := 256
def kMinRingRecords : Nat := 1024
def kMaxRingRecords : Nat := 1000000

def kPeerFilterCap : Nat := 8

/-- `BZ_BUFFER_LOG_PEER`: the first `count` words are the addresses to keep. -/
structure PeerFilter where
  count : Nat
  ipv4 : Nat → U32
  count_le : count ≤ kPeerFilterCap

/-- An empty filter accepts everything, and an event without an address is always kept. -/
def peerFilterAccepts (f : PeerFilter) (ipv4NetOrder : U32) : Bool :=
  f.count == 0 || ipv4NetOrder == 0 || (List.range f.count).any fun i => f.ipv4 i == ipv4NetOrder

/-- What became of a setting. -/
inductive EnvOutcome where
  | unset
  | used
  | clamped
  | bad
deriving DecidableEq

def envOutcomeName : EnvOutcome → String
  | .unset => "NOT SET (the launch options did not reach the game)"
  | .clamped => "CLAMPED to the allowed range"
  | .bad => "UNPARSEABLE"
  | .used => "as requested"

structure BufferLogCfg where
  platform : Platform
  payloadBytes : Nat
  ringRecords : Nat
  peerFilter : PeerFilter
  ringOutcome : EnvOutcome
  bytesOutcome : EnvOutcome
  payload_ge : kMinPayloadBytes ≤ payloadBytes
  payload_le : payloadBytes ≤ kMaxPayloadBytes
  ring_ge : kMinRingRecords ≤ ringRecords
  ring_le : ringRecords ≤ kMaxRingRecords

theorem BufferLogCfg.ring_pos (cfg : BufferLogCfg) : 0 < cfg.ringRecords := Nat.lt_of_lt_of_le (by decide) cfg.ring_ge

/-! ## Socket ids -/

def kSocketTrackCap : Platform → Nat
  | .windows => 64
  | .linux => 256

structure SocketTrack where
  s : Socket
  id : Int

/-- The table of sockets, and the id the next one gets. -/
structure SocketTracks where
  tracks : List SocketTrack
  next : Int

def SocketTracks.init (platform : Platform) : SocketTracks :=
  ⟨List.replicate (kSocketTrackCap platform) ⟨invalidSocket, 0⟩, 1⟩

/-- `create_if_missing` is true in every call here; `-1` is a full table. -/
def getSocketId (t : SocketTracks) (s : Socket) : SocketTracks × Int :=
  match t.tracks.find? (fun k => k.s == s), t.tracks.findIdx? (fun k => k.s == invalidSocket) with
  | some track, _ => (t, track.id)
  | none, some i => (⟨t.tracks.set i ⟨s, t.next⟩, t.next + 1⟩, t.next)
  | none, none => (t, -1)

/-- The Windows proxy clears every record of the socket, the Linux proxy the first. -/
def forgetSocketId (platform : Platform) (t : SocketTracks) (s : Socket) : SocketTracks :=
  match platform with
  | .windows => { t with tracks := t.tracks.map fun k => if k.s = s then ⟨invalidSocket, 0⟩ else k }
  | .linux =>
    { t with tracks := t.tracks.modify (t.tracks.findIdx fun k => k.s == s) fun _ => ⟨invalidSocket, 0⟩ }

/-! ## Records -/

/-- The packed structure in front of a record's payload prefix. -/
structure BufferLogRecordHeader where
  magic : U32
  version : U32
  eventType : U32
  sid : U32
  tickMs : U64
  sequence : U32
  requestedLen : U32
  transferredLen : U32
  wsaError : U32
  srcIpv4 : U32
  srcPort : U16
  flags : U16
  payloadLen : U16
  reserved : U16

/-- The width of each member in bytes, and its value. -/
def BufferLogRecordHeader.members (h : BufferLogRecordHeader) : List (Nat × Nat) :=
  [(4, h.magic.toNat), (4, h.version.toNat), (4, h.eventType.toNat), (4, h.sid.toNat), (8, h.tickMs.toNat),
    (4, h.sequence.toNat), (4, h.requestedLen.toNat), (4, h.transferredLen.toNat), (4, h.wsaError.toNat),
    (4, h.srcIpv4.toNat), (2, h.srcPort.toNat), (2, h.flags.toNat), (2, h.payloadLen.toNat), (2, h.reserved.toNat)]

def BufferLogRecordHeader.bytes (h : BufferLogRecordHeader) : List U8 := Bytes.pack h.members

/-- `sizeof(BufferLogRecordHeader)`. -/
def kRecordHeaderSize : Nat := 52

@[simp] theorem BufferLogRecordHeader.length_bytes (h : BufferLogRecordHeader) :
    h.bytes.length = kRecordHeaderSize := by
  rw [bytes, Bytes.length_pack]
  rfl

/-- `g_buffer_stride`. -/
def BufferLogCfg.stride (cfg : BufferLogCfg) : Nat := kRecordHeaderSize + cfg.payloadBytes

/-- A call of `buffer_log_event`, with the clock reading it takes; the payload is the memory behind the pointer. -/
structure BufferEvent where
  eventType : U32
  s : Socket
  src : Option SockAddr
  flags : U16
  requestedLen : U32
  transferredLen : U32
  wsaError : U32
  payload : Option (Nat → U8)
  payloadLen : U16
  tickMs : U64

/-- The peer of an event, when it has an IPv4 one. -/
def BufferEvent.peer (e : BufferEvent) : Option SockAddr := e.src.filter fun a => a.family == afInet

def BufferEvent.srcIpv4 (e : BufferEvent) : U32 := e.peer.elim 0 SockAddr.addr

def BufferEvent.srcPort (e : BufferEvent) : U16 := e.peer.elim 0 SockAddr.port

/-- `payload_len`, cut to the bytes kept. -/
def BufferEvent.keptLen (e : BufferEvent) (cfg : BufferLogCfg) : U16 :=
  if e.payloadLen.toNat > cfg.payloadBytes then BitVec.ofNat 16 cfg.payloadBytes else e.payloadLen

theorem BufferEvent.keptLen_toNat (e : BufferEvent) (cfg : BufferLogCfg) :
    (e.keptLen cfg).toNat = min e.payloadLen.toNat cfg.payloadBytes := by
  have hle := cfg.payload_le
  unfold kMaxPayloadBytes at hle
  unfold keptLen
  split
  · rw [BitVec.toNat_ofNat]
    omega
  · omega

/-! ## The ring -/

/-- The globals of the buffer log. -/
structure BufferLog (cfg : BufferLogCfg) where
  ring : Fin cfg.ringRecords → List U8
  head : Fin cfg.ringRecords
  count : Nat
  sequence : U32
  totalEvents : U64
  tracks : SocketTracks
  length_slot : ∀ i, (ring i).length = cfg.stride
  count_le : count ≤ cfg.ringRecords

/-- `HEAP_ZERO_MEMORY`. -/
def bufferLogInit (cfg : BufferLogCfg) : BufferLog cfg where
  ring := fun _ => List.replicate cfg.stride 0
  head := ⟨0, cfg.ring_pos⟩
  count := 0
  sequence := 0
  totalEvents := 0
  tracks := SocketTracks.init cfg.platform
  length_slot := fun _ => List.length_replicate
  count_le := Nat.zero_le _

/-- What a slot holds after the header, the payload and the padding were copied over `old`: with a length but
no payload, what the slot held there before. -/
def writeSlot (cfg : BufferLogCfg) (old : List U8) (header : BufferLogRecordHeader) (payload : Option (Nat → U8))
    (payloadLen : Nat) : List U8 :=
  let dst := (old.drop kRecordHeaderSize).take payloadLen
  let copied := payload.elim dst fun mem => (List.range payloadLen).map mem
  header.bytes ++ copied ++ List.replicate (cfg.payloadBytes - payloadLen) 0

theorem length_writeSlot {cfg : BufferLogCfg} {old : List U8} {n : Nat} (hold : old.length = cfg.stride)
    (hn : n ≤ cfg.payloadBytes) (h : BufferLogRecordHeader) (payload : Option (Nat → U8)) :
    (writeSlot cfg old h payload n).length = cfg.stride := by
  unfold BufferLogCfg.stride at hold ⊢
  cases payload with
  | none =>
    simp [writeSlot, hold]
    omega
  | some mem =>
    simp [writeSlot]
    omega

section Event
variable {cfg : BufferLogCfg}

def BufferLog.header (log : BufferLog cfg) (e : BufferEvent) : BufferLogRecordHeader where
  magic := kBufferLogMagic
  version := kBufferLogVersion
  eventType := e.eventType
  sid := BitVec.ofInt 32 (max 0 (getSocketId log.tracks e.s).2)
  tickMs := e.tickMs
  sequence := log.sequence
  requestedLen := e.requestedLen
  transferredLen := e.transferredLen
  wsaError := e.wsaError
  srcIpv4 := e.srcIpv4
  srcPort := e.srcPort
  flags := e.flags
  payloadLen := e.keptLen cfg
  reserved := 0

/-- The slot an event is written to, as it is after. -/
def BufferLog.slot (log : BufferLog cfg) (e : BufferEvent) : List U8 :=
  writeSlot cfg (log.ring log.head) (log.header e) e.payload (e.keptLen cfg).toNat

theorem BufferLog.length_slot_event (log : BufferLog cfg) (e : BufferEvent) : (log.slot e).length = cfg.stride :=
  length_writeSlot (log.length_slot _) (by rw [e.keptLen_toNat]; exact Nat.min_le_right _ _) _ _

def bufferLogEvent (log : BufferLog cfg) (e : BufferEvent) : BufferLog cfg :=
  if peerFilterAccepts cfg.peerFilter e.srcIpv4 then
    { ring := Function.update log.ring log.head (log.slot e)
      head := ⟨(log.head + 1) % cfg.ringRecords, Nat.mod_lt _ cfg.ring_pos⟩
      count := if log.count < cfg.ringRecords then log.count + 1 else log.count
      sequence := log.sequence + 1
      totalEvents := log.totalEvents + 1
      tracks := (getSocketId log.tracks e.s).1
      length_slot := fun i => by
        by_cases hi : i = log.head
        · rw [hi, Function.update_self, log.length_slot_event]
        · rw [Function.update_of_ne hi, log.length_slot]
      count_le := by
        have := log.count_le
        split <;> omega }
  else log

/-- What reaches the log: events, and the calls of other hooks that look a socket up or forget it. -/
inductive BufferOp where
  | event (e : BufferEvent)
  | track (s : Socket)
  | forget (s : Socket)

def bufferLogStep (log : BufferLog cfg) : BufferOp → BufferLog cfg
  | .event e => bufferLogEvent log e
  | .track s => { log with tracks := (getSocketId log.tracks s).1 }
  | .forget s => { log with tracks := forgetSocketId cfg.platform log.tracks s }

/-! ## The files -/

def BufferLog.start (log : BufferLog cfg) : Nat := (log.head + cfg.ringRecords - log.count) % cfg.ringRecords

/-- `bz_buffer_log.bin`. -/
def flushBin (log : BufferLog cfg) : List U8 :=
  (List.range log.count).flatMap fun i => log.ring ⟨(log.start + i) % cfg.ringRecords, Nat.mod_lt _ cfg.ring_pos⟩

def decimal (n : Nat) : List Char := Nat.toDigits 10 n

/-- The lines of the metadata: each a name and a value. -/
def metaFields (log : BufferLog cfg) : List (List Char × List Char) :=
  [("format".toList, "buffer_log_v1".toList),
    ("record_header_size".toList, decimal kRecordHeaderSize),
    ("payload_bytes".toList, decimal cfg.payloadBytes),
    ("record_stride".toList, decimal cfg.stride),
    ("ring_records".toList, decimal cfg.ringRecords),
    ("ring_env".toList, (envOutcomeName cfg.ringOutcome).toList),
    ("payload_env".toList, (envOutcomeName cfg.bytesOutcome).toList),
    ("peer_filter".toList, decimal cfg.peerFilter.count),
    ("records_written".toList, decimal log.count),
    ("total_events_seen".toList, decimal log.totalEvents.toNat),
    ("wrapped".toList, decimal (if log.totalEvents.toNat > log.count then 1 else 0))]

/-- `bz_buffer_log.meta.txt`: what `snprintf` leaves in its 1024 bytes. -/
def flushMeta (log : BufferLog cfg) : List Char :=
  ((metaFields log).flatMap fun f => f.1 ++ '=' :: f.2 ++ ['\r', '\n']).take 1023

end Event

end BzNet
