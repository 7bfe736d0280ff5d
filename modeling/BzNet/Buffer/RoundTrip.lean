import BzNet.Buffer.Decode
import BzNet.Lib.RingBuffer

/-!
# A capture reads back as what was logged

* `toRing` : the log as a bounded ring, on which an event is a push (`toRing_event`), so that after a run the
  ring holds the last records of the run (`toRing_run`);
* `flushMeta_eq`, `readMeta_flush` : the metadata fits its buffer and reads back field by field;
* `Logged`, `loggedFrom` : the events that passed the filter, each with the socket id and the number it got;
* `buffer_log_round_trip` : the decoded capture.
-/

namespace BzNet

/-! ## What was logged -/

/-- An event that passed the filter. -/
structure Logged where
  event : BufferEvent
  sid : U32
  sequence : U32

/-- The sid of a record; a full table gives `0`. -/
def recordSid (t : SocketTracks) (s : Socket) : U32 := BitVec.ofInt 32 (max 0 (getSocketId t s).2)

/-- The events logged from a socket table and an event number on. -/
def loggedFrom (cfg : BufferLogCfg) : SocketTracks → U32 → List BufferOp → List Logged
  | _, _, [] => []
  | t, n, .event e :: ops =>
    if peerFilterAccepts cfg.peerFilter e.srcIpv4 then
      ⟨e, recordSid t e.s, n⟩ :: loggedFrom cfg (getSocketId t e.s).1 (n + 1) ops
    else loggedFrom cfg t n ops
  | t, n, .track s :: ops => loggedFrom cfg (getSocketId t s).1 n ops
  | t, n, .forget s :: ops => loggedFrom cfg (forgetSocketId cfg.platform t s) n ops

def logged (cfg : BufferLogCfg) (ops : List BufferOp) : List Logged :=
  loggedFrom cfg (SocketTracks.init cfg.platform) 0 ops

/-- The payload is there whenever the event gives it a length. -/
def Logged.Whole (l : Logged) : Prop := l.event.payloadLen ≠ 0 → l.event.payload.isSome = true

instance (l : Logged) : Decidable l.Whole := inferInstanceAs (Decidable (_ → _))

def Logged.plen (cfg : BufferLogCfg) (l : Logged) : Nat := min l.event.payloadLen.toNat cfg.payloadBytes

def Logged.firstBytes (l : Logged) (n : Nat) : List U8 := l.event.payload.elim [] fun mem => (List.range n).map mem

/-- The record a reader should see. -/
def Logged.record (cfg : BufferLogCfg) (l : Logged) : Decode.Record where
  ver := 1
  etype := l.event.eventType.toNat
  sid := l.sid.toNat
  tick := l.event.tickMs.toNat
  seq := l.sequence.toNat
  req := l.event.requestedLen.toNat
  xfer := l.event.transferredLen.toNat
  wsa := l.event.wsaError.toNat
  ip := Decode.dotted l.event.srcIpv4.toNat
  port := l.event.srcPort.toNat
  flags := l.event.flags.toNat
  plen := l.plen cfg
  payload := l.firstBytes (l.plen cfg)

/-! ## The bytes of a record -/

section Slot
variable {cfg : BufferLogCfg}

def Logged.header (cfg : BufferLogCfg) (l : Logged) : BufferLogRecordHeader where
  magic := kBufferLogMagic
  version := kBufferLogVersion
  eventType := l.event.eventType
  sid := l.sid
  tickMs := l.event.tickMs
  sequence := l.sequence
  requestedLen := l.event.requestedLen
  transferredLen := l.event.transferredLen
  wsaError := l.event.wsaError
  srcIpv4 := l.event.srcIpv4
  srcPort := l.event.srcPort
  flags := l.event.flags
  payloadLen := l.event.keptLen cfg
  reserved := 0

def Logged.bytes (cfg : BufferLogCfg) (l : Logged) : List U8 :=
  (l.header cfg).bytes ++ l.firstBytes (l.plen cfg) ++ List.replicate (cfg.payloadBytes - l.plen cfg) 0

theorem Logged.length_firstBytes {l : Logged} (h : l.Whole) {n : Nat} (hn : n ≤ l.event.payloadLen.toNat) :
    (l.firstBytes n).length = n := by
  unfold Logged.firstBytes
  cases hp : l.event.payload with
  | some mem => simp
  | none =>
    have hz : l.event.payloadLen = 0 := by
      by_contra hne
      have := h hne
      rw [hp] at this
      cases this
    rw [hz] at hn
    simpa using Nat.le_zero.mp hn |>.symm

theorem Logged.length_bytes {l : Logged} (h : l.Whole) : (l.bytes cfg).length = cfg.stride := by
  have hp := Logged.length_firstBytes h (Nat.min_le_left l.event.payloadLen.toNat cfg.payloadBytes)
  have hle : l.plen cfg ≤ cfg.payloadBytes := Nat.min_le_right _ _
  rw [Logged.bytes, List.length_append, List.length_append, BufferLogRecordHeader.length_bytes, List.length_replicate]
  unfold BufferLogCfg.stride Logged.plen at *
  omega

/-- What the slot held before does not show when the payload is there. -/
theorem slot_eq_bytes (log : BufferLog cfg) {e : BufferEvent}
    (h : (⟨e, recordSid log.tracks e.s, log.sequence⟩ : Logged).Whole) :
    log.slot e = (⟨e, recordSid log.tracks e.s, log.sequence⟩ : Logged).bytes cfg := by
  unfold BufferLog.slot writeSlot Logged.bytes Logged.firstBytes Logged.plen
  rw [e.keptLen_toNat]
  cases hp : e.payload with
  | some mem => rfl
  | none =>
    have hz : e.payloadLen = 0 := by
      by_contra hne
      have := h hne
      rw [hp] at this
      cases this
    simp only [hz, Option.elim_none]
    rfl

end Slot

/-! ## The log as a ring -/

section Ring
variable {cfg : BufferLogCfg}

def BufferLog.toRing (log : BufferLog cfg) : RingBuffer (List U8) cfg.ringRecords where
  cells := log.ring
  head := log.start
  used := log.count
  head_lt := Nat.mod_lt _ cfg.ring_pos
  used_le := log.count_le

theorem flushBin_eq (log : BufferLog cfg) : flushBin log = log.toRing.toList.flatten := by
  rw [flushBin, RingBuffer.toList, ← List.flatMap_def]
  rfl

theorem start_add_count (log : BufferLog cfg) : (log.start + log.count) % cfg.ringRecords = log.head := by
  have hh := log.head.isLt
  have hc := log.count_le
  rw [BufferLog.start, Nat.mod_add_mod, Nat.sub_add_cancel (by omega), Nat.add_mod_right, Nat.mod_eq_of_lt hh]

theorem start_of_full (log : BufferLog cfg) (h : ¬ log.count < cfg.ringRecords) : log.start = log.head := by
  have hc := log.count_le
  have hfull : log.count = cfg.ringRecords := by omega
  rw [BufferLog.start, hfull, Nat.add_sub_cancel, Nat.mod_eq_of_lt log.head.isLt]

/-- **An event is a push.** -/
theorem toRing_event (log : BufferLog cfg) {e : BufferEvent} (h : peerFilterAccepts cfg.peerFilter e.srcIpv4 = true) :
    (bufferLogEvent log e).toRing = log.toRing.push (log.slot e) := by
  have hh := log.head.isLt
  have hc := log.count_le
  rw [bufferLogEvent, if_pos h, RingBuffer.push]
  by_cases hroom : log.count < cfg.ringRecords
  · have hidx : log.toRing.idx log.count = log.head := Fin.ext (start_add_count log)
    have hstart : ((log.head + 1) % cfg.ringRecords + cfg.ringRecords - (log.count + 1)) % cfg.ringRecords =
        log.start := by
      rw [BufferLog.start]
      by_cases hwrap : log.head.val + 1 = cfg.ringRecords
      · rw [hwrap, Nat.mod_self]
        have hlast : cfg.ringRecords + log.head.val - log.count = (cfg.ringRecords - (log.count + 1)) + cfg.ringRecords := by
          omega
        rw [Nat.add_comm log.head.val, hlast, Nat.add_mod_right, Nat.zero_add]
      · rw [Nat.mod_eq_of_lt (show log.head.val + 1 < cfg.ringRecords by omega)]
        congr 1
        omega
    rw [dif_pos (show log.toRing.used < cfg.ringRecords from hroom)]
    simp only [BufferLog.toRing, BufferLog.start, if_pos hroom, hstart] at hidx ⊢
    rw [hidx]
  · have hidx : log.toRing.idx 0 = log.head := by
      apply Fin.ext
      change (log.start + 0) % cfg.ringRecords = log.head
      rw [start_of_full log hroom, Nat.add_zero, Nat.mod_eq_of_lt hh]
    have hfull : log.count = cfg.ringRecords := by omega
    have hstart : ((log.head + 1) % cfg.ringRecords + cfg.ringRecords - log.count) % cfg.ringRecords =
        (log.start + 1) % cfg.ringRecords := by
      rw [start_of_full log hroom, hfull, Nat.add_sub_cancel, Nat.mod_mod]
    rw [dif_neg (show ¬ log.toRing.used < cfg.ringRecords from hroom)]
    simp only [BufferLog.toRing, BufferLog.start, if_neg hroom, hstart] at hidx ⊢
    rw [hidx]

/-- What a run does to the ring: it pushes the records of the events logged. -/
theorem toRing_run (ops : List BufferOp) (log : BufferLog cfg)
    (h : ∀ l ∈ loggedFrom cfg log.tracks log.sequence ops, l.Whole) :
    (ops.foldl bufferLogStep log).toRing =
      ((loggedFrom cfg log.tracks log.sequence ops).map (Logged.bytes cfg)).foldl RingBuffer.push log.toRing := by
  induction ops generalizing log with
  | nil => rfl
  | cons op ops ih =>
    rw [List.foldl_cons]
    cases op with
    | event e =>
      rw [loggedFrom] at h ⊢
      by_cases hacc : peerFilterAccepts cfg.peerFilter e.srcIpv4 = true
      · rw [if_pos hacc] at h ⊢
        have hfields : (bufferLogStep log (.event e)).tracks = (getSocketId log.tracks e.s).1 ∧
            (bufferLogStep log (.event e)).sequence = log.sequence + 1 := by
          simp only [bufferLogStep, bufferLogEvent, if_pos hacc, and_self]
        rw [List.map_cons, List.foldl_cons, ih, hfields.1, hfields.2]
        · rw [bufferLogStep, toRing_event log hacc, slot_eq_bytes log (h _ List.mem_cons_self)]
        · rw [hfields.1, hfields.2]
          exact fun l hl => h l (List.mem_cons_of_mem _ hl)
      · rw [if_neg hacc] at h ⊢
        have hsame : bufferLogStep log (.event e) = log := by rw [bufferLogStep, bufferLogEvent, if_neg hacc]
        rw [hsame]
        exact ih log h
    | track s => exact ih (bufferLogStep log (.track s)) h
    | forget s => exact ih (bufferLogStep log (.forget s)) h

theorem flushBin_run (ops : List BufferOp) (h : ∀ l ∈ logged cfg ops, l.Whole) :
    flushBin (ops.foldl bufferLogStep (bufferLogInit cfg)) =
      (((logged cfg ops).drop ((logged cfg ops).length - cfg.ringRecords)).map (Logged.bytes cfg)).flatten := by
  rw [flushBin_eq, toRing_run ops (bufferLogInit cfg) h, RingBuffer.toList_foldl_push]
  have hempty : (bufferLogInit cfg).toRing.toList = [] := rfl
  have hused : (bufferLogInit cfg).toRing.used = 0 := rfl
  rw [hempty, hused, List.nil_append, Nat.zero_add, List.length_map, List.map_drop]
  rfl

end Ring

/-! ## The metadata -/

section Metadata
variable {cfg : BufferLogCfg}

theorem length_decimal {n k : Nat} (hk : 0 < k) (h : n < 10 ^ k) : (decimal n).length ≤ k :=
  (Nat.length_toDigits_le_iff (by decide) hk).mpr h

theorem length_envOutcomeName (o : EnvOutcome) : (envOutcomeName o).toList.length ≤ 51 := by cases o <;> decide

/-- **The text fits its buffer**, whatever the counters say. -/
theorem flushMeta_eq (log : BufferLog cfg) :
    flushMeta log = (metaFields log).flatMap fun f => f.1 ++ '=' :: f.2 ++ ['\r', '\n'] := by
  have hp := cfg.payload_le
  have hr := cfg.ring_le
  have hf := cfg.peerFilter.count_le
  have hc := log.count_le
  have ht := log.totalEvents.isLt
  have hw : (if log.totalEvents.toNat > log.count then 1 else 0) < 10 ^ 1 := by split <;> decide
  unfold kMaxPayloadBytes at hp
  unfold kMaxRingRecords at hr
  unfold kPeerFilterCap at hf
  have h1 := length_decimal (n := kRecordHeaderSize) (k := 2) (by decide) (by decide)
  have h2 := length_decimal (n := cfg.payloadBytes) (k := 3) (by decide) (by omega)
  have h3 := length_decimal (n := cfg.stride) (k := 3) (by decide)
    (by unfold BufferLogCfg.stride kRecordHeaderSize; omega)
  have h4 := length_decimal (n := cfg.ringRecords) (k := 7) (by decide) (by omega)
  have h5 := length_decimal (n := cfg.peerFilter.count) (k := 1) (by decide) (by omega)
  have h6 := length_decimal (n := log.count) (k := 7) (by decide) (by omega)
  have h7 := length_decimal (n := log.totalEvents.toNat) (k := 20) (by decide) (by omega)
  have h8 := length_decimal (by decide) hw
  have h9 := length_envOutcomeName cfg.ringOutcome
  have h10 := length_envOutcomeName cfg.bytesOutcome
  rw [flushMeta, List.take_of_length_le]
  clear hp hr hf hc ht hw
  simp only [metaFields, List.flatMap_cons, List.flatMap_nil, List.length_append, List.length_cons, List.length_nil,
    String.reduceToList]
  omega

theorem plainText_envOutcomeName (o : EnvOutcome) : Decode.PlainText (envOutcomeName o).toList := by
  cases o <;> decide +kernel

theorem metaFields_plain (log : BufferLog cfg) : ∀ f ∈ metaFields log, Decode.PlainField f := by
  have hnames : ∀ f ∈ metaFields log, Decode.PlainText f.1 ∧ '=' ∉ f.1 := by
    simp only [metaFields, List.forall_mem_cons, List.not_mem_nil, false_implies, implies_true, and_true]
    decide +kernel
  have hvalues : ∀ f ∈ metaFields log, Decode.PlainText f.2 := by
    simp only [metaFields, List.forall_mem_cons, List.not_mem_nil, false_implies, implies_true, and_true,
      Decode.plainText_decimal, plainText_envOutcomeName]
    decide +kernel
  exact fun f hf => ⟨(hnames f hf).1, (hnames f hf).2, hvalues f hf⟩

theorem readMeta_flush (log : BufferLog cfg) :
    Decode.readMeta (some (flushMeta log)) "record_stride".toList = some (decimal cfg.stride) := by
  rw [flushMeta_eq, Decode.readMeta_fields (metaFields_plain log)]
  simp [metaFields, Function.update]

end Metadata

/-! ## The decoded capture -/

/-- The members of a header, as a reader gets them. -/
def BufferLogRecordHeader.read (h : BufferLogRecordHeader) : Decode.Header :=
  ⟨h.magic.toNat, h.version.toNat, h.eventType.toNat, h.sid.toNat, h.tickMs.toNat, h.sequence.toNat,
    h.requestedLen.toNat, h.transferredLen.toNat, h.wsaError.toNat, h.srcIpv4.toNat, h.srcPort.toNat, h.flags.toNat,
    h.payloadLen.toNat, h.reserved.toNat⟩

theorem unpack_header (h : BufferLogRecordHeader) (rest : List U8) :
    Decode.Header.ofList (Bytes.unpack Decode.HDR (h.bytes ++ rest)) = h.read := by
  have hfit : ∀ f ∈ h.members, f.2 < 256 ^ f.1 := by
    simp only [BufferLogRecordHeader.members, List.forall_mem_cons, List.not_mem_nil, false_implies, implies_true,
      and_true]
    exact ⟨h.magic.isLt, h.version.isLt, h.eventType.isLt, h.sid.isLt, h.tickMs.isLt, h.sequence.isLt,
      h.requestedLen.isLt, h.transferredLen.isLt, h.wsaError.isLt, h.srcIpv4.isLt, h.srcPort.isLt, h.flags.isLt,
      h.payloadLen.isLt, h.reserved.isLt⟩
  have hun := Bytes.unpack_pack hfit rest
  have hwidths : h.members.map Prod.fst = Decode.HDR := rfl
  rw [hwidths] at hun
  rw [BufferLogRecordHeader.bytes, hun]
  rfl

section Records
variable {cfg : BufferLogCfg} {ls : List Logged}

/-- The records of a capture, one after the other. -/
def capture (cfg : BufferLogCfg) (ls : List Logged) : List U8 := (ls.map (Logged.bytes cfg)).flatten

theorem length_capture (h : ∀ l ∈ ls, l.Whole) : (capture cfg ls).length = ls.length * cfg.stride := by
  rw [capture, Bytes.length_flatten_of_equal, List.length_map]
  rintro _ hb
  obtain ⟨l, hl, rfl⟩ := List.mem_map.mp hb
  exact Logged.length_bytes (h l hl)

theorem drop_capture (h : ∀ l ∈ ls, l.Whole) {i : Nat} (hi : i < ls.length) :
    (capture cfg ls).drop (i * cfg.stride) = (ls[i]).bytes cfg ++ capture cfg (ls.drop (i + 1)) := by
  rw [capture, Bytes.drop_flatten, ← List.map_drop, List.drop_eq_getElem_cons hi, List.map_cons, List.flatten_cons]
  · rfl
  · rintro _ hb
    obtain ⟨l, hl, rfl⟩ := List.mem_map.mp hb
    exact Logged.length_bytes (h l hl)

theorem unpackFrom_capture (h : ∀ l ∈ ls, l.Whole) {i : Nat} (hi : i < ls.length) :
    Decode.unpackFrom (capture cfg ls) (i * cfg.stride) = some ((ls[i]).header cfg).read := by
  have hlen : (capture cfg ls).length = ls.length * cfg.stride := length_capture h
  have hin : i * cfg.stride + Decode.HDR_SIZE ≤ (capture cfg ls).length := by
    have hnext : (i + 1) * cfg.stride ≤ ls.length * cfg.stride := Nat.mul_le_mul_right _ hi
    have hsize : Decode.HDR_SIZE = kRecordHeaderSize := rfl
    rw [hlen, hsize]
    rw [Nat.succ_mul] at hnext
    unfold BufferLogCfg.stride at hnext ⊢
    omega
  rw [Decode.unpackFrom, if_pos hin, drop_capture h hi, Logged.bytes, List.append_assoc, List.append_assoc,
    unpack_header]

theorem record_capture (h : ∀ l ∈ ls, l.Whole) {i : Nat} (hi : i < ls.length) :
    Decode.record (capture cfg ls) cfg.stride (i * cfg.stride) ((ls[i]).header cfg).read = (ls[i]).record cfg := by
  have hw := h ls[i] (List.getElem_mem hi)
  have hplen : min (((ls[i]).header cfg).read.plen : Int) (cfg.stride - Decode.HDR_SIZE) = (ls[i]).plen cfg := by
    have hkept : ((ls[i]).header cfg).read.plen = min (ls[i]).event.payloadLen.toNat cfg.payloadBytes :=
      (ls[i]).event.keptLen_toNat cfg
    have hsize : Decode.HDR_SIZE = kRecordHeaderSize := rfl
    rw [hkept, hsize]
    unfold BufferLogCfg.stride Logged.plen
    omega
  have hpayload : ((capture cfg ls).drop (i * cfg.stride + Decode.HDR_SIZE)).take ((ls[i]).plen cfg) =
      (ls[i]).firstBytes ((ls[i]).plen cfg) := by
    have hhead : ((ls[i]).header cfg).bytes.length = Decode.HDR_SIZE := BufferLogRecordHeader.length_bytes _
    have hpre : ((ls[i]).firstBytes ((ls[i]).plen cfg)).length = (ls[i]).plen cfg :=
      Logged.length_firstBytes hw (Nat.min_le_left _ _)
    rw [← List.drop_drop, drop_capture h hi, Logged.bytes, List.append_assoc, List.append_assoc, List.drop_left' hhead,
      List.take_left' hpre]
  rw [Decode.record, hplen, Int.toNat_natCast, hpayload]
  rfl

/-- **A capture of whole records** decodes into them. -/
theorem parse_capture (h : ∀ l ∈ ls, l.Whole) :
    Decode.parse (capture cfg ls) cfg.stride none 0 = some (ls.map (Logged.record cfg), 0) := by
  have hpos : 0 < cfg.stride := Nat.add_pos_left (by decide) _
  let header : Nat → Decode.Header := fun off =>
    (ls[off / cfg.stride]?.map fun l => (l.header cfg).read).getD (Decode.Header.ofList [])
  have hat : ∀ i (hi : i < ls.length), header (i * cfg.stride) = ((ls[i]).header cfg).read := by
    intro i hi
    simp only [header, Nat.mul_div_cancel i hpos, List.getElem?_eq_getElem hi, Option.map_some, Option.getD_some]
  rw [Decode.parse, if_neg (Nat.pos_iff_ne_zero.mp hpos), length_capture h, Decode.rangeBy_records hpos,
    Decode.parseFrom_all header]
  · rw [List.nil_append, List.map_map]
    congr 2
    apply List.ext_getElem
    · simp
    · intro i h1 h2
      have hi : i < ls.length := by simpa using h2
      simp only [List.getElem_map, List.getElem_range, Function.comp_apply, hat i hi, record_capture h hi]
  · intro off hoff
    obtain ⟨i, hi, rfl⟩ := List.mem_map.mp hoff
    have hi' := List.mem_range.mp hi
    rw [hat i hi']
    exact ⟨unpackFrom_capture h hi', rfl⟩

/-- The stride comes from the metadata where the file is made of whole records. -/
theorem detectStride_records {blob : List U8} {n : Nat} (h : blob.length = n * cfg.stride) (log : BufferLog cfg) :
    Decode.detectStride blob (Decode.readMeta (some (flushMeta log))) = (cfg.stride, .fromMeta) := by
  have hmod : (blob.length : Int) % (cfg.stride : Int) = 0 := by
    rw [h, Nat.cast_mul, Int.mul_emod_left]
  have hgt : (Decode.HDR_SIZE : Int) < cfg.stride := by
    have := cfg.payload_ge
    have hsize : Decode.HDR_SIZE = kRecordHeaderSize := rfl
    rw [hsize]
    unfold kMinPayloadBytes at this
    unfold BufferLogCfg.stride
    omega
  have hparse : Text.parseInt (decimal cfg.stride) = some (cfg.stride : Int) := Text.parseInt_toDigits _
  have hmeta : Decode.metaStride blob (Decode.readMeta (some (flushMeta log))) = some cfg.stride := by
    have hok : decide ((Decode.HDR_SIZE : Int) < cfg.stride ∧ (blob.length : Int) % cfg.stride = 0) = true :=
      decide_eq_true ⟨hgt, hmod⟩
    rw [Decode.metaStride, readMeta_flush, Option.elim_some, hparse, Option.filter_some, hok, if_pos rfl,
      Option.map_some, Int.toNat_natCast]
  rw [Decode.detectStride, hmeta]
  rfl

theorem detectStride_capture (h : ∀ l ∈ ls, l.Whole) (log : BufferLog cfg) :
    (Decode.detectStride (capture cfg ls) (Decode.readMeta (some (flushMeta log)))).1 = cfg.stride := by
  rw [detectStride_records (length_capture h) log]

end Records

/-! ## The round trip -/

/-- What the decoder makes of the two files of a log. -/
def decodeFlush {cfg : BufferLogCfg} (log : BufferLog cfg) : Option (List Decode.Record × Nat) :=
  let info := Decode.readMeta (some (flushMeta log))
  Decode.parse (flushBin log) (Decode.detectStride (flushBin log) info).1 none 0

/-- **The last events logged, oldest first, come back as they were logged.** -/
theorem buffer_log_round_trip (cfg : BufferLogCfg) (ops : List BufferOp) (h : ∀ l ∈ logged cfg ops, l.Whole) :
    decodeFlush (ops.foldl bufferLogStep (bufferLogInit cfg)) =
      some (((logged cfg ops).drop ((logged cfg ops).length - cfg.ringRecords)).map (Logged.record cfg), 0) := by
  have hkept : ∀ l ∈ (logged cfg ops).drop ((logged cfg ops).length - cfg.ringRecords), l.Whole :=
    fun l hl => h l (List.mem_of_mem_drop hl)
  have hbin := flushBin_run ops h
  rw [← capture] at hbin
  rw [decodeFlush, hbin, detectStride_capture hkept, parse_capture hkept]

/-! ## A sample capture -/

/-- The smallest ring, with the default filter. -/
def sampleBufferCfg : BufferLogCfg where
  platform := .windows
  payloadBytes := 8
  ringRecords := 1024
  peerFilter := ⟨0, fun _ => 0, Nat.zero_le _⟩
  ringOutcome := .used
  bytesOutcome := .used
  payload_ge := by decide
  payload_le := by decide
  ring_ge := by decide
  ring_le := by decide

def sampleEvent (n : Nat) : BufferEvent where
  eventType := 2
  s := 100
  src := some ⟨afInet, 0x0100000A, 17770⟩
  flags := 0
  requestedLen := 1400
  transferredLen := 12
  wsaError := 0
  payload := some fun i => BitVec.ofNat 8 (n + i)
  payloadLen := 12
  tickMs := BitVec.ofNat 64 n

/-- Six events more than the ring holds: the decoder sees the other 1024, from number 6 on. -/
theorem buffer_log_round_trip_wraps :
    (decodeFlush (((List.range 1030).map fun n => BufferOp.event (sampleEvent n)).foldl bufferLogStep
      (bufferLogInit sampleBufferCfg))).map (fun r => (r.1.length, r.1.head?, r.2)) =
    some (1024, some ⟨1, 2, 1, 6, 6, 1400, 12, 0, "10.0.0.1".toList, 17770, 0, 8, [6, 7, 8, 9, 10, 11, 12, 13]⟩, 0) := by
  rw [buffer_log_round_trip sampleBufferCfg _ (by decide +kernel)]
  decide +kernel

end BzNet
