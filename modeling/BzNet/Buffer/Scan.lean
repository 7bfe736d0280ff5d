import BzNet.Buffer.RoundTrip
import BzNet.Lib.Marker

/-!
# The stride without the metadata

`detect_stride` on a capture whose metadata file is gone takes the distance of the first two magics for the length of
a record.

* `BufferLog.magic_slot`, `run_magicFirst` : what a flush writes is records of one length, each with the magic in front;
* `StrideRecovered` : the stride and the records are the ones the metadata gives;
* `stride_recovered_iff` : **so it is exactly when the oldest record holds the magic only once**. Nothing keeps the
  bytes of a datagram, or a field of the header, from being the magic.
-/

namespace BzNet

/-- `b'BZLG'` as the file has it. -/
def magicBytes : List U8 := Bytes.le 4 Decode.MAGIC

theorem magicBytes_unbordered : Marker.Unbordered magicBytes := by
  intro k hpos hlt
  have hlen : magicBytes.length = 4 := rfl
  obtain rfl | rfl | rfl : k = 1 ∨ k = 2 ∨ k = 3 := by omega
  · decide
  · decide
  · decide

/-! ## What a flush writes -/

section Flush
variable {cfg : BufferLogCfg}

theorem magic_header (h : BufferLogRecordHeader) (hm : h.magic = kBufferLogMagic) (rest : List U8) :
    magicBytes <+: h.bytes ++ rest := by
  refine List.IsPrefix.trans ⟨Bytes.pack h.members.tail, ?_⟩ (List.prefix_append _ _)
  rw [BufferLogRecordHeader.bytes, BufferLogRecordHeader.members, hm]
  rfl

theorem BufferLog.magic_slot (log : BufferLog cfg) (e : BufferEvent) : magicBytes <+: log.slot e := by
  rw [BufferLog.slot, writeSlot, List.append_assoc]
  exact magic_header _ rfl _

/-- The oldest records first, as the flush writes them. -/
def BufferLog.records (log : BufferLog cfg) : List (List U8) := log.toRing.toList

theorem BufferLog.length_records (log : BufferLog cfg) : log.records.length = log.count :=
  RingBuffer.length_toList log.toRing

theorem BufferLog.length_record (log : BufferLog cfg) {r : List U8} (h : r ∈ log.records) : r.length = cfg.stride := by
  obtain ⟨i, -, rfl⟩ := RingBuffer.mem_toList.mp h
  exact log.length_slot _

theorem length_flushBin (log : BufferLog cfg) : (flushBin log).length = log.count * cfg.stride := by
  have hbytes : log.records.flatten.length = log.records.length * cfg.stride :=
    Bytes.length_flatten_of_equal fun r hr => log.length_record hr
  rw [flushBin_eq]
  rwa [log.length_records] at hbytes

def BufferLog.MagicFirst (log : BufferLog cfg) : Prop := ∀ r ∈ log.records, magicBytes <+: r

theorem bufferLogStep_magicFirst {log : BufferLog cfg} (h : log.MagicFirst) (op : BufferOp) :
    (bufferLogStep log op).MagicFirst := by
  cases op with
  | track s => exact h
  | forget s => exact h
  | event e =>
    by_cases hacc : peerFilterAccepts cfg.peerFilter e.srcIpv4 = true
    · intro r hr
      rw [bufferLogStep, BufferLog.records, toRing_event log hacc, RingBuffer.toList_push] at hr
      rcases List.mem_append.mp hr with hold | hnew
      · apply h
        split at hold
        · exact hold
        · exact List.mem_of_mem_tail hold
      · rw [List.mem_singleton.mp hnew]
        exact log.magic_slot e
    · have hsame : bufferLogStep log (.event e) = log := by rw [bufferLogStep, bufferLogEvent, if_neg hacc]
      rwa [hsame]

theorem run_magicFirst (ops : List BufferOp) : (ops.foldl bufferLogStep (bufferLogInit cfg)).MagicFirst := by
  have hrun : ∀ log : BufferLog cfg, log.MagicFirst → (ops.foldl bufferLogStep log).MagicFirst := by
    induction ops with
    | nil => exact fun log h => h
    | cons op ops ih => exact fun log h => ih _ (bufferLogStep_magicFirst h op)
  exact hrun _ fun r hr => absurd hr List.not_mem_nil

end Flush

/-! ## The scan -/

theorem find_eq_firstAt (blob pat : List U8) (start : Nat) :
    Decode.find blob pat start = Marker.firstAt pat blob start := by
  have hpred : (fun i => decide (start ≤ i) && pat.isPrefixOf (blob.drop i)) =
      fun i => decide (start ≤ i) && decide (Marker.Occurs pat blob i) := by
    funext i
    congr 1
    rw [Bool.eq_iff_iff, List.isPrefixOf_iff_prefix, decide_eq_true_eq]
    rfl
  rw [Decode.find, hpred, Marker.firstAt]

section Scan
variable {cfg : BufferLogCfg} {log : BufferLog cfg}

/-- The magic a second time in the oldest record: in the rest of the header, in the payload or across the two. -/
def BufferLog.MagicAgain (log : BufferLog cfg) : Prop :=
  ∃ r ∈ log.records.head?, ∃ i, magicBytes.length ≤ i ∧ i < r.length ∧ Marker.Occurs magicBytes r i

instance (log : BufferLog cfg) : Decidable log.MagicAgain :=
  decidable_of_iff ((log.records.head?.any fun r => (List.range r.length).any fun i =>
    magicBytes.length ≤ i && decide (Marker.Occurs magicBytes r i)) = true) (by
      simp only [BufferLog.MagicAgain, Option.any_eq_true, List.any_eq_true, List.mem_range, Bool.and_eq_true,
        decide_eq_true_eq, Option.mem_def]
      exact ⟨fun ⟨r, hr, i, hlt, hle, ho⟩ => ⟨r, hr, i, hle, hlt, ho⟩,
        fun ⟨r, hr, i, hle, hlt, ho⟩ => ⟨r, hr, i, hlt, hle, ho⟩⟩)

/-- The decoder makes of the capture alone what it makes of it with its metadata, whatever it is asked for. -/
structure StrideRecovered (log : BufferLog cfg) : Prop where
  stride : (Decode.detectStride (flushBin log) (Decode.readMeta none)).1 =
    (Decode.detectStride (flushBin log) (Decode.readMeta (some (flushMeta log)))).1
  records : ∀ sid limit,
    Decode.parse (flushBin log) (Decode.detectStride (flushBin log) (Decode.readMeta none)).1 sid limit =
      Decode.parse (flushBin log) (Decode.detectStride (flushBin log) (Decode.readMeta (some (flushMeta log)))).1 sid
        limit

theorem strideRecovered_iff : StrideRecovered log ↔
    (Decode.detectStride (flushBin log) (Decode.readMeta none)).1 = cfg.stride := by
  have hmeta := detectStride_records (length_flushBin log) log
  constructor
  · intro h
    rw [h.stride, hmeta]
  · intro h
    refine ⟨?_, fun sid limit => ?_⟩
    · rw [h, hmeta]
    · rw [h, hmeta]

theorem detectStride_none (blob : List U8) :
    Decode.detectStride blob (Decode.readMeta none) =
      (Decode.scanStride blob).elim (0, .missing) fun s => (s, .scanned) := by
  have hnone : Decode.metaStride blob (Decode.readMeta none) = none := by
    simp [Decode.metaStride, Decode.readMeta]
  rw [Decode.detectStride, hnone, Option.elim_none]

/-- The scan of two records or more: the first magic begins the file, and the second is the distance. -/
theorem scan_records (hmagic : log.MagicFirst) {r : List U8} {rs : List (List U8)} (hrec : log.records = r :: rs)
    (hrs : rs ≠ []) :
    (Decode.detectStride (flushBin log) (Decode.readMeta none)).1 = cfg.stride ↔
      ∀ i, magicBytes.length ≤ i → i < r.length → ¬ Marker.Occurs magicBytes r i := by
  have hbin : flushBin log = r ++ rs.flatten := by
    rw [flushBin_eq]
    exact congrArg List.flatten hrec
  have hlen : r.length = cfg.stride := log.length_record (hrec ▸ List.mem_cons_self)
  have hr : magicBytes <+: r := hmagic r (hrec ▸ List.mem_cons_self)
  have hnext : magicBytes <+: rs.flatten := by
    obtain ⟨r', rs', rfl⟩ := List.exists_cons_of_ne_nil hrs
    rw [List.flatten_cons]
    exact (hmagic r' (by simp [hrec])).trans (List.prefix_append _ _)
  have hpos : 0 < cfg.stride := Nat.add_pos_left (by decide) _
  have hfirst : Decode.find (flushBin log) magicBytes 0 = some 0 := by
    rw [find_eq_firstAt, hbin]
    exact Marker.firstAt_zero (hr.trans (List.prefix_append _ _))
  rw [← Marker.firstAt_second magicBytes_unbordered hnext hr.length_le, ← hbin, ← find_eq_firstAt, hlen,
    detectStride_none]
  have hscan : Decode.scanStride (flushBin log) = Decode.find (flushBin log) magicBytes magicBytes.length := by
    rw [Decode.scanStride]
    change (Decode.find (flushBin log) magicBytes 0).bind _ = _
    rw [hfirst, Option.bind_some]
    exact Option.map_id'
  rw [hscan]
  cases Decode.find (flushBin log) magicBytes magicBytes.length with
  | none =>
    constructor
    · intro h
      exact absurd h.symm (Nat.pos_iff_ne_zero.mp hpos)
    · intro h
      cases h
  | some n => exact ⟨fun h => congrArg some h, fun h => Option.some.inj h⟩

/-- **The stride without the metadata.** For a capture of two records or more, at any time of any run, the scan finds
the stride of the metadata, and so the same records, exactly when the oldest record holds the magic only in front. -/
theorem stride_recovered_iff (cfg : BufferLogCfg) (ops : List BufferOp)
    (hcount : 2 ≤ (ops.foldl bufferLogStep (bufferLogInit cfg)).count) :
    StrideRecovered (ops.foldl bufferLogStep (bufferLogInit cfg)) ↔
      ¬ (ops.foldl bufferLogStep (bufferLogInit cfg)).MagicAgain := by
  have hmagic := @run_magicFirst cfg ops
  generalize ops.foldl bufferLogStep (bufferLogInit cfg) = log at hcount hmagic
  rw [← log.length_records] at hcount
  obtain ⟨r, rs, hrec⟩ := List.exists_cons_of_length_pos (Nat.lt_of_lt_of_le Nat.two_pos hcount)
  have hrs : rs ≠ [] := by
    rintro rfl
    rw [hrec, List.length_singleton] at hcount
    exact absurd hcount (by decide)
  rw [strideRecovered_iff, scan_records hmagic hrec hrs]
  have hagain : log.MagicAgain ↔ ∃ i, magicBytes.length ≤ i ∧ i < r.length ∧ Marker.Occurs magicBytes r i := by
    rw [BufferLog.MagicAgain, hrec, List.head?_cons]
    simp
  rw [hagain]
  exact ⟨fun h ⟨i, hle, hlt, ho⟩ => h i hle hlt ho, fun h i hle hlt ho => h ⟨i, hle, hlt, ho⟩⟩

/-- Two of the sample datagrams. -/
theorem stride_recovered_sample :
    StrideRecovered ([.event (sampleEvent 0), .event (sampleEvent 1)].foldl bufferLogStep
      (bufferLogInit sampleBufferCfg)) := by
  refine (stride_recovered_iff sampleBufferCfg [.event (sampleEvent 0), .event (sampleEvent 1)] (by decide)).mpr ?_
  decide +kernel

def magicEvent : BufferEvent := { sampleEvent 0 with payload := some fun i => magicBytes.getD i 0 }

theorem stride_recovered_magic :
    2 ≤ ([.event magicEvent, .event (sampleEvent 1)].foldl bufferLogStep (bufferLogInit sampleBufferCfg)).count ∧
      ¬ StrideRecovered ([.event magicEvent, .event (sampleEvent 1)].foldl bufferLogStep
        (bufferLogInit sampleBufferCfg)) := by
  refine ⟨by decide, fun h => absurd (strideRecovered_iff.mp h) ?_⟩
  decide +kernel

end Scan

end BzNet
