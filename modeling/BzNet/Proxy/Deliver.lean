import BzNet.Buffer.RoundTrip
import BzNet.Lib.Stores
import BzNet.Proxy.RttFeed

/-!
# A datagram on its way into the caller's memory

`DeliverToCaller` (Windows) and `deliver_to_caller` (Proton), with the caller's segments as addresses in one flat
memory. The datagram is in the proxy's own memory, apart from that.

* `scatterFrom` : the loop of `scatter_copy`, `scatterFrom_eq` what it stores where;
* `deliver` : the whole of either function, with what the buffer log and the sampler are handed;
* `deliver_observed_iff` : **when the two observers see the datagram's own bytes**. They are handed the pointer of the
  first segment with a length that counts all of them;
* `deliver_feed` : `Proxy.Hooks` has the same view for the sampler.
-/

namespace BzNet

/-! ## Segments -/

abbrev Mem := Nat → U8

/-- `WSABUF`; address `0` is a null pointer. -/
structure WsaBuf where
  buf : Nat
  len : U32

def WsaBuf.addrs (b : WsaBuf) : List Nat := if b.buf = 0 then [] else (List.range b.len.toNat).map (b.buf + ·)

/-- The addresses of the usable segments, one segment after the other. -/
def bufAddrs (bufs : List WsaBuf) : List Nat := bufs.flatMap WsaBuf.addrs

def bufCapacity (bufs : List WsaBuf) : Nat := (bufAddrs bufs).length

def bufContents (m : Mem) (bufs : List WsaBuf) : Payload := (bufAddrs bufs).map m

/-! ## `scatter_copy` -/

/-- The loop: the memory and `done` before the segments that are left, and both after. -/
def scatterFrom (src : Nat → U8) (srclen : U32) : List WsaBuf → Mem → U32 → Mem × U32
  | [], m, done => (m, done)
  | b :: bufs, m, done =>
    if done < srclen then
      if b.buf = 0 ∨ b.len = 0 then scatterFrom src srclen bufs m done
      else
        let chunk := srclen - done
        let chunk := if chunk > b.len then b.len else chunk
        scatterFrom src srclen bufs (Stores.copy m b.buf (fun i => src (done.toNat + i)) chunk.toNat) (done + chunk)
    else (m, done)

/-- `scatter_copy`, and its answer. -/
def scatterInto (bufs : List WsaBuf) (src : Nat → U8) (srclen : U32) (m : Mem) : Mem × U32 :=
  scatterFrom src srclen bufs m 0

/-- The bytes `src` leads to. -/
def bytesAt (src : Nat → U8) (n : Nat) : Payload := (List.range n).map src

@[simp] theorem length_bytesAt (src : Nat → U8) (n : Nat) : (bytesAt src n).length = n := by
  rw [bytesAt, List.length_map, List.length_range]

theorem take_bytesAt (src : Nat → U8) (k n : Nat) : (bytesAt src n).take k = bytesAt src (min k n) := by
  rw [bytesAt, ← List.map_take, List.take_range, bytesAt]

theorem bytesAt_add (src : Nat → U8) (k n : Nat) :
    bytesAt src (k + n) = bytesAt src k ++ bytesAt (fun i => src (k + i)) n := by
  rw [bytesAt, List.range_add, List.map_append, List.map_map]
  rfl

theorem zip_append_left {α β : Type} (a b : List α) (l : List β) :
    (a ++ b).zip l = a.zip l ++ b.zip (l.drop a.length) := by
  induction a generalizing l with
  | nil => rfl
  | cons x a ih =>
    cases l with
    | nil => simp
    | cons y l => rw [List.cons_append, List.zip_cons_cons, List.zip_cons_cons, ih, List.cons_append, List.length_cons,
        List.drop_succ_cons]

theorem copy_segment {b : WsaBuf} (hb : b.buf ≠ 0) (src : Nat → U8) (m : Mem) {done n : Nat} :
    Stores.copy m b.buf (fun i => src (done + i)) (min b.len.toNat (n - done)) =
      Stores.store m (b.addrs.zip ((bytesAt src n).drop done)) := by
  rw [Stores.copy_eq_store]
  congr 1
  apply List.ext_getElem
  · simp [WsaBuf.addrs, hb]
  · intro i h1 h2
    simp [WsaBuf.addrs, hb, bytesAt]

theorem chunk_toNat {done srclen len : U32} (h : done ≤ srclen) :
    (if srclen - done > len then len else srclen - done).toNat = min len.toNat (srclen.toNat - done.toNat) := by
  have hsub : (srclen - done).toNat = srclen.toNat - done.toNat := BitVec.toNat_sub_of_le h
  split
  · next hlt =>
    have := BitVec.lt_def.mp hlt
    omega
  · next hle =>
    have := BitVec.le_def.mp (BitVec.not_lt.mp hle)
    omega

/-- **The loop** stores the bytes that are left at the addresses that are left, as far as both go. -/
theorem scatterFrom_eq (src : Nat → U8) (srclen : U32) (bufs : List WsaBuf) (m : Mem) {done : U32}
    (hdone : done ≤ srclen) :
    (scatterFrom src srclen bufs m done).1 =
        Stores.store m ((bufAddrs bufs).zip ((bytesAt src srclen.toNat).drop done.toNat)) ∧
      (scatterFrom src srclen bufs m done).2.toNat =
        done.toNat + min (bufCapacity bufs) (srclen.toNat - done.toNat) := by
  induction bufs generalizing m done with
  | nil => simp [scatterFrom, bufAddrs, bufCapacity]
  | cons b bufs ih =>
    have haddrs : bufAddrs (b :: bufs) = b.addrs ++ bufAddrs bufs := List.flatMap_cons
    have hcap : bufCapacity (b :: bufs) = b.addrs.length + bufCapacity bufs := by
      rw [bufCapacity, haddrs, List.length_append, bufCapacity]
    have hle := BitVec.le_def.mp hdone
    rw [scatterFrom]
    by_cases hmore : done < srclen
    · rw [if_pos hmore]
      by_cases hskip : b.buf = 0 ∨ b.len = 0
      · have hnil : b.addrs = [] := by
          unfold WsaBuf.addrs
          rcases hskip with h | h
          · rw [if_pos h]
          · simp [h]
        rw [if_pos hskip, haddrs, hcap, hnil, List.nil_append, List.length_nil, Nat.zero_add]
        exact ih m hdone
      · rw [if_neg hskip]
        dsimp only
        rw [not_or] at hskip
        have hlen : b.addrs.length = b.len.toNat := by simp [WsaBuf.addrs, hskip.1]
        have hchunk := @chunk_toNat done srclen b.len hdone
        generalize hc : (if srclen - done > b.len then b.len else srclen - done) = chunk at hchunk
        have hsum : (done + chunk).toNat = done.toNat + chunk.toNat := by
          have := srclen.isLt
          rw [BitVec.toNat_add_of_lt (by omega)]
        have hnext : done + chunk ≤ srclen := by
          rw [BitVec.le_def, hsum]
          omega
        obtain ⟨hmem, hdone'⟩ := ih (Stores.copy m b.buf (fun i => src (done.toNat + i)) chunk.toNat) hnext
        rw [hmem, hdone', haddrs, hcap, hlen, hsum, hchunk, copy_segment hskip.1, zip_append_left,
          Stores.store_append, hlen, List.drop_drop]
        refine ⟨?_, by omega⟩
        congr 2
        by_cases hfit : b.len.toNat ≤ srclen.toNat - done.toNat
        · rw [Nat.min_eq_left hfit]
        · rw [List.drop_eq_nil_of_le (by rw [length_bytesAt]; omega),
            List.drop_eq_nil_of_le (by rw [length_bytesAt]; omega)]
    · have hend : srclen.toNat - done.toNat = 0 := by
        have := BitVec.le_def.mp (BitVec.not_lt.mp hmore)
        omega
      rw [if_neg hmore, hend, List.drop_eq_nil_of_le (by rw [length_bytesAt]; omega), List.zip_nil_right, Nat.min_zero]
      exact ⟨rfl, rfl⟩

theorem scatterInto_eq (bufs : List WsaBuf) (src : Nat → U8) (srclen : U32) (m : Mem) :
    (scatterInto bufs src srclen m).1 = Stores.store m ((bufAddrs bufs).zip (bytesAt src srclen.toNat)) ∧
      (scatterInto bufs src srclen m).2.toNat = min (bufCapacity bufs) srclen.toNat := by
  have hloop := @scatterFrom_eq src srclen bufs m 0 (BitVec.le_def.mpr (Nat.zero_le _))
  simpa [scatterInto] using hloop

/-! ## The delivery -/

def MSG_PARTIAL : U32 := 0x8000

def WSAEMSGSIZE : U32 := 10040

def kEventTypeWSARecvFrom : U32 := 2

/-- The arguments of a delivery: the datagram behind `data`, and the caller's `*fromlen` where both pointers are
given. -/
structure DeliverCall where
  sock : Socket
  buffers : List WsaBuf
  fromlen : Option Int
  src : SockAddr
  data : Nat → U8
  len : U32

/-- What a proxy has switched on: the buffer log with its settings, and the sampler. -/
structure DeliverCfg where
  platform : Platform
  log : Option BufferLogCfg
  rtt : Bool

/-- What a delivery leaves: the memory, the results that were asked for, and what the observers were handed. -/
structure Delivered where
  mem : Mem
  bytesReceived : U32
  inoutFlags : U32
  /-- The bytes stored of the source address, and the length reported for it. -/
  source : Option (Int × Int)
  logged : Option BufferEvent
  fed : Option RttOp
  /-- The error of a failed call. -/
  error : Option U32

def firstBuf (bufs : List WsaBuf) : Option Nat := (bufs.head?.filter fun b => b.buf ≠ 0).map WsaBuf.buf

/-- Either proxy's function; only the Windows one calls the sampler. `tickMs` and `feedMs` are the clock readings of
the two observers. -/
def deliver (cfg : DeliverCfg) (c : DeliverCall) (tickMs feedMs : U64) (m : Mem) : Delivered :=
  let (m, copied) := scatterInto c.buffers c.data c.len m
  let truncated : Bool := copied < c.len
  { mem := m
    bytesReceived := copied
    inoutFlags := if truncated then MSG_PARTIAL else 0
    source := c.fromlen.map fun n => (max 0 (min n 16), 16)
    logged := cfg.log.map fun log =>
      let payLen := BitVec.ofNat 16 (min copied.toNat log.payloadBytes)
      { eventType := kEventTypeWSARecvFrom
        s := c.sock
        src := some c.src
        flags := 0
        requestedLen := c.buffers.foldl (fun n b => n + b.len) 0
        transferredLen := copied
        wsaError := 0
        payload := if 0 < payLen then (firstBuf c.buffers).map fun buf i => m (buf + i) else none
        payloadLen := payLen
        tickMs := tickMs }
    fed :=
      if cfg.platform = .windows ∧ cfg.rtt = true ∧ 0 < copied ∧ c.src.family = afInet then
        (firstBuf c.buffers).map fun buf => .recv c.src.addr (bytesAt (fun i => m (buf + i)) copied.toNat) feedMs
      else none
    error := if truncated then some WSAEMSGSIZE else none }

def DeliverCall.datagram (c : DeliverCall) : Payload := bytesAt c.data c.len.toNat

/-- The stores of a delivery. -/
def DeliverCall.stores (c : DeliverCall) : List (Nat × U8) := (bufAddrs c.buffers).zip c.datagram

def firstLen (bufs : List WsaBuf) : Nat := ((bufs.head?.filter fun b => b.buf ≠ 0).map fun b => b.len.toNat).getD 0

/-- The datagram is where it belongs, and so are the bytes that the observers read: its own first ones, out of the
first segment. -/
structure DeliveredWell (c : DeliverCall) (r : Delivered) : Prop where
  filled : (bufContents r.mem c.buffers).take c.len.toNat = c.datagram.take (bufCapacity c.buffers)
  failed : r.error = if bufCapacity c.buffers < c.len.toNat then some WSAEMSGSIZE else none
  logged : ∀ e ∈ r.logged, 0 < e.payloadLen.toNat → e.payloadLen.toNat ≤ firstLen c.buffers ∧
    ∃ pay, e.payload = some pay ∧ bytesAt pay e.payloadLen.toNat = c.datagram.take e.payloadLen.toNat
  fed : ∀ op ∈ r.fed, r.bytesReceived.toNat ≤ firstLen c.buffers ∧
    ∃ now, op = .recv c.src.addr (c.datagram.take r.bytesReceived.toNat) now

/-- No address is given two different bytes, and the first segment is long enough for either observer. -/
structure FirstSegmentHolds (cfg : DeliverCfg) (c : DeliverCall) : Prop where
  apart : Stores.Consistent c.stores
  log : ∀ log ∈ cfg.log, min (min (bufCapacity c.buffers) c.len.toNat) log.payloadBytes ≤ firstLen c.buffers
  rtt : cfg.platform = .windows → cfg.rtt = true → c.src.family = afInet → firstBuf c.buffers ≠ none →
    min (bufCapacity c.buffers) c.len.toNat ≤ firstLen c.buffers

section Observed
variable {cfg : DeliverCfg} {c : DeliverCall} {tickMs feedMs : U64} {m : Mem}

@[simp] theorem DeliverCall.length_datagram (c : DeliverCall) : c.datagram.length = c.len.toNat :=
  length_bytesAt c.data c.len.toNat

theorem deliver_mem : (deliver cfg c tickMs feedMs m).mem = Stores.store m c.stores :=
  (scatterInto_eq c.buffers c.data c.len m).1

theorem deliver_bytesReceived :
    (deliver cfg c tickMs feedMs m).bytesReceived.toNat = min (bufCapacity c.buffers) c.len.toNat :=
  (scatterInto_eq c.buffers c.data c.len m).2

theorem stores_fst (c : DeliverCall) : c.stores.map Prod.fst = (bufAddrs c.buffers).take c.len.toNat := by
  rw [DeliverCall.stores, List.zip_eq_zip_take_min, List.map_fst_zip (by simp), List.take_eq_take_min,
    c.length_datagram]
  simp [Nat.min_comm]

theorem stores_snd (c : DeliverCall) : c.stores.map Prod.snd = c.datagram.take (bufCapacity c.buffers) := by
  rw [DeliverCall.stores, List.zip_eq_zip_take_min, List.map_snd_zip (by simp), bufCapacity, List.take_eq_take_min]
  simp

/-- The caller reads the datagram back unless an address was given two different bytes. -/
theorem deliver_filled_iff :
    (bufContents (deliver cfg c tickMs feedMs m).mem c.buffers).take c.len.toNat =
        c.datagram.take (bufCapacity c.buffers) ↔ Stores.Consistent c.stores := by
  rw [deliver_mem, bufContents, ← List.map_take, ← stores_fst, ← stores_snd]
  exact Stores.reads_iff m c.stores

theorem deliver_error : (deliver cfg c tickMs feedMs m).error =
    if bufCapacity c.buffers < c.len.toNat then some WSAEMSGSIZE else none := by
  have hcopied := (scatterInto_eq c.buffers c.data c.len m).2
  have htrunc : (scatterInto c.buffers c.data c.len m).2 < c.len ↔ bufCapacity c.buffers < c.len.toNat := by
    rw [BitVec.lt_def, hcopied]
    omega
  simp only [deliver, decide_eq_true_eq, htrunc]

theorem firstBuf_some {buf : Nat} (h : firstBuf c.buffers = some buf) :
    ∃ b bufs, c.buffers = b :: bufs ∧ b.buf = buf ∧ b.buf ≠ 0 ∧ firstLen c.buffers = b.len.toNat := by
  unfold firstBuf at h
  obtain ⟨b, hb, rfl⟩ := Option.map_eq_some_iff.mp h
  obtain ⟨hhead, hne⟩ := Option.filter_eq_some_iff.mp hb
  obtain ⟨bufs, hbufs⟩ := List.head?_eq_some_iff.mp hhead
  exact ⟨b, bufs, hbufs, rfl, by simpa using hne, by rw [firstLen, hb]; rfl⟩

theorem firstLen_of_null (h : firstBuf c.buffers = none) : firstLen c.buffers = 0 := by
  rw [firstLen, Option.map_eq_none_iff.mp h]
  rfl

/-- **The first segment** reads as the beginning of the datagram, as far as both go. -/
theorem first_reads (hapart : Stores.Consistent c.stores) {buf k : Nat} (hbuf : firstBuf c.buffers = some buf)
    (hfirst : k ≤ firstLen c.buffers) (hlen : k ≤ c.len.toNat) :
    bytesAt (fun i => (deliver cfg c tickMs feedMs m).mem (buf + i)) k = c.datagram.take k := by
  obtain ⟨b, bufs, hbufs, rfl, hne, hflen⟩ := firstBuf_some hbuf
  rw [hflen] at hfirst
  rw [DeliverCall.datagram, take_bytesAt, Nat.min_eq_left hlen]
  refine List.map_congr_left fun i hi => ?_
  have hi := List.mem_range.mp hi
  have haddrs : b.addrs.length = b.len.toNat := by simp [WsaBuf.addrs, hne]
  have hin : i < c.stores.length := by
    rw [DeliverCall.stores, List.length_zip, c.length_datagram, hbufs, bufAddrs, List.flatMap_cons,
      List.length_append, haddrs]
    omega
  have hstore : c.stores[i] = (b.buf + i, c.data i) := by
    simp only [DeliverCall.stores, List.getElem_zip, hbufs, bufAddrs, List.flatMap_cons]
    rw [List.getElem_append_left (by omega)]
    simp [WsaBuf.addrs, hne, DeliverCall.datagram, bytesAt]
  have hmem : (b.buf + i, c.data i) ∈ c.stores := hstore ▸ List.getElem_mem hin
  rw [deliver_mem]
  exact Stores.store_mem hapart hmem

theorem deliver_logged {e : BufferEvent} (he : e ∈ (deliver cfg c tickMs feedMs m).logged) :
    ∃ log ∈ cfg.log,
      e.payloadLen.toNat = min (min (bufCapacity c.buffers) c.len.toNat) log.payloadBytes ∧
      (0 < e.payloadLen.toNat → e.payload =
        (firstBuf c.buffers).map fun buf i => (deliver cfg c tickMs feedMs m).mem (buf + i)) := by
  obtain ⟨log, hlog, rfl⟩ := Option.map_eq_some_iff.mp he
  have hle := log.payload_le
  unfold kMaxPayloadBytes at hle
  refine ⟨log, hlog, ?_, fun hpos => if_pos (show (0 : U16) < _ from BitVec.lt_def.mpr hpos)⟩
  rw [← (scatterInto_eq c.buffers c.data c.len m).2, BitVec.toNat_ofNat]
  exact Nat.mod_eq_of_lt (Nat.lt_of_le_of_lt (Nat.min_le_right _ _) (Nat.lt_of_le_of_lt hle (by decide)))

theorem deliver_logs {log : BufferLogCfg} (hlog : log ∈ cfg.log) :
    ∃ e ∈ (deliver cfg c tickMs feedMs m).logged,
      e.payloadLen.toNat = min (min (bufCapacity c.buffers) c.len.toNat) log.payloadBytes := by
  have hsome : (deliver cfg c tickMs feedMs m).logged.isSome = true := by
    rw [Option.mem_def] at hlog
    simp [deliver, hlog]
  obtain ⟨e, he⟩ := Option.isSome_iff_exists.mp hsome
  obtain ⟨log', hlog', hlen, -⟩ := deliver_logged he
  rw [Option.mem_def] at hlog hlog'
  rw [hlog] at hlog'
  cases hlog'
  exact ⟨e, he, hlen⟩

theorem deliver_fed : (deliver cfg c tickMs feedMs m).fed =
    if cfg.platform = .windows ∧ cfg.rtt = true ∧ 0 < min (bufCapacity c.buffers) c.len.toNat ∧
        c.src.family = afInet then
      (firstBuf c.buffers).map fun buf => .recv c.src.addr
        (bytesAt (fun i => (deliver cfg c tickMs feedMs m).mem (buf + i))
          (min (bufCapacity c.buffers) c.len.toNat)) feedMs
    else none := by
  have hcopied := (scatterInto_eq c.buffers c.data c.len m).2
  have hpos : 0 < (scatterInto c.buffers c.data c.len m).2 ↔ 0 < min (bufCapacity c.buffers) c.len.toNat := by
    rw [BitVec.lt_def, hcopied]
    rfl
  simp only [deliver, hpos, hcopied]

/-- **Delivery and its observers.** The caller gets the datagram, or the error of one that does not fit, and both
observers get the datagram's own first bytes out of the first segment, exactly when no address is given two different
bytes and the first segment holds what either observer reads. -/
theorem deliver_observed_iff (cfg : DeliverCfg) (c : DeliverCall) (tickMs feedMs : U64) (m : Mem) :
    DeliveredWell c (deliver cfg c tickMs feedMs m) ↔ FirstSegmentHolds cfg c := by
  constructor
  · intro h
    refine ⟨deliver_filled_iff.mp h.filled, fun log hlog => ?_, fun hwin hrtt hfam hbuf => ?_⟩
    · obtain ⟨e, he, hlen⟩ := @deliver_logs cfg c tickMs feedMs m log hlog
      rw [← hlen]
      by_cases hpos : 0 < e.payloadLen.toNat
      · exact (h.logged e he hpos).1
      · omega
    · by_cases hpos : 0 < min (bufCapacity c.buffers) c.len.toNat
      · obtain ⟨buf, hbuf⟩ := Option.ne_none_iff_exists'.mp hbuf
        have hfed := @deliver_fed cfg c tickMs feedMs m
        rw [if_pos ⟨hwin, hrtt, hpos, hfam⟩, hbuf] at hfed
        have hfirst := (h.fed _ hfed).1
        rwa [deliver_bytesReceived] at hfirst
      · omega
  · intro h
    refine ⟨deliver_filled_iff.mpr h.apart, deliver_error, fun e he hpos => ?_, fun op hop => ?_⟩
    · obtain ⟨log, hlog, hlen, hpay⟩ := deliver_logged he
      have hfirst := h.log log hlog
      rw [← hlen] at hfirst
      have hbuf : firstBuf c.buffers ≠ none := by
        intro hnull
        rw [firstLen_of_null hnull] at hfirst
        omega
      obtain ⟨buf, hbuf⟩ := Option.ne_none_iff_exists'.mp hbuf
      refine ⟨hfirst, _, (hpay hpos).trans (by rw [hbuf]; rfl), ?_⟩
      exact first_reads h.apart hbuf hfirst (by omega)
    · rw [Option.mem_def, deliver_fed] at hop
      split at hop
      · next hcond =>
        obtain ⟨hwin, hrtt, hpos, hfam⟩ := hcond
        obtain ⟨buf, hbuf, rfl⟩ := Option.map_eq_some_iff.mp hop
        have hfirst := h.rtt hwin hrtt hfam (by rw [hbuf]; exact Option.some_ne_none _)
        rw [deliver_bytesReceived]
        refine ⟨hfirst, feedMs, ?_⟩
        rw [first_reads h.apart hbuf hfirst (Nat.min_le_right _ _)]
      · cases hop

/-! ## The same in `Proxy.Hooks` -/

/-- The arguments as `Proxy.Hooks` has them, with `m` the memory after the delivery. -/
def DeliverCall.recvArgs (c : DeliverCall) (m : Mem) (feedMs : U64) : RecvArgs where
  segments := c.buffers.map fun b => if b.buf = 0 then none else some b.len.toNat
  behind := fun i => m ((firstBuf c.buffers).getD 0 + firstLen c.buffers + i)
  wantsFrom := c.fromlen.isSome
  wantsBytes := true
  overlapped := false
  feedMs := feedMs
  waiting := none

theorem capacity_recvArgs (c : DeliverCall) (m : Mem) (feedMs : U64) :
    (c.recvArgs m feedMs).capacity = bufCapacity c.buffers := by
  rw [RecvArgs.capacity, DeliverCall.recvArgs, List.map_map, bufCapacity, bufAddrs, List.length_flatMap]
  congr 2
  funext b
  rw [Function.comp_apply, WsaBuf.addrs]
  split
  · rfl
  · simp

/-- **The sampler's view** is the one of `Proxy.Hooks`, where no address is given two different bytes. -/
theorem deliver_feed (hapart : Stores.Consistent c.stores) (hwin : cfg.platform = .windows) (hrtt : cfg.rtt = true) :
    (deliver cfg c tickMs feedMs m).fed =
      (c.recvArgs (deliver cfg c tickMs feedMs m).mem feedMs).feed ⟨c.src, c.datagram⟩ := by
  rw [deliver_fed, RecvArgs.feed, length_copied, capacity_recvArgs, c.length_datagram]
  by_cases hcond : 0 < min (bufCapacity c.buffers) c.len.toNat ∧ c.src.family = afInet
  · rw [if_pos ⟨hwin, hrtt, hcond⟩, if_pos hcond]
    cases hbuf : firstBuf c.buffers with
    | none =>
      have hno : (c.recvArgs (deliver cfg c tickMs feedMs m).mem feedMs).atFirst c.datagram
          (min (bufCapacity c.buffers) c.len.toNat) = none := by
        have hnone := Option.map_eq_none_iff.mp hbuf
        cases hbufs : c.buffers with
        | nil => simp [RecvArgs.atFirst, DeliverCall.recvArgs, hbufs]
        | cons b bufs =>
          rw [hbufs, List.head?_cons] at hnone
          have hnull : b.buf = 0 := by simpa using hnone
          simp [RecvArgs.atFirst, DeliverCall.recvArgs, hbufs, hnull]
      rw [hno, Option.map_none, Option.map_none]
    | some buf =>
      obtain ⟨b, bufs, hbufs, hbb, hne, hflen⟩ := firstBuf_some hbuf
      have hfirst := @first_reads cfg c tickMs feedMs m hapart buf (min (firstLen c.buffers) c.len.toNat) hbuf
        (Nat.min_le_left _ _) (Nat.min_le_right _ _)
      have hcap : firstLen c.buffers ≤ bufCapacity c.buffers := by
        rw [hflen, bufCapacity, bufAddrs, hbufs, List.flatMap_cons, List.length_append, WsaBuf.addrs, if_neg hne,
          List.length_map, List.length_range]
        exact Nat.le_add_right _ _
      have hview : (c.recvArgs (deliver cfg c tickMs feedMs m).mem feedMs).atFirst c.datagram
          (min (bufCapacity c.buffers) c.len.toNat) =
            some (bytesAt (fun i => (deliver cfg c tickMs feedMs m).mem (buf + i))
              (min (bufCapacity c.buffers) c.len.toNat)) := by
        have hseg : (c.recvArgs (deliver cfg c tickMs feedMs m).mem feedMs).segments =
            some (firstLen c.buffers) :: bufs.map fun b => if b.buf = 0 then none else some b.len.toNat := by
          rw [DeliverCall.recvArgs, hflen, hbufs, List.map_cons, if_neg hne]
        have htake : c.datagram.take (firstLen c.buffers) =
            bytesAt (fun i => (deliver cfg c tickMs feedMs m).mem (buf + i))
              (min (firstLen c.buffers) c.len.toNat) := by
          rw [hfirst, List.take_eq_take_min, c.length_datagram]
        simp only [RecvArgs.atFirst, hseg, htake, length_bytesAt]
        congr 1
        by_cases hlong : firstLen c.buffers ≤ c.len.toNat
        · have hsum : min (bufCapacity c.buffers) c.len.toNat = firstLen c.buffers +
              (min (bufCapacity c.buffers) c.len.toNat - firstLen c.buffers) := by omega
          rw [Nat.min_eq_left hlong]
          conv_rhs => rw [hsum, bytesAt_add]
          rw [DeliverCall.recvArgs, hbuf, Option.getD_some]
          simp only [bytesAt, Nat.add_assoc]
        · have hall : min (firstLen c.buffers) c.len.toNat = min (bufCapacity c.buffers) c.len.toNat := by omega
          rw [hall, Nat.sub_self, List.range_zero, List.map_nil, List.append_nil]
      rw [hview, Option.map_some, Option.map_some]
      rfl
  · rw [if_neg fun h => hcond h.2.2, if_neg hcond]

end Observed

/-! ## A short first segment -/

/-- Two segments, the first of them four bytes long, and a datagram of twenty. -/
def scatteredCall : DeliverCall where
  sock := 100
  buffers := [⟨1000, 4⟩, ⟨2000, 32⟩]
  fromlen := some 16
  src := ⟨afInet, 0x0100000A, 17770⟩
  data := fun i => BitVec.ofNat 8 (i + 1)
  len := 20

/-- The log and the sampler of either proxy switched on. -/
def scatteredCfg (platform : Platform) : DeliverCfg := ⟨platform, some sampleBufferCfg, true⟩

/-- What the log keeps are the four bytes and whatever lies behind them, though the caller has the whole datagram. -/
theorem deliver_observed_scattered (platform : Platform) :
    ((deliver (scatteredCfg platform) scatteredCall 0 0 fun _ => 0xEE).logged.bind fun e =>
        e.payload.map fun pay => bytesAt pay e.payloadLen.toNat) =
      some [1, 2, 3, 4, 0xEE, 0xEE, 0xEE, 0xEE] := by
  cases platform <;> decide +kernel

theorem scattered_not_well (platform : Platform) :
    ¬ DeliveredWell scatteredCall (deliver (scatteredCfg platform) scatteredCall 0 0 fun _ => 0xEE) := by
  intro h
  obtain ⟨e, he, hpay⟩ := Option.bind_eq_some_iff.mp (deliver_observed_scattered platform)
  obtain ⟨pay, hpay, hbytes⟩ := Option.map_eq_some_iff.mp hpay
  have hlen : e.payloadLen.toNat = 8 := by
    rw [← length_bytesAt pay e.payloadLen.toNat, hbytes]
    rfl
  obtain ⟨-, pay', hpay', hown⟩ := h.logged e he (by rw [hlen]; decide)
  rw [hpay, Option.some.injEq] at hpay'
  rw [← hpay', hbytes, hlen] at hown
  exact absurd hown (by decide)

theorem deliver_observed_false :
    ¬ DeliveredWell scatteredCall (deliver (scatteredCfg .windows) scatteredCall 0 0 fun _ => 0xEE) ∧
      ¬ DeliveredWell scatteredCall (deliver (scatteredCfg .linux) scatteredCall 0 0 fun _ => 0xEE) :=
  ⟨scattered_not_well .windows, scattered_not_well .linux⟩

end BzNet
