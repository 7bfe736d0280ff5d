import BzNet.Pace.Core
import BzNet.Lib.Run

/-!
# The pacer's queue as the source stores it

`Pace.Core` keeps a queued datagram as one value. In the source it is a cell of fixed size (`PaceEntry`): the
lengths stand beside two arrays of which only a prefix belongs to the datagram, and what an earlier one left behind it
stays. Here are the four functions of the queue on such cells, and what they are for.

* `PaceCell.entry` : the datagram a cell holds;
* `PaceSlots.enqueue`, `PaceSlots.popDue`, `PaceSlots.popAny`, `PaceSlots.purgeSocket` : the functions on cells;
  `Pace.Core` has the same ones on what the cells hold (`paceEnqueue_slots`, `pacePopDue_slots`, `pacePopAny_slots`,
  `pacePurgeSocket_slots`);
* `paceListStep` : a queue as a list;
* `paceSlots_refines` : **every run on cells is one on the list**, and a purge keeps the other sockets' cells whole
  and in order.
-/

namespace BzNet

/-! ## Cells -/

/-- The C struct `PaceEntry`; `tolen` is read with its sign. -/
structure PaceCell where
  sock : Socket
  dueMs : U64
  tolen : U32
  len : U32
  dest : Fin kPaceAddrBytes → U8
  data : Fin kReorderMaxPktBytes → U8

/-- The arguments of `pace_enqueue`; `dest` and `data` are what the two pointers lead to. -/
structure PaceArgs where
  sock : Socket
  dest : Nat → U8
  tolen : U32
  data : Nat → U8
  len : U32
  dueMs : U64

/-- Copy `n` bytes to the start of an array. -/
def memcpy {size : Nat} (dst : Fin size → U8) (src : Nat → U8) (n : Nat) : Fin size → U8 :=
  fun i => if i.val < n then src i.val else dst i

def arrayBytes {size : Nat} (a : Fin size → U8) (n : Nat) : List U8 := ((List.finRange size).map a).take n

theorem arrayBytes_memcpy {size n : Nat} (dst : Fin size → U8) (src : Nat → U8) (h : n ≤ size) :
    arrayBytes (memcpy dst src n) n = (List.range n).map src := by
  unfold arrayBytes
  apply List.ext_getElem
  · simp [h]
  · intro i h1 h2
    have hi : i < n := by simpa using h2
    rw [List.getElem_take, List.getElem_map, List.getElem_map, List.getElem_range, memcpy, List.getElem_finRange]
    exact if_pos hi

namespace PaceCell

/-- Store a datagram over what the cell held; the arrays keep their old bytes behind it. -/
def store (e : PaceCell) (a : PaceArgs) : PaceCell where
  sock := a.sock
  dueMs := a.dueMs
  tolen := a.tolen
  len := a.len
  dest := memcpy e.dest a.dest a.tolen.toInt.toNat
  data := memcpy e.data a.data a.len.toNat

def entry (e : PaceCell) : PaceEntry where
  sock := e.sock
  dest := arrayBytes e.dest e.tolen.toInt.toNat
  data := arrayBytes e.data e.len.toNat
  dueMs := e.dueMs

end PaceCell

namespace PaceArgs

def outgoing (a : PaceArgs) : Outgoing where
  sock := a.sock
  dest := (List.range a.tolen.toInt.toNat).map a.dest
  data := (List.range a.len.toNat).map a.data

def entry (a : PaceArgs) : PaceEntry := ⟨a.outgoing, a.dueMs⟩

def Fits (a : PaceArgs) : Prop :=
  a.len.toNat ≤ kReorderMaxPktBytes ∧ 0 < a.tolen.toInt ∧ a.tolen.toNat ≤ kPaceAddrBytes

instance (a : PaceArgs) : Decidable a.Fits := inferInstanceAs (Decidable (_ ∧ _ ∧ _))

theorem tolen_toNat {a : PaceArgs} (h : 0 < a.tolen.toInt) : a.tolen.toInt.toNat = a.tolen.toNat := by
  rw [BitVec.toInt_eq_toNat_cond] at h ⊢
  split at h
  · next hlt => rw [if_pos hlt, Int.toNat_natCast]
  · next hlt => omega

theorem entry_store {a : PaceArgs} (h : a.Fits) (e : PaceCell) : (e.store a).entry = a.entry := by
  obtain ⟨hlen, hpos, hto⟩ := h
  rw [PaceCell.entry, PaceCell.store, entry, outgoing]
  simp only [arrayBytes_memcpy _ _ hlen, arrayBytes_memcpy _ _ (tolen_toNat hpos ▸ hto)]

theorem dest_eq_nil {a : PaceArgs} : a.outgoing.dest = [] ↔ ¬ 0 < a.tolen.toInt := by
  rw [outgoing, List.map_eq_nil_iff, List.range_eq_nil]
  omega

theorem length_dest {a : PaceArgs} (h : 0 < a.tolen.toInt) : a.outgoing.dest.length = a.tolen.toNat := by
  rw [outgoing, List.length_map, List.length_range, tolen_toNat h]

@[simp] theorem length_data (a : PaceArgs) : a.outgoing.data.length = a.len.toNat := by
  rw [outgoing, List.length_map, List.length_range]

end PaceArgs

/-! ## The functions of the queue -/

/-- `q`, `head` and `count` of the context. -/
abbrev PaceSlots := RingBuffer PaceCell kPaceQueueSlots

namespace PaceSlots
variable (r : PaceSlots)

/-- Store a datagram in the cell behind the last one. -/
def enqueue (a : PaceArgs) : Option PaceSlots :=
  if kPaceQueueSlots ≤ r.used ∨ kReorderMaxPktBytes < a.len.toNat ∨ a.tolen.toInt ≤ 0 ∨
      kPaceAddrBytes < a.tolen.toNat then none
  else some (r.push ((r.get r.used).store a))

def popDue (now : U64) : Option (PaceCell × PaceSlots) :=
  if r.used = 0 ∨ now < (r.get 0).dueMs then none else some (r.get 0, r.dropFirst 1)

def popAny : Option (PaceCell × PaceSlots) :=
  if r.used = 0 then none else some (r.get 0, r.dropFirst 1)

/-- The cells of the other sockets move up, each whole. -/
def purgeSocket (sock : Socket) : PaceSlots := r.keep fun e => e.sock != sock

/-- What the cells hold, as `PaceCtx` keeps it. -/
def entries : RingBuffer PaceEntry kPaceQueueSlots := r.map PaceCell.entry

/-- The queue read from `head` on. -/
def contents : List PaceEntry := r.toList.map PaceCell.entry

theorem toList_entries : r.entries.toList = r.contents := RingBuffer.toList_map PaceCell.entry r

theorem length_contents : r.contents.length = r.used := by
  rw [contents, List.length_map, RingBuffer.length_toList]

theorem enqueue_eq (a : PaceArgs) :
    r.enqueue a = if r.used < kPaceQueueSlots ∧ a.Fits then some (r.push ((r.get r.used).store a)) else none := by
  unfold enqueue PaceArgs.Fits
  split
  · next h => rw [if_neg (by omega)]
  · next h => rw [if_pos (by omega)]

end PaceSlots

/-! ## The same functions on what the cells hold -/

section Core
variable {c : PaceCtx} {r : PaceSlots}

theorem paceEnqueue_slots (h : c.q = r.entries) (a : PaceArgs) :
    (paceEnqueue c a.outgoing a.dueMs).map PaceCtx.q = (r.enqueue a).map PaceSlots.entries := by
  have hused : c.q.used = r.used := by rw [h]; rfl
  have hrefuse : (kPaceQueueSlots ≤ c.q.used ∨ kReorderMaxPktBytes < a.outgoing.data.length ∨ a.outgoing.dest = [] ∨
      kPaceAddrBytes < a.outgoing.dest.length) ↔ ¬ (r.used < kPaceQueueSlots ∧ a.Fits) := by
    rw [hused, a.length_data, PaceArgs.dest_eq_nil, PaceArgs.Fits]
    by_cases hpos : 0 < a.tolen.toInt
    · rw [PaceArgs.length_dest hpos]
      omega
    · have : ¬ 0 < a.tolen.toInt := hpos
      omega
  rw [paceEnqueue, PaceSlots.enqueue_eq]
  by_cases hroom : r.used < kPaceQueueSlots ∧ a.Fits
  · rw [if_neg (fun hr => hrefuse.mp hr hroom), if_pos hroom]
    simp only [Option.map_some, PaceSlots.entries]
    rw [RingBuffer.map_push, PaceArgs.entry_store hroom.2, h]
    rfl
  · rw [if_pos (hrefuse.mpr hroom), if_neg hroom]
    rfl

theorem pacePopAny_slots (h : c.q = r.entries) :
    (pacePopAny c).map (fun p => (p.1, p.2.q)) = r.popAny.map fun p => (p.1.entry, p.2.entries) := by
  have hused : c.q.used = r.used := by rw [h]; rfl
  rw [pacePopAny, PaceSlots.popAny, hused, h]
  split
  · rfl
  · rfl

theorem pacePopDue_slots (h : c.q = r.entries) (now : U64) :
    (pacePopDue now c).map (fun p => (p.1, p.2.q)) = (r.popDue now).map fun p => (p.1.entry, p.2.entries) := by
  have hused : c.q.used = r.used := by rw [h]; rfl
  have hdue : (c.q.get 0).dueMs = (r.get 0).dueMs := by rw [h]; rfl
  rw [pacePopDue, PaceSlots.popDue, hused, hdue, h]
  split
  · rfl
  · rfl

theorem pacePurgeSocket_slots (h : c.q = r.entries) (sock : Socket) :
    (pacePurgeSocket c sock).q = (r.purgeSocket sock).entries := by
  rw [pacePurgeSocket, PaceSlots.purgeSocket, PaceSlots.entries, h]
  exact (RingBuffer.map_keep PaceCell.entry r fun e => e.sock != sock).symm

end Core

/-! ## A queue as a list -/

inductive PaceQueueOp where
  | enqueue (a : PaceArgs)
  | popDue (now : U64)
  | popAny
  | purgeSocket (sock : Socket)

inductive PaceQueueOut where
  /-- Whether the datagram was stored. -/
  | stored (ok : Bool)
  | popped (e : Option PaceEntry)
  | done
deriving DecidableEq

/-- What the caller sees of each function. -/
def paceSlotsStep (r : PaceSlots) : PaceQueueOp → PaceSlots × PaceQueueOut
  | .enqueue a => ((r.enqueue a).getD r, .stored (r.enqueue a).isSome)
  | .popDue now => (((r.popDue now).map Prod.snd).getD r, .popped ((r.popDue now).map fun p => p.1.entry))
  | .popAny => ((r.popAny.map Prod.snd).getD r, .popped (r.popAny.map fun p => p.1.entry))
  | .purgeSocket sock => (r.purgeSocket sock, .done)

/-- The queue as a list: append while there is room, take off the front, drop a socket's datagrams. -/
def paceListStep (l : List PaceEntry) : PaceQueueOp → List PaceEntry × PaceQueueOut
  | .enqueue a => if l.length < kPaceQueueSlots ∧ a.Fits then (l ++ [a.entry], .stored true) else (l, .stored false)
  | .popDue now =>
    match l with
    | [] => ([], .popped none)
    | e :: l => if e.dueMs ≤ now then (l, .popped (some e)) else (e :: l, .popped none)
  | .popAny =>
    match l with
    | [] => ([], .popped none)
    | e :: l => (l, .popped (some e))
  | .purgeSocket sock => (l.filter fun e => e.sock != sock, .done)

namespace PaceSlots
variable (r : PaceSlots)

theorem contents_push {a : PaceArgs} (hused : r.used < kPaceQueueSlots) (hfits : a.Fits) :
    contents (r.push ((r.get r.used).store a)) = r.contents ++ [a.entry] := by
  rw [contents, RingBuffer.toList_push_room r _ hused, List.map_append, List.map_singleton,
    PaceArgs.entry_store hfits]
  rfl

theorem contents_nil (h : r.used = 0) : r.contents = [] := by
  rw [contents, RingBuffer.toList_eq_nil.mpr h, List.map_nil]

theorem contents_cons (h : r.used ≠ 0) : r.contents = (r.get 0).entry :: contents (r.dropFirst 1) := by
  rw [contents, RingBuffer.toList_eq_cons h, List.map_cons]
  rfl

/-- A purge keeps the cells of the other sockets, each whole, in their order. -/
theorem toList_purgeSocket (sock : Socket) :
    (r.purgeSocket sock).toList = r.toList.filter fun e => e.sock != sock :=
  RingBuffer.toList_keep r _

theorem contents_purgeSocket (sock : Socket) :
    (r.purgeSocket sock).contents = r.contents.filter fun e => e.sock != sock := by
  rw [contents, toList_purgeSocket, contents, List.filter_map]
  rfl

/-- **One step.** -/
theorem step_refines (op : PaceQueueOp) :
    (paceSlotsStep r op).1.contents = (paceListStep r.contents op).1 ∧
      (paceSlotsStep r op).2 = (paceListStep r.contents op).2 := by
  cases op with
  | enqueue a =>
    rw [paceSlotsStep, paceListStep, length_contents, enqueue_eq]
    by_cases hroom : r.used < kPaceQueueSlots ∧ a.Fits
    · rw [if_pos hroom, if_pos hroom]
      exact ⟨r.contents_push hroom.1 hroom.2, rfl⟩
    · rw [if_neg hroom, if_neg hroom]
      exact ⟨rfl, rfl⟩
  | popDue now =>
    rw [paceSlotsStep, popDue]
    by_cases hused : r.used = 0
    · rw [if_pos (Or.inl hused), r.contents_nil hused]
      exact ⟨r.contents_nil hused, rfl⟩
    · have hcons := r.contents_cons hused
      by_cases hdue : (r.get 0).dueMs ≤ now
      · have hnow : ¬ (r.used = 0 ∨ now < (r.get 0).dueMs) := by
          rw [not_or, BitVec.not_lt]
          exact ⟨hused, hdue⟩
        rw [if_neg hnow, hcons]
        have hspec : paceListStep ((r.get 0).entry :: contents (r.dropFirst 1)) (.popDue now) =
            (contents (r.dropFirst 1), .popped (some (r.get 0).entry)) := if_pos hdue
        rw [hspec]
        exact ⟨rfl, rfl⟩
      · rw [if_pos (Or.inr (BitVec.not_le.mp hdue)), hcons]
        have hspec : paceListStep ((r.get 0).entry :: contents (r.dropFirst 1)) (.popDue now) =
            ((r.get 0).entry :: contents (r.dropFirst 1), .popped none) := if_neg hdue
        rw [hspec]
        exact ⟨hcons, rfl⟩
  | popAny =>
    rw [paceSlotsStep, popAny]
    by_cases hused : r.used = 0
    · rw [if_pos hused, r.contents_nil hused]
      exact ⟨r.contents_nil hused, rfl⟩
    · rw [if_neg hused, r.contents_cons hused]
      exact ⟨rfl, rfl⟩
  | purgeSocket sock => exact ⟨r.contents_purgeSocket sock, rfl⟩

end PaceSlots

/-- **The queue.** From any position of `head` and any cells, a run of the four functions leaves the list that the
same run leaves of the contents, and answers the same; and a purge keeps exactly the cells of the other sockets,
byte for byte and in their order, whatever the cells are. -/
theorem paceSlots_refines (r : PaceSlots) (ops : List PaceQueueOp) :
    (Machine.final paceSlotsStep r ops).contents = Machine.final paceListStep r.contents ops ∧
      Machine.outputs paceSlotsStep r ops = Machine.outputs paceListStep r.contents ops ∧
      ∀ sock, ((Machine.final paceSlotsStep r ops).purgeSocket sock).toList =
        (Machine.final paceSlotsStep r ops).toList.filter fun e => e.sock != sock := by
  have hrun := @Machine.simulates _ _ _ _ paceSlotsStep paceListStep PaceSlots.contents (fun _ => True) (fun _ => True)
    (fun _ _ _ _ => trivial) (fun r op _ _ => PaceSlots.step_refines r op) r trivial ops (fun _ _ => trivial)
  exact ⟨hrun.1, hrun.2, PaceSlots.toList_purgeSocket _⟩

end BzNet
