import BzNet.Iocp.Completions
import BzNet.Reorder.Ready

/-!
# The two release choices

One peer's packets, held as completions by the overlapped path or buffered in the peer's ring: what `IocpPickReady`
hands over against what `reorder_pick` does.

* `SamePackets` : the table and the ring of one entry hold the same packets, all ahead of the cursor;
* `iocpScan_own` : over completions of one source, the scan is a search for the successor, and else one pass for the
  earliest of the aged ones;
* `iocpChoice_forced`, `ringChoice_forced` : without the successor each choice is such a pass, by its own measure;
* `iocp_pick_iff` : both find something, and call it the same, at the same times; it is the same packet exactly when
  the earliest of the aged packets is the nearest one too.
-/

namespace BzNet

variable {cfg : ReorderCfg} {pb : PeerBuf} {c : ReorderCtx} {s : IocpState} {k now : U64} {src : SockAddr} {e : Nat}

/-! ## The packets -/

/-- A packet as far as the choice goes: its sequence and when it arrived. -/
def heldPackets (held : Nat → IocpHeld) : List (U32 × U64) :=
  (Slots.held IocpHeld.used kIocpHoldCap held).map fun h => (h.seq, h.ts)

def ringPackets (cfg : ReorderCfg) (pb : PeerBuf) : List (U32 × U64) := (pb.held cfg).map fun p => (p.seq, p.ts)

/-- Every held completion is from `src`, whose entry is `e`, and the ring of that entry holds the same packets, each
ahead of its cursor and none from the future. -/
structure SamePackets (s : IocpState) (src : SockAddr) (e : Nat) (now : U64) : Prop where
  entry : LruTable.find? s.rx.cfg.peers s.rx.tbl (reorderKey src) = some e
  cursor : (s.rx.tbl e).seqInit = true
  source : ∀ i, HeldAt s i → (s.held i).src = src
  same : List.Perm (heldPackets s.held) (ringPackets s.rx.cfg (s.rx.tbl e))
  filled : (s.rx.tbl e).filled = ((s.rx.tbl e).held s.rx.cfg).length
  ahead : ∀ p ∈ ringPackets s.rx.cfg (s.rx.tbl e), 0 < seqCmp p.1 (s.rx.tbl e).lastSeq
  distinct : ((ringPackets s.rx.cfg (s.rx.tbl e)).map Prod.fst).Nodup
  past : ∀ p ∈ ringPackets s.rx.cfg (s.rx.tbl e), p.2 ≤ now

/-- What `IocpPickReady` selects: the sequence, and the kind of delivery. -/
def iocpChoice (s : IocpState) (now : U64) : Option (U32 × DeliverKind) :=
  (iocpPickReady s now).2.map fun p => ((s.held p.1).seq, p.2)

def ringChoice (cfg : ReorderCfg) (pb : PeerBuf) (now : U64) : Option (U32 × DeliverKind) :=
  (reorderPick cfg pb now).map fun p => ((pb.slots p.1).seq, p.2)

def heldNext (held : Nat → IocpHeld) (pb : PeerBuf) (i : Nat) : Bool :=
  (held i).used && (held i).seq == seqNext pb.lastSeq

def heldAged (cfg : ReorderCfg) (held : Nat → IocpHeld) (pb : PeerBuf) (now : U64) (i : Nat) : Bool :=
  (held i).used && decide ((reorderHoldWindow cfg pb).toNat ≤ (now - (held i).ts).toNat)

/-! ## The scan over one source -/

/-- The context still has the entry of `k` at place `e`, with the cursor and the window of `pb`. -/
structure Sees (cfg : ReorderCfg) (pb : PeerBuf) (k : U64) (e : Nat) (c : ReorderCtx) : Prop where
  cfg_eq : c.cfg = cfg
  entry : LruTable.find? c.cfg.peers c.tbl k = some e
  seqInit : (c.tbl e).seqInit = pb.seqInit
  lastSeq : (c.tbl e).lastSeq = pb.lastSeq
  winMs : (c.tbl e).winMs = pb.winMs

theorem Sees.peer (h : Sees cfg pb (reorderKey src) e c) (now : U64) :
    Sees cfg pb (reorderKey src) e (iocpPeer c src now).1 ∧
      ∃ pb', (iocpPeer c src now).2 = some pb' ∧ pb'.seqInit = pb.seqInit ∧ pb'.lastSeq = pb.lastSeq ∧
        pb'.winMs = pb.winMs := by
  have hget : reorderGetPeer c src now =
      some ({ c with tbl := Function.update c.tbl e (KeyedRecord.touch now (c.tbl e)) }, e) := by
    simp only [reorderGetPeer, LruTable.locate, h.entry]
  have hself := Function.update_self e (KeyedRecord.touch now (c.tbl e)) c.tbl
  rw [iocpPeer, hget]
  refine ⟨⟨h.cfg_eq, ?_, ?_, ?_, ?_⟩, _, rfl, ?_⟩
  · exact (LruTable.find?_put_same (KeyedRecord.key_touch now (c.tbl e))).trans h.entry
  · dsimp only
    rw [hself]
    exact h.seqInit
  · dsimp only
    rw [hself]
    exact h.lastSeq
  · dsimp only
    rw [hself]
    exact h.winMs
  · dsimp only
    rw [hself]
    exact ⟨h.seqInit, h.lastSeq, h.winMs⟩

/-- One step of the pass for the earliest of the aged completions. -/
def takeEarlier (cfg : ReorderCfg) (held : Nat → IocpHeld) (pb : PeerBuf) (now : U64) (b : Option Nat) (i : Nat) :
    Option Nat :=
  if heldAged cfg held pb now i then
    match b with
    | none => some i
    | some j => if decide ((held i).ts < (held j).ts) then some i else some j
  else b

theorem takeEarlier_used {held : Nat → IocpHeld} {i : Nat} (hu : (held i).used = true) (b : Option Nat) :
    takeEarlier cfg held pb now b i =
      if (reorderHoldWindow cfg pb).toNat ≤ (now - (held i).ts).toNat ∧
        (b.all fun o => decide ((held i).ts < (held o).ts)) = true then some i else b := by
  have haged : heldAged cfg held pb now i = decide ((reorderHoldWindow cfg pb).toNat ≤ (now - (held i).ts).toNat) := by
    rw [heldAged, hu, Bool.true_and]
  unfold takeEarlier
  rw [haged]
  by_cases hw : (reorderHoldWindow cfg pb).toNat ≤ (now - (held i).ts).toNat
  · rw [decide_eq_true hw, if_pos rfl]
    cases b with
    | none => exact (if_pos ⟨hw, rfl⟩).symm
    | some j => simp only [hw, true_and, Option.all_some]
  · rw [decide_eq_false hw, if_neg Bool.false_ne_true, if_neg fun h => hw h.1]

/-- Over completions of one source the scan stops at the successor of the cursor; without one it goes through them
all and ends at the earliest of the aged ones. -/
theorem iocpScan_own {held : Nat → IocpHeld} {is : List Nat} (hinit : pb.seqInit = true)
    (h : Sees cfg pb (reorderKey src) e c) (hsrc : ∀ i ∈ is, (held i).used = true → (held i).src = src)
    (oldest : Option Nat) :
    (iocpScan held now is c oldest).2 =
      match is.find? (heldNext held pb) with
      | some i => some (i, .inOrder)
      | none => (is.foldl (takeEarlier cfg held pb now) oldest).map (·, .forced) := by
  induction is generalizing c oldest with
  | nil => rfl
  | cons i is ih =>
    have hsrc' : ∀ j ∈ is, (held j).used = true → (held j).src = src := fun j hj => hsrc j (List.mem_cons_of_mem _ hj)
    rw [List.foldl_cons]
    cases hu : (held i).used with
    | false =>
      have hnext : heldNext held pb i = false := by simp [heldNext, hu]
      have hkeep : takeEarlier cfg held pb now oldest i = oldest := by simp [takeEarlier, heldAged, hu]
      rw [iocpScan_free hu, List.find?_cons_of_neg (by simp [hnext]), hkeep]
      exact ih h hsrc' oldest
    | true =>
      rw [iocpScan_used hu, hsrc i List.mem_cons_self hu]
      obtain ⟨h', pb', hpb', hinit', hlast', hwin'⟩ := h.peer now
      dsimp only
      rw [hpb']
      have hsucc : reorderIsSuccessor (some pb') (held i).seq = heldNext held pb i := by
        simp [reorderIsSuccessor, heldNext, hu, hinit', hinit, hlast']
      have hwindow : iocpHoldWindow (iocpPeer c src now).1.cfg (some pb') = reorderHoldWindow cfg pb := by
        simp only [iocpHoldWindow, reorderHoldWindow, h'.cfg_eq, hwin']
      rw [hsucc, hwindow]
      cases hnext : heldNext held pb i with
      | true => rw [List.find?_cons_of_pos hnext, if_pos rfl]
      | false =>
        rw [List.find?_cons_of_neg (by simp [hnext]), if_neg Bool.false_ne_true]
        rw [← takeEarlier_used hu]
        exact ih h' hsrc' _

/-! ## Each choice as a search and a pass -/

def earliestAged (s : IocpState) (e : Nat) (now : U64) : Option Nat :=
  Slots.best kIocpHoldCap (heldAged s.rx.cfg s.held (s.rx.tbl e) now) fun i j => decide ((s.held i).ts < (s.held j).ts)

theorem iocpPickReady_own (h : SamePackets s src e now) :
    (iocpPickReady s now).2 =
      match (List.range kIocpHoldCap).find? (heldNext s.held (s.rx.tbl e)) with
      | some i => some (i, .inOrder)
      | none => (earliestAged s e now).map (·, .forced) :=
  iocpScan_own h.cursor ⟨rfl, h.entry, rfl, rfl, rfl⟩ (fun i hi hu => h.source i ⟨List.mem_range.mp hi, hu⟩) none

theorem mem_heldPackets {held : Nat → IocpHeld} {p : U32 × U64} :
    p ∈ heldPackets held ↔ ∃ i, i < kIocpHoldCap ∧ (held i).used = true ∧ ((held i).seq, (held i).ts) = p :=
  Slots.mem_held_map

theorem mem_ringPackets {p : U32 × U64} :
    p ∈ ringPackets cfg pb ↔
      ∃ j, j < cfg.depth ∧ (pb.slots j).used = true ∧ ((pb.slots j).seq, (pb.slots j).ts) = p :=
  Slots.mem_held_map

theorem ringPackets_at {P : U32 × U64 → Prop} (h : ∀ p ∈ ringPackets cfg pb, P p) {j : Nat} (hj : j < cfg.depth)
    (hu : (pb.slots j).used = true) : P ((pb.slots j).seq, (pb.slots j).ts) :=
  h _ (mem_ringPackets.mpr ⟨j, hj, hu, rfl⟩)

def PeerBuf.isNext (pb : PeerBuf) (j : Nat) : Bool := (pb.slots j).used && (pb.slots j).seq == seqNext pb.lastSeq

/-- The nearest ahead of the aged packets of the ring. -/
def nearestAged (cfg : ReorderCfg) (pb : PeerBuf) (now : U64) : Option Nat :=
  Slots.best cfg.depth (pb.isAged cfg now) fun i j =>
    decide ((pb.slots i).seq - seqNext pb.lastSeq < (pb.slots j).seq - seqNext pb.lastSeq)

/-- With everything ahead of the cursor, every aged packet can be the nearest one ahead. -/
theorem reorderPickAged_ahead
    (hahead : ∀ j, j < cfg.depth → (pb.slots j).used = true → 0 < seqCmp (pb.slots j).seq pb.lastSeq) :
    reorderPickAged cfg pb now = nearestAged cfg pb now := by
  have hcand : ∀ j, j < cfg.depth →
      (pb.isAged cfg now j && seqAheadOrEqual (pb.slots j).seq (seqNext pb.lastSeq)) = pb.isAged cfg now j := by
    intro j hj
    cases haged : pb.isAged cfg now j with
    | false => rfl
    | true => rw [Bool.true_and, seqAheadOrEqual_next (hahead j hj (isAged_iff.mp haged).1)]
  unfold reorderPickAged
  dsimp only
  rw [Slots.best_congr hcand]
  change (nearestAged cfg pb now).or _ = _
  cases hn : nearestAged cfg pb now with
  | none => rw [Option.none_or, Slots.best_none.mpr (Slots.best_none.mp hn)]
  | some j => rw [Option.some_or]

theorem reorderPick_own (h : SamePackets s src e now) :
    reorderPick s.rx.cfg (s.rx.tbl e) now =
      match (List.range s.rx.cfg.depth).find? (s.rx.tbl e).isNext with
      | some j => some (j, .inOrder)
      | none => (nearestAged s.rx.cfg (s.rx.tbl e) now).map (·, .forced) := by
  have hahead : ∀ j, j < s.rx.cfg.depth → ((s.rx.tbl e).slots j).used = true →
      0 < seqCmp ((s.rx.tbl e).slots j).seq (s.rx.tbl e).lastSeq :=
    fun j hj hu => ringPackets_at h.ahead hj hu
  rw [reorderPick]
  by_cases hfilled : (s.rx.tbl e).filled = 0
  · have hempty : ∀ j, j < s.rx.cfg.depth → ((s.rx.tbl e).slots j).used = false := by
      intro j hj
      by_contra hu
      rw [Bool.not_eq_false] at hu
      have hlen := List.length_pos_of_mem (Slots.mem_held_of hj hu)
      rw [h.filled] at hfilled
      exact absurd hfilled (Nat.ne_of_gt hlen)
    have hno : (List.range s.rx.cfg.depth).find? (s.rx.tbl e).isNext = none := by
      rw [List.find?_eq_none]
      intro j hj
      simp [PeerBuf.isNext, hempty j (List.mem_range.mp hj)]
    have hnone : nearestAged s.rx.cfg (s.rx.tbl e) now = none := by
      refine Slots.best_none.mpr fun j hj => ?_
      simp [PeerBuf.isAged, hempty j hj]
    rw [if_pos hfilled, hno, hnone]
    rfl
  · have hcursor : ¬ (!(s.rx.tbl e).seqInit) = true := by simp [h.cursor]
    rw [if_neg hfilled, if_neg hcursor]
    dsimp only
    rw [show (fun j => ((s.rx.tbl e).slots j).used && ((s.rx.tbl e).slots j).seq == seqNext (s.rx.tbl e).lastSeq) =
      (s.rx.tbl e).isNext from rfl]
    cases hf : (List.range s.rx.cfg.depth).find? (s.rx.tbl e).isNext with
    | some j => rfl
    | none =>
      dsimp only
      rw [reorderPickAged_ahead hahead]

/-! ## From the table to the ring and back -/

def SuccessorHeld (s : IocpState) (e : Nat) : Prop :=
  ∃ i, HeldAt s i ∧ (s.held i).seq = seqNext (s.rx.tbl e).lastSeq

theorem SamePackets.toRing (h : SamePackets s src e now) {i : Nat} (hi : HeldAt s i) :
    ∃ j, j < s.rx.cfg.depth ∧ ((s.rx.tbl e).slots j).used = true ∧
      ((s.rx.tbl e).slots j).seq = (s.held i).seq ∧ ((s.rx.tbl e).slots j).ts = (s.held i).ts := by
  have hmem := h.same.mem_iff.mp (mem_heldPackets.mpr ⟨i, hi.1, hi.2, rfl⟩)
  obtain ⟨j, hj, hu, heq⟩ := mem_ringPackets.mp hmem
  exact ⟨j, hj, hu, congrArg Prod.fst heq, congrArg Prod.snd heq⟩

theorem SamePackets.toHeld (h : SamePackets s src e now) {j : Nat} (hj : j < s.rx.cfg.depth)
    (hu : ((s.rx.tbl e).slots j).used = true) :
    ∃ i, HeldAt s i ∧ (s.held i).seq = ((s.rx.tbl e).slots j).seq ∧ (s.held i).ts = ((s.rx.tbl e).slots j).ts := by
  have hmem := h.same.mem_iff.mpr (mem_ringPackets.mpr ⟨j, hj, hu, rfl⟩)
  obtain ⟨i, hi, hui, heq⟩ := mem_heldPackets.mp hmem
  exact ⟨i, ⟨hi, hui⟩, congrArg Prod.fst heq, congrArg Prod.snd heq⟩

theorem SamePackets.isAged_iff (h : SamePackets s src e now) {j : Nat} (hj : j < s.rx.cfg.depth)
    (hu : ((s.rx.tbl e).slots j).used = true) :
    (s.rx.tbl e).isAged s.rx.cfg now j = true ↔
      (reorderHoldWindow s.rx.cfg (s.rx.tbl e)).toNat ≤ (now - ((s.rx.tbl e).slots j).ts).toNat := by
  have hle : ((s.rx.tbl e).slots j).ts ≤ now := ringPackets_at h.past hj hu
  have helapsed := Serial.elapsed_of_le hle
  rw [Serial.elapsed] at helapsed
  rw [BzNet.isAged_iff, Waited, reorderHoldWindow_toNat, helapsed]
  exact ⟨fun ha => ha.2.2, fun ha => ⟨hu, hle, ha⟩⟩

theorem SamePackets.aged_toRing (h : SamePackets s src e now) {i : Nat} (hi : i < kIocpHoldCap)
    (ha : heldAged s.rx.cfg s.held (s.rx.tbl e) now i = true) :
    ∃ j, j < s.rx.cfg.depth ∧ (s.rx.tbl e).isAged s.rx.cfg now j = true ∧
      ((s.rx.tbl e).slots j).seq = (s.held i).seq := by
  rw [heldAged, Bool.and_eq_true, decide_eq_true_eq] at ha
  obtain ⟨j, hj, hu, hseq, hts⟩ := h.toRing ⟨hi, ha.1⟩
  refine ⟨j, hj, (h.isAged_iff hj hu).mpr ?_, hseq⟩
  rw [hts]
  exact ha.2

theorem SamePackets.aged_toHeld (h : SamePackets s src e now) {j : Nat} (hj : j < s.rx.cfg.depth)
    (ha : (s.rx.tbl e).isAged s.rx.cfg now j = true) :
    ∃ i, i < kIocpHoldCap ∧ heldAged s.rx.cfg s.held (s.rx.tbl e) now i = true ∧
      (s.held i).seq = ((s.rx.tbl e).slots j).seq := by
  have hu := (BzNet.isAged_iff.mp ha).1
  obtain ⟨i, hi, hseq, hts⟩ := h.toHeld hj hu
  refine ⟨i, hi.1, ?_, hseq⟩
  rw [heldAged, hi.2, Bool.true_and, decide_eq_true_eq, hts]
  exact (h.isAged_iff hj hu).mp ha

/-! ## The two choices -/

theorem iocpChoice_successor (h : SamePackets s src e now) (hs : SuccessorHeld s e) :
    iocpChoice s now = some (seqNext (s.rx.tbl e).lastSeq, .inOrder) := by
  rw [iocpChoice, iocpPickReady_own h]
  cases hf : (List.range kIocpHoldCap).find? (heldNext s.held (s.rx.tbl e)) with
  | none =>
    obtain ⟨i, hi, hseq⟩ := hs
    have := List.find?_eq_none.mp hf i (List.mem_range.mpr hi.1)
    simp [heldNext, hi.2, hseq] at this
  | some i =>
    have hnext := List.find?_some hf
    rw [heldNext, Bool.and_eq_true, beq_iff_eq] at hnext
    simp only [Option.map_some, hnext.2]

theorem ringChoice_successor (h : SamePackets s src e now) (hs : SuccessorHeld s e) :
    ringChoice s.rx.cfg (s.rx.tbl e) now = some (seqNext (s.rx.tbl e).lastSeq, .inOrder) := by
  rw [ringChoice, reorderPick_own h]
  cases hf : (List.range s.rx.cfg.depth).find? (s.rx.tbl e).isNext with
  | none =>
    obtain ⟨i, hi, hseq⟩ := hs
    obtain ⟨j, hj, hu, hseqj, -⟩ := h.toRing hi
    have := List.find?_eq_none.mp hf j (List.mem_range.mpr hj)
    simp [PeerBuf.isNext, hu, hseqj.trans hseq] at this
  | some j =>
    have hnext := List.find?_some hf
    rw [PeerBuf.isNext, Bool.and_eq_true, beq_iff_eq] at hnext
    simp only [Option.map_some, hnext.2]

/-- Without the successor the overlapped path forces the earliest of the aged packets. -/
theorem iocpChoice_forced (h : SamePackets s src e now) (hs : ¬ SuccessorHeld s e) :
    iocpChoice s now = (earliestAged s e now).map fun i => ((s.held i).seq, .forced) := by
  have hf : (List.range kIocpHoldCap).find? (heldNext s.held (s.rx.tbl e)) = none := by
    rw [List.find?_eq_none]
    intro i hi hnext
    rw [heldNext, Bool.and_eq_true, beq_iff_eq] at hnext
    exact hs ⟨i, ⟨List.mem_range.mp hi, hnext.1⟩, hnext.2⟩
  rw [iocpChoice, iocpPickReady_own h, hf]
  dsimp only
  rw [Option.map_map]
  rfl

/-- The ring forces the nearest of them. -/
theorem ringChoice_forced (h : SamePackets s src e now) (hs : ¬ SuccessorHeld s e) :
    ringChoice s.rx.cfg (s.rx.tbl e) now =
      (nearestAged s.rx.cfg (s.rx.tbl e) now).map fun j => (((s.rx.tbl e).slots j).seq, .forced) := by
  have hf : (List.range s.rx.cfg.depth).find? (s.rx.tbl e).isNext = none := by
    rw [List.find?_eq_none]
    intro j hj hnext
    rw [PeerBuf.isNext, Bool.and_eq_true, beq_iff_eq] at hnext
    obtain ⟨i, hi, hseq, -⟩ := h.toHeld (List.mem_range.mp hj) hnext.1
    exact hs ⟨i, hi, hseq.trans hnext.2⟩
  rw [ringChoice, reorderPick_own h, hf]
  dsimp only
  rw [Option.map_map]
  rfl

theorem earliestAged_none (h : SamePackets s src e now) :
    earliestAged s e now = none ↔ nearestAged s.rx.cfg (s.rx.tbl e) now = none := by
  unfold earliestAged nearestAged
  rw [Slots.best_none, Slots.best_none]
  constructor
  · intro hno j hj
    by_contra ha
    obtain ⟨i, hi, hai, -⟩ := h.aged_toHeld hj (by simpa using ha)
    rw [hno i hi] at hai
    cases hai
  · intro hno i hi
    by_contra ha
    obtain ⟨j, hj, haj, -⟩ := h.aged_toRing hi (by simpa using ha)
    rw [hno j hj] at haj
    cases haj

/-! ## When they agree -/

/-- Place `i` is the first of the earliest completions that have waited out the window. -/
def FirstAged (s : IocpState) (e : Nat) (now : U64) (i : Nat) : Prop :=
  Slots.FirstLeast kIocpHoldCap (heldAged s.rx.cfg s.held (s.rx.tbl e) now) (fun j => (s.held j).ts.toNat) i

/-- No completion that has waited out the window is nearer ahead of the cursor than the one at place `i`. -/
def NearestAged (s : IocpState) (e : Nat) (now : U64) (i : Nat) : Prop :=
  ∀ j, j < kIocpHoldCap → heldAged s.rx.cfg s.held (s.rx.tbl e) now j = true →
    ((s.held i).seq - seqNext (s.rx.tbl e).lastSeq).toNat ≤ ((s.held j).seq - seqNext (s.rx.tbl e).lastSeq).toNat

theorem earliestAged_iff {i : Nat} : earliestAged s e now = some i ↔ FirstAged s e now i :=
  Slots.best_iff fun j l => by rw [decide_eq_true_eq, BitVec.lt_def]

theorem nearestAged_le {j : Nat} (h : nearestAged cfg pb now = some j) :
    ∀ l, l < cfg.depth → pb.isAged cfg now l = true →
      ((pb.slots j).seq - seqNext pb.lastSeq).toNat ≤ ((pb.slots l).seq - seqNext pb.lastSeq).toNat := by
  have hfirst : Slots.FirstLeast cfg.depth (pb.isAged cfg now)
      (fun l => ((pb.slots l).seq - seqNext pb.lastSeq).toNat) j :=
    (Slots.best_iff fun i l => by rw [decide_eq_true_eq, BitVec.lt_def]).mp h
  exact hfirst.least

/-- The earliest and the nearest are one packet exactly when the earliest is nearest. -/
theorem sameSeq_iff (h : SamePackets s src e now) {i j : Nat} (hi : earliestAged s e now = some i)
    (hj : nearestAged s.rx.cfg (s.rx.tbl e) now = some j) :
    (s.held i).seq = ((s.rx.tbl e).slots j).seq ↔ NearestAged s e now i := by
  constructor
  · intro heq l hl ha
    obtain ⟨m, hm, ham, hseq⟩ := h.aged_toRing hl ha
    have hle := nearestAged_le hj m hm ham
    rw [heq, ← hseq]
    exact hle
  · intro hnear
    obtain ⟨hjlt, haj⟩ := Slots.best_some hj
    obtain ⟨hilt, hai⟩ := Slots.best_some hi
    obtain ⟨l, hl, hal, hseq⟩ := h.aged_toHeld hjlt haj
    obtain ⟨m, hm, ham, hseqm⟩ := h.aged_toRing hilt hai
    have hle := hnear l hl hal
    have hge := nearestAged_le hj m hm ham
    rw [hseq] at hle
    rw [hseqm] at hge
    have hdist := BitVec.eq_of_toNat_eq (Nat.le_antisymm hle hge)
    exact sub_left_injective hdist

/-- **The two paths choose alike only up to the order among the aged packets.** Holding the same packets they find
something at the same times and give it the same kind. It is the same packet exactly when the successor of the cursor
is there, or the earliest of the packets that have waited out the window is the nearest of them ahead of the cursor. -/
theorem iocp_pick_iff (h : SamePackets s src e now) :
    (iocpChoice s now).map Prod.snd = (ringChoice s.rx.cfg (s.rx.tbl e) now).map Prod.snd ∧
      (iocpChoice s now = ringChoice s.rx.cfg (s.rx.tbl e) now ↔
        SuccessorHeld s e ∨ ∀ i, FirstAged s e now i → NearestAged s e now i) := by
  by_cases hs : SuccessorHeld s e
  · rw [iocpChoice_successor h hs, ringChoice_successor h hs]
    exact ⟨rfl, fun _ => Or.inl hs, fun _ => rfl⟩
  · rw [iocpChoice_forced h hs, ringChoice_forced h hs]
    cases hi : earliestAged s e now with
    | none =>
      rw [(earliestAged_none h).mp hi]
      refine ⟨rfl, fun _ => Or.inr fun i hfirst => ?_, fun _ => rfl⟩
      rw [earliestAged_iff.mpr hfirst] at hi
      cases hi
    | some i =>
      obtain ⟨j, hj⟩ := Option.ne_none_iff_exists'.mp fun h0 => absurd ((earliestAged_none h).mpr h0) (by simp [hi])
      have hfirst := earliestAged_iff.mp hi
      rw [hj]
      simp only [Option.map_some, Option.some.injEq, Prod.mk.injEq, and_true, true_and]
      rw [sameSeq_iff h hi hj]
      constructor
      · intro hnear
        exact Or.inr fun l hl => hl.unique hfirst ▸ hnear
      · rintro (hno | hall)
        · exact absurd hno hs
        · exact hall i hfirst

/-! ## Two packets behind a gap -/

def pickSource : SockAddr := ⟨afInet, 0x0100007f, 9000⟩

/-- The cursor is at 10; `first` arrived at 1000 ms and `second` 3 ms later, and both are held in either place. -/
def behindGap (first second : U32) : IocpState :=
  let packet (i : Nat) : Option (U32 × U64) := [(first, 1000), (second, 1003)][i]?
  let slots (i : Nat) : ReorderSlot := match packet i with
    | some p => ⟨p.2, p.1, true, ⟨pickSource, [], Nat.zero_le _⟩⟩
    | none => ReorderSlot.zero
  let held (i : Nat) : IocpHeld := match packet i with
    | some p => ⟨true, 18, 0, 1, p.1, p.2, pickSource⟩
    | none => IocpHeld.zero
  let pb := { PeerBuf.zero with
    key := reorderKey pickSource
    seqInit := true
    lastSeq := 10
    filled := 2
    winMs := 30
    slots := slots }
  { iocpInit true ReorderCfg.default with
    rx := { reorderInit ReorderCfg.default with tbl := Function.update (fun _ => PeerBuf.zero) 0 pb }
    held := held }

theorem behindGap_samePackets {first second : U32} (hne : first ≠ second) (hfirst : 0 < seqCmp first 10)
    (hsecond : 0 < seqCmp second 10) : SamePackets (behindGap first second) pickSource 0 2000 where
  entry := rfl
  cursor := rfl
  source := by
    rintro i ⟨hi, hu⟩
    match i with
    | 0 => rfl
    | 1 => rfl
    | i + 2 => cases hu
  same := List.Perm.refl _
  filled := rfl
  ahead := by
    intro p hp
    rcases List.mem_pair.mp hp with rfl | rfl
    · exact hfirst
    · exact hsecond
  distinct := by
    change [first, second].Nodup
    simpa using hne
  past := by
    intro p hp
    rcases List.mem_pair.mp hp with rfl | rfl
    · change (1000 : U64) ≤ 2000
      decide
    · change (1003 : U64) ≤ 2000
      decide

/-- Arrived in order, the packets behind the gap are released alike. -/
theorem iocp_pick_iff_inOrder : iocpChoice (behindGap 12 14) 2000 =
    ringChoice (behindGap 12 14).rx.cfg ((behindGap 12 14).rx.tbl 0) 2000 := by
  refine (iocp_pick_iff (behindGap_samePackets (by decide) (by decide) (by decide))).2.mpr (Or.inr ?_)
  intro i hi j hj ha
  match i with
  | 0 =>
    match j with
    | 0 => decide
    | 1 => decide
    | j + 2 => cases ha
  | 1 => exact absurd (hi.least 0 (by decide) (by decide +kernel)) (by decide)
  | i + 2 => cases hi.mem

/-- Overtaken on the way, the later sequence goes out first on one path only. -/
theorem iocp_pick_overtaken : ¬ ∀ (s : IocpState) (src : SockAddr) (e : Nat) (now : U64), SamePackets s src e now →
    iocpChoice s now = ringChoice s.rx.cfg (s.rx.tbl e) now := by
  intro h
  have heq := h _ _ _ _ (@behindGap_samePackets 14 12 (by decide) (by decide) (by decide))
  have hiocp : iocpChoice (behindGap 14 12) 2000 = some (14, .forced) := by decide +kernel
  have hring : ringChoice (behindGap 14 12).rx.cfg ((behindGap 14 12).rx.tbl 0) 2000 = some (12, .forced) := by
    decide +kernel
  rw [hiocp, hring] at heq
  exact absurd heq (by decide)

end BzNet
