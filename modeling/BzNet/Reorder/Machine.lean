import BzNet.Reorder.Table

/-!
# The buffer as a machine

The buffer driven through its whole interface, of which the hooks use a part: it may be given an arrival while a ring is
full, and be asked what is ready without taking it.

* `rxArrive_ok` : an arrival keeps the buffer well formed, also one that evicts;
* `ReorderOp`, `reorderStep` : the interface, `reorder_reachable_ok` what every run of it keeps;
* `coreStep` : the buffer as the hooks drive it, which put nothing into a full ring.
-/

namespace BzNet

open Machine

variable {cfg : ReorderCfg} {pb : PeerBuf} {c : ReorderCtx}

/-! ## An arrival that evicts -/

theorem release_ok (h : PeerOk cfg pb) {i : Nat} (hi : i < cfg.depth) (hu : (pb.slots i).used = true) :
    PeerOk cfg (pb.release i) := by
  have hperm := release_held hi hu
  have hmem : ∀ s ∈ (pb.release i).held cfg, s ∈ pb.held cfg :=
    fun s hs => hperm.mem_iff.mpr (List.mem_cons_of_mem _ hs)
  have hpos := h.filled_pos (Slots.mem_held_of hi hu)
  constructor
  · have hlen := hperm.length_eq
    rw [List.length_cons, ← h.filled_eq] at hlen
    change (if pb.filled > 0 then pb.filled - 1 else pb.filled) = _
    rw [if_pos (Nat.pos_of_ne_zero hpos)]
    omega
  · exact (List.nodup_cons.mp ((hperm.map ReorderSlot.seq).nodup_iff.mp h.nodup)).2
  · exact fun s hs => h.seq_eq s (hmem s hs)
  · exact fun s hs => h.key_eq s (hmem s hs)
  · exact fun hinit s hs => h.ahead hinit s (hmem s hs)

theorem reorderNoteDelivery_ok (h : PeerOk cfg pb) (seq : U32) (now : U64) :
    PeerOk cfg (reorderNoteDelivery cfg pb seq now).1 := by
  obtain ⟨-, hheld, hfilled, hkey, hinit, hlast⟩ :=
    reorderPurgeStale_spec cfg (show (pb.advance seq).seqInit = true from rfl)
  have hmem : ∀ s ∈ (reorderPurgeStale cfg (pb.advance seq)).1.held cfg,
      s ∈ pb.held cfg ∧ (pb.advance seq).stale s = false := by
    intro s hs
    rw [hheld, List.mem_filter] at hs
    exact ⟨hs.1, by simpa using hs.2⟩
  have hpurged : PeerOk cfg (reorderPurgeStale cfg (pb.advance seq)).1 := by
    constructor
    · have hlen := (List.filter_append_perm (pb.advance seq).stale (pb.held cfg)).length_eq
      rw [List.length_append, ← h.filled_eq] at hlen
      rw [hfilled, hheld]
      change pb.filled - ((pb.held cfg).filter (pb.advance seq).stale).length = _
      change _ = ((pb.held cfg).filter fun s => !(pb.advance seq).stale s).length
      omega
    · rw [hheld]
      exact h.nodup.sublist (List.filter_sublist.map _)
    · exact fun s hs => h.seq_eq s (hmem s hs).1
    · intro s hs
      rw [hkey]
      exact h.key_eq s (hmem s hs).1
    · intro _ s hs
      have hns := (hmem s hs).2
      have hu := mem_held_used (hmem s hs).1
      rw [hlast]
      simpa [PeerBuf.stale, hu] using hns
  exact hpurged.of_held rfl rfl rfl rfl rfl

/-- An insertion keeps an entry well formed, whether or not there is room. -/
theorem reorderInsert_ok (h : PeerOk cfg pb) (ts : U64) {pkt : Datagram} (hkey : reorderKey pkt.src = pb.key) :
    PeerOk cfg (reorderInsert cfg pb pkt.seq ts pkt).1 := by
  unfold reorderInsert
  split
  · exact h
  · next hnew =>
    have hahead : pb.seqInit = true → 0 < seqCmp pkt.seq pb.lastSeq :=
      fun hinit => Int.not_le.mp fun hle => hnew ⟨hinit, hle⟩
    split
    · exact h
    · next hf =>
      have hnone : ∀ s ∈ pb.held cfg, s.seq ≠ pkt.seq := by
        intro s hs heq
        obtain ⟨j, hj, rfl, hu⟩ := Slots.mem_held.mp hs
        have := List.find?_eq_none.mp hf j (List.mem_range.mpr hj)
        simp [hu, heq] at this
      split
      · next i hi =>
        have hfree : (pb.slots i).used = false := by simpa using List.find?_some hi
        exact fill_ok h (List.mem_range.mp (List.mem_of_find?_eq_some hi)) hfree hahead hnone rfl hkey
      · next hfull =>
        have hlt : reorderOldestSlot cfg pb < cfg.depth := Slots.pick_lt _ cfg.depth_pos
        have hu : (pb.slots (reorderOldestSlot cfg pb)).used = true := by
          simpa using List.find?_eq_none.mp hfull _ (List.mem_range.mpr hlt)
        generalize reorderOldestSlot cfg pb = o at hlt hu
        have hpos := h.filled_pos (Slots.mem_held_of hlt hu)
        have hrel := release_ok h hlt hu
        have hperm := release_held hlt hu
        have hok := @fill_ok cfg (pb.release o) o pkt.seq ts pkt hrel hlt
          (by simp [PeerBuf.release]) hahead
          (fun s hs => hnone s (hperm.mem_iff.mpr (List.mem_cons_of_mem _ hs))) rfl hkey
        refine hok.of_held ?_ ?_ rfl rfl rfl
        · simp [PeerBuf.held, PeerBuf.release, hu]
        · change pb.filled = (if pb.filled > 0 then pb.filled - 1 else pb.filled) + 1
          rw [if_pos (Nat.pos_of_ne_zero hpos)]
          omega

/-- **An arrival keeps the buffer well formed**, whether or not there is room. -/
theorem rxArrive_ok (hok : RxOk c) (d : Datagram) (t : U64) : RxOk (rxArrive c d t).ctx := by
  rcases reorderGetPeer_cases c d.src t with ⟨-, hget⟩ | ⟨i, pb, lost, st, hi, hent, hget, hst⟩
  · unfold rxArrive
    rw [hget]
    exact hok.stats _
  · by_cases hk : reorderKey d.src = 0
    · exact (rxArrive_keyless hok hk hi hent hst hget).ok hok
    · unfold rxArrive
      rw [hget]
      simp only [Function.update_self, Function.update_idem]
      have hent' := hent.adapt (reorderAdaptOnArrival_same c.cfg pb d.seq t)
      generalize reorderAdaptOnArrival c.cfg pb d.seq t = pb' at hent' ⊢
      have hins := reorderInsert_ok (hent'.ok hok hi hk) t hent'.key.symm
      have hkey : (reorderInsert c.cfg pb' d.seq t d).1.key = reorderKey d.src := by
        rw [reorderInsert_key, hent'.key]
      have hput : ∀ (e : PeerBuf) (st' : ReorderStats), PeerOk c.cfg e → e.key = reorderKey d.src →
          RxOk { c with tbl := Function.update c.tbl i e, stats := st' } := by
        intro e st' he hekey
        refine hok.put (fun _ => he) (fun _ => ?_) fun h0 => absurd (hekey.symm.trans h0) hk
        rw [hekey]
        exact hent.others hok hi hk
      split
      · next out hev =>
        have hkeeps := reorderNoteDelivery_keeps c.cfg (reorderInsert c.cfg pb' d.seq t d).1 out.seq t
        exact hput _ _ (reorderNoteDelivery_ok hins out.seq t) (hkeeps.1.trans hkey)
      · exact hput _ _ hins hkey

theorem rxArrive_cfg (c : ReorderCtx) (d : Datagram) (t : U64) : (rxArrive c d t).ctx.cfg = c.cfg := by
  rcases reorderGetPeer_cases c d.src t with ⟨-, hget⟩ | ⟨i, pb, lost, st, -, -, hget, -⟩
  · unfold rxArrive
    rw [hget]
  · unfold rxArrive
    rw [hget]
    simp only
    split
    · rfl
    · rfl

/-! ## The interface -/

inductive ReorderOp where
  | arrive (d : Datagram) (arrivalMs : U64)
  /-- Ask what is ready and take it. -/
  | release (nowMs : U64)
  /-- Ask what is ready. -/
  | nextReady (nowMs : U64)
  | reset
  /-- The counters the caller keeps. -/
  | count (st : ReorderStats)

def reorderStep (c : ReorderCtx) : ReorderOp → ReorderCtx × Option (Nat × ReorderSlot)
  | .arrive d t => ((rxArrive c d t).ctx, none)
  | .release t => ((rxRelease c t).ctx, (rxRelease c t).took)
  | .nextReady t => (((reorderNextReady c t).map Prod.fst).getD c, none)
  | .reset => (reorderReset c, none)
  | .count st => ({ c with stats := st }, none)

theorem reorderStep_ok (hok : RxOk c) (op : ReorderOp) : RxOk (reorderStep c op).1 := by
  cases op with
  | arrive d t => exact rxArrive_ok hok d t
  | release t => exact (rxRelease_step c t).ok hok
  | nextReady t =>
    obtain ⟨rr, hrr⟩ := reorderNextReady_asked c t
    rw [reorderStep, hrr]
    exact ⟨hok.distinct, hok.entries, hok.unused⟩
  | reset => exact .empty c.cfg 0 c.stats
  | count st => exact hok.stats st

theorem reorderStep_cfg (op : ReorderOp) : (reorderStep c op).1.cfg = c.cfg := by
  cases op with
  | arrive d t => exact rxArrive_cfg c d t
  | release t =>
    have hstep := rxRelease_step c t
    simp only [reorderStep]
    generalize rxRelease c t = r at hstep ⊢
    cases hstep <;> rfl
  | nextReady t =>
    obtain ⟨rr, hrr⟩ := reorderNextReady_asked c t
    rw [reorderStep, hrr]
  | reset => rfl
  | count st => rfl

theorem reorder_reachable_ok (cfg : ReorderCfg) (ops : List ReorderOp) :
    (final reorderStep (reorderInit cfg) ops).cfg = cfg ∧ RxOk (final reorderStep (reorderInit cfg) ops) :=
  final_inv (P := fun c : ReorderCtx => c.cfg = cfg ∧ RxOk c) ⟨rfl, reorderInit_ok cfg⟩
    (fun _ op h => ⟨(reorderStep_cfg op).trans h.1, reorderStep_ok h.2 op⟩) ops

/-! ## As the hooks drive it -/

def ReorderOp.isArrival : ReorderOp → Bool
  | .arrive _ _ => true
  | _ => false

/-- The drain loop tests for a full ring before it takes a datagram. -/
def coreStep (c : ReorderCtx) (op : ReorderOp) : ReorderCtx × Option (Nat × ReorderSlot) :=
  if op.isArrival && reorderDrainSaturated c then (c, none) else reorderStep c op

@[simp] theorem coreStep_arrive (c : ReorderCtx) (d : Datagram) (t : U64) :
    coreStep c (.arrive d t) = (if reorderDrainSaturated c then c else (rxArrive c d t).ctx, none) := by
  unfold coreStep
  cases reorderDrainSaturated c <;> rfl

@[simp] theorem coreStep_release (c : ReorderCtx) (t : U64) :
    coreStep c (.release t) = ((rxRelease c t).ctx, (rxRelease c t).took) := rfl

@[simp] theorem coreStep_count (c : ReorderCtx) (st : ReorderStats) :
    coreStep c (.count st) = ({ c with stats := st }, none) := rfl

theorem coreStep_nextReady (c : ReorderCtx) (t : U64) :
    (coreStep c (.nextReady t)).1.tbl = c.tbl ∧ (coreStep c (.nextReady t)).2 = none := by
  refine ⟨?_, rfl⟩
  show (((reorderNextReady c t).map Prod.fst).getD c).tbl = c.tbl
  obtain ⟨rr, hrr⟩ := reorderNextReady_asked c t
  rw [hrr]

theorem coreStep_ok (hok : RxOk c) (op : ReorderOp) : RxOk (coreStep c op).1 := by
  unfold coreStep
  split
  · exact hok
  · exact reorderStep_ok hok op

theorem coreStep_cfg (op : ReorderOp) : (coreStep c op).1.cfg = c.cfg := by
  unfold coreStep
  split
  · rfl
  · exact reorderStep_cfg op

end BzNet
