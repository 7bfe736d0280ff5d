import BzNet.Reorder.Conservation
import BzNet.Reorder.Machine

/-!
# The counters tell the whole story

Arrivals and releases in any order, from any sources with an address, with the ring full or not.

* `Counted` : `filled` is the number of occupied slots; the pieces of an operation keep it, and say by how much
  they move `filled`;
* `Tally` : what an operation does to the counters and to what is buffered;
* `reorder_accounts` : every datagram presented is in exactly one counter or still buffered, and every delivery is
  in the histogram.
-/

namespace BzNet

variable {cfg : ReorderCfg} {pb : PeerBuf} {c : ReorderCtx} {i : Nat}

/-! ## `filled` -/

def Counted (cfg : ReorderCfg) (pb : PeerBuf) : Prop := pb.filled = (pb.held cfg).length

theorem Counted.same {a b : PeerBuf} (h : SameButWindow a b) (hb : Counted cfg b) : Counted cfg a := by
  unfold Counted
  rw [h.filled, h.held cfg]
  exact hb

theorem reorderFresh_counted (cfg : ReorderCfg) (key now : U64) : Counted cfg (reorderFresh cfg key now) :=
  (reorderFresh_ok cfg key now).filled_eq

/-- A delivery takes out of the ring what it counts as purged. -/
theorem reorderNoteDelivery_counted (h : Counted cfg pb) (seq : U32) (now : U64) :
    Counted cfg (reorderNoteDelivery cfg pb seq now).1 ∧
      (reorderNoteDelivery cfg pb seq now).1.filled + (reorderNoteDelivery cfg pb seq now).2 = pb.filled := by
  obtain ⟨hn, hheld, hfilled, -⟩ := reorderPurgeStale_spec cfg (show (pb.advance seq).seqInit = true from rfl)
  have hlen := List.length_eq_length_filter_add (l := pb.held cfg) (pb.advance seq).stale
  unfold Counted at h ⊢
  have hd : ((pb.advance seq).destroyed cfg).length = ((pb.held cfg).filter (pb.advance seq).stale).length := rfl
  have hf : (reorderNoteDelivery cfg pb seq now).1.filled =
      pb.filled - ((pb.held cfg).filter (pb.advance seq).stale).length := hfilled
  have hh : (reorderNoteDelivery cfg pb seq now).1.held cfg =
      (pb.held cfg).filter (fun s => !(pb.advance seq).stale s) := hheld
  have hp : (reorderNoteDelivery cfg pb seq now).2 = ((pb.held cfg).filter (pb.advance seq).stale).length := hn
  rw [hf, hh, hp]
  omega

def InsertResult.gain : InsertResult → Nat
  | .buffered => 1
  | _ => 0

theorem reorderInsert_counted (h : Counted cfg pb) (seq : U32) (ts : U64) (pkt : Datagram) :
    Counted cfg (reorderInsert cfg pb seq ts pkt).1 ∧
      (reorderInsert cfg pb seq ts pkt).1.filled = pb.filled + (reorderInsert cfg pb seq ts pkt).2.gain := by
  unfold reorderInsert
  split
  · exact ⟨h, rfl⟩
  · split
    · exact ⟨h, rfl⟩
    · split
      · next j hfind =>
        have hj : j < cfg.depth := List.mem_range.mp (List.mem_of_find?_eq_some hfind)
        have hfree : (pb.slots j).used = false := by simpa using List.find?_some hfind
        refine ⟨?_, rfl⟩
        show pb.filled + 1 = _
        rw [h]
        exact (Slots.held_fill hj hfree rfl).length_eq.symm
      · next hfull =>
        have hlt : reorderOldestSlot cfg pb < cfg.depth := Slots.pick_lt _ cfg.depth_pos
        have hu : (pb.slots (reorderOldestSlot cfg pb)).used = true := by
          simpa using List.find?_eq_none.mp hfull _ (List.mem_range.mpr hlt)
        refine ⟨?_, rfl⟩
        obtain ⟨rest, hold, hnew⟩ := Slots.held_split ReorderSlot.used pb.slots hlt
        have hnew := hnew { pb.slots (reorderOldestSlot cfg pb) with ts := ts, seq := seq, pkt := pkt }
        rw [if_pos hu] at hold
        rw [if_pos (show ReorderSlot.used _ = true from hu)] at hnew
        show pb.filled = (Slots.held ReorderSlot.used cfg.depth _).length
        rw [h, hnew.length_eq]
        exact hold.length_eq

theorem reorderTakePeer_counted (h : Counted cfg pb) (hi : i < cfg.depth) (hu : (pb.slots i).used = true) (now : U64) :
    Counted cfg (reorderTakePeer cfg pb i now).1 ∧ (reorderTakePeer cfg pb i now).1.key = pb.key ∧
      (reorderTakePeer cfg pb i now).1.filled + (reorderTakePeer cfg pb i now).2 + 1 = pb.filled := by
  have hlen := (@release_held cfg pb i hi hu).length_eq
  rw [List.length_cons] at hlen
  have hpos : 0 < pb.filled := by
    rw [h, hlen]
    omega
  have hfilled : (pb.release i).filled = pb.filled - 1 := if_pos hpos
  have hrel : Counted cfg (pb.release i) := by
    unfold Counted at h ⊢
    omega
  obtain ⟨hc, hsum⟩ := reorderNoteDelivery_counted hrel (pb.slots i).seq now
  have hsame := reorderDecay_same cfg (reorderNoteDelivery cfg (pb.release i) (pb.slots i).seq now).1 now
  refine ⟨hc.same hsame, hsame.key.trans (reorderNoteDelivery_keeps cfg _ _ now).1, ?_⟩
  have hf : (reorderTakePeer cfg pb i now).1.filled =
      (reorderNoteDelivery cfg (pb.release i) (pb.slots i).seq now).1.filled := hsame.filled
  have hp : (reorderTakePeer cfg pb i now).2 = (reorderNoteDelivery cfg (pb.release i) (pb.slots i).seq now).2 := rfl
  rw [hf, hp]
  omega

/-! ## The counters -/

def ReorderStats.deliveries (st : ReorderStats) : Nat :=
  st.deliveredFirst + st.deliveredInOrder + st.deliveredForced + st.deliveredEvicted

/-- Handed over without having been in the ring. -/
def ReorderStats.passedOn (st : ReorderStats) : Nat := st.droppedStale + st.droppedDuplicate + st.bypassTableFull

/-- Destroyed in the ring. -/
def ReorderStats.lost (st : ReorderStats) : Nat := st.purgedStale + st.droppedReclaim

def ReorderStats.histTotal (st : ReorderStats) : Nat := ∑ b ∈ Finset.range 6, st.holdHist b

theorem reorderCountInsert_tally (st : ReorderStats) (res : InsertResult) :
    (reorderCountInsert st res).deliveries = st.deliveries ∧ (reorderCountInsert st res).lost = st.lost ∧
      (reorderCountInsert st res).histTotal = st.histTotal ∧
      (reorderCountInsert st res).passedOn = st.passedOn + if reorderMustPassThrough res then 1 else 0 := by
  cases res with
  | buffered => exact ⟨rfl, rfl, rfl, rfl⟩
  | stale =>
    refine ⟨rfl, rfl, rfl, ?_⟩
    show st.droppedStale + 1 + st.droppedDuplicate + st.bypassTableFull = _
    simp only [ReorderStats.passedOn, reorderMustPassThrough, if_true]
    omega
  | duplicate =>
    refine ⟨rfl, rfl, rfl, ?_⟩
    show st.droppedStale + (st.droppedDuplicate + 1) + st.bypassTableFull = _
    simp only [ReorderStats.passedOn, reorderMustPassThrough, if_true]
    omega
  | evicted out => exact ⟨rfl, rfl, rfl, rfl⟩

theorem reorderHoldBucket_lt (held : U32) : reorderHoldBucket held < 6 := by
  unfold reorderHoldBucket
  repeat' split
  all_goals omega

theorem histTotal_bump (f : Nat → Nat) {b : Nat} (hb : b < 6) :
    ∑ j ∈ Finset.range 6, Function.update f b (f b + 1) j = (∑ j ∈ Finset.range 6, f j) + 1 := by
  have h := Slots.sum_update (fun n : Nat => n) f hb (f b + 1)
  omega

theorem reorderCountDelivery_tally (st : ReorderStats) (purged : Nat) (ts now : U64) (kind : DeliverKind) :
    (reorderCountDelivery st purged ts now kind).deliveries = st.deliveries + 1 ∧
      (reorderCountDelivery st purged ts now kind).lost = st.lost + purged ∧
      (reorderCountDelivery st purged ts now kind).histTotal = st.histTotal + 1 ∧
      (reorderCountDelivery st purged ts now kind).passedOn = st.passedOn := by
  have hhist : (reorderCountDelivery st purged ts now kind).histTotal = st.histTotal + 1 := by
    unfold reorderCountDelivery ReorderStats.histTotal
    cases kind <;> exact histTotal_bump _ (reorderHoldBucket_lt _)
  refine ⟨?_, ?_, hhist, ?_⟩
  · unfold reorderCountDelivery ReorderStats.deliveries
    cases kind <;> dsimp only <;> omega
  · unfold reorderCountDelivery ReorderStats.lost
    cases kind <;> dsimp only <;> omega
  · unfold reorderCountDelivery ReorderStats.passedOn
    cases kind <;> rfl

/-! ## What is buffered -/

def PeerBuf.live (pb : PeerBuf) : Nat := if pb.key = 0 then 0 else pb.filled

/-- What the live entries hold. -/
def rxLive (c : ReorderCtx) : Nat := ∑ i ∈ Finset.range c.cfg.peers, (c.tbl i).live

theorem live_of_key (h : pb.key ≠ 0) : pb.live = pb.filled := if_neg h

theorem rxLive_put (hi : i < c.cfg.peers) (pb : PeerBuf) (rr : Nat) (st : ReorderStats) :
    rxLive { c with tbl := Function.update c.tbl i pb, rr := rr, stats := st } + (c.tbl i).live =
      rxLive c + pb.live :=
  Slots.sum_update PeerBuf.live c.tbl hi pb

/-- Every live entry is counted right. -/
def RxCounted (c : ReorderCtx) : Prop := ∀ i, i < c.cfg.peers → (c.tbl i).key ≠ 0 → Counted c.cfg (c.tbl i)

theorem RxCounted.put (h : RxCounted c) (hpb : Counted c.cfg pb) (rr : Nat) (st : ReorderStats) :
    RxCounted { c with tbl := Function.update c.tbl i pb, rr := rr, stats := st } := by
  intro j hj hne
  by_cases hji : j = i
  · subst hji
    simp only [Function.update_self]
    exact hpb
  · simp only [Function.update_of_ne hji] at hne ⊢
    exact h j hj hne

/-- What an operation does that takes `taken` datagrams and hands `given` over. -/
structure Tally (c c' : ReorderCtx) (taken given : Nat) : Prop where
  cfg : c'.cfg = c.cfg
  counted : RxCounted c'
  books : c'.stats.deliveries + c'.stats.passedOn + c'.stats.lost + rxLive c' =
    c.stats.deliveries + c.stats.passedOn + c.stats.lost + rxLive c + taken
  given : c'.stats.deliveries + c'.stats.passedOn = c.stats.deliveries + c.stats.passedOn + given
  hist : c'.stats.histTotal + c.stats.deliveries = c.stats.histTotal + c'.stats.deliveries

theorem Tally.trans {c c' c'' : ReorderCtx} {m n m' n' : Nat} (h : Tally c c' m n) (h' : Tally c' c'' m' n') :
    Tally c c'' (m + m') (n + n') where
  cfg := h'.cfg.trans h.cfg
  counted := h'.counted
  books := by
    rw [h'.books, h.books]
    omega
  given := by
    rw [h'.given, h.given]
    omega
  hist := by
    have h1 := h.hist
    have h2 := h'.hist
    omega

theorem tally_put (hc : RxCounted c) (hi : i < c.cfg.peers) (hpb : Counted c.cfg pb) (rr : Nat) {st : ReorderStats}
    {taken given : Nat}
    (hbooks : st.deliveries + st.passedOn + st.lost + pb.live =
      c.stats.deliveries + c.stats.passedOn + c.stats.lost + (c.tbl i).live + taken)
    (hgiven : st.deliveries + st.passedOn = c.stats.deliveries + c.stats.passedOn + given)
    (hhist : st.histTotal + c.stats.deliveries = c.stats.histTotal + st.deliveries) :
    Tally c { c with tbl := Function.update c.tbl i pb, rr := rr, stats := st } taken given := by
  have hlive := rxLive_put hi pb rr st
  refine ⟨rfl, hc.put hpb rr st, ?_, hgiven, hhist⟩
  show st.deliveries + st.passedOn + st.lost +
    rxLive { c with tbl := Function.update c.tbl i pb, rr := rr, stats := st } = _
  omega

/-- Finding or making the entry of a source: what a reclaim destroys it counts. -/
theorem reorderGetPeer_tally (hc : RxCounted c) {a : SockAddr} {now : U64} {c' : ReorderCtx}
    (hk : reorderKey a ≠ 0) (hget : reorderGetPeer c a now = some (c', i)) :
    i < c'.cfg.peers ∧ (c'.tbl i).key = reorderKey a ∧ Tally c c' 0 0 := by
  have hfresh := reorderFresh_counted c.cfg (reorderKey a) now
  unfold reorderGetPeer LruTable.locate at hget
  dsimp only at hget
  cases hf : LruTable.find? c.cfg.peers c.tbl (reorderKey a) with
  | some j =>
    rw [hf] at hget
    obtain ⟨hj, hkey⟩ := LruTable.find?_some hf
    cases hget
    have hsame : Counted c.cfg (KeyedRecord.touch now (c.tbl i)) := hc i hj (fun h0 => hk (hkey.symm.trans h0))
    refine ⟨hj, ?_, tally_put hc hj hsame c.rr rfl rfl rfl⟩
    simp only [Function.update_self]
    exact hkey
  | none =>
    rw [hf] at hget
    cases hz : LruTable.find? c.cfg.peers c.tbl (LruTable.freeKey PeerBuf) with
    | some j =>
      rw [hz] at hget
      obtain ⟨hj, hkey⟩ := LruTable.find?_some hz
      cases hget
      have hzero : (c.tbl i).live = 0 := if_pos hkey
      refine ⟨hj, ?_, tally_put hc hj hfresh c.rr ?_ rfl rfl⟩
      · simp only [Function.update_self]
        rfl
      · rw [hzero, live_of_key hk]
        rfl
    | none =>
      rw [hz] at hget
      have hlive : ∀ j, j < c.cfg.peers → (c.tbl j).key ≠ 0 := fun j hj => LruTable.find?_eq_none.mp hz j hj
      have hj := LruTable.oldest_lt (t := c.tbl) c.cfg.peers_pos
      dsimp only at hget
      split at hget
      · cases hget
      · cases hget
        refine ⟨hj, ?_, tally_put hc hj hfresh c.rr ?_ rfl rfl⟩
        · simp only [Function.update_self]
          rfl
        · rw [live_of_key (hlive _ hj), live_of_key hk]
          show _ + (c.stats.purgedStale + (c.stats.droppedReclaim + _)) + 0 = _
          rw [add_zero, ← add_assoc c.stats.purgedStale, ← add_assoc]
          rfl

/-! ## Operations -/

inductive RxOp where
  | arrive (d : Datagram) (arrivalMs : U64)
  | release (nowMs : U64)

def RxOp.isArrival : RxOp → Bool
  | .arrive .. => true
  | .release _ => false

def RxOp.toReorder : RxOp → ReorderOp
  | .arrive d t => .arrive d t
  | .release t => .release t

def RxOp.out (c : ReorderCtx) : RxOp → Option Datagram
  | .arrive d t => (rxArrive c d t).out
  | .release t => (rxRelease c t).out

def rxStep (c : ReorderCtx) (op : RxOp) : ReorderCtx × Option Datagram := ((reorderStep c op.toReorder).1, op.out c)

def handed (o : Option Datagram) : Nat := o.toList.length

theorem insert_tally (hc : RxCounted c) (hi : i < c.cfg.peers) (hk : (c.tbl i).key ≠ 0) {r : PeerBuf × InsertResult}
    (hr : Counted c.cfg r.1) (hfilled : r.1.filled = (c.tbl i).filled + r.2.gain) (hkey : r.1.key = (c.tbl i).key)
    (d : Datagram) (t : U64) :
    let a : Arrived := match r.2 with
      | .evicted out =>
        let n := reorderNoteDelivery c.cfg r.1 out.seq t
        ⟨{ c with
            tbl := Function.update (Function.update c.tbl i r.1) i n.1
            stats := reorderCountDelivery (reorderCountInsert c.stats r.2) n.2 out.ts t .evicted }, some out.pkt, true⟩
      | res => ⟨{ c with tbl := Function.update c.tbl i r.1, stats := reorderCountInsert c.stats r.2 },
          if reorderMustPassThrough res then some d else none, true⟩
    Tally c a.ctx 1 (handed a.out) := by
  obtain ⟨pb, res⟩ := r
  obtain ⟨hd, hl, hh, hp⟩ := reorderCountInsert_tally c.stats res
  have hlive : (c.tbl i).live = (c.tbl i).filled := live_of_key hk
  have hlive' : pb.live = pb.filled := live_of_key (hkey ▸ hk)
  have hplain : ∀ given, given = (if reorderMustPassThrough res then 1 else 0) → given + res.gain = 1 →
      Tally c { c with tbl := Function.update c.tbl i pb, stats := reorderCountInsert c.stats res } 1 given := by
    intro given hgiven hone
    refine tally_put hc hi hr c.rr ?_ ?_ ?_
    · rw [hd, hl, hp, ← hgiven, hlive, hlive', hfilled]
      dsimp only
      omega
    · rw [hd, hp, ← hgiven]
      omega
    · rw [hd, hh]
  cases res with
  | buffered => exact hplain 0 rfl rfl
  | stale => exact hplain 1 rfl rfl
  | duplicate => exact hplain 1 rfl rfl
  | evicted out =>
    dsimp only
    obtain ⟨hnote, hsum⟩ := reorderNoteDelivery_counted hr out.seq t
    have hnkey := (reorderNoteDelivery_keeps c.cfg pb out.seq t).1
    generalize reorderNoteDelivery c.cfg pb out.seq t = n at hnote hsum hnkey ⊢
    have hnlive : n.1.live = n.1.filled := live_of_key (hnkey.trans hkey ▸ hk)
    obtain ⟨hd', hl', hh', hp'⟩ := reorderCountDelivery_tally (reorderCountInsert c.stats (.evicted out)) n.2 out.ts t
      .evicted
    rw [Function.update_idem]
    refine tally_put hc hi hnote c.rr ?_ ?_ ?_
    · have hnone : pb.filled = (c.tbl i).filled + 0 := hfilled
      rw [hd', hl', hp', hd, hl, hp, hlive, hnlive]
      simp only [reorderMustPassThrough, Bool.false_eq_true, if_false]
      dsimp only at hsum
      omega
    · rw [hd', hp', hd, hp]
      simp only [reorderMustPassThrough, Bool.false_eq_true, if_false, handed, Option.toList_some, List.length_singleton]
      omega
    · rw [hd', hh', hd, hh]
      omega

theorem rxArrive_tally (hc : RxCounted c) {d : Datagram} (hk : reorderKey d.src ≠ 0) (t : U64) :
    Tally c (rxArrive c d t).ctx 1 (handed (rxArrive c d t).out) := by
  unfold rxArrive
  split
  · refine ⟨rfl, hc, ?_, ?_, rfl⟩
    · show c.stats.deliveries + (c.stats.droppedStale + c.stats.droppedDuplicate + (c.stats.bypassTableFull + 1)) +
        c.stats.lost + rxLive c = _
      simp only [ReorderStats.passedOn]
      omega
    · show c.stats.deliveries + (c.stats.droppedStale + c.stats.droppedDuplicate + (c.stats.bypassTableFull + 1)) = _
      simp only [ReorderStats.passedOn, handed, Option.toList_some, List.length_singleton]
      omega
  · next c' i hget =>
    obtain ⟨hi, hkey, hpeer⟩ := reorderGetPeer_tally hc hk hget
    refine (Nat.zero_add 1 ▸ Nat.zero_add (handed _) ▸ hpeer.trans ?_)
    have hk' : (c'.tbl i).key ≠ 0 := hkey ▸ hk
    have hadapt := reorderAdaptOnArrival_same c'.cfg (c'.tbl i) d.seq t
    have hins := reorderInsert_counted ((hpeer.counted i hi hk').same hadapt) d.seq t d
    have hinskey := (reorderInsert_key c'.cfg (reorderAdaptOnArrival c'.cfg (c'.tbl i) d.seq t) d.seq t d).trans
      hadapt.key
    rw [hadapt.filled] at hins
    dsimp only
    generalize reorderInsert c'.cfg (reorderAdaptOnArrival c'.cfg (c'.tbl i) d.seq t) d.seq t d = r at hins hinskey ⊢
    exact insert_tally hpeer.counted hi hk' hins.1 hins.2 hinskey d t

theorem rxRelease_tally (hc : RxCounted c) (t : U64) :
    Tally c (rxRelease c t).ctx 0 (handed (rxRelease c t).out) := by
  have hstep := rxRelease_step c t
  generalize rxRelease c t = r at hstep ⊢
  cases hstep with
  | nothing => exact ⟨rfl, hc, rfl, rfl, rfl⟩
  | take i slot kind hi hkey hpick hslot hu =>
    obtain ⟨hcount, hk', hsum⟩ := reorderTakePeer_counted (hc i hi hkey) hslot hu t
    obtain ⟨hd, hl, hh, hp⟩ := reorderCountDelivery_tally c.stats (reorderTakePeer c.cfg (c.tbl i) slot t).2
      ((c.tbl i).slots slot).ts t kind
    have hlive : (c.tbl i).live = (c.tbl i).filled := live_of_key hkey
    have hlive' : (reorderTakePeer c.cfg (c.tbl i) slot t).1.live =
        (reorderTakePeer c.cfg (c.tbl i) slot t).1.filled := live_of_key (hk' ▸ hkey)
    refine tally_put hc hi hcount ((i + 1) % c.cfg.peers) ?_ ?_ ?_
    · rw [hd, hl, hp, hlive, hlive']
      omega
    · rw [hd, hp]
      simp only [handed, Released.out_some, Option.toList_some, List.length_singleton]
      omega
    · rw [hd, hh]
      omega

/-! ## A run -/

theorem run_tally (hc : RxCounted c) {ops : List RxOp} (hops : ∀ d t, RxOp.arrive d t ∈ ops → reorderKey d.src ≠ 0) :
    Tally c (Machine.final rxStep c ops) (ops.countP RxOp.isArrival)
      ((Machine.outputs rxStep c ops).map handed).sum := by
  induction ops generalizing c with
  | nil => exact ⟨rfl, hc, rfl, rfl, rfl⟩
  | cons op ops ih =>
    have htail : ∀ d t, RxOp.arrive d t ∈ ops → reorderKey d.src ≠ 0 :=
      fun d t h => hops d t (List.mem_cons_of_mem _ h)
    rw [Machine.final_cons, Machine.outputs, List.map_cons, List.sum_cons]
    cases op with
    | arrive d t =>
      have hstep := rxArrive_tally hc (hops d t List.mem_cons_self) t
      rw [List.countP_cons_of_pos rfl, Nat.add_comm]
      exact hstep.trans (ih hstep.counted htail)
    | release t =>
      have hstep := rxRelease_tally hc t
      rw [List.countP_cons_of_neg (by simp [RxOp.isArrival]), ← Nat.zero_add (ops.countP RxOp.isArrival)]
      exact hstep.trans (ih hstep.counted htail)

/-- **The accounting identity.** Every sequenced datagram presented to the buffer is in exactly one counter or
still held by a live entry; every delivery is in the histogram; and what was handed over is what was delivered or
passed on. -/
theorem reorder_accounts (cfg : ReorderCfg) (ops : List RxOp)
    (hsrc : ∀ d t, RxOp.arrive d t ∈ ops → d.src.addr ≠ 0 ∨ d.src.port ≠ 0) :
    let c := Machine.final rxStep (reorderInit cfg) ops
    let st := c.stats
    ops.countP RxOp.isArrival =
        st.deliveredFirst + st.deliveredInOrder + st.deliveredForced + st.deliveredEvicted + st.droppedStale +
          st.droppedDuplicate + st.bypassTableFull + st.purgedStale + st.droppedReclaim +
          ∑ i ∈ Finset.range cfg.peers, (if (c.tbl i).key = 0 then 0 else (c.tbl i).filled) ∧
      ∑ b ∈ Finset.range 6, st.holdHist b =
        st.deliveredFirst + st.deliveredInOrder + st.deliveredForced + st.deliveredEvicted ∧
      ((Machine.outputs rxStep (reorderInit cfg) ops).map handed).sum =
        st.deliveredFirst + st.deliveredInOrder + st.deliveredForced + st.deliveredEvicted + st.droppedStale +
          st.droppedDuplicate + st.bypassTableFull := by
  have hempty : RxCounted (reorderInit cfg) := fun i _ h0 => absurd rfl h0
  have hlive : rxLive (reorderInit cfg) = 0 := Finset.sum_eq_zero fun i _ => rfl
  have htally := run_tally hempty fun d t h => reorderKey_ne_zero (hsrc d t h)
  have hpeers : rxLive (Machine.final rxStep (reorderInit cfg) ops) = ∑ i ∈ Finset.range cfg.peers,
      (if ((Machine.final rxStep (reorderInit cfg) ops).tbl i).key = 0 then 0
        else ((Machine.final rxStep (reorderInit cfg) ops).tbl i).filled) := by
    unfold rxLive PeerBuf.live
    rw [htally.cfg]
    rfl
  have hbooks := htally.books
  have hgiven := htally.given
  have hhist := htally.hist
  rw [hpeers, hlive] at hbooks
  have hzero : (reorderInit cfg).stats.deliveries = 0 ∧ (reorderInit cfg).stats.passedOn = 0 ∧
      (reorderInit cfg).stats.lost = 0 ∧ (reorderInit cfg).stats.histTotal = 0 := ⟨rfl, rfl, rfl, rfl⟩
  obtain ⟨h1, h2, h3, h4⟩ := hzero
  rw [h1, h2, h3] at hbooks
  rw [h1, h2] at hgiven
  rw [h1, h4] at hhist
  simp only [ReorderStats.deliveries, ReorderStats.passedOn, ReorderStats.lost, ReorderStats.histTotal]
    at hbooks hgiven hhist
  refine ⟨?_, ?_, ?_⟩
  · omega
  · omega
  · omega

/-- A first packet, one ahead of the gap, a repeat of the first, and the release over the gap. -/
def gapOps : List RxOp :=
  let from1 := sampleFrom samplePeer
  [.arrive (from1 5) 0, .release 0, .arrive (from1 7) 10, .arrive (from1 5) 20, .release 200]

theorem reorder_accounts_gap :
    let st := (Machine.final rxStep (reorderInit ReorderCfg.default) gapOps).stats
    (st.deliveredFirst = 1 ∧ st.deliveredForced = 1 ∧ st.droppedStale = 1) ∧
      ∑ b ∈ Finset.range 6, st.holdHist b =
        st.deliveredFirst + st.deliveredInOrder + st.deliveredForced + st.deliveredEvicted := by
  refine ⟨by decide +kernel, (reorder_accounts ReorderCfg.default gapOps ?_).2.1⟩
  intro d t h
  simp only [gapOps, List.mem_cons, RxOp.arrive.injEq, reduceCtorEq, List.not_mem_nil, or_false, false_or] at h
  obtain ⟨rfl, -⟩ | ⟨rfl, -⟩ | ⟨rfl, -⟩ := h <;> exact Or.inr (by decide)

end BzNet
