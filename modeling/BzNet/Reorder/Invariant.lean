import BzNet.Reorder.HookCalls

/-!
# What the buffer always keeps

Any calls of the hooks, about sources with an address, on a clock that does not go back.

* `PeerBuf.RingOk` : what the ring of a live entry keeps; `HookOk` : the same with what carries it through a call;
* `Stamped` : a live entry's clock is that of the last call about its source;
* `reorder_ring_invariant` : **all of it, for every run**, and from it that an arrival in the drain loop displaces
  nothing and a release finds a packet ahead wherever it finds one that has waited its time.
-/

namespace BzNet

open Machine

variable {cfg : ReorderCfg} {pb : PeerBuf} {c : ReorderCtx}

/-! ## The table -/

/-- The ring of a live entry: counted, bounded by the depth, no sequence twice, everything ahead of the cursor. -/
structure PeerBuf.RingOk (cfg : ReorderCfg) (pb : PeerBuf) : Prop where
  filled : pb.filled = ((List.range cfg.depth).filter fun j => (pb.slots j).used).length
  noneAbove : ∀ j, cfg.depth ≤ j → (pb.slots j).used = false
  distinct : ∀ i j, i < cfg.depth → j < cfg.depth → (pb.slots i).used = true → (pb.slots j).used = true →
    (pb.slots i).seq = (pb.slots j).seq → i = j
  ahead : pb.seqInit = true → ∀ j, j < cfg.depth → (pb.slots j).used = true → 0 < seqCmp (pb.slots j).seq pb.lastSeq

theorem held_eq_map (cfg : ReorderCfg) (pb : PeerBuf) :
    pb.held cfg = ((List.range cfg.depth).filter fun j => (pb.slots j).used).map pb.slots := by
  rw [PeerBuf.held, Slots.held, List.filter_map]
  rfl

theorem PeerOk.ringOk (h : PeerOk cfg pb) (ha : pb.NoneAbove cfg) : pb.RingOk cfg where
  filled := by rw [h.filled_eq, held_eq_map, List.length_map]
  noneAbove := ha
  distinct i j hi hj hui huj heq := by
    have hnodup := h.nodup
    rw [held_eq_map, List.map_map] at hnodup
    have hmem : ∀ k, k < cfg.depth → (pb.slots k).used = true →
        k ∈ (List.range cfg.depth).filter fun j => (pb.slots j).used :=
      fun k hk hu => List.mem_filter.mpr ⟨List.mem_range.mpr hk, hu⟩
    exact List.inj_on_of_nodup_map hnodup (hmem i hi hui) (hmem j hj huj) heq
  ahead hinit j hj hu := h.ahead hinit _ (Slots.mem_held_of hj hu)

/-- One entry per source, every entry within its depth. -/
structure HookOk (c : ReorderCtx) : Prop where
  rx : RxOk c
  noneAbove : ∀ i, (c.tbl i).NoneAbove c.cfg

theorem reorderInit_hookOk (cfg : ReorderCfg) : HookOk (reorderInit cfg) := ⟨reorderInit_ok cfg, fun _ _ _ => rfl⟩

/-- The source that a call looks up, if it does, has an address. -/
def HookOp.Addressed (op : HookOp) : Prop := op.source? ≠ some 0

instance (op : HookOp) : Decidable op.Addressed := inferInstanceAs (Decidable (_ ≠ _))

theorem HookOp.Addressed.activity {op : HookOp} (h : op.Addressed) {a : U64 × U64} (ha : op.activity c = some a) :
    a.1 ≠ 0 := by
  have hkey : ∀ {k : U64}, op.source? = some k → k ≠ 0 := fun hk h0 => h (hk.trans (congrArg some h0))
  cases op with
  | core op =>
    cases op with
    | arrive d t =>
      simp only [HookOp.activity] at ha
      split at ha
      · cases ha
      · rw [← Option.some.inj ha]
        exact hkey rfl
    | release t =>
      simp only [HookOp.activity] at ha
      have hstep := rxRelease_step c t
      generalize rxRelease c t = r at ha hstep
      cases hstep with
      | nothing hno => cases ha
      | take i slot kind hi hlive hpick hslot hu =>
        rw [← Option.some.inj ha]
        exact hlive
    | nextReady t => cases ha
    | reset => cases ha
    | count st => cases ha
  | peer src t =>
    rw [← Option.some.inj ha]
    exact hkey rfl
  | adapt src seq t =>
    rw [← Option.some.inj ha]
    exact hkey rfl
  | note src seq ts t kind =>
    rw [← Option.some.inj ha]
    exact hkey rfl

/-- An entry of an address that no other entry has, written into the table. -/
theorem HookOk.put (h : HookOk c) {i : Nat} {pb : PeerBuf} (hne : pb.key ≠ 0) (hpb : PeerOk c.cfg pb)
    (ha : pb.NoneAbove c.cfg) (hkey : ∀ j, j < c.cfg.peers → j ≠ i → (c.tbl j).key ≠ pb.key) (rr : Nat)
    (st : ReorderStats) : HookOk ⟨c.cfg, Function.update c.tbl i pb, rr, st⟩ where
  rx := h.rx.put (fun _ => hpb) (fun _ => hkey) fun h0 => absurd h0 hne
  noneAbove j := by
    change (Function.update c.tbl i pb j).NoneAbove c.cfg
    by_cases hji : j = i
    · rw [hji, Function.update_self]
      exact ha
    · rw [Function.update_of_ne hji]
      exact h.noneAbove j

theorem HookOk.step (h : HookOk c) {op : HookOp} (hop : op.Addressed) : HookOk (hookStep c op).1 := by
  obtain ⟨hcfg, htable⟩ := hookStep_table c op
  generalize (hookStep c op).1 = c' at hcfg htable ⊢
  obtain ⟨cfg', tbl', rr, st⟩ := c'
  obtain rfl : cfg' = c.cfg := hcfg
  change TableStep c op tbl' at htable
  cases htable with
  | rest _ => exact ⟨⟨h.rx.distinct, h.rx.entries, h.rx.unused⟩, h.noneAbove⟩
  | rewrite i t pb' hi hact hpb =>
    have hne : (c.tbl i).key ≠ 0 := hop.activity hact
    refine h.put (hpb.key ▸ hne) (hpb.ok (h.rx.entries i hi hne)) (hpb.noneAbove (h.noneAbove i)) ?_ rr st
    intro j hj hji
    rw [hpb.key]
    exact fun heq => hji (h.rx.distinct j i hj hi heq fun h0 => hne (heq ▸ h0))
  | create i k t pb' hi hact hno hidle hpb =>
    have hkey : pb'.key = k := hpb.key
    refine h.put (hkey ▸ hop.activity hact) (hpb.ok (reorderFresh_ok _ _ _)) (hpb.noneAbove fun _ _ => rfl) ?_ rr st
    intro j hj _
    rw [hkey]
    exact hno j hj
  | forget _ => exact ⟨.empty c.cfg rr st, fun _ _ _ => rfl⟩

/-! ## The clock -/

def Ticks (ops : List HookOp) : Prop := (ops.filterMap HookOp.time?).Pairwise (· ≤ ·)

instance (ops : List HookOp) : Decidable (Ticks ops) := inferInstanceAs (Decidable (List.Pairwise _ _))

section Run
variable (cfg : ReorderCfg) (ops : List HookOp)

def hookAt (k : Nat) : ReorderCtx := stateAt hookStep (reorderInit cfg) ops k

/-- The source that call `k` is about, and when. -/
def activityAt (k : Nat) : Option (U64 × U64) := ops[k]?.bind fun op => op.activity (hookAt cfg ops k)

abbrev entryAt (k i : Nat) : PeerBuf := (hookAt cfg ops k).tbl i

/-- Before call `k` the clock of a live entry is no earlier than any call about its source so far, and no later than
any call from now on. -/
structure Clocked (k : Nat) : Prop where
  past : ∀ i, i < cfg.peers → (entryAt cfg ops k i).key ≠ 0 → ∀ j t, j < k →
    activityAt cfg ops j = some ((entryAt cfg ops k i).key, t) → t ≤ (entryAt cfg ops k i).lastActivityMs
  future : ∀ i, i < cfg.peers → (entryAt cfg ops k i).key ≠ 0 → ∀ j t, k ≤ j →
    ops[j]?.bind HookOp.time? = some t → (entryAt cfg ops k i).lastActivityMs ≤ t

end Run

section
variable {ops : List HookOp} {k : Nat} {op : HookOp}

theorem Ticks.le (h : Ticks ops) {j : Nat} {t t' : U64} (hjk : j ≤ k) (ht : ops[j]?.bind HookOp.time? = some t)
    (ht' : ops[k]?.bind HookOp.time? = some t') : t ≤ t' := by
  rcases Nat.lt_or_eq_of_le hjk with hlt | rfl
  · obtain ⟨a, ha, hat⟩ := Option.bind_eq_some_iff.mp ht
    obtain ⟨b, hb, hbt⟩ := Option.bind_eq_some_iff.mp ht'
    obtain ⟨hj, rfl⟩ := List.getElem?_eq_some_iff.mp ha
    obtain ⟨hk, rfl⟩ := List.getElem?_eq_some_iff.mp hb
    exact List.pairwise_iff_getElem.mp (List.pairwise_filterMap.mp h) j k hj hk hlt t hat t' hbt
  · rw [ht] at ht'
    obtain rfl := Option.some.inj ht'
    exact BitVec.le_refl t

theorem activityAt_time {a : U64 × U64} (h : activityAt cfg ops k = some a) :
    ops[k]?.bind HookOp.time? = some a.2 := by
  obtain ⟨op, hop, hact⟩ := Option.bind_eq_some_iff.mp h
  rw [hop]
  exact HookOp.activity_time hact

theorem hookAt_succ (h : ops[k]? = some op) : hookAt cfg ops (k + 1) = (hookStep (hookAt cfg ops k) op).1 :=
  stateAt_succ hookStep (reorderInit cfg) h

theorem hookAt_ok (cfg : ReorderCfg) (hops : ∀ op ∈ ops, op.Addressed) (hk : k ≤ ops.length) :
    (hookAt cfg ops k).cfg = cfg ∧ HookOk (hookAt cfg ops k) := by
  refine stateAt_keeps (P := fun c => c.cfg = cfg ∧ HookOk c) (Nat.zero_le k) hk ?_ ?_
  · rw [stateAt_zero]
    exact ⟨rfl, reorderInit_hookOk cfg⟩
  · rintro j op - - hop ⟨hcfg, hok⟩
    exact ⟨(hookStep_table _ op).1.trans hcfg, hok.step (hops op (List.mem_of_getElem? hop))⟩

theorem clocked_zero (cfg : ReorderCfg) (ops : List HookOp) : Clocked cfg ops 0 := by
  have hzero : ∀ i, (entryAt cfg ops 0 i).key = 0 := by
    intro i
    rw [entryAt, hookAt, stateAt_zero]
    rfl
  exact ⟨fun i _ hne => absurd (hzero i) hne, fun i _ hne => absurd (hzero i) hne⟩

/-- What `Clocked` says of one entry. -/
structure ClockedAt (cfg : ReorderCfg) (ops : List HookOp) (k i : Nat) : Prop where
  past : ∀ j t, j < k → activityAt cfg ops j = some ((entryAt cfg ops k i).key, t) →
    t ≤ (entryAt cfg ops k i).lastActivityMs
  future : ∀ j t, k ≤ j → ops[j]?.bind HookOp.time? = some t → (entryAt cfg ops k i).lastActivityMs ≤ t

theorem Clocked.entry (h : Clocked cfg ops k) {i : Nat} (hi : i < cfg.peers) (hne : (entryAt cfg ops k i).key ≠ 0) :
    ClockedAt cfg ops k i := ⟨h.past i hi hne, h.future i hi hne⟩

theorem ClockedAt.kept {i : Nat} (h : ClockedAt cfg ops k i)
    (hother : ∀ a, activityAt cfg ops k = some a → (entryAt cfg ops k i).key ≠ a.1)
    (heq : entryAt cfg ops (k + 1) i = entryAt cfg ops k i) : ClockedAt cfg ops (k + 1) i := by
  constructor
  · intro j t hj ha
    rw [heq] at ha ⊢
    rcases Nat.lt_succ_iff_lt_or_eq.mp hj with hlt | rfl
    · exact h.past j t hlt ha
    · exact absurd rfl (hother _ ha)
  · intro j t hj ht
    rw [heq]
    exact h.future j t (by omega) ht

theorem clockedAt_active {i : Nat} {key t : U64} (hticks : Ticks ops) (hact : activityAt cfg ops k = some (key, t))
    (hlast : (entryAt cfg ops (k + 1) i).lastActivityMs = t) : ClockedAt cfg ops (k + 1) i := by
  have ht := activityAt_time hact
  constructor
  · intro j t' hj ha
    rw [hlast]
    exact hticks.le (Nat.lt_succ_iff.mp hj) (activityAt_time ha) ht
  · intro j t' hj ht'
    rw [hlast]
    exact hticks.le (by omega) ht ht'

theorem Clocked.step (h : Clocked cfg ops k) (hops : ∀ op ∈ ops, op.Addressed) (hticks : Ticks ops)
    (hop : ops[k]? = some op) : Clocked cfg ops (k + 1) := by
  have hk : k < ops.length := (List.getElem?_eq_some_iff.mp hop).1
  obtain ⟨hcfg, hok⟩ := hookAt_ok cfg hops (Nat.le_of_lt hk)
  have hactive : activityAt cfg ops k = op.activity (hookAt cfg ops k) := by rw [activityAt, hop]; rfl
  have htable := (hookStep_table (hookAt cfg ops k) op).2
  rw [← hookAt_succ hop] at htable
  have hentries : ∀ i, i < cfg.peers → (entryAt cfg ops (k + 1) i).key ≠ 0 → ClockedAt cfg ops (k + 1) i := by
    intro i hi hne
    have hi' : i < (hookAt cfg ops k).cfg.peers := hcfg.symm ▸ hi
    have hwrite : ∀ e pb', (hookAt cfg ops (k + 1)).tbl = Function.update (hookAt cfg ops k).tbl e pb' →
        entryAt cfg ops (k + 1) i = if i = e then pb' else entryAt cfg ops k i := by
      intro e pb' htbl
      rw [entryAt, htbl, Function.update_apply]
    generalize htbl : (hookAt cfg ops (k + 1)).tbl = tbl' at htable
    cases htable with
    | rest hno =>
      have heq : entryAt cfg ops (k + 1) i = entryAt cfg ops k i := congrFun htbl i
      exact (h.entry hi (heq ▸ hne)).kept (fun a ha => hno a (hactive.symm.trans ha) i hi') heq
    | rewrite e t pb' he hact hpb =>
      have hentry := hwrite e pb' htbl
      by_cases hie : i = e
      · rw [if_pos hie] at hentry
        exact clockedAt_active hticks (hactive.trans hact) (hentry ▸ hpb.active)
      · rw [if_neg hie] at hentry
        have hne : (entryAt cfg ops k i).key ≠ 0 := hentry ▸ hne
        refine (h.entry hi hne).kept (fun a ha heq => hie ?_) hentry
        rw [hactive, hact] at ha
        obtain rfl := Option.some.inj ha
        exact hok.rx.distinct i e hi' he heq hne
    | create e key t pb' he hact hno hidle hpb =>
      have hentry := hwrite e pb' htbl
      by_cases hie : i = e
      · rw [if_pos hie] at hentry
        exact clockedAt_active hticks (hactive.trans hact) (hentry ▸ hpb.active)
      · rw [if_neg hie] at hentry
        refine (h.entry hi (hentry ▸ hne)).kept (fun a ha => ?_) hentry
        rw [hactive, hact] at ha
        obtain rfl := Option.some.inj ha
        exact hno i hi'
    | forget _ =>
      have hzero : entryAt cfg ops (k + 1) i = PeerBuf.zero := congrFun htbl i
      exact absurd (congrArg PeerBuf.key hzero) hne
  exact ⟨fun i hi hne => (hentries i hi hne).past, fun i hi hne => (hentries i hi hne).future⟩

theorem clocked (cfg : ReorderCfg) (hops : ∀ op ∈ ops, op.Addressed) (hticks : Ticks ops) (hk : k ≤ ops.length) :
    Clocked cfg ops k := by
  induction k with
  | zero => exact clocked_zero cfg ops
  | succ k ih => exact (ih (by omega)).step hops hticks (List.getElem?_eq_getElem (by omega))

/-- **An entry goes to another source** only after half a minute without a call about its own. -/
theorem overwritten_idle (hops : ∀ op ∈ ops, op.Addressed) (hticks : Ticks ops) (hop : ops[k]? = some op) {i : Nat}
    (hi : i < cfg.peers) (hlive : (entryAt cfg ops k i).key ≠ 0) (hafter : (entryAt cfg ops (k + 1) i).key ≠ 0)
    (hother : (entryAt cfg ops (k + 1) i).key ≠ (entryAt cfg ops k i).key) :
    ∃ t, op.time? = some t ∧ ∀ j t', j < k → activityAt cfg ops j = some ((entryAt cfg ops k i).key, t') →
      t'.toNat + 30000 ≤ t.toNat := by
  have hk : k < ops.length := (List.getElem?_eq_some_iff.mp hop).1
  obtain ⟨hcfg, -⟩ := hookAt_ok cfg hops (Nat.le_of_lt hk)
  have hclock := clocked cfg hops hticks (Nat.le_of_lt hk)
  have htable := (hookStep_table (hookAt cfg ops k) op).2
  rw [← hookAt_succ hop] at htable
  generalize htbl : (hookAt cfg ops (k + 1)).tbl = tbl' at htable
  have hentry : entryAt cfg ops (k + 1) i = tbl' i := congrFun htbl i
  rw [hentry] at hafter hother
  cases htable with
  | rest _ => exact absurd rfl hother
  | rewrite e t pb' he hact hpb =>
    by_cases hie : i = e
    · subst hie
      rw [Function.update_self, hpb.key] at hother
      exact absurd rfl hother
    · rw [Function.update_of_ne hie] at hother
      exact absurd rfl hother
  | create e key t pb' he hact hno hidle hpb =>
    by_cases hie : i = e
    · subst hie
      have htime := HookOp.activity_time hact
      have hlater : (entryAt cfg ops k i).lastActivityMs ≤ t :=
        hclock.future i hi hlive k t (Nat.le_refl k) (by rw [hop]; exact htime)
      have hidle := BitVec.le_def.mp (hidle.resolve_left hlive)
      rw [BitVec.toNat_sub_of_le hlater] at hidle
      have hlater := BitVec.le_def.mp hlater
      refine ⟨t, htime, fun j t' hj ha => ?_⟩
      have hearlier := BitVec.le_def.mp (hclock.past i hi hlive j t' hj ha)
      change 30000 ≤ t.toNat - (entryAt cfg ops k i).lastActivityMs.toNat at hidle
      omega
    · rw [Function.update_of_ne hie] at hother
      exact absurd rfl hother
  | forget _ => exact absurd rfl hafter

end

/-! ## Branches that are never taken -/

/-- The nearest packet ahead among those that have waited their time. -/
def reorderBestAhead (cfg : ReorderCfg) (pb : PeerBuf) (now : U64) : Option Nat :=
  Slots.best cfg.depth (fun i => pb.isAged cfg now i && seqAheadOrEqual (pb.slots i).seq (seqNext pb.lastSeq))
    fun i b => (pb.slots i).seq - seqNext pb.lastSeq < (pb.slots b).seq - seqNext pb.lastSeq

/-- The earliest arrival among those. -/
def reorderBestOldest (cfg : ReorderCfg) (pb : PeerBuf) (now : U64) : Option Nat :=
  Slots.best cfg.depth (pb.isAged cfg now) fun i b => (pb.slots i).ts < (pb.slots b).ts

theorem reorderPickAged_eq (cfg : ReorderCfg) (pb : PeerBuf) (now : U64) :
    reorderPickAged cfg pb now = (reorderBestAhead cfg pb now).or (reorderBestOldest cfg pb now) := rfl

/-- **No fallback**: with everything ahead of the cursor, whatever has waited its time is not behind the successor. -/
theorem PeerOk.no_fallback (h : PeerOk cfg pb) (hinit : pb.seqInit = true) {now : U64}
    (hnone : reorderBestAhead cfg pb now = none) : reorderBestOldest cfg pb now = none := by
  refine Slots.best_none.mpr fun j hj => ?_
  have hnot := Slots.best_none.mp hnone j hj
  by_contra haged
  rw [Bool.not_eq_false] at haged
  have hu : (pb.slots j).used = true := by
    unfold PeerBuf.isAged at haged
    rw [Bool.and_eq_true, Bool.and_eq_true] at haged
    exact haged.1.1
  rw [haged, Bool.true_and, seqAheadOrEqual_next (h.ahead hinit _ (Slots.mem_held_of hj hu))] at hnot
  cases hnot

/-- **No eviction**: while no ring is full, an arrival of a source with an address displaces nothing. -/
theorem HookOk.no_eviction (h : HookOk c) (hsat : reorderDrainSaturated c = false) {d : Datagram}
    (hkey : reorderKey d.src ≠ 0) (t : U64) (out : ReorderSlot) : insertResultOf c d t ≠ some (.evicted out) := by
  unfold insertResultOf
  rcases reorderGetPeer_cases c d.src t with ⟨-, hget⟩ | ⟨i, pb, lost, st, hi, hent, hget, -⟩
  · rw [hget]
    exact nofun
  · rw [hget]
    simp only [Option.map_some, Function.update_self]
    have hent' := hent.adapt (reorderAdaptOnArrival_same c.cfg pb d.seq t)
    rcases reorderInsert_cases (hent'.ok h.rx hi hkey) (hent'.room hsat hi hkey) d.seq t d with
      ⟨-, -, hins⟩ | ⟨-, hins⟩ | ⟨-, -, j, -, -, hins⟩
    · rw [hins]
      exact nofun
    · rw [hins]
      exact nofun
    · rw [hins]
      exact nofun

/-! ## Every run -/

/-- **The representation invariant.** Whatever calls the hooks make, about sources with an address and on a clock that
does not go back: before each of them the ring of every live entry is in order and no two live entries are of one
source; an entry goes to another source only half a minute after the last call about its own; an arrival in the drain
loop displaces nothing; and where nothing ahead has waited its time, nothing has. The synchronous hooks and the close
only make such calls. -/
theorem reorder_ring_invariant (cfg : ReorderCfg) (ops : List HookOp) (hops : ∀ op ∈ ops, op.Addressed)
    (hticks : Ticks ops) :
    (∀ k i, k ≤ ops.length → i < cfg.peers → (entryAt cfg ops k i).key ≠ 0 →
      (entryAt cfg ops k i).RingOk cfg ∧
        ∀ j, j < cfg.peers → (entryAt cfg ops k j).key = (entryAt cfg ops k i).key → j = i) ∧
    (∀ k op i, ops[k]? = some op → i < cfg.peers → (entryAt cfg ops k i).key ≠ 0 →
      (entryAt cfg ops (k + 1) i).key ≠ 0 → (entryAt cfg ops (k + 1) i).key ≠ (entryAt cfg ops k i).key →
      ∃ t, op.time? = some t ∧ ∀ j t', j < k → activityAt cfg ops j = some ((entryAt cfg ops k i).key, t') →
        t'.toNat + 30000 ≤ t.toNat) ∧
    (∀ k d t out, ops[k]? = some (.core (.arrive d t)) → reorderDrainSaturated (hookAt cfg ops k) = false →
      insertResultOf (hookAt cfg ops k) d t ≠ some (.evicted out)) ∧
    (∀ k i now, k ≤ ops.length → i < cfg.peers → (entryAt cfg ops k i).key ≠ 0 →
      (entryAt cfg ops k i).seqInit = true →
      (∀ j, j < cfg.depth → ((entryAt cfg ops k i).slots j).used = true →
        ((entryAt cfg ops k i).slots j).seq ≠ seqNext (entryAt cfg ops k i).lastSeq) →
      reorderBestAhead cfg (entryAt cfg ops k i) now = none →
      reorderBestOldest cfg (entryAt cfg ops k i) now = none) ∧
    ∀ drain calls, (final sockStep (rxInit cfg drain) calls).rx =
      final hookStep (reorderInit cfg) (callsOf sockStep sockOps (rxInit cfg drain) calls) := by
  have hat : ∀ k, k ≤ ops.length → (hookAt cfg ops k).cfg = cfg ∧ HookOk (hookAt cfg ops k) :=
    fun _ hk => hookAt_ok cfg hops hk
  have hentry : ∀ k i, k ≤ ops.length → i < cfg.peers → (entryAt cfg ops k i).key ≠ 0 →
      PeerOk cfg (entryAt cfg ops k i) := by
    intro k i hk hi hlive
    obtain ⟨hcfg, hok⟩ := hat k hk
    have := hok.rx.entries i (hcfg.symm ▸ hi) hlive
    rwa [hcfg] at this
  refine ⟨fun k i hk hi hlive => ⟨?_, fun j hj heq => ?_⟩, fun k op i hop hi hlive hafter hother => ?_,
    fun k d t out hop hsat => ?_, fun k i now hk hi hlive hinit _ => ?_, sockRun_hookOps cfg⟩
  · obtain ⟨hcfg, hok⟩ := hat k hk
    have hnone := hok.noneAbove i
    rw [hcfg] at hnone
    exact (hentry k i hk hi hlive).ringOk hnone
  · obtain ⟨hcfg, hok⟩ := hat k hk
    exact hok.rx.distinct j i (hcfg.symm ▸ hj) (hcfg.symm ▸ hi) heq fun h0 => hlive (heq ▸ h0)
  · exact overwritten_idle hops hticks hop hi hlive hafter hother
  · obtain ⟨-, hok⟩ := hat k (Nat.le_of_lt (List.getElem?_eq_some_iff.mp hop).1)
    have haddr := hops _ (List.mem_of_getElem? hop)
    exact hok.no_eviction hsat (fun h0 => haddr (congrArg some h0)) t out
  · exact (hentry k i hk hi hlive).no_fallback hinit

def oneEntry : ReorderCfg := { ReorderCfg.default with peers := 1, peers_pos := by decide, peers_le := by decide }

/-- The first source is heard, released and, ten seconds later, looked up; 30 s after that another one takes its
place. -/
def takeoverOps : List HookOp :=
  [.core (.arrive (sampleFrom samplePeer 5) 1000), .core (.release 1010), .peer samplePeer 11000,
    .core (.arrive (sampleFrom ⟨2, 0x0a000063, 7⟩ 9) 40000), .core (.arrive (sampleFrom ⟨2, 0x0a000063, 7⟩ 9) 41000)]

theorem reorder_ring_invariant_takeover :
    ((entryAt oneEntry takeoverOps 4 0).key = reorderKey samplePeer ∧
      (entryAt oneEntry takeoverOps 5 0).key = reorderKey ⟨2, 0x0a000063, 7⟩) ∧
      (entryAt oneEntry takeoverOps 5 0).RingOk oneEntry ∧
      ∃ t : U64, t.toNat = 41000 ∧ ∀ j t', j < 4 →
        activityAt oneEntry takeoverOps j = some (reorderKey samplePeer, t') → t'.toNat + 30000 ≤ t.toNat := by
  have hrun := reorder_ring_invariant oneEntry takeoverOps (by decide) (by decide)
  have hkeys : (entryAt oneEntry takeoverOps 4 0).key = reorderKey samplePeer ∧
      (entryAt oneEntry takeoverOps 5 0).key = reorderKey ⟨2, 0x0a000063, 7⟩ := by decide +kernel
  refine ⟨hkeys, (hrun.1 5 0 (by decide) (by decide) ?_).1, ?_⟩
  · rw [hkeys.2]
    decide
  · obtain ⟨t, ht, hidle⟩ := hrun.2.1 4 (.core (.arrive (sampleFrom ⟨2, 0x0a000063, 7⟩ 9) 41000)) 0 rfl (by decide)
      (by rw [hkeys.1]; decide) (by rw [hkeys.2]; decide) (by rw [hkeys.1, hkeys.2]; decide)
    rw [hkeys.1] at hidle
    exact ⟨t, by rw [← Option.some.inj ht]; rfl, hidle⟩

end BzNet
