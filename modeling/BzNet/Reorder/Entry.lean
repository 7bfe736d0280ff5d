import BzNet.Reorder.Core

/-!
# One entry of the reorder buffer

* `PeerBuf.held` : the occupied slots of an entry; `PeerOk` : what every live entry keeps, above all that
  everything held is ahead of the cursor;
* `reorderInsert_cases` : what an arrival does to an entry;
* `reorderPurgeStale_spec`, `reorderTakePeer_held` : what a release hands over, keeps and destroys;
* `reorderPick_cases`, `reorderPick_inOrder`, `reorderPick_first` : what is released;
* `overtaken_inOrder`, `overtaken_first` : the releases that destroy nothing.
-/

namespace BzNet

variable {cfg : ReorderCfg} {pb : PeerBuf}

/-- The occupied slots. -/
def PeerBuf.held (cfg : ReorderCfg) (pb : PeerBuf) : List ReorderSlot :=
  Slots.held ReorderSlot.used cfg.depth pb.slots

structure PeerOk (cfg : ReorderCfg) (pb : PeerBuf) : Prop where
  filled_eq : pb.filled = (pb.held cfg).length
  nodup : ((pb.held cfg).map ReorderSlot.seq).Nodup
  seq_eq : ∀ s ∈ pb.held cfg, s.seq = s.pkt.seq
  key_eq : ∀ s ∈ pb.held cfg, reorderKey s.pkt.src = pb.key
  ahead : pb.seqInit = true → ∀ s ∈ pb.held cfg, 0 < seqCmp s.seq pb.lastSeq

theorem mem_held_used {s : ReorderSlot} (h : s ∈ pb.held cfg) : s.used = true := by
  obtain ⟨_, _, _, hu⟩ := Slots.mem_held.mp h
  exact hu

theorem PeerOk.of_held {pb' : PeerBuf} (h : PeerOk cfg pb) (hheld : pb'.held cfg = pb.held cfg)
    (hfilled : pb'.filled = pb.filled) (hkey : pb'.key = pb.key) (hinit : pb'.seqInit = pb.seqInit)
    (hlast : pb'.lastSeq = pb.lastSeq) : PeerOk cfg pb' where
  filled_eq := by rw [hfilled, hheld, h.filled_eq]
  nodup := hheld ▸ h.nodup
  seq_eq := hheld ▸ h.seq_eq
  key_eq := by
    rw [hheld, hkey]
    exact h.key_eq
  ahead := by
    rw [hinit, hheld, hlast]
    exact h.ahead

@[simp] theorem reorderFresh_held (key now : U64) : (reorderFresh cfg key now).held cfg = [] := by
  refine List.eq_nil_iff_forall_not_mem.mpr fun s hs => ?_
  obtain ⟨i, -, rfl, hu⟩ := Slots.mem_held.mp hs
  cases hu

theorem reorderFresh_ok (cfg : ReorderCfg) (key now : U64) : PeerOk cfg (reorderFresh cfg key now) where
  filled_eq := by
    rw [reorderFresh_held]
    rfl
  nodup := by simp
  seq_eq := by simp
  key_eq := by simp
  ahead := nofun

theorem zero_held (cfg : ReorderCfg) : PeerBuf.zero.held cfg = [] := by
  refine List.eq_nil_iff_forall_not_mem.mpr fun s hs => ?_
  obtain ⟨j, -, rfl, hu⟩ := Slots.mem_held.mp hs
  cases hu

/-! ## Adaptation and decay leave the packets alone -/

/-- The hold window and its clock are all that differs. -/
structure SameButWindow (a b : PeerBuf) : Prop where
  key : a.key = b.key
  seqInit : a.seqInit = b.seqInit
  lastSeq : a.lastSeq = b.lastSeq
  filled : a.filled = b.filled
  slots : a.slots = b.slots

theorem SameButWindow.refl (pb : PeerBuf) : SameButWindow pb pb := ⟨rfl, rfl, rfl, rfl, rfl⟩

theorem SameButWindow.held {a b : PeerBuf} (h : SameButWindow a b) (cfg : ReorderCfg) : a.held cfg = b.held cfg := by
  rw [PeerBuf.held, h.slots]
  rfl

theorem SameButWindow.ok {a b : PeerBuf} (h : SameButWindow a b) (hb : PeerOk cfg b) : PeerOk cfg a :=
  hb.of_held (h.held cfg) h.filled h.key h.seqInit h.lastSeq

theorem reorderGrow_same (cfg : ReorderCfg) (pb : PeerBuf) (measured now : U64) :
    SameButWindow (reorderGrow cfg pb measured now) pb := by
  unfold reorderGrow
  dsimp only
  repeat' split
  all_goals exact ⟨rfl, rfl, rfl, rfl, rfl⟩

theorem reorderAdaptOnArrival_same (cfg : ReorderCfg) (pb : PeerBuf) (seq : U32) (now : U64) :
    SameButWindow (reorderAdaptOnArrival cfg pb seq now) pb := by
  unfold reorderAdaptOnArrival
  repeat' split
  all_goals first | exact SameButWindow.refl pb | exact reorderGrow_same cfg pb _ now

theorem reorderDecay_same (cfg : ReorderCfg) (pb : PeerBuf) (now : U64) : SameButWindow (reorderDecay cfg pb now) pb := by
  unfold reorderDecay
  dsimp only
  repeat' split
  all_goals exact ⟨rfl, rfl, rfl, rfl, rfl⟩

/-! ## Insertion -/

theorem exists_free (h : PeerOk cfg pb) (hroom : pb.filled < cfg.depth) :
    ∃ i, (List.range cfg.depth).find? (fun i => !(pb.slots i).used) = some i := by
  by_contra hno
  rw [not_exists] at hno
  have hnone := Option.eq_none_iff_forall_ne_some.mpr hno
  rw [List.find?_eq_none] at hnone
  have hall : pb.held cfg = (List.range cfg.depth).map pb.slots := by
    rw [PeerBuf.held, Slots.held, List.filter_eq_self]
    intro s hs
    obtain ⟨i, hi, rfl⟩ := List.mem_map.mp hs
    simpa using hnone i hi
  have hlen := h.filled_eq
  rw [hall, List.length_map, List.length_range] at hlen
  omega

/-- **An insertion, by cases**: behind the cursor, a repeat of something held, or held itself. -/
theorem reorderInsert_cases (h : PeerOk cfg pb) (hroom : pb.filled < cfg.depth) (seq : U32) (ts : U64)
    (pkt : Datagram) :
    (pb.seqInit = true ∧ seqCmp seq pb.lastSeq ≤ 0 ∧ reorderInsert cfg pb seq ts pkt = (pb, .stale)) ∨
    ((∃ s ∈ pb.held cfg, s.seq = seq) ∧ reorderInsert cfg pb seq ts pkt = (pb, .duplicate)) ∨
    ((pb.seqInit = true → 0 < seqCmp seq pb.lastSeq) ∧ (∀ s ∈ pb.held cfg, s.seq ≠ seq) ∧
      ∃ i, i < cfg.depth ∧ (pb.slots i).used = false ∧ reorderInsert cfg pb seq ts pkt =
        ({ pb with slots := Function.update pb.slots i ⟨ts, seq, true, pkt⟩, filled := pb.filled + 1 }, .buffered)) := by
  by_cases hst : pb.seqInit = true ∧ seqCmp seq pb.lastSeq ≤ 0
  · exact Or.inl ⟨hst.1, hst.2, by rw [reorderInsert, if_pos hst]⟩
  · right
    cases hf : (List.range cfg.depth).find? (fun i => (pb.slots i).used && (pb.slots i).seq == seq) with
    | some i =>
      left
      have hp := List.find?_some hf
      have hi := List.mem_range.mp (List.mem_of_find?_eq_some hf)
      rw [Bool.and_eq_true, beq_iff_eq] at hp
      refine ⟨⟨_, Slots.mem_held_of hi hp.1, hp.2⟩, ?_⟩
      rw [reorderInsert, if_neg hst, hf]
    | none =>
      right
      obtain ⟨i, hi⟩ := exists_free h hroom
      refine ⟨fun hinit => Int.not_le.mp fun hle => hst ⟨hinit, hle⟩, fun s hs heq => ?_, i, ?_, ?_, ?_⟩
      · obtain ⟨j, hj, rfl, hu⟩ := Slots.mem_held.mp hs
        have := List.find?_eq_none.mp hf j (List.mem_range.mpr hj)
        simp [hu, heq] at this
      · exact List.mem_range.mp (List.mem_of_find?_eq_some hi)
      · simpa using List.find?_some hi
      · rw [reorderInsert, if_neg hst, hf, hi]

section Fill
variable {i : Nat} {seq : U32} {ts : U64} {pkt : Datagram}

abbrev PeerBuf.fill (pb : PeerBuf) (i : Nat) (s : ReorderSlot) : PeerBuf :=
  { pb with slots := Function.update pb.slots i s, filled := pb.filled + 1 }

theorem fill_held (hi : i < cfg.depth) (hfree : (pb.slots i).used = false) :
    List.Perm ((pb.fill i ⟨ts, seq, true, pkt⟩).held cfg) (⟨ts, seq, true, pkt⟩ :: pb.held cfg) :=
  Slots.held_fill hi hfree rfl

theorem fill_ok (h : PeerOk cfg pb) (hi : i < cfg.depth) (hfree : (pb.slots i).used = false)
    (hahead : pb.seqInit = true → 0 < seqCmp seq pb.lastSeq) (hnew : ∀ s ∈ pb.held cfg, s.seq ≠ seq)
    (hseq : seq = pkt.seq) (hkey : reorderKey pkt.src = pb.key) : PeerOk cfg (pb.fill i ⟨ts, seq, true, pkt⟩) := by
  have hperm : List.Perm ((pb.fill i ⟨ts, seq, true, pkt⟩).held cfg) (⟨ts, seq, true, pkt⟩ :: pb.held cfg) :=
    fill_held hi hfree
  have hmem : ∀ s, s ∈ (pb.fill i ⟨ts, seq, true, pkt⟩).held cfg → s = ⟨ts, seq, true, pkt⟩ ∨ s ∈ pb.held cfg :=
    fun s hs => List.mem_cons.mp (hperm.mem_iff.mp hs)
  constructor
  · rw [hperm.length_eq, List.length_cons, ← h.filled_eq]
  · rw [(hperm.map ReorderSlot.seq).nodup_iff, List.map_cons, List.nodup_cons]
    refine ⟨fun hm => ?_, h.nodup⟩
    obtain ⟨s, hs, heq⟩ := List.mem_map.mp hm
    exact hnew s hs heq
  · intro s hs
    rcases hmem s hs with rfl | hs
    · exact hseq
    · exact h.seq_eq s hs
  · intro s hs
    rcases hmem s hs with rfl | hs
    · exact hkey
    · exact h.key_eq s hs
  · intro hinit s hs
    rcases hmem s hs with rfl | hs
    · exact hahead hinit
    · exact h.ahead hinit s hs

end Fill

theorem reorderInsert_frame (cfg : ReorderCfg) (pb : PeerBuf) (seq : U32) (ts : U64) (pkt : Datagram) :
    ∃ slots filled, (reorderInsert cfg pb seq ts pkt).1 = { pb with slots := slots, filled := filled } := by
  unfold reorderInsert
  repeat' split
  all_goals exact ⟨_, _, rfl⟩

theorem reorderInsert_key (cfg : ReorderCfg) (pb : PeerBuf) (seq : U32) (ts : U64) (pkt : Datagram) :
    (reorderInsert cfg pb seq ts pkt).1.key = pb.key := by
  obtain ⟨slots, filled, hins⟩ := reorderInsert_frame cfg pb seq ts pkt
  rw [hins]

/-- Whatever an insertion does, it adds no packet but its own, and it displaces only what was held. -/
theorem reorderInsert_held (cfg : ReorderCfg) (pb : PeerBuf) (seq : U32) (ts : U64) (pkt : Datagram) :
    (∀ s ∈ (reorderInsert cfg pb seq ts pkt).1.held cfg, s ∈ pb.held cfg ∨ s.pkt = pkt) ∧
      ∀ out, (reorderInsert cfg pb seq ts pkt).2 = .evicted out → out ∈ pb.held cfg := by
  have hput : ∀ i new, new.pkt = pkt → ∀ s ∈ Slots.held ReorderSlot.used cfg.depth (Function.update pb.slots i new),
      s ∈ pb.held cfg ∨ s.pkt = pkt := by
    intro i new hnew s hs
    obtain ⟨j, hj, heq, hu⟩ := Slots.mem_held.mp hs
    by_cases hji : j = i
    · rw [hji, Function.update_self] at heq
      exact Or.inr (heq ▸ hnew)
    · rw [Function.update_of_ne hji] at heq
      exact Or.inl (Slots.mem_held.mpr ⟨j, hj, heq, hu⟩)
  unfold reorderInsert
  split
  · exact ⟨fun s hs => Or.inl hs, nofun⟩
  · split
    · exact ⟨fun s hs => Or.inl hs, nofun⟩
    · split
      · exact ⟨hput _ _ rfl, nofun⟩
      · next hfull =>
        refine ⟨hput _ _ rfl, ?_⟩
        rintro _ ⟨⟩
        have hlt : reorderOldestSlot cfg pb < cfg.depth := Slots.pick_lt _ cfg.depth_pos
        have hu := List.find?_eq_none.mp hfull _ (List.mem_range.mpr hlt)
        exact Slots.mem_held_of hlt (by simpa using hu)

/-! ## The stale purge -/

def PeerBuf.stale (pb : PeerBuf) (s : ReorderSlot) : Bool := s.used && decide (seqCmp s.seq pb.lastSeq ≤ 0)

theorem isStale_eq (pb : PeerBuf) (i : Nat) : pb.isStale i = pb.stale (pb.slots i) := rfl

/-- The slots after the pass of the purge over the first `k`. -/
def PeerBuf.purgedSlots (pb : PeerBuf) (k : Nat) (i : Nat) : ReorderSlot :=
  if i < k ∧ pb.isStale i = true then { pb.slots i with used := false } else pb.slots i

theorem purgedSlots_succ_stale {k : Nat} (h : pb.isStale k = true) :
    pb.purgedSlots (k + 1) = Function.update (pb.purgedSlots k) k { pb.slots k with used := false } := by
  funext i
  by_cases hik : i = k
  · subst hik
    simp [PeerBuf.purgedSlots, h]
  · have hlt : i < k + 1 ↔ i < k := by omega
    simp [PeerBuf.purgedSlots, hik, hlt]

theorem purgedSlots_succ_keep {k : Nat} (h : pb.isStale k = false) : pb.purgedSlots (k + 1) = pb.purgedSlots k := by
  funext i
  by_cases hik : i = k
  · subst hik
    simp [PeerBuf.purgedSlots, h]
  · have hlt : i < k + 1 ↔ i < k := by omega
    simp [PeerBuf.purgedSlots, hlt]

/-- The pass of the purge over the first `k` slots. -/
theorem purge_pass (pb : PeerBuf) (k : Nat) :
    (List.range k).foldl (fun s i => if s.1.isStale i then (s.1.release i, s.2 + 1) else s) (pb, 0) =
      ({ pb with
          slots := pb.purgedSlots k
          filled := pb.filled - ((List.range k).filter pb.isStale).length },
        ((List.range k).filter pb.isStale).length) := by
  induction k with
  | zero =>
    have hslots : pb.purgedSlots 0 = pb.slots := by
      funext i
      simp [PeerBuf.purgedSlots]
    simp [hslots]
  | succ k ih =>
    rw [List.range_succ, List.foldl_append, ih, List.foldl_cons, List.foldl_nil, List.filter_append]
    -- the pass has not reached slot `k`, so its test reads the original slot
    have hslot : pb.purgedSlots k k = pb.slots k := by simp [PeerBuf.purgedSlots]
    cases hk : pb.isStale k with
    | true =>
      have htest : PeerBuf.isStale { pb with
          slots := pb.purgedSlots k
          filled := pb.filled - ((List.range k).filter pb.isStale).length } k = true := by
        simpa [PeerBuf.isStale, hslot] using hk
      rw [if_pos htest, purgedSlots_succ_stale hk]
      simp only [PeerBuf.release, hslot, List.filter_cons, hk, if_true, List.filter_nil, List.length_append,
        List.length_singleton]
      congr 2
      split <;> omega
    | false =>
      have htest : PeerBuf.isStale { pb with
          slots := pb.purgedSlots k
          filled := pb.filled - ((List.range k).filter pb.isStale).length } k = false := by
        simpa [PeerBuf.isStale, hslot] using hk
      rw [if_neg (by simp [htest]), purgedSlots_succ_keep hk]
      simp [hk]

def PeerBuf.destroyed (cfg : ReorderCfg) (pb : PeerBuf) : List ReorderSlot := (pb.held cfg).filter pb.stale

/-- **The purge** keeps what is ahead of the cursor and counts the rest. -/
theorem reorderPurgeStale_spec (cfg : ReorderCfg) {pb : PeerBuf} (hinit : pb.seqInit = true) :
    (reorderPurgeStale cfg pb).2 = (pb.destroyed cfg).length ∧
      (reorderPurgeStale cfg pb).1.held cfg = (pb.held cfg).filter (fun s => !pb.stale s) ∧
      (reorderPurgeStale cfg pb).1.filled = pb.filled - (pb.destroyed cfg).length ∧
      (reorderPurgeStale cfg pb).1.key = pb.key ∧ (reorderPurgeStale cfg pb).1.seqInit = true ∧
      (reorderPurgeStale cfg pb).1.lastSeq = pb.lastSeq := by
  have heq : reorderPurgeStale cfg pb =
      ({ pb with
          slots := pb.purgedSlots cfg.depth
          filled := pb.filled - ((List.range cfg.depth).filter pb.isStale).length },
        ((List.range cfg.depth).filter pb.isStale).length) := by
    rw [reorderPurgeStale, if_neg (by simp [hinit])]
    exact purge_pass pb cfg.depth
  have hcount : ((List.range cfg.depth).filter pb.isStale).length = (pb.destroyed cfg).length := by
    have hboth : pb.destroyed cfg = (((List.range cfg.depth).map pb.slots).filter pb.stale) := by
      rw [PeerBuf.destroyed, PeerBuf.held, Slots.held, List.filter_filter]
      apply List.filter_congr
      intro s _
      cases hu : s.used <;> simp [PeerBuf.stale, hu]
    rw [hboth, List.filter_map, List.length_map]
    rfl
  rw [heq, hcount]
  refine ⟨rfl, ?_, rfl, rfl, hinit, rfl⟩
  refine Slots.held_freeWhere (fun i hi hp => ?_) (fun i hi hu hp => ?_) (fun i hi hu => ?_)
  · simp [PeerBuf.purgedSlots, hi, isStale_eq, hp]
  · simp [PeerBuf.purgedSlots, isStale_eq, hp]
  · simp only [PeerBuf.purgedSlots]
    split
    · rfl
    · exact hu

theorem reorderNoteDelivery_keeps (cfg : ReorderCfg) (pb : PeerBuf) (seq : U32) (now : U64) :
    (reorderNoteDelivery cfg pb seq now).1.key = pb.key ∧ (reorderNoteDelivery cfg pb seq now).1.seqInit = true ∧
      ∀ s ∈ (reorderNoteDelivery cfg pb seq now).1.held cfg, s ∈ pb.held cfg := by
  obtain ⟨-, hheld, -, hkey, hinit, -⟩ := reorderPurgeStale_spec cfg (show (pb.advance seq).seqInit = true from rfl)
  refine ⟨hkey, hinit, fun s hs => ?_⟩
  change s ∈ (reorderPurgeStale cfg (pb.advance seq)).1.held cfg at hs
  rw [hheld] at hs
  exact List.mem_of_mem_filter hs

/-! ## A release -/

section Take
variable {i : Nat} {now : U64}

theorem release_held (hi : i < cfg.depth) (hu : (pb.slots i).used = true) :
    List.Perm (pb.held cfg) (pb.slots i :: (pb.release i).held cfg) :=
  Slots.held_free hi hu rfl

/-- The entry a release leaves to the purge. -/
def PeerBuf.afterRelease (pb : PeerBuf) (i : Nat) : PeerBuf := (pb.release i).advance (pb.slots i).seq

theorem afterRelease_held : (pb.afterRelease i).held cfg = (pb.release i).held cfg := rfl

theorem afterRelease_lastSeq (h : PeerOk cfg pb) (hi : i < cfg.depth) (hu : (pb.slots i).used = true) :
    (pb.afterRelease i).lastSeq = (pb.slots i).seq := by
  change (if !pb.seqInit || decide (seqCmp (pb.slots i).seq pb.lastSeq > 0) then (pb.slots i).seq else pb.lastSeq) = _
  cases hinit : pb.seqInit with
  | false => rfl
  | true =>
    have hahead := h.ahead hinit _ (Slots.mem_held_of hi hu)
    simp [hahead]

/-- What a release destroys: the packets the cursor jumps over. -/
def PeerBuf.overtaken (cfg : ReorderCfg) (pb : PeerBuf) (i : Nat) : List ReorderSlot :=
  (pb.afterRelease i).destroyed cfg

/-- **A release, by fields**: the packet goes out, the cursor is at it, and what is no longer ahead of the
cursor is destroyed and counted. -/
theorem reorderTakePeer_spec (h : PeerOk cfg pb) (hi : i < cfg.depth) (hu : (pb.slots i).used = true) (now : U64) :
    (reorderTakePeer cfg pb i now).1.key = pb.key ∧
      (reorderTakePeer cfg pb i now).1.seqInit = true ∧
      (reorderTakePeer cfg pb i now).1.lastSeq = (pb.slots i).seq ∧
      (reorderTakePeer cfg pb i now).2 = (pb.overtaken cfg i).length ∧
      (reorderTakePeer cfg pb i now).1.held cfg =
        ((pb.release i).held cfg).filter (fun s => !(pb.afterRelease i).stale s) ∧
      (reorderTakePeer cfg pb i now).1.filled = pb.filled - 1 - (pb.overtaken cfg i).length := by
  have hcursor : (pb.afterRelease i).seqInit = true := rfl
  obtain ⟨hn, hheld, hfilled, hkey, hinit, hlast⟩ := reorderPurgeStale_spec cfg hcursor
  have hsame := reorderDecay_same cfg (reorderNoteDelivery cfg (pb.release i) (pb.slots i).seq now).1 now
  refine ⟨hsame.key.trans hkey, hsame.seqInit.trans hinit, ?_, hn, (hsame.held cfg).trans hheld, ?_⟩
  · exact hsame.lastSeq.trans (hlast.trans (afterRelease_lastSeq h hi hu))
  · refine hsame.filled.trans (hfilled.trans ?_)
    have hf : (pb.afterRelease i).filled = pb.filled - 1 := by
      change (if pb.filled > 0 then pb.filled - 1 else pb.filled) = _
      split <;> omega
    rw [hf]
    rfl

/-- **Conservation over a release**: handed over, still held, or overtaken. -/
theorem reorderTakePeer_held (h : PeerOk cfg pb) (hi : i < cfg.depth) (hu : (pb.slots i).used = true) (now : U64) :
    List.Perm (pb.held cfg) (pb.slots i :: ((reorderTakePeer cfg pb i now).1.held cfg ++ pb.overtaken cfg i)) := by
  refine (release_held hi hu).trans (List.Perm.cons _ ?_)
  rw [(reorderTakePeer_spec h hi hu now).2.2.2.2.1]
  exact (List.filter_append_perm _ _).symm.trans List.perm_append_comm

/-- What a release leaves held was held before, is not the packet released, and is ahead of it. -/
theorem mem_held_take (h : PeerOk cfg pb) (hi : i < cfg.depth) (hu : (pb.slots i).used = true) {s : ReorderSlot} :
    s ∈ (reorderTakePeer cfg pb i now).1.held cfg ↔
      s ∈ pb.held cfg ∧ s.seq ≠ (pb.slots i).seq ∧ 0 < seqCmp s.seq (pb.slots i).seq := by
  have hperm := release_held hi hu
  have hnodup := (hperm.map ReorderSlot.seq).nodup_iff.mp h.nodup
  rw [List.map_cons, List.nodup_cons] at hnodup
  rw [(reorderTakePeer_spec h hi hu now).2.2.2.2.1, List.mem_filter]
  have hstale : ∀ s ∈ (pb.release i).held cfg,
      ((!(pb.afterRelease i).stale s) = true ↔ 0 < seqCmp s.seq (pb.slots i).seq) := by
    intro s hs
    have hus := mem_held_used hs
    simp [PeerBuf.stale, hus, afterRelease_lastSeq h hi hu]
  constructor
  · rintro ⟨hs, hns⟩
    refine ⟨hperm.mem_iff.mpr (List.mem_cons_of_mem _ hs), fun heq => ?_, (hstale s hs).mp hns⟩
    exact hnodup.1 (heq ▸ List.mem_map_of_mem hs)
  · rintro ⟨hs, hne, hahead⟩
    have hs' : s ∈ (pb.release i).held cfg := by
      rcases List.mem_cons.mp (hperm.mem_iff.mp hs) with rfl | hs'
      · exact absurd rfl hne
      · exact hs'
    exact ⟨hs', (hstale s hs').mpr hahead⟩

theorem reorderTakePeer_ok (h : PeerOk cfg pb) (hi : i < cfg.depth) (hu : (pb.slots i).used = true) (now : U64) :
    PeerOk cfg (reorderTakePeer cfg pb i now).1 := by
  obtain ⟨hkey, -, hlast, -, hheld, hfilled⟩ := reorderTakePeer_spec h hi hu now
  have hmem : ∀ s ∈ (reorderTakePeer cfg pb i now).1.held cfg, s ∈ pb.held cfg ∧ s.seq ≠ (pb.slots i).seq ∧
      0 < seqCmp s.seq (pb.slots i).seq := fun s hs => (mem_held_take h hi hu).mp hs
  have hcount := (reorderTakePeer_held h hi hu now).length_eq
  constructor
  · rw [List.length_cons, List.length_append] at hcount
    rw [hfilled, h.filled_eq]
    omega
  · rw [hheld]
    refine List.Nodup.sublist (List.filter_sublist.map _) ?_
    have hnodup := ((release_held hi hu).map ReorderSlot.seq).nodup_iff.mp h.nodup
    exact (List.nodup_cons.mp hnodup).2
  · exact fun s hs => h.seq_eq s (hmem s hs).1
  · intro s hs
    rw [hkey]
    exact h.key_eq s (hmem s hs).1
  · intro _ s hs
    rw [hlast]
    exact (hmem s hs).2.2

end Take

/-! ## The choice -/

theorem reorderPickAged_used {now : U64} {i : Nat} (h : reorderPickAged cfg pb now = some i) :
    i < cfg.depth ∧ (pb.slots i).used = true := by
  rcases Option.or_eq_some_iff.mp h with ha | ⟨-, ha⟩
  · obtain ⟨hlt, hc⟩ := Slots.best_some ha
    simp only [PeerBuf.isAged, Bool.and_eq_true] at hc
    exact ⟨hlt, hc.1.1.1⟩
  · obtain ⟨hlt, hc⟩ := Slots.best_some ha
    simp only [PeerBuf.isAged, Bool.and_eq_true] at hc
    exact ⟨hlt, hc.1.1⟩

/-- **The choice, by cases**: the first delivery, the successor of the cursor, or, while that one is not
held, a packet that has waited its time. -/
theorem reorderPick_cases {now : U64} {i : Nat} {kind : DeliverKind} (h : reorderPick cfg pb now = some (i, kind)) :
    i < cfg.depth ∧ (pb.slots i).used = true ∧
      ((kind = .first ∧ pb.seqInit = false ∧ reorderPickFirst cfg pb = some i) ∨
        (kind = .inOrder ∧ pb.seqInit = true ∧ (pb.slots i).seq = seqNext pb.lastSeq) ∨
        (kind = .forced ∧ pb.seqInit = true ∧ (∀ s ∈ pb.held cfg, s.seq ≠ seqNext pb.lastSeq) ∧
          reorderPickAged cfg pb now = some i)) := by
  unfold reorderPick at h
  split at h
  · cases h
  · split at h
    · next hinit =>
      obtain ⟨j, hj, heq⟩ := Option.map_eq_some_iff.mp h
      cases heq
      have hb := Slots.best_some hj
      exact ⟨hb.1, hb.2, Or.inl ⟨rfl, by simpa using hinit, hj⟩⟩
    · next hinit =>
      have hinit : pb.seqInit = true := by simpa using hinit
      dsimp only at h
      split at h
      · next j hf =>
        cases h
        have hp := List.find?_some hf
        rw [Bool.and_eq_true, beq_iff_eq] at hp
        exact ⟨List.mem_range.mp (List.mem_of_find?_eq_some hf), hp.1, Or.inr (Or.inl ⟨rfl, hinit, hp.2⟩)⟩
      · next hf =>
        obtain ⟨j, hj, heq⟩ := Option.map_eq_some_iff.mp h
        cases heq
        have hno : ∀ s ∈ pb.held cfg, s.seq ≠ seqNext pb.lastSeq := by
          intro s hs hseq
          obtain ⟨l, hl, rfl, hu⟩ := Slots.mem_held.mp hs
          have := List.find?_eq_none.mp hf l (List.mem_range.mpr hl)
          simp [hu, hseq] at this
        have haged := reorderPickAged_used hj
        exact ⟨haged.1, haged.2, Or.inr (Or.inr ⟨rfl, hinit, hno, hj⟩)⟩

theorem PeerOk.eq_of_seq (h : PeerOk cfg pb) {s s' : ReorderSlot} (hs : s ∈ pb.held cfg) (hs' : s' ∈ pb.held cfg)
    (heq : s.seq = s'.seq) : s = s' :=
  List.inj_on_of_nodup_map h.nodup hs hs' heq

theorem PeerOk.filled_pos (h : PeerOk cfg pb) {s : ReorderSlot} (hs : s ∈ pb.held cfg) : pb.filled ≠ 0 := by
  have := List.length_pos_of_mem hs
  rw [h.filled_eq]
  omega

/-- The successor of the cursor goes out as soon as it is held. -/
theorem reorderPick_inOrder (h : PeerOk cfg pb) (hinit : pb.seqInit = true) {s : ReorderSlot}
    (hs : s ∈ pb.held cfg) (hseq : s.seq = seqNext pb.lastSeq) (now : U64) :
    ∃ i, reorderPick cfg pb now = some (i, .inOrder) ∧ i < cfg.depth ∧ (pb.slots i).used = true ∧ pb.slots i = s := by
  cases hf : (List.range cfg.depth).find? (fun i => (pb.slots i).used && (pb.slots i).seq == seqNext pb.lastSeq) with
  | none =>
    obtain ⟨j, hj, rfl, hu⟩ := Slots.mem_held.mp hs
    have := List.find?_eq_none.mp hf j (List.mem_range.mpr hj)
    simp [hu, hseq] at this
  | some i =>
    have hp := List.find?_some hf
    have hi := List.mem_range.mp (List.mem_of_find?_eq_some hf)
    rw [Bool.and_eq_true, beq_iff_eq] at hp
    refine ⟨i, ?_, hi, hp.1, h.eq_of_seq (Slots.mem_held_of hi hp.1) hs (hp.2.trans hseq.symm)⟩
    rw [reorderPick, if_neg (h.filled_pos hs), if_neg (by simp [hinit])]
    simp only [hf]

/-- What is held spans less than half the circle, from `base` on. -/
def PeerBuf.SpansFrom (cfg : ReorderCfg) (pb : PeerBuf) (base : U32) : Prop :=
  ∀ s ∈ pb.held cfg, 2 * Serial.elapsed s.seq base < 2 ^ 32

/-- On such a span the first delivery is the serial minimum. -/
theorem reorderPickFirst_least {i : Nat} (h : reorderPickFirst cfg pb = some i) {base : U32}
    (harc : pb.SpansFrom cfg base) : ∀ s ∈ pb.held cfg, 0 ≤ seqCmp s.seq (pb.slots i).seq := by
  obtain ⟨hi, hu⟩ := Slots.best_some h
  intro s hs
  obtain ⟨j, hj, rfl, hu'⟩ := Slots.mem_held.mp hs
  have hcmp : ∀ a b, a < cfg.depth → b < cfg.depth → (pb.slots a).used = true → (pb.slots b).used = true →
      seqCmp (pb.slots a).seq (pb.slots b).seq =
        (Serial.elapsed (pb.slots a).seq base : Int) - (Serial.elapsed (pb.slots b).seq base : Int) :=
    fun a b ha hb hua hub =>
      Serial.cmp_of_arc (harc _ (Slots.mem_held_of ha hua)) (harc _ (Slots.mem_held_of hb hub))
  have hle := Slots.best_le (f := fun a => Serial.elapsed (pb.slots a).seq base)
    (fun a b ha hb hua hub hbetter => by
      have := hcmp a b ha hb hua hub
      simp only [decide_eq_true_eq] at hbetter
      omega)
    (fun a b ha hb hua hub hbetter => by
      have := hcmp a b ha hb hua hub
      simp only [decide_eq_false_iff_not] at hbetter
      omega) h j hj hu'
  rw [hcmp j i hj hi hu' hu]
  omega

theorem reorderPick_first (h : PeerOk cfg pb) (hinit : pb.seqInit = false) {s : ReorderSlot}
    (hs : s ∈ pb.held cfg) (now : U64) :
    ∃ i, reorderPick cfg pb now = some (i, .first) ∧ i < cfg.depth ∧ (pb.slots i).used = true ∧
      reorderPickFirst cfg pb = some i := by
  cases hb : reorderPickFirst cfg pb with
  | none =>
    obtain ⟨j, hj, rfl, hu⟩ := Slots.mem_held.mp hs
    have := Slots.best_none.mp hb j hj
    rw [hu] at this
    cases this
  | some i =>
    obtain ⟨hi, hu⟩ := Slots.best_some hb
    refine ⟨i, ?_, hi, hu, rfl⟩
    rw [reorderPick, if_neg (h.filled_pos hs), if_pos (by simp [hinit]), hb]
    rfl

/-! ## What a release overtakes -/

theorem mem_overtaken (h : PeerOk cfg pb) {i : Nat} (hi : i < cfg.depth) (hu : (pb.slots i).used = true)
    {s : ReorderSlot} (hs : s ∈ pb.overtaken cfg i) :
    s ∈ pb.held cfg ∧ s.seq ≠ (pb.slots i).seq ∧ seqCmp s.seq (pb.slots i).seq ≤ 0 := by
  obtain ⟨hs, hstale⟩ := List.mem_filter.mp hs
  rw [afterRelease_held] at hs
  have hperm := release_held hi hu
  have hnodup := (hperm.map ReorderSlot.seq).nodup_iff.mp h.nodup
  rw [List.map_cons, List.nodup_cons] at hnodup
  refine ⟨hperm.mem_iff.mpr (List.mem_cons_of_mem _ hs), fun heq => ?_, ?_⟩
  · exact hnodup.1 (heq ▸ List.mem_map_of_mem hs)
  · simpa [PeerBuf.stale, mem_held_used hs, afterRelease_lastSeq h hi hu] using hstale

theorem overtaken_inOrder (h : PeerOk cfg pb) {i : Nat} (hi : i < cfg.depth) (hu : (pb.slots i).used = true)
    (hinit : pb.seqInit = true) (hseq : (pb.slots i).seq = seqNext pb.lastSeq) : pb.overtaken cfg i = [] := by
  refine List.eq_nil_iff_forall_not_mem.mpr fun s hs => ?_
  obtain ⟨hheld, hne, hle⟩ := mem_overtaken h hi hu hs
  rw [hseq] at hne hle
  have := seqCmp_next (h.ahead hinit s hheld) hne
  omega

/-- A first delivery overtakes nothing while what is held spans less than half the circle. -/
theorem overtaken_first (h : PeerOk cfg pb) {i : Nat} (hpick : reorderPickFirst cfg pb = some i) {base : U32}
    (harc : pb.SpansFrom cfg base) : pb.overtaken cfg i = [] := by
  obtain ⟨hi, hu⟩ := Slots.best_some hpick
  refine List.eq_nil_iff_forall_not_mem.mpr fun s hs => ?_
  obtain ⟨hheld, hne, hle⟩ := mem_overtaken h hi hu hs
  have hge := reorderPickFirst_least hpick harc s hheld
  have hzero : Serial.cmp s.seq (pb.slots i).seq = 0 := Int.le_antisymm hle hge
  have hnear := (Serial.cmp_nonneg_iff _ _).mp hge
  rw [Serial.cmp_eq, if_pos hnear] at hzero
  exact hne ((Serial.elapsed_eq_zero_iff _ _).mp (by omega))

theorem reorderNextReady_eq {c : ReorderCtx} {now : U64} {c' : ReorderCtx} {i slot : Nat} {kind : DeliverKind}
    (h : reorderNextReady c now = some (c', i, slot, kind)) :
    c' = { c with rr := (i + 1) % c.cfg.peers } ∧ i < c.cfg.peers ∧ (c.tbl i).key ≠ 0 ∧
      reorderPick c.cfg (c.tbl i) now = some (slot, kind) := by
  obtain ⟨n, -, hn⟩ := List.exists_of_findSome?_eq_some h
  dsimp only at hn
  split at hn
  · cases hn
  · next hkey =>
    obtain ⟨⟨slot', kind'⟩, hs, heq⟩ := Option.map_eq_some_iff.mp hn
    cases heq
    exact ⟨rfl, Nat.mod_lt _ c.cfg.peers_pos, hkey, hs⟩

/-- Asking what is ready moves the cursor of the scan, and nothing else. -/
theorem reorderNextReady_asked (c : ReorderCtx) (now : U64) :
    ∃ rr, ((reorderNextReady c now).map Prod.fst).getD c = { c with rr := rr } := by
  cases h : reorderNextReady c now with
  | none => exact ⟨c.rr, rfl⟩
  | some r =>
    obtain ⟨c', i, slot, kind⟩ := r
    exact ⟨_, (reorderNextReady_eq h).1⟩

end BzNet
