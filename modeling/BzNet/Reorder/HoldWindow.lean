import BzNet.Reorder.Entry

/-!
# The hold window

The window of an entry starts at the floor, or at the ceiling where it does not adapt; evidence of reordering widens
it and decay narrows it.

* `PeerBuf.WindowOk` : the window is between floor and ceiling; `ReorderCall` are the functions of the core, called in
  any order on any entry, and all of them keep it (`reorderCall_windowsOk`);
* `reorderDecay_due` : **a decay step** narrows a window above the floor, not below the floor;
* `reorder_window_decays` : what follows for every run, down to the floor exactly.
-/

namespace BzNet

variable {cfg : ReorderCfg} {pb : PeerBuf} {c : ReorderCtx}

/-! ## The window of an entry -/

/-- Between floor and ceiling, and at the ceiling where it does not adapt. -/
structure PeerBuf.WindowOk (cfg : ReorderCfg) (pb : PeerBuf) : Prop where
  floor : cfg.winMinMs ≤ pb.winMs
  ceiling : pb.winMs ≤ cfg.winMaxMs
  fixed : cfg.adapt = false → pb.winMs = cfg.winMaxMs

/-- The entry and its window are the same; the packets may differ. -/
structure SameWindow (a b : PeerBuf) : Prop where
  key : a.key = b.key
  winMs : a.winMs = b.winMs
  lastAdjustMs : a.lastAdjustMs = b.lastAdjustMs

theorem SameWindow.refl (pb : PeerBuf) : SameWindow pb pb := ⟨rfl, rfl, rfl⟩

theorem SameWindow.trans {a b e : PeerBuf} (h : SameWindow a b) (h' : SameWindow b e) : SameWindow a e :=
  ⟨h.key.trans h'.key, h.winMs.trans h'.winMs, h.lastAdjustMs.trans h'.lastAdjustMs⟩

theorem SameWindow.windowOk {a b : PeerBuf} (h : SameWindow a b) (hb : b.WindowOk cfg) : a.WindowOk cfg where
  floor := by rw [h.winMs]; exact hb.floor
  ceiling := by rw [h.winMs]; exact hb.ceiling
  fixed := by rw [h.winMs]; exact hb.fixed

theorem reorderFresh_windowOk (cfg : ReorderCfg) (key now : U64) : (reorderFresh cfg key now).WindowOk cfg := by
  have hwin : (reorderFresh cfg key now).winMs = if cfg.adapt then cfg.winMinMs else cfg.winMaxMs := rfl
  cases hadapt : cfg.adapt with
  | true =>
    rw [if_pos hadapt] at hwin
    refine ⟨?_, ?_, fun h => ?_⟩
    · rw [hwin]
      exact BitVec.le_refl _
    · rw [hwin]
      exact cfg.win_le
    · rw [hadapt] at h
      cases h
  | false =>
    rw [if_neg (by simp [hadapt])] at hwin
    refine ⟨?_, ?_, fun _ => hwin⟩
    · rw [hwin]
      exact cfg.win_le
    · rw [hwin]
      exact BitVec.le_refl _

/-! ## Growth -/

theorem reorderGrow_winMs {pb : PeerBuf} (hpb : pb.winMs ≤ cfg.winMaxMs) (measured now : U64) :
    (reorderGrow cfg pb measured now).winMs ≤ cfg.winMaxMs := by
  have hcap : ∀ w : U32, (if w > cfg.winMaxMs then cfg.winMaxMs else w) ≤ cfg.winMaxMs := by
    intro w
    split
    · exact BitVec.le_refl _
    · next hle => exact BitVec.not_lt.mp hle
  unfold reorderGrow
  dsimp only
  have hw := hcap (measured.setWidth 32 + kReorderGrowPadMs)
  generalize (if measured.setWidth 32 + kReorderGrowPadMs > cfg.winMaxMs then cfg.winMaxMs
    else measured.setWidth 32 + kReorderGrowPadMs) = w at hw ⊢
  split
  · exact hw
  · exact hpb

theorem reorderAdaptOnArrival_winMs {pb : PeerBuf} (hpb : pb.winMs ≤ cfg.winMaxMs) (seq : U32) (now : U64) :
    (reorderAdaptOnArrival cfg pb seq now).winMs ≤ cfg.winMaxMs := by
  unfold reorderAdaptOnArrival
  split
  · exact hpb
  · split
    · exact hpb
    · split
      · exact reorderGrow_winMs hpb _ now
      · split
        · exact reorderGrow_winMs hpb _ now
        · exact hpb

theorem reorderGrow_ge (cfg : ReorderCfg) (pb : PeerBuf) (measured now : U64) :
    pb.winMs ≤ (reorderGrow cfg pb measured now).winMs := by
  unfold reorderGrow
  dsimp only
  generalize (if measured.setWidth 32 + kReorderGrowPadMs > cfg.winMaxMs then cfg.winMaxMs
    else measured.setWidth 32 + kReorderGrowPadMs) = w
  split
  · next hlt => exact BitVec.le_of_lt hlt
  · exact BitVec.le_refl _

theorem reorderAdaptOnArrival_ge (cfg : ReorderCfg) (pb : PeerBuf) (seq : U32) (now : U64) :
    pb.winMs ≤ (reorderAdaptOnArrival cfg pb seq now).winMs := by
  unfold reorderAdaptOnArrival
  split
  · exact BitVec.le_refl _
  · split
    · exact BitVec.le_refl _
    · split
      · exact reorderGrow_ge cfg pb _ now
      · split
        · exact reorderGrow_ge cfg pb _ now
        · exact BitVec.le_refl _

theorem reorderAdaptOnArrival_off (hadapt : cfg.adapt = false) (pb : PeerBuf) (seq : U32) (now : U64) :
    reorderAdaptOnArrival cfg pb seq now = pb := by
  unfold reorderAdaptOnArrival
  rw [hadapt]
  rfl

theorem reorderAdaptOnArrival_windowOk (h : pb.WindowOk cfg) (seq : U32) (now : U64) :
    (reorderAdaptOnArrival cfg pb seq now).WindowOk cfg where
  floor := BitVec.le_trans h.floor (reorderAdaptOnArrival_ge cfg pb seq now)
  ceiling := reorderAdaptOnArrival_winMs h.ceiling seq now
  fixed hadapt := by
    rw [reorderAdaptOnArrival_off hadapt]
    exact h.fixed hadapt

/-! ## Decay -/

/-- A decay step takes effect: half a second has passed since the window last changed. -/
def PeerBuf.DecayDue (cfg : ReorderCfg) (pb : PeerBuf) (now : U64) : Prop :=
  cfg.adapt = true ∧ kReorderDecayMs ≤ now - pb.lastAdjustMs

instance (cfg : ReorderCfg) (pb : PeerBuf) (now : U64) : Decidable (pb.DecayDue cfg now) :=
  inferInstanceAs (Decidable (_ ∧ _))

theorem decayDue_iff (cfg : ReorderCfg) (pb : PeerBuf) (now : U64) :
    pb.DecayDue cfg now ↔ ¬ ((!cfg.adapt || decide (now - pb.lastAdjustMs < kReorderDecayMs)) = true) := by
  rw [PeerBuf.DecayDue, Bool.or_eq_true, not_or, Bool.not_eq_true', Bool.not_eq_false, decide_eq_true_iff,
    BitVec.not_lt]

theorem reorderDecay_not_due {now : U64} (h : ¬ pb.DecayDue cfg now) : reorderDecay cfg pb now = pb := by
  rw [decayDue_iff, not_not] at h
  exact if_pos h

/-- **A decay step**: a window above the floor becomes narrower and stays above or at the floor, any other becomes
the floor. -/
theorem reorderDecay_due {now : U64} (h : pb.DecayDue cfg now) :
    (pb.winMs ≤ cfg.winMinMs → (reorderDecay cfg pb now).winMs = cfg.winMinMs) ∧
      (cfg.winMinMs < pb.winMs →
        cfg.winMinMs ≤ (reorderDecay cfg pb now).winMs ∧ (reorderDecay cfg pb now).winMs < pb.winMs) := by
  unfold reorderDecay
  rw [if_neg ((decayDue_iff cfg pb now).mp h)]
  constructor
  · intro hle
    rw [if_pos hle]
  · intro hlt
    rw [if_neg (BitVec.not_le.mpr hlt)]
    dsimp only
    have hnat := BitVec.lt_def.mp hlt
    have hexcess : (pb.winMs - cfg.winMinMs).toNat = pb.winMs.toNat - cfg.winMinMs.toNat :=
      BitVec.toNat_sub_of_le (BitVec.le_of_lt hlt)
    -- whatever the product, at most one less than the excess is kept
    have hkeep : ∀ keep : U32, (if keep ≥ pb.winMs - cfg.winMinMs then pb.winMs - cfg.winMinMs - 1 else keep).toNat <
        pb.winMs.toNat - cfg.winMinMs.toNat := by
      intro keep
      split
      · have hone : (1 : U32) ≤ pb.winMs - cfg.winMinMs := BitVec.le_def.mpr (by rw [hexcess]; change 1 ≤ _; omega)
        rw [BitVec.toNat_sub_of_le hone, hexcess]
        change _ - 1 < _
        omega
      · next hless =>
        have := BitVec.lt_def.mp (BitVec.not_le.mp hless)
        omega
    have hk := hkeep ((pb.winMs - cfg.winMinMs) * kReorderDecayKeepNum / kReorderDecayKeepDen)
    generalize (if (pb.winMs - cfg.winMinMs) * kReorderDecayKeepNum / kReorderDecayKeepDen ≥ pb.winMs - cfg.winMinMs
      then pb.winMs - cfg.winMinMs - 1
      else (pb.winMs - cfg.winMinMs) * kReorderDecayKeepNum / kReorderDecayKeepDen) = keep at hk ⊢
    have hsum : (cfg.winMinMs + keep).toNat = cfg.winMinMs.toNat + keep.toNat := by
      rw [BitVec.toNat_add]
      exact Nat.mod_eq_of_lt (by have := pb.winMs.isLt; omega)
    exact ⟨BitVec.le_def.mpr (by omega), BitVec.lt_def.mpr (by omega)⟩

theorem reorderDecay_winMs (now : U64) (hfloor : cfg.adapt = true → cfg.winMinMs ≤ pb.winMs) :
    (reorderDecay cfg pb now).winMs ≤ pb.winMs ∧
      (cfg.adapt = true → cfg.winMinMs ≤ (reorderDecay cfg pb now).winMs) := by
  by_cases hdue : pb.DecayDue cfg now
  · obtain ⟨hat, habove⟩ := reorderDecay_due hdue
    by_cases hle : pb.winMs ≤ cfg.winMinMs
    · rw [hat hle]
      exact ⟨hfloor hdue.1, fun _ => BitVec.le_refl _⟩
    · obtain ⟨hmin, hlt⟩ := habove (BitVec.not_le.mp hle)
      exact ⟨BitVec.le_of_lt hlt, fun _ => hmin⟩
  · rw [reorderDecay_not_due hdue]
    exact ⟨BitVec.le_refl _, hfloor⟩

theorem reorderDecay_windowOk (h : pb.WindowOk cfg) (now : U64) : (reorderDecay cfg pb now).WindowOk cfg := by
  by_cases hdue : pb.DecayDue cfg now
  · obtain ⟨hle, hmin⟩ := @reorderDecay_winMs cfg pb now fun _ => h.floor
    refine ⟨hmin hdue.1, BitVec.le_trans hle h.ceiling, fun hoff => ?_⟩
    rw [hdue.1] at hoff
    cases hoff
  · rw [reorderDecay_not_due hdue]
    exact h

/-! ## The rest of an entry -/

theorem release_sameWindow (pb : PeerBuf) (i : Nat) : SameWindow (pb.release i) pb := ⟨rfl, rfl, rfl⟩

theorem reorderPurgeStale_sameWindow (cfg : ReorderCfg) (pb : PeerBuf) :
    SameWindow (reorderPurgeStale cfg pb).1 pb := by
  unfold reorderPurgeStale
  split
  · exact SameWindow.refl pb
  · rw [purge_pass]
    exact ⟨rfl, rfl, rfl⟩

theorem reorderNoteDelivery_sameWindow (cfg : ReorderCfg) (pb : PeerBuf) (seq : U32) (now : U64) :
    SameWindow (reorderNoteDelivery cfg pb seq now).1 pb := by
  have hpurge := reorderPurgeStale_sameWindow cfg (pb.advance seq)
  exact ⟨hpurge.key, hpurge.winMs, hpurge.lastAdjustMs⟩

theorem reorderInsert_sameWindow (cfg : ReorderCfg) (pb : PeerBuf) (seq : U32) (ts : U64) (pkt : Datagram) :
    SameWindow (reorderInsert cfg pb seq ts pkt).1 pb := by
  obtain ⟨slots, filled, hins⟩ := reorderInsert_frame cfg pb seq ts pkt
  rw [hins]
  exact ⟨rfl, rfl, rfl⟩

/-- A release of a slot, up to its decay step. -/
theorem reorderTakePeer_eq (cfg : ReorderCfg) (pb : PeerBuf) (slot : Nat) (now : U64) :
    ∃ pb', SameWindow pb' pb ∧ (reorderTakePeer cfg pb slot now).1 = reorderDecay cfg pb' now :=
  ⟨_, (reorderNoteDelivery_sameWindow cfg (pb.release slot) _ now).trans (release_sameWindow pb slot), rfl⟩

theorem reorderGetPeer_entry {addr : SockAddr} {now : U64} {c' : ReorderCtx} {i : Nat}
    (h : reorderGetPeer c addr now = some (c', i)) :
    i < c.cfg.peers ∧ ∃ pb st, c' = { c with tbl := Function.update c.tbl i pb, stats := st } ∧
      (((c.tbl i).key = reorderKey addr ∧ pb = KeyedRecord.touch now (c.tbl i)) ∨
        (∀ j, j < c.cfg.peers → (c.tbl j).key ≠ reorderKey addr) ∧ pb = reorderFresh c.cfg (reorderKey addr) now) := by
  cases hf : LruTable.find? c.cfg.peers c.tbl (reorderKey addr) with
  | some j =>
    simp only [reorderGetPeer, LruTable.locate, hf, Option.some.injEq, Prod.mk.injEq] at h
    obtain ⟨rfl, rfl⟩ := h
    obtain ⟨hj, hkey⟩ := LruTable.find?_some hf
    exact ⟨hj, _, c.stats, rfl, Or.inl ⟨hkey, rfl⟩⟩
  | none =>
    have hno : ∀ j, j < c.cfg.peers → (c.tbl j).key ≠ reorderKey addr := LruTable.find?_eq_none.mp hf
    cases hz : LruTable.find? c.cfg.peers c.tbl (LruTable.freeKey PeerBuf) with
    | some j =>
      simp only [reorderGetPeer, LruTable.locate, hf, hz, Option.some.injEq, Prod.mk.injEq] at h
      obtain ⟨rfl, rfl⟩ := h
      exact ⟨(LruTable.find?_some hz).1, _, c.stats, rfl, Or.inr ⟨hno, rfl⟩⟩
    | none =>
      simp only [reorderGetPeer, LruTable.locate, hf, hz] at h
      split at h
      · cases h
      · simp only [Option.some.injEq, Prod.mk.injEq] at h
        obtain ⟨rfl, rfl⟩ := h
        exact ⟨LruTable.oldest_lt c.cfg.peers_pos, _, _, rfl, Or.inr ⟨hno, rfl⟩⟩

/-! ## The functions of the core, in any order -/

/-- A call of the core; `i` is the entry its pointer leads to. -/
inductive ReorderCall where
  | reset
  | getPeer (addr : SockAddr) (now : U64)
  | adaptOnArrival (i : Nat) (seq : U32) (now : U64)
  | decay (i : Nat) (now : U64)
  | purgeStale (i : Nat)
  | noteDelivery (i : Nat) (seq : U32) (arrivalTs now : U64) (kind : DeliverKind)
  | insert (i : Nat) (seq : U32) (ts : U64) (pkt : Datagram)
  | nextReady (now : U64)
  | take (i slot : Nat) (now : U64) (kind : DeliverKind)

def ReorderCtx.put (c : ReorderCtx) (i : Nat) (pb : PeerBuf) (st : ReorderStats) : ReorderCtx :=
  { c with tbl := Function.update c.tbl i pb, stats := st }

def reorderCall (c : ReorderCtx) : ReorderCall → ReorderCtx
  | .reset => reorderReset c
  | .getPeer addr now => ((reorderGetPeer c addr now).map Prod.fst).getD c
  | .adaptOnArrival i seq now => c.put i (reorderAdaptOnArrival c.cfg (c.tbl i) seq now) c.stats
  | .decay i now => c.put i (reorderDecay c.cfg (c.tbl i) now) c.stats
  | .purgeStale i =>
    let r := reorderPurgeStale c.cfg (c.tbl i)
    c.put i r.1 { c.stats with purgedStale := c.stats.purgedStale + r.2 }
  | .noteDelivery i seq arrivalTs now kind =>
    let r := reorderNoteDelivery c.cfg (c.tbl i) seq now
    c.put i r.1 (reorderCountDelivery c.stats r.2 arrivalTs now kind)
  | .insert i seq ts pkt =>
    let r := reorderInsert c.cfg (c.tbl i) seq ts pkt
    c.put i r.1 (reorderCountInsert c.stats r.2)
  | .nextReady now => ((reorderNextReady c now).map Prod.fst).getD c
  | .take i slot now kind => (reorderTake c i slot now kind).1

/-- The decay step of a call, if it makes one on entry `i`. -/
def ReorderCall.decaysAt (i : Nat) : ReorderCall → Option U64
  | .decay j now => if j = i then some now else none
  | .take j _ now _ => if j = i then some now else none
  | _ => none

/-- The call brings evidence of reordering: an arrival that widens the window of entry `i`. -/
def ReorderCall.Widens (c : ReorderCtx) (i : Nat) : ReorderCall → Prop
  | .adaptOnArrival j seq now => j = i ∧ (c.tbl i).winMs < (reorderAdaptOnArrival c.cfg (c.tbl i) seq now).winMs
  | _ => False

/-- What a call does to entry `i`, as far as its window goes. -/
inductive WindowStep (c : ReorderCtx) (i : Nat) : ReorderCall → PeerBuf → Prop
  | same {call : ReorderCall} {pb : PeerBuf} : call.decaysAt i = none → SameWindow pb (c.tbl i) → WindowStep c i call pb
  | zero : WindowStep c i .reset PeerBuf.zero
  | fresh (addr : SockAddr) (key now : U64) : WindowStep c i (.getPeer addr now) (reorderFresh c.cfg key now)
  | adapt (seq : U32) (now : U64) :
      WindowStep c i (.adaptOnArrival i seq now) (reorderAdaptOnArrival c.cfg (c.tbl i) seq now)
  | decay {call : ReorderCall} {pb : PeerBuf} (now : U64) : call.decaysAt i = some now → SameWindow pb (c.tbl i) →
      WindowStep c i call (reorderDecay c.cfg pb now)

/-- A call that rewrites entry `j` does to entry `i` what it does there, or nothing. -/
theorem WindowStep.put {call : ReorderCall} {i j : Nat} {pb : PeerBuf}
    (hself : j = i → WindowStep c i call pb) (hother : j ≠ i → call.decaysAt i = none) :
    WindowStep c i call (Function.update c.tbl j pb i) := by
  by_cases hji : j = i
  · subst hji
    rw [Function.update_self]
    exact hself rfl
  · rw [Function.update_of_ne (Ne.symm hji)]
    exact .same (hother hji) (SameWindow.refl _)

theorem reorderCall_cfg (c : ReorderCtx) (call : ReorderCall) : (reorderCall c call).cfg = c.cfg := by
  cases call with
  | getPeer addr now =>
    cases hget : reorderGetPeer c addr now with
    | none => simp only [reorderCall, hget, Option.map_none, Option.getD_none]
    | some r =>
      obtain ⟨-, pb, st, hc, -⟩ := @reorderGetPeer_entry c addr now r.1 r.2 hget
      simp only [reorderCall, hget, Option.map_some, Option.getD_some, hc]
  | nextReady now =>
    obtain ⟨rr, hrr⟩ := reorderNextReady_asked c now
    rw [reorderCall, hrr]
  | reset => rfl
  | adaptOnArrival i seq now => rfl
  | decay i now => rfl
  | purgeStale i => rfl
  | noteDelivery i seq arrivalTs now kind => rfl
  | insert i seq ts pkt => rfl
  | take i slot now kind => rfl

/-- **One call.** -/
theorem reorderCall_window (c : ReorderCtx) (call : ReorderCall) (i : Nat) :
    WindowStep c i call ((reorderCall c call).tbl i) := by
  have hif : ∀ {j : Nat} {now : U64}, j ≠ i → (if j = i then some now else none) = none := fun h => if_neg h
  cases call with
  | reset => exact .zero
  | getPeer addr now =>
    cases hget : reorderGetPeer c addr now with
    | none =>
      simp only [reorderCall, hget, Option.map_none, Option.getD_none]
      exact .same rfl (SameWindow.refl _)
    | some r =>
      obtain ⟨-, pb, st, hc, hentry⟩ := @reorderGetPeer_entry c addr now r.1 r.2 hget
      simp only [reorderCall, hget, Option.map_some, Option.getD_some, hc]
      refine .put (fun hji => ?_) fun _ => rfl
      rcases hentry with ⟨-, rfl⟩ | ⟨-, rfl⟩
      · rw [hji]
        exact .same rfl ⟨rfl, rfl, rfl⟩
      · exact .fresh addr _ now
  | adaptOnArrival j seq now =>
    refine .put (fun hji => ?_) fun _ => rfl
    subst hji
    exact .adapt seq now
  | decay j now =>
    refine .put (fun hji => ?_) hif
    subst hji
    exact .decay now (if_pos rfl) (SameWindow.refl _)
  | purgeStale j =>
    refine .put (fun hji => ?_) fun _ => rfl
    subst hji
    exact .same rfl (reorderPurgeStale_sameWindow _ _)
  | noteDelivery j seq arrivalTs now kind =>
    refine .put (fun hji => ?_) fun _ => rfl
    subst hji
    exact .same rfl (reorderNoteDelivery_sameWindow _ _ _ _)
  | insert j seq ts pkt =>
    refine .put (fun hji => ?_) fun _ => rfl
    subst hji
    exact .same rfl (reorderInsert_sameWindow _ _ _ _ _)
  | nextReady now =>
    have htbl : (reorderCall c (.nextReady now)).tbl = c.tbl := by
      obtain ⟨rr, hrr⟩ := reorderNextReady_asked c now
      rw [reorderCall, hrr]
    rw [htbl]
    exact .same rfl (SameWindow.refl _)
  | take j slot now kind =>
    refine .put (fun hji => ?_) hif
    subst hji
    obtain ⟨pb, hsame, heq⟩ := reorderTakePeer_eq c.cfg (c.tbl j) slot now
    rw [heq]
    exact .decay now (if_pos rfl) hsame

/-! ## What every call keeps -/

theorem WindowStep.windowOk {call : ReorderCall} {i : Nat} (h : WindowStep c i call pb)
    (hc : (c.tbl i).key ≠ 0 → (c.tbl i).WindowOk c.cfg) (hkey : pb.key ≠ 0) : pb.WindowOk c.cfg := by
  cases h with
  | same _ hsame => exact hsame.windowOk (hc (hsame.key ▸ hkey))
  | zero => exact absurd rfl hkey
  | fresh addr key now => exact reorderFresh_windowOk c.cfg key now
  | adapt seq now =>
    rw [(reorderAdaptOnArrival_same c.cfg (c.tbl i) seq now).key] at hkey
    exact reorderAdaptOnArrival_windowOk (hc hkey) seq now
  | @decay _ pb now _ hsame =>
    rw [(reorderDecay_same c.cfg pb now).key, hsame.key] at hkey
    exact reorderDecay_windowOk (hsame.windowOk (hc hkey)) now

def WindowsOk (c : ReorderCtx) : Prop := ∀ i, (c.tbl i).key ≠ 0 → (c.tbl i).WindowOk c.cfg

theorem reorderCall_windowsOk (h : WindowsOk c) (call : ReorderCall) : WindowsOk (reorderCall c call) := by
  intro i hkey
  rw [reorderCall_cfg]
  exact (reorderCall_window c call i).windowOk (h i) hkey

theorem reorderCalls_windowsOk (h : WindowsOk c) (calls : List ReorderCall) :
    WindowsOk (calls.foldl reorderCall c) ∧ (calls.foldl reorderCall c).cfg = c.cfg := by
  induction calls generalizing c with
  | nil => exact ⟨h, rfl⟩
  | cons call calls ih =>
    obtain ⟨hok, hcfg⟩ := ih (reorderCall_windowsOk h call)
    exact ⟨hok, hcfg.trans (reorderCall_cfg c call)⟩

/-! ## Down to the floor -/

def PeerBuf.excess (cfg : ReorderCfg) (pb : PeerBuf) : Nat := pb.winMs.toNat - cfg.winMinMs.toNat

theorem SameWindow.excess {a b : PeerBuf} (h : SameWindow a b) (cfg : ReorderCfg) : a.excess cfg = b.excess cfg := by
  rw [PeerBuf.excess, PeerBuf.excess, h.winMs]

theorem excess_of_le (h : pb.winMs ≤ cfg.winMinMs) : pb.excess cfg = 0 := Nat.sub_eq_zero_of_le (BitVec.le_def.mp h)

theorem PeerBuf.WindowOk.eq_floor (h : pb.WindowOk cfg) (h0 : pb.excess cfg = 0) : pb.winMs = cfg.winMinMs := by
  have hle := BitVec.le_def.mp h.floor
  unfold PeerBuf.excess at h0
  exact BitVec.eq_of_toNat_eq (by omega)

theorem reorderDecay_excess (cfg : ReorderCfg) (pb : PeerBuf) (now : U64) :
    (reorderDecay cfg pb now).excess cfg ≤ pb.excess cfg - if pb.DecayDue cfg now then 1 else 0 := by
  by_cases hdue : pb.DecayDue cfg now
  · rw [if_pos hdue]
    obtain ⟨hat, habove⟩ := reorderDecay_due hdue
    by_cases hle : pb.winMs ≤ cfg.winMinMs
    · rw [excess_of_le (show (reorderDecay cfg pb now).winMs ≤ cfg.winMinMs by rw [hat hle]; exact BitVec.le_refl _)]
      exact Nat.zero_le _
    · obtain ⟨hmin, hlt⟩ := habove (BitVec.not_le.mp hle)
      have hmin := BitVec.le_def.mp hmin
      have hlt := BitVec.lt_def.mp hlt
      unfold PeerBuf.excess
      omega
  · rw [if_neg hdue, reorderDecay_not_due hdue]
    exact Nat.le_refl _

/-- Whether a call is a decay step on entry `i` that takes effect: `1` or `0`. -/
def ReorderCall.decaySteps (c : ReorderCtx) (i : Nat) (call : ReorderCall) : Nat :=
  match call.decaysAt i with
  | some now => if (c.tbl i).DecayDue c.cfg now then 1 else 0
  | none => 0

theorem WindowStep.excess {call : ReorderCall} {i : Nat} (hadapt : c.cfg.adapt = true) (h : WindowStep c i call pb)
    (hno : ¬ call.Widens c i) : pb.excess c.cfg ≤ (c.tbl i).excess c.cfg - call.decaySteps c i := by
  cases h with
  | same hnone hsame =>
    rw [ReorderCall.decaySteps, hnone, hsame.excess]
    exact Nat.le_refl _
  | zero =>
    rw [excess_of_le (show PeerBuf.zero.winMs ≤ c.cfg.winMinMs from BitVec.le_def.mpr (Nat.zero_le _))]
    exact Nat.zero_le _
  | fresh addr key now =>
    have hwin : (reorderFresh c.cfg key now).winMs = c.cfg.winMinMs := if_pos hadapt
    rw [excess_of_le (show (reorderFresh c.cfg key now).winMs ≤ c.cfg.winMinMs by rw [hwin]; exact BitVec.le_refl _)]
    exact Nat.zero_le _
  | adapt seq now =>
    have hle := reorderAdaptOnArrival_ge c.cfg (c.tbl i) seq now
    have hge : (reorderAdaptOnArrival c.cfg (c.tbl i) seq now).winMs ≤ (c.tbl i).winMs :=
      BitVec.not_lt.mp fun hlt => hno ⟨rfl, hlt⟩
    exact Nat.sub_le_sub_right (BitVec.le_def.mp hge) _
  | @decay _ pb now hsome hsame =>
    have hdue : pb.DecayDue c.cfg now ↔ (c.tbl i).DecayDue c.cfg now := by
      rw [PeerBuf.DecayDue, PeerBuf.DecayDue, hsame.lastAdjustMs]
    have hdecay := reorderDecay_excess c.cfg pb now
    rw [hsame.excess, if_congr hdue rfl rfl] at hdecay
    rw [ReorderCall.decaySteps, hsome]
    exact hdecay

/-- No call of the stretch brings evidence of reordering for entry `i`. -/
def NoEvidence (i : Nat) : ReorderCtx → List ReorderCall → Prop
  | _, [] => True
  | c, call :: calls => ¬ call.Widens c i ∧ NoEvidence i (reorderCall c call) calls

/-- The decay steps on entry `i` that take effect over a stretch. -/
def decayStepsOf (i : Nat) : ReorderCtx → List ReorderCall → Nat
  | _, [] => 0
  | c, call :: calls => call.decaySteps c i + decayStepsOf i (reorderCall c call) calls

/-- **A stretch without evidence** brings the window down by at least one for every step that takes effect. -/
theorem reorderCalls_excess {i : Nat} (hadapt : c.cfg.adapt = true) {calls : List ReorderCall}
    (hno : NoEvidence i c calls) :
    ((calls.foldl reorderCall c).tbl i).excess c.cfg ≤ (c.tbl i).excess c.cfg - decayStepsOf i c calls := by
  induction calls generalizing c with
  | nil => exact Nat.le_refl _
  | cons call calls ih =>
    have hstep := (reorderCall_window c call i).excess hadapt hno.1
    have hrest := ih (by rwa [reorderCall_cfg]) hno.2
    rw [reorderCall_cfg] at hrest
    rw [List.foldl_cons, decayStepsOf]
    omega

theorem decayStepsOf_off {i : Nat} (hadapt : c.cfg.adapt = false) (calls : List ReorderCall) :
    decayStepsOf i c calls = 0 := by
  induction calls generalizing c with
  | nil => rfl
  | cons call calls ih =>
    have hcall : call.decaySteps c i = 0 := by
      have hnot : ∀ now, ¬ (c.tbl i).DecayDue c.cfg now := by
        intro now hdue
        have hon := hdue.1
        rw [hadapt] at hon
        cases hon
      unfold ReorderCall.decaySteps
      split
      · exact if_neg (hnot _)
      · rfl
    rw [decayStepsOf, hcall, ih (by rwa [reorderCall_cfg])]

/-- **The hold window.** After any calls of the core, at any times: the window of every live entry lies between floor
and ceiling, at the ceiling where it does not adapt; a decay step that takes effect narrows a window above the floor,
not below the floor, and leaves one at the floor; and from there, over any stretch without evidence of reordering, as
many such steps as the window has milliseconds above the floor bring it exactly to the floor, where it stays. -/
theorem reorder_window_decays (cfg : ReorderCfg) (before : List ReorderCall) :
    let c := before.foldl reorderCall (reorderInit cfg)
    (∀ i, (c.tbl i).key ≠ 0 → cfg.winMinMs ≤ (c.tbl i).winMs ∧ (c.tbl i).winMs ≤ cfg.winMaxMs ∧
      (cfg.adapt = false → (c.tbl i).winMs = cfg.winMaxMs)) ∧
    (∀ i now, (c.tbl i).key ≠ 0 → (c.tbl i).DecayDue cfg now →
      (cfg.winMinMs < (c.tbl i).winMs → cfg.winMinMs ≤ (reorderDecay cfg (c.tbl i) now).winMs ∧
        (reorderDecay cfg (c.tbl i) now).winMs < (c.tbl i).winMs) ∧
      ((c.tbl i).winMs = cfg.winMinMs → (reorderDecay cfg (c.tbl i) now).winMs = cfg.winMinMs)) ∧
    ∀ i quiet, (c.tbl i).key ≠ 0 → NoEvidence i c quiet →
      (c.tbl i).winMs.toNat - cfg.winMinMs.toNat ≤ decayStepsOf i c quiet →
      ((quiet.foldl reorderCall c).tbl i).key ≠ 0 → ((quiet.foldl reorderCall c).tbl i).winMs = cfg.winMinMs := by
  intro c
  obtain ⟨hok, hcfg⟩ : WindowsOk c ∧ c.cfg = cfg :=
    reorderCalls_windowsOk (c := reorderInit cfg) (fun _ hkey => absurd rfl hkey) before
  refine ⟨fun i hkey => ?_, fun i now hkey hdue => ?_, fun i quiet hkey hno hsteps hlive => ?_⟩
  · have hwin := hok i hkey
    rw [hcfg] at hwin
    exact ⟨hwin.floor, hwin.ceiling, hwin.fixed⟩
  · obtain ⟨hat, habove⟩ := reorderDecay_due hdue
    exact ⟨habove, fun heq => hat (heq ▸ BitVec.le_refl _)⟩
  · obtain ⟨hend, hcfg'⟩ := reorderCalls_windowsOk hok quiet
    have hwin := hend i hlive
    rw [hcfg', hcfg] at hwin
    refine hwin.eq_floor ?_
    cases hadapt : cfg.adapt with
    | true =>
      have hexcess := reorderCalls_excess (hcfg ▸ hadapt) hno
      rw [hcfg] at hexcess
      have hzero : (c.tbl i).excess cfg - decayStepsOf i c quiet = 0 := Nat.sub_eq_zero_of_le hsteps
      omega
    | false =>
      rw [decayStepsOf_off (hcfg ▸ hadapt)] at hsteps
      have hstart := hok i hkey
      rw [hcfg] at hstart
      rw [PeerBuf.excess, hwin.fixed hadapt, ← hstart.fixed hadapt]
      exact Nat.le_zero.mp hsteps

/-- A datagram 60 ms late widens the window to 65 ms; twelve steps later it is at the floor of 5 ms. -/
example :
    let late := [.getPeer ⟨2, 1, 0x0a000001⟩ 1000, .noteDelivery 0 7 1000 1000 .first, .adaptOnArrival 0 6 1060]
    let c := late.foldl reorderCall (reorderInit .default)
    let quiet := (List.range 12).map fun n => ReorderCall.decay 0 (BitVec.ofNat 64 (1560 + 500 * n))
    (c.tbl 0).winMs = 65 ∧ decayStepsOf 0 c quiet = 12 ∧ ((quiet.foldl reorderCall c).tbl 0).winMs = 5 := by
  decide +kernel

end BzNet
