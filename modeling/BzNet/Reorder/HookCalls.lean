import BzNet.Reorder.Close
import BzNet.Reorder.Window

/-!
# The hooks' use of the buffer

Everything the hooks do to the table of peers, one call at a time: the arrivals and releases of the synchronous path,
the lookups, adaptations and deliveries of the overlapped one, the reset, the counters.

* `HookOp`, `hookStep` : the calls; `sockRun_hookOps` : the synchronous hooks and the close are runs of them;
* `HookOp.activity` : the source a call is about and when, if it is about one;
* `Rewrites`, `TableStep` : what a call does to the table, with `hookStep_table`; what follows is read off it.
-/

namespace BzNet

open Machine

variable {cfg : ReorderCfg} {pb : PeerBuf} {c : ReorderCtx}

/-! ## The calls -/

/-- A call of the hooks. An arrival is in the drain loop, which tests for a full ring before. -/
inductive HookOp where
  | core (op : ReorderOp)
  /-- The overlapped path looks a source up, adapts its window, or notes a delivery. -/
  | peer (src : SockAddr) (now : U64)
  | adapt (src : SockAddr) (seq : U32) (now : U64)
  | note (src : SockAddr) (seq : U32) (ts now : U64) (kind : DeliverKind)

/-- Look a source up and, where it has an entry, go on with that. -/
def atPeer (c : ReorderCtx) (src : SockAddr) (now : U64) (f : ReorderCtx → Nat → ReorderCtx) : ReorderCtx :=
  match reorderGetPeer c src now with
  | none => c
  | some (c, i) => f c i

def hookStep (c : ReorderCtx) : HookOp → ReorderCtx × Option (Nat × ReorderSlot)
  | .core op => coreStep c op
  | .peer src now => (atPeer c src now fun c _ => c, none)
  | .adapt src seq now =>
    (atPeer c src now fun c i => c.put i (reorderAdaptOnArrival c.cfg (c.tbl i) seq now) c.stats, none)
  | .note src seq ts now kind =>
    (atPeer c src now fun c i =>
      let r := reorderNoteDelivery c.cfg (c.tbl i) seq now
      c.put i r.1 (reorderCountDelivery c.stats r.2 ts now kind), none)

/-- The source a call looks up. -/
def HookOp.source? : HookOp → Option U64
  | .core (.arrive d _) => some (reorderKey d.src)
  | .peer src _ => some (reorderKey src)
  | .adapt src _ _ => some (reorderKey src)
  | .note src _ _ _ _ => some (reorderKey src)
  | _ => none

def HookOp.time? : HookOp → Option U64
  | .core (.arrive _ t) => some t
  | .core (.release t) => some t
  | .core (.nextReady t) => some t
  | .peer _ t => some t
  | .adapt _ _ t => some t
  | .note _ _ _ t _ => some t
  | _ => none

/-- The key of the source a call is about, and the clock: one looked up, or one a packet is released of. -/
def HookOp.activity (c : ReorderCtx) : HookOp → Option (U64 × U64)
  | .core (.arrive d t) => if reorderDrainSaturated c then none else some (reorderKey d.src, t)
  | .core (.release t) => (rxRelease c t).took.map fun s => ((c.tbl s.1).key, t)
  | .peer src t => some (reorderKey src, t)
  | .adapt src _ t => some (reorderKey src, t)
  | .note src _ _ t _ => some (reorderKey src, t)
  | _ => none

theorem HookOp.activity_time {op : HookOp} {a : U64 × U64} (h : op.activity c = some a) : op.time? = some a.2 := by
  cases op with
  | core op =>
    cases op with
    | arrive d t =>
      simp only [activity] at h
      split at h
      · cases h
      · rw [← Option.some.inj h]
        rfl
    | release t =>
      obtain ⟨s, -, rfl⟩ := Option.map_eq_some_iff.mp h
      rfl
    | nextReady t => cases h
    | reset => cases h
    | count st => cases h
  | peer src t =>
    rw [← Option.some.inj h]
    rfl
  | adapt src seq t =>
    rw [← Option.some.inj h]
    rfl
  | note src seq ts t kind =>
    rw [← Option.some.inj h]
    rfl

/-! ## The synchronous hooks make such calls -/

def drainOps (sock : Socket) : Nat → RxState → List (RecvResult × U64) → Nat → List HookOp
  | 0, _, _, _ => []
  | n + 1, s, reals, drained =>
    if reorderDrainSaturated s.rx then []
    else
      match reals with
      | [] => []
      | (.failed, _) :: _ => []
      | (.msgsize, _) :: reals =>
        let s := { s with rx := { s.rx with stats := { s.rx.stats with emsgsize := s.rx.stats.emsgsize + 1 } } }
        .core (.count s.rx.stats) :: drainOps sock n s reals (drained + 1)
      | (.datagram d, arrivalMs) :: reals =>
        if d.data = [] then []
        else if isWake d then drainOps sock n s reals (drained + 1)
        else if isUnsequenced d then [.core (.count { s.rx.stats with bypassShort := s.rx.stats.bypassShort + 1 })]
        else
          let a := rxArrive s.rx d arrivalMs
          let s' := { s with rx := a.ctx, reorderSock := sock, lastRecvCallMs := arrivalMs }
          .core (.arrive d arrivalMs) ::
            if !a.tracked then []
            else
              match a.out with
              | some _ => [.core (.count (noteDrainDepth s' (drained + 1)).rx.stats)]
              | none => drainOps sock n s' reals (drained + 1)

def sockOps (s : RxState) : SockOp → List HookOp
  | .recv call =>
    let s := if call.sock = s.reorderSock then { s with lastRecvCallMs := call.pollMs } else s
    let r := rxDrain call.sock s.drain s call.reals 0
    drainOps call.sock s.drain s call.reals 0 ++
      match r.out with
      | some _ => []
      | none => [.core (.count (noteDrainDepth r.state r.count).rx.stats), .core (.release call.nowMs)]
  | .close _ => [.core .reset]

theorem final_arrive {d : Datagram} {t : U64} (hsat : reorderDrainSaturated c = false) (ops : List HookOp) :
    final hookStep c (.core (.arrive d t) :: ops) = final hookStep (rxArrive c d t).ctx ops := by
  rw [final_cons]
  simp only [hookStep, coreStep_arrive, hsat]
  rfl

theorem rxDrain_ops (sock : Socket) (n : Nat) (s : RxState) (reals : List (RecvResult × U64)) (drained : Nat) :
    (rxDrain sock n s reals drained).state.rx = final hookStep s.rx (drainOps sock n s reals drained) := by
  induction n generalizing s reals drained with
  | zero => rfl
  | succ n ih =>
    unfold rxDrain drainOps
    cases hsat : reorderDrainSaturated s.rx with
    | true => rfl
    | false =>
      simp only [Bool.false_eq_true, if_false]
      rcases reals with _ | ⟨⟨d | - | -, t⟩, reals⟩
      · rfl
      · dsimp only
        by_cases hempty : d.data = []
        · rw [if_pos hempty, if_pos hempty]
          rfl
        · rw [if_neg hempty, if_neg hempty]
          cases hwake : isWake d with
          | true =>
            simp only [if_true]
            exact ih _ _ _
          | false =>
            simp only [Bool.false_eq_true, if_false]
            cases hun : isUnsequenced d with
            | true => rfl
            | false =>
              simp only [Bool.false_eq_true, if_false]
              rw [final_arrive hsat]
              cases htr : (rxArrive s.rx d t).tracked with
              | false => rfl
              | true =>
                simp only [Bool.not_true, Bool.false_eq_true, if_false]
                cases hout : (rxArrive s.rx d t).out with
                | some out => rfl
                | none => exact ih _ _ _
      · exact ih _ _ _
      · rfl

theorem sockStep_ops (s : RxState) (op : SockOp) :
    (sockStep s op).1.rx = final hookStep s.rx (sockOps s op) := by
  cases op with
  | recv call =>
    simp only [sockStep, hookedWSARecvFrom, sockOps]
    have hrx : (if call.sock = s.reorderSock then { s with lastRecvCallMs := call.pollMs } else s).rx = s.rx := by
      split
      · rfl
      · rfl
    generalize (if call.sock = s.reorderSock then { s with lastRecvCallMs := call.pollMs } else s) = s' at hrx ⊢
    have hdrain := rxDrain_ops call.sock s'.drain s' call.reals 0
    rw [hrx] at hdrain
    rw [final_append, ← hdrain]
    cases hout : (rxDrain call.sock s'.drain s' call.reals 0).out with
    | some d => rfl
    | none => rfl
  | close sock => rfl

/-- **The hooks of the synchronous path** use the buffer by these calls only. -/
theorem sockRun_hookOps (cfg : ReorderCfg) (drain : Nat) (ops : List SockOp) :
    (final sockStep (rxInit cfg drain) ops).rx =
      final hookStep (reorderInit cfg) (callsOf sockStep sockOps (rxInit cfg drain) ops) :=
  @final_calls _ _ _ _ _ _ _ _ RxState.rx _ sockStep_ops (rxInit cfg drain) ops

/-! ## The table after a call -/

/-- No slot beyond the depth of the ring is in use. -/
def PeerBuf.NoneAbove (cfg : ReorderCfg) (pb : PeerBuf) : Prop := ∀ j, cfg.depth ≤ j → (pb.slots j).used = false

/-- `pb'` is `pb` after activity at time `t`: the same source, and as well formed. -/
structure Rewrites (cfg : ReorderCfg) (t : U64) (pb pb' : PeerBuf) : Prop where
  key : pb'.key = pb.key
  active : pb'.lastActivityMs = t
  ok : PeerOk cfg pb → PeerOk cfg pb'
  noneAbove : pb.NoneAbove cfg → pb'.NoneAbove cfg

theorem Rewrites.trans {t t' : U64} {a b e : PeerBuf} (h : Rewrites cfg t a b) (h' : Rewrites cfg t' b e) :
    Rewrites cfg t' a e :=
  ⟨h'.key.trans h.key, h'.active, fun hok => h'.ok (h.ok hok), fun ha => h'.noneAbove (h.noneAbove ha)⟩

theorem SameButWindow.rewrites {t : U64} {pb' : PeerBuf} (h : SameButWindow pb' pb) (hactive : pb'.lastActivityMs = t) :
    Rewrites cfg t pb pb' :=
  ⟨h.key, hactive, h.ok, fun ha j hj => by rw [h.slots]; exact ha j hj⟩

theorem reorderAdaptOnArrival_active (cfg : ReorderCfg) (pb : PeerBuf) (seq : U32) (now : U64) :
    (reorderAdaptOnArrival cfg pb seq now).lastActivityMs = pb.lastActivityMs := by
  have hgrow : ∀ measured, (reorderGrow cfg pb measured now).lastActivityMs = pb.lastActivityMs := by
    intro measured
    unfold reorderGrow
    dsimp only
    repeat' split
    all_goals rfl
  unfold reorderAdaptOnArrival
  repeat' split
  all_goals first | rfl | exact hgrow _

theorem reorderDecay_active (cfg : ReorderCfg) (pb : PeerBuf) (now : U64) :
    (reorderDecay cfg pb now).lastActivityMs = pb.lastActivityMs := by
  unfold reorderDecay
  dsimp only
  repeat' split
  all_goals rfl

theorem release_noneAbove (h : pb.NoneAbove cfg) (i : Nat) : (pb.release i).NoneAbove cfg := by
  intro j hj
  change (Function.update pb.slots i _ j).used = false
  by_cases hji : j = i
  · rw [hji, Function.update_self]
  · rw [Function.update_of_ne hji]
    exact h j hj

theorem reorderNoteDelivery_noneAbove (h : pb.NoneAbove cfg) (seq : U32) (now : U64) :
    (reorderNoteDelivery cfg pb seq now).1.NoneAbove cfg := by
  intro j hj
  simp only [reorderNoteDelivery, reorderPurgeStale]
  rw [if_neg (by simp [PeerBuf.advance]), purge_pass]
  have hslot : (pb.advance seq).purgedSlots cfg.depth j = pb.slots j :=
    if_neg fun hlt => Nat.not_lt.mpr hj hlt.1
  change ((pb.advance seq).purgedSlots cfg.depth j).used = false
  rw [hslot]
  exact h j hj

theorem reorderInsert_noneAbove (h : pb.NoneAbove cfg) (seq : U32) (ts : U64) (pkt : Datagram) :
    (reorderInsert cfg pb seq ts pkt).1.NoneAbove cfg := by
  have hput : ∀ (i : Nat) (s : ReorderSlot) (n : Nat), i < cfg.depth →
      ({ pb with slots := Function.update pb.slots i s, filled := n } : PeerBuf).NoneAbove cfg := by
    intro i s n hi j hj
    change (Function.update pb.slots i s j).used = false
    rw [Function.update_of_ne (by omega)]
    exact h j hj
  unfold reorderInsert
  split
  · exact h
  · split
    · exact h
    · split
      · next i hi => exact hput i _ _ (List.mem_range.mp (List.mem_of_find?_eq_some hi))
      · exact hput _ _ _ (Slots.pick_lt _ cfg.depth_pos)

theorem reorderNoteDelivery_rewrites (cfg : ReorderCfg) (pb : PeerBuf) (seq : U32) (now : U64) :
    Rewrites cfg now pb (reorderNoteDelivery cfg pb seq now).1 :=
  ⟨(reorderNoteDelivery_sameWindow cfg pb seq now).key, rfl, fun h => reorderNoteDelivery_ok h seq now,
    fun h => reorderNoteDelivery_noneAbove h seq now⟩

theorem reorderTakePeer_rewrites {slot : Nat} (hslot : slot < cfg.depth) (hu : (pb.slots slot).used = true)
    (now : U64) : Rewrites cfg now pb (reorderTakePeer cfg pb slot now).1 := by
  have hrelease : Rewrites cfg pb.lastActivityMs pb (pb.release slot) :=
    ⟨rfl, rfl, fun h => release_ok h hslot hu, fun h => release_noneAbove h slot⟩
  have hnote := hrelease.trans (reorderNoteDelivery_rewrites cfg (pb.release slot) (pb.slots slot).seq now)
  exact hnote.trans ((reorderDecay_same cfg _ now).rewrites ((reorderDecay_active cfg _ now).trans hnote.active))

theorem arrivedEntry_rewrites {d : Datagram} {t : U64} (hkey : reorderKey d.src = pb.key)
    (hactive : pb.lastActivityMs = t) : Rewrites cfg t pb (arrivedEntry cfg pb d t) := by
  have hadapt : (reorderAdaptOnArrival cfg pb d.seq t).lastActivityMs = t :=
    (reorderAdaptOnArrival_active cfg pb d.seq t).trans hactive
  have hinsert : (reorderInsert cfg (reorderAdaptOnArrival cfg pb d.seq t) d.seq t d).1.lastActivityMs = t := by
    obtain ⟨slots, filled, hins⟩ := reorderInsert_frame cfg (reorderAdaptOnArrival cfg pb d.seq t) d.seq t d
    rw [hins]
    exact hadapt
  refine ⟨arrivedEntry_key cfg pb d t, ?_, fun h => arrivedEntry_ok h hkey t, fun h => ?_⟩
  · unfold arrivedEntry
    dsimp only
    split
    · rfl
    · exact hinsert
  · have hslots : (reorderAdaptOnArrival cfg pb d.seq t).NoneAbove cfg := by
      intro j hj
      rw [(reorderAdaptOnArrival_same cfg pb d.seq t).slots]
      exact h j hj
    have hins := reorderInsert_noneAbove hslots d.seq t d
    unfold arrivedEntry
    dsimp only
    split
    · exact reorderNoteDelivery_noneAbove hins _ t
    · exact hins

/-- What a call does to the table: nothing that concerns a live entry; an entry of its source rewritten; a new entry
in an unused place or over one idle for long; or all forgotten. -/
inductive TableStep (c : ReorderCtx) (op : HookOp) : (Nat → PeerBuf) → Prop
  | rest : (∀ a, op.activity c = some a → ∀ j, j < c.cfg.peers → (c.tbl j).key ≠ a.1) → TableStep c op c.tbl
  | rewrite (i : Nat) (t : U64) (pb' : PeerBuf) : i < c.cfg.peers → op.activity c = some ((c.tbl i).key, t) →
      Rewrites c.cfg t (c.tbl i) pb' → TableStep c op (Function.update c.tbl i pb')
  | create (i : Nat) (k t : U64) (pb' : PeerBuf) : i < c.cfg.peers → op.activity c = some (k, t) →
      (∀ j, j < c.cfg.peers → (c.tbl j).key ≠ k) →
      ((c.tbl i).key = 0 ∨ kReorderPeerIdleMs ≤ t - (c.tbl i).lastActivityMs) →
      Rewrites c.cfg t (reorderFresh c.cfg k t) pb' → TableStep c op (Function.update c.tbl i pb')
  | forget : op.activity c = none → TableStep c op fun _ => PeerBuf.zero

/-- The entry looked up: the one the source has, or a new one. -/
inductive Looked (c : ReorderCtx) (k t : U64) (i : Nat) (pb : PeerBuf) : Prop
  | found : (c.tbl i).key = k → pb = KeyedRecord.touch t (c.tbl i) → Looked c k t i pb
  | created : (∀ j, j < c.cfg.peers → (c.tbl j).key ≠ k) →
      ((c.tbl i).key = 0 ∨ kReorderPeerIdleMs ≤ t - (c.tbl i).lastActivityMs) →
      pb = reorderFresh c.cfg k t → Looked c k t i pb

theorem reorderGetPeer_looked (c : ReorderCtx) (src : SockAddr) (t : U64) :
    (reorderGetPeer c src t = none ∧ ∀ j, j < c.cfg.peers → (c.tbl j).key ≠ reorderKey src) ∨
      ∃ i pb st, i < c.cfg.peers ∧ Looked c (reorderKey src) t i pb ∧
        reorderGetPeer c src t = some ({ c with tbl := Function.update c.tbl i pb, stats := st }, i) := by
  cases hf : LruTable.find? c.cfg.peers c.tbl (reorderKey src) with
  | some i =>
    obtain ⟨hi, hkey⟩ := LruTable.find?_some hf
    refine Or.inr ⟨i, _, c.stats, hi, .found hkey rfl, ?_⟩
    simp only [reorderGetPeer, LruTable.locate, hf]
  | none =>
    have hno : ∀ j, j < c.cfg.peers → (c.tbl j).key ≠ reorderKey src := LruTable.find?_eq_none.mp hf
    cases hz : LruTable.find? c.cfg.peers c.tbl (LruTable.freeKey PeerBuf) with
    | some i =>
      obtain ⟨hi, hkey⟩ := LruTable.find?_some hz
      refine Or.inr ⟨i, _, c.stats, hi, .created hno (Or.inl hkey) rfl, ?_⟩
      simp only [reorderGetPeer, LruTable.locate, hf, hz]
    | none =>
      by_cases hidle : t - (c.tbl (LruTable.oldest c.cfg.peers c.tbl)).lastActivityMs < kReorderPeerIdleMs
      · refine Or.inl ⟨?_, hno⟩
        simp only [reorderGetPeer, LruTable.locate, hf, hz, if_pos hidle]
      · refine Or.inr ⟨LruTable.oldest c.cfg.peers c.tbl, _,
          { c.stats with
            peersReclaimed := c.stats.peersReclaimed + 1
            droppedReclaim := c.stats.droppedReclaim + (c.tbl (LruTable.oldest c.cfg.peers c.tbl)).filled },
          LruTable.oldest_lt c.cfg.peers_pos, .created hno (Or.inr (BitVec.not_lt.mp hidle)) rfl, ?_⟩
        simp only [reorderGetPeer, LruTable.locate, hf, hz, if_neg hidle]

theorem Looked.key {k t : U64} {i : Nat} (h : Looked c k t i pb) : pb.key = k := by
  cases h with
  | found hkey hpb => rw [hpb]; exact hkey
  | created _ _ hpb => rw [hpb]; rfl

theorem Looked.active {k t : U64} {i : Nat} (h : Looked c k t i pb) : pb.lastActivityMs = t := by
  cases h with
  | found _ hpb => rw [hpb]; rfl
  | created _ _ hpb => rw [hpb]; rfl

theorem Looked.step {op : HookOp} {k t : U64} {i : Nat} {pb' : PeerBuf} (h : Looked c k t i pb)
    (hi : i < c.cfg.peers) (hop : op.activity c = some (k, t)) (hpb : Rewrites c.cfg t pb pb') :
    TableStep c op (Function.update c.tbl i pb') := by
  cases h with
  | found hkey hfound =>
    subst hkey hfound
    have htouch : SameButWindow (KeyedRecord.touch t (c.tbl i)) (c.tbl i) := ⟨rfl, rfl, rfl, rfl, rfl⟩
    exact .rewrite i t pb' hi hop (Rewrites.trans (SameButWindow.rewrites htouch rfl) hpb)
  | created hno hidle hfresh =>
    subst hfresh
    exact .create i k t pb' hi hop hno hidle hpb

/-- A call that looks a source up and rewrites its entry. -/
theorem atPeer_table {op : HookOp} {src : SockAddr} {t : U64} {f : ReorderCtx → Nat → ReorderCtx}
    (hop : op.activity c = some (reorderKey src, t)) {g : PeerBuf → PeerBuf}
    (hf : ∀ c' i, c'.cfg = c.cfg → (f c' i).cfg = c.cfg ∧ (f c' i).tbl = Function.update c'.tbl i (g (c'.tbl i)))
    (hg : ∀ pb, pb.lastActivityMs = t → Rewrites c.cfg t pb (g pb)) :
    (atPeer c src t f).cfg = c.cfg ∧ TableStep c op (atPeer c src t f).tbl := by
  unfold atPeer
  rcases reorderGetPeer_looked c src t with ⟨hnone, hno⟩ | ⟨i, pb, st, hi, hlook, hsome⟩
  · rw [hnone]
    refine ⟨rfl, .rest fun a ha => ?_⟩
    rw [hop] at ha
    rw [← Option.some.inj ha]
    exact hno
  · rw [hsome]
    dsimp only
    obtain ⟨hcfg, htbl⟩ := hf { c with tbl := Function.update c.tbl i pb, stats := st } i rfl
    refine ⟨hcfg, ?_⟩
    rw [htbl]
    simp only [Function.update_self, Function.update_idem]
    exact hlook.step hi hop (hg pb hlook.active)

theorem rxArrive_table {d : Datagram} {t : U64} (hsat : reorderDrainSaturated c = false) :
    (rxArrive c d t).ctx.cfg = c.cfg ∧ TableStep c (.core (.arrive d t)) (rxArrive c d t).ctx.tbl := by
  have hop : (HookOp.core (.arrive d t)).activity c = some (reorderKey d.src, t) := by
    simp only [HookOp.activity, hsat]
    rfl
  rcases reorderGetPeer_looked c d.src t with ⟨hnone, hno⟩ | ⟨i, pb, st, hi, hlook, hsome⟩
  · unfold rxArrive
    rw [hnone]
    refine ⟨rfl, .rest fun a ha => ?_⟩
    rw [hop] at ha
    rw [← Option.some.inj ha]
    exact hno
  · refine ⟨?_, ?_⟩
    · unfold rxArrive
      rw [hsome]
      dsimp only
      split <;> rfl
    · rw [rxArrive_tbl hsome]
      exact hlook.step hi hop (arrivedEntry_rewrites hlook.key.symm hlook.active)

/-- **One call of the hooks.** -/
theorem hookStep_table (c : ReorderCtx) (op : HookOp) :
    (hookStep c op).1.cfg = c.cfg ∧ TableStep c op (hookStep c op).1.tbl := by
  cases op with
  | core op =>
    cases op with
    | arrive d t =>
      simp only [hookStep, coreStep_arrive]
      cases hsat : reorderDrainSaturated c with
      | true =>
        refine ⟨rfl, .rest fun a ha => ?_⟩
        simp [HookOp.activity, hsat] at ha
      | false => exact rxArrive_table hsat
    | release t =>
      have hstep := rxRelease_step c t
      simp only [hookStep, coreStep_release]
      cases hr : rxRelease c t with
      | mk c' took =>
        rw [hr] at hstep
        cases hstep with
        | nothing hno =>
          refine ⟨rfl, .rest fun a ha => ?_⟩
          simp [HookOp.activity, hr] at ha
        | take i slot kind hi hkey hpick hslot hu =>
          refine ⟨rfl, .rewrite i t _ hi ?_ (reorderTakePeer_rewrites hslot hu t)⟩
          simp only [HookOp.activity, hr]
          rfl
    | nextReady t =>
      simp only [hookStep, (coreStep_nextReady c t).1]
      refine ⟨coreStep_cfg _, .rest fun a ha => ?_⟩
      cases ha
    | reset => exact ⟨rfl, .forget rfl⟩
    | count st =>
      refine ⟨rfl, .rest fun a ha => ?_⟩
      cases ha
  | peer src t =>
    exact atPeer_table (g := id) rfl (fun c' i hcfg => ⟨hcfg, (Function.update_eq_self i c'.tbl).symm⟩)
      fun pb hactive => (SameButWindow.refl pb).rewrites hactive
  | adapt src seq t =>
    refine atPeer_table (g := fun pb => reorderAdaptOnArrival c.cfg pb seq t) rfl (fun c' i hcfg => ?_) fun pb hactive =>
      (reorderAdaptOnArrival_same c.cfg pb seq t).rewrites ((reorderAdaptOnArrival_active c.cfg pb seq t).trans hactive)
    rw [hcfg]
    exact ⟨hcfg, rfl⟩
  | note src seq ts t kind =>
    refine atPeer_table (g := fun pb => (reorderNoteDelivery c.cfg pb seq t).1) rfl (fun c' i hcfg => ?_) fun pb _ =>
      reorderNoteDelivery_rewrites c.cfg pb seq t
    rw [hcfg]
    exact ⟨hcfg, rfl⟩

end BzNet
