import BzNet.Lib.Jitter
import BzNet.Reorder.HookCalls

/-!
# The order of a stream is restored

What the buffer is for: it refines a jitter buffer for each source.

* `leastHold` : the time for which the window of every entry waits at least;
* `coreView` : one operation as one source sees it, an event of a jitter buffer and what is handed over;
* `coreRun_jitter` : every run of the buffer is a run of a jitter buffer for the source;
* `recvOps`, `recvRunOps_view` : the receive hook drives the buffer so, and hands over what it hands over;
* `reorder_sorts`, `reorder_restores` : a stream that arrives displaced by less than the least hold time leaves in
  ascending order, and whole where nothing is lost.
-/

namespace BzNet

/-! ## How long a packet is held at least -/

/-- The least time for which an entry holds a packet whose predecessors are missing. -/
def leastHold (cfg : ReorderCfg) : Nat :=
  let win := (if cfg.adapt then cfg.winMinMs else cfg.winMaxMs).toNat
  if cfg.maxHoldMs = 0 then win else min win cfg.maxHoldMs.toNat

section Windows
variable {cfg : ReorderCfg} {pb : PeerBuf} {c : ReorderCtx}

theorem leastHold_le (h : pb.WindowOk cfg) : leastHold cfg ≤ effectiveWindow cfg pb := by
  have hwin : (if cfg.adapt then cfg.winMinMs else cfg.winMaxMs).toNat ≤ pb.winMs.toNat := by
    cases hadapt : cfg.adapt with
    | true => exact BitVec.le_def.mp h.floor
    | false => rw [h.fixed hadapt]; exact Nat.le_refl _
  unfold leastHold effectiveWindow
  dsimp only
  split
  · exact hwin
  · exact min_le_min_right _ hwin

theorem arrivedEntry_windowOk (h : pb.WindowOk cfg) (d : Datagram) (t : U64) : (arrivedEntry cfg pb d t).WindowOk cfg := by
  have hadapt := reorderAdaptOnArrival_windowOk h d.seq t
  have hins := reorderInsert_sameWindow cfg (reorderAdaptOnArrival cfg pb d.seq t) d.seq t d
  unfold arrivedEntry
  dsimp only
  split
  · exact (reorderNoteDelivery_sameWindow cfg _ _ t).windowOk (hins.windowOk hadapt)
  · exact hins.windowOk hadapt

theorem rxArrive_windowsOk (h : WindowsOk c) (d : Datagram) (t : U64) : WindowsOk (rxArrive c d t).ctx := by
  cases hget : reorderGetPeer c d.src t with
  | none =>
    have hctx : (rxArrive c d t).ctx.tbl = c.tbl := by rw [rxArrive, hget]
    intro i hkey
    rw [hctx] at hkey ⊢
    rw [rxArrive_cfg]
    exact h i hkey
  | some r =>
    obtain ⟨-, pb, st, hc, hentry⟩ := @reorderGetPeer_entry c d.src t r.1 r.2 hget
    have hpb : (arrivedEntry c.cfg pb d t).key ≠ 0 → pb.WindowOk c.cfg := by
      intro hkey
      rw [arrivedEntry_key] at hkey
      rcases hentry with ⟨-, rfl⟩ | ⟨-, rfl⟩
      · have hsame : SameWindow (KeyedRecord.touch t (c.tbl r.2)) (c.tbl r.2) := ⟨rfl, rfl, rfl⟩
        exact hsame.windowOk (h r.2 hkey)
      · exact reorderFresh_windowOk c.cfg _ t
    have htbl := rxArrive_tbl (hget.trans (congrArg some (Prod.ext hc rfl)))
    intro i hkey
    rw [rxArrive_cfg]
    rw [htbl] at hkey ⊢
    by_cases hi : i = r.2
    · subst hi
      rw [Function.update_self] at hkey ⊢
      exact arrivedEntry_windowOk (hpb hkey) d t
    · rw [Function.update_of_ne hi] at hkey ⊢
      exact h i hkey

theorem rxRelease_windowsOk (h : WindowsOk c) (t : U64) : WindowsOk (rxRelease c t).ctx := by
  have hstep := rxRelease_step c t
  generalize rxRelease c t = r at hstep ⊢
  cases hstep with
  | nothing => exact h
  | take i slot kind hi hkey hpick hslot hu =>
    intro j hj
    by_cases hji : j = i
    · subst hji
      obtain ⟨pb, hsame, heq⟩ := reorderTakePeer_eq c.cfg (c.tbl j) slot t
      simp only [Function.update_self]
      rw [heq]
      exact reorderDecay_windowOk (hsame.windowOk (h j hkey)) t
    · simp only [Function.update_of_ne hji] at hj ⊢
      exact h j hj

end Windows

/-! ## One source -/

/-- One operation as source `k` sees it: the buffer after it, with the event, and what is handed over of the source.
Places in the stream are counted from `base`. -/
def coreView (k : U64) (base : U32) (c : ReorderCtx) (op : ReorderOp) :
    ReorderCtx × List Jitter.Event × List Datagram :=
  let own (out : Option Datagram) := out.toList.filter fun d => reorderKey d.src = k
  ((coreStep c op).1, match op with
    | .arrive d t =>
      if reorderDrainSaturated c then ([], [])
      else
        (if reorderKey d.src = k then [.arrive (Serial.elapsed d.seq base) t.toNat] else [], own (rxArrive c d t).out)
    | .release t => ([.poll t.toNat], own (rxRelease c t).out)
    | _ => ([], []))

/-- An entry of the source, as a jitter buffer. -/
structure PeerBuf.Shows (cfg : ReorderCfg) (base : U32) (pb : PeerBuf) (b : Jitter.Buffer) : Prop where
  cursor : b.cursor = if pb.seqInit then some (Serial.elapsed pb.lastSeq base) else none
  held : b.held = (pb.held cfg).map fun s => (Serial.elapsed s.seq base, s.ts.toNat)
  arcCursor : pb.seqInit = true → 2 * Serial.elapsed pb.lastSeq base < 2 ^ 32
  arc : pb.SpansFrom cfg base
  sequenced : ∀ s ∈ pb.held cfg, isUnsequenced s.pkt = false

/-- What the buffer holds of source `k`, as a jitter buffer. -/
structure Mirrors (keys : Finset U64) (k : U64) (base : U32) (c : ReorderCtx) (b : Jitter.Buffer) : Prop where
  ok : RxOk c
  windows : WindowsOk c
  keysIn : LruTable.KeysIn c.cfg.peers c.tbl keys
  absent : (∀ i, i < c.cfg.peers → (c.tbl i).key ≠ k) → b = ⟨none, 0⟩
  entry : ∀ i, i < c.cfg.peers → (c.tbl i).key = k → (c.tbl i).Shows c.cfg base b

section Steps
variable {keys : Finset U64} {k : U64} {base : U32} {c : ReorderCtx} {b : Jitter.Buffer} {cfg : ReorderCfg} {pb : PeerBuf}
  {i : Nat} {lost : Nat} {d : Datagram} {t : U64}

theorem elapsed_inj {a a' : U32} (h : Serial.elapsed a base = Serial.elapsed a' base) : a = a' := by
  have hsub : a - base = a' - base := BitVec.eq_of_toNat_eq h
  calc a = a - base + base := by ring
    _ = a' - base + base := by rw [hsub]
    _ = a' := by ring

theorem SameButWindow.shows {pb' : PeerBuf} (hs : SameButWindow pb' pb) (h : pb.Shows cfg base b) :
    pb'.Shows cfg base b where
  cursor := by rw [hs.seqInit, hs.lastSeq, h.cursor]
  held := by rw [hs.held, h.held]
  arcCursor := by
    rw [hs.seqInit, hs.lastSeq]
    exact h.arcCursor
  arc := by
    rw [PeerBuf.SpansFrom, hs.held]
    exact h.arc
  sequenced := by
    rw [hs.held]
    exact h.sequenced

theorem reorderFresh_shows (cfg : ReorderCfg) (key now : U64) (base : U32) :
    (reorderFresh cfg key now).Shows cfg base ⟨none, 0⟩ where
  cursor := rfl
  held := by rw [reorderFresh_held]; rfl
  arcCursor := nofun
  arc := by
    rw [PeerBuf.SpansFrom, reorderFresh_held]
    exact fun s hs => absurd hs List.not_mem_nil
  sequenced := by
    rw [reorderFresh_held]
    exact fun s hs => absurd hs List.not_mem_nil

theorem Mirrors.room (h : Mirrors keys k base c b) (hcard : keys.card ≤ c.cfg.peers) {k' : U64} (hk : k' ∈ keys) :
    ¬ TableFull c k' := by
  intro hfull
  obtain ⟨j, hj, heq⟩ := LruTable.exists_room h.ok.distinct hk hcard h.keysIn
  rcases heq with heq | heq
  · exact (hfull j hj).1 heq
  · exact (hfull j hj).2 heq

/-- The entry an arrival of the source goes to shows what is held of it. -/
theorem Enters.shows (h : Enters c k i pb lost) (hi : i < c.cfg.peers) (hroom : ¬ TableFull c k)
    (hs : Mirrors keys k base c b) : pb.Shows c.cfg base b := by
  cases h with
  | found hkey hsame => exact hsame.shows (hs.entry i hi hkey)
  | created now hno _ hsame =>
    rw [hs.absent hno]
    exact hsame.shows (reorderFresh_shows c.cfg k now base)
  | reclaimed now hfull => exact absurd hfull hroom

theorem Mirrors.put (h : Mirrors keys k base c b) (hk : k ≠ 0) (hkeys : k ∈ keys) (hi : i < c.cfg.peers)
    (hent : Enters c k i pb lost) {pb' : PeerBuf} (hkey : pb'.key = k) {b' : Jitter.Buffer}
    (hshows : pb'.Shows c.cfg base b') {st : ReorderStats}
    (hok : RxOk { c with tbl := Function.update c.tbl i pb', stats := st })
    (hwin : WindowsOk { c with tbl := Function.update c.tbl i pb', stats := st }) :
    Mirrors keys k base { c with tbl := Function.update c.tbl i pb', stats := st } b' where
  ok := hok
  windows := hwin
  keysIn := LruTable.keysIn_put h.keysIn fun _ => show pb'.key ∈ keys by rwa [hkey]
  absent hno := absurd (by simpa using hkey) (hno i hi)
  entry j hj hjk := by
    by_cases hji : j = i
    · subst hji
      simpa using hshows
    · simp only [Function.update_of_ne hji] at hjk
      exact absurd hjk (hent.others h.ok hi hk j hj hji)

theorem Mirrors.put_other (h : Mirrors keys k base c b) {pb' : PeerBuf} (hwas : (c.tbl i).key ≠ k) (hkey : pb'.key ≠ k)
    (hkeys : pb'.key ∈ keys) {rr : Nat} {st : ReorderStats}
    (hok : RxOk { c with tbl := Function.update c.tbl i pb', rr := rr, stats := st })
    (hwin : WindowsOk { c with tbl := Function.update c.tbl i pb', rr := rr, stats := st }) :
    Mirrors keys k base { c with tbl := Function.update c.tbl i pb', rr := rr, stats := st } b where
  ok := hok
  windows := hwin
  keysIn := LruTable.keysIn_put h.keysIn fun _ => hkeys
  absent hno := h.absent fun j hj => by
    by_cases hji : j = i
    · exact hji ▸ hwas
    · have hj' := hno j hj
      simpa only [Function.update_of_ne hji] using hj'
  entry j hj hjk := by
    by_cases hji : j = i
    · subst hji
      simp only [Function.update_self] at hjk
      exact absurd hjk hkey
    · simp only [Function.update_of_ne hji] at hjk ⊢
      exact h.entry j hj hjk

theorem PeerBuf.Shows.fill (h : pb.Shows cfg base b) {j : Nat} (hj : j < cfg.depth) (hfree : (pb.slots j).used = false)
    (harc : 2 * Serial.elapsed d.seq base < 2 ^ 32) (hun : isUnsequenced d = false) :
    (pb.fill j ⟨t, d.seq, true, d⟩).Shows cfg base
      { b with held := (Serial.elapsed d.seq base, t.toNat) ::ₘ b.held } where
  cursor := h.cursor
  held := by
    have hperm : List.Perm ((pb.fill j ⟨t, d.seq, true, d⟩).held cfg) (⟨t, d.seq, true, d⟩ :: pb.held cfg) :=
      fill_held hj hfree
    rw [Multiset.coe_eq_coe.mpr (hperm.map _), h.held]
    rfl
  arcCursor := h.arcCursor
  arc s hs := by
    rcases List.mem_cons.mp ((fill_held hj hfree).mem_iff.mp hs) with rfl | hs
    · exact harc
    · exact h.arc s hs
  sequenced s hs := by
    rcases List.mem_cons.mp ((fill_held hj hfree).mem_iff.mp hs) with rfl | hs
    · exact hun
    · exact h.sequenced s hs

theorem PeerBuf.Shows.mem_held (h : pb.Shows cfg base b) {p : Nat × Nat} :
    p ∈ b.held ↔ ∃ s ∈ pb.held cfg, (Serial.elapsed s.seq base, s.ts.toNat) = p := by
  rw [h.held, Multiset.mem_coe, List.mem_map]

/-- **An arrival of the source**: passed on, or held. -/
theorem arrive_shows (h : Mirrors keys k base c b) (hcard : keys.card ≤ c.cfg.peers) (hkeys : k ∈ keys) (hk : k ≠ 0)
    (hd : reorderKey d.src = k) (harc : 2 * Serial.elapsed d.seq base < 2 ^ 32) (hun : isUnsequenced d = false)
    (hsat : reorderDrainSaturated c = false) :
    let n := Serial.elapsed d.seq base
    (Mirrors keys k base (rxArrive c d t).ctx b ∧ (rxArrive c d t).out = some d ∧
        ((∃ m ∈ b.cursor, n ≤ m) ∨ ∃ p ∈ b.held, p.1 = n)) ∨
      (Mirrors keys k base (rxArrive c d t).ctx { b with held := (n, t.toNat) ::ₘ b.held } ∧ (rxArrive c d t).out = none ∧
        (∀ m ∈ b.cursor, m < n) ∧ ∀ p ∈ b.held, p.1 ≠ n) := by
  intro n
  have hstep := rxArrive_step h.ok hsat d t
  have hok := hstep.ok h.ok
  have hwin := rxArrive_windowsOk h.windows d t
  have hroom := h.room hcard hkeys
  generalize rxArrive c d t = a at hstep hok hwin ⊢
  cases hstep with
  | bypass st hfull => exact absurd (hd ▸ hfull) hroom
  | pass i pb lost st _ hi hent hst hwhy =>
    rw [hd] at hent
    have hshows := hent.shows hi hroom h
    left
    refine ⟨h.put hk hkeys hi hent hent.key hshows hok hwin, rfl, ?_⟩
    rcases hwhy with ⟨hinit, hle⟩ | ⟨s, hs, heq⟩
    · left
      refine ⟨_, by rw [hshows.cursor, if_pos hinit]; rfl, ?_⟩
      rw [seqCmp, Serial.cmp_of_arc harc (hshows.arcCursor hinit)] at hle
      omega
    · right
      exact ⟨_, hshows.mem_held.mpr ⟨s, hs, rfl⟩, by rw [heq]⟩
  | hold i pb lost st j _ hi hent hst hahead hnew hj hfree =>
    rw [hd] at hent
    have hshows := hent.shows hi hroom h
    have hkey : (pb.fill j ⟨t, d.seq, true, d⟩).key = k := hent.key
    right
    refine ⟨h.put hk hkeys hi hent hkey (hshows.fill hj hfree harc hun) hok hwin, rfl, fun m hm => ?_, fun p hp heq => ?_⟩
    · rw [hshows.cursor] at hm
      split at hm
      · next hinit =>
        obtain rfl := Option.some.inj hm
        have hlt := hahead hinit
        rw [seqCmp, Serial.cmp_of_arc harc (hshows.arcCursor hinit)] at hlt
        omega
      · cases hm
    · obtain ⟨s, hs, rfl⟩ := hshows.mem_held.mp hp
      exact hnew s hs (elapsed_inj heq)
  | keyless i pb pb' lost st out hzero => exact absurd (hd.symm.trans hzero) hk

/-- **An arrival of another source** leaves the source alone. -/
theorem arrive_hides (h : Mirrors keys k base c b) (hcard : keys.card ≤ c.cfg.peers) (hkeys : reorderKey d.src ∈ keys)
    (hzero : (0 : U64) ∉ keys) (hk : k ≠ 0) (hd : reorderKey d.src ≠ k) (hsat : reorderDrainSaturated c = false) :
    Mirrors keys k base (rxArrive c d t).ctx b ∧ ∀ o ∈ (rxArrive c d t).out, reorderKey o.src ≠ k := by
  have hstep := rxArrive_step h.ok hsat d t
  have hok := hstep.ok h.ok
  have hwin := rxArrive_windowsOk h.windows d t
  have hroom := h.room hcard hkeys
  have hwas : ∀ {i pb lost}, Enters c (reorderKey d.src) i pb lost → (c.tbl i).key ≠ k := by
    intro i pb lost hent
    cases hent with
    | found hkey => rwa [hkey]
    | created now _ hfree => exact fun heq => hk (heq.symm.trans hfree)
    | reclaimed now hfull => exact absurd hfull hroom
  generalize rxArrive c d t = a at hstep hok hwin ⊢
  cases hstep with
  | bypass st hfull => exact absurd hfull hroom
  | pass i pb lost st _ hi hent hst hwhy =>
    have hkey := hent.key
    refine ⟨h.put_other (hwas hent) (by rwa [hkey]) (by rwa [hkey]) hok hwin, fun o ho => ?_⟩
    obtain rfl := Option.some.inj ho
    exact hd
  | hold i pb lost st j _ hi hent hst hahead hnew hj hfree =>
    have hkey : (pb.fill j ⟨t, d.seq, true, d⟩).key = reorderKey d.src := hent.key
    exact ⟨h.put_other (hwas hent) (by rwa [hkey]) (by rwa [hkey]) hok hwin, fun o ho => by cases ho⟩
  | keyless i pb pb' lost st out hnone => exact absurd (hnone ▸ hkeys) hzero

theorem elapsed_seqNext {a : U32} (harc : 2 * Serial.elapsed a base < 2 ^ 32) :
    Serial.elapsed (seqNext a) base = Serial.elapsed a base + 1 := by
  have hsub : seqNext a - base = a - base + 1 := by
    rw [seqNext]
    ring
  have hlt : Serial.elapsed a base + 1 < 2 ^ 32 := by omega
  rw [Serial.elapsed, hsub, BitVec.toNat_add]
  exact Nat.mod_eq_of_lt hlt

theorem reorderPickAged_aged {now : U64} {slot : Nat} (h : reorderPickAged cfg pb now = some slot) :
    pb.isAged cfg now slot = true := by
  rcases Option.or_eq_some_iff.mp h with ha | ⟨-, ha⟩
  · exact (Bool.and_eq_true_iff.mp (Slots.best_some ha).2).1
  · exact (Slots.best_some ha).2

/-- **What an entry picks a jitter buffer may pick.** -/
theorem PeerBuf.Shows.picks (h : pb.Shows cfg base b) (hwin : pb.WindowOk cfg) {now : U64} {slot : Nat}
    {kind : DeliverKind} (hpick : reorderPick cfg pb now = some (slot, kind)) :
    Jitter.Picks (leastHold cfg) b now.toNat (Serial.elapsed (pb.slots slot).seq base) (pb.slots slot).ts.toNat := by
  obtain ⟨hslot, hu, ⟨-, hinit, hfirst⟩ | ⟨-, hinit, hnext⟩ | ⟨-, hinit, hno, haged⟩⟩ := reorderPick_cases hpick
  · refine .first (by rw [h.cursor, hinit]; rfl) fun p hp => ?_
    obtain ⟨s, hs, rfl⟩ := h.mem_held.mp hp
    have hle := reorderPickFirst_least hfirst h.arc s hs
    rw [seqCmp, Serial.cmp_of_arc (h.arc s hs) (h.arc _ (Slots.mem_held_of hslot hu))] at hle
    omega
  · refine .next _ (by rw [h.cursor, if_pos hinit]) ?_
    rw [hnext, elapsed_seqNext (h.arcCursor hinit)]
  · refine .aged _ (by rw [h.cursor, if_pos hinit]) (fun p hp heq => ?_) ?_
    · obtain ⟨s, hs, rfl⟩ := h.mem_held.mp hp
      rw [← elapsed_seqNext (h.arcCursor hinit)] at heq
      exact hno s hs (elapsed_inj heq)
    · have hwaited := (isAged_iff.mp (reorderPickAged_aged haged)).2.2
      exact (leastHold_le hwin).trans hwaited

/-- **A release of an entry**, as one of a jitter buffer. -/
theorem PeerBuf.Shows.take (h : pb.Shows cfg base b) (hok : PeerOk cfg pb) {slot : Nat} (hslot : slot < cfg.depth)
    (hu : (pb.slots slot).used = true) (now : U64) :
    (reorderTakePeer cfg pb slot now).1.Shows cfg base
      ⟨some (Serial.elapsed (pb.slots slot).seq base), b.held.filter (Serial.elapsed (pb.slots slot).seq base < ·.1)⟩ := by
  obtain ⟨-, hinit, hlast, -⟩ := reorderTakePeer_spec hok hslot hu now
  have harc := h.arc _ (Slots.mem_held_of hslot hu)
  have hmem := fun s => @mem_held_take cfg pb slot now hok hslot hu s
  refine ⟨by rw [hinit, hlast]; rfl, ?_, fun _ => by rwa [hlast], fun s hs => h.arc s ((hmem s).mp hs).1,
    fun s hs => h.sequenced s ((hmem s).mp hs).1⟩
  have hperm := (reorderTakePeer_held hok hslot hu now).map fun s => (Serial.elapsed s.seq base, s.ts.toNat)
  have hahead : ∀ s ∈ pb.held cfg, 0 < seqCmp s.seq (pb.slots slot).seq ↔
      Serial.elapsed (pb.slots slot).seq base < Serial.elapsed s.seq base := by
    intro s hs
    rw [seqCmp, Serial.cmp_of_arc (h.arc s hs) harc]
    omega
  -- what stays held is ahead of the packet released, what is overtaken is not
  have hkeep : ∀ s ∈ (reorderTakePeer cfg pb slot now).1.held cfg,
      Serial.elapsed (pb.slots slot).seq base < Serial.elapsed s.seq base := by
    intro s hs
    obtain ⟨hheld, -, hlt⟩ := (hmem s).mp hs
    exact (hahead s hheld).mp hlt
  have hdrop : ∀ s ∈ pb.overtaken cfg slot,
      ¬ Serial.elapsed (pb.slots slot).seq base < Serial.elapsed s.seq base := by
    intro s hs hlt
    obtain ⟨hheld, -, hle⟩ := mem_overtaken hok hslot hu hs
    have hpos := (hahead s hheld).mpr hlt
    omega
  rw [h.held, Multiset.coe_eq_coe.mpr hperm, Multiset.filter_coe, Multiset.coe_eq_coe]
  simp only [List.map_cons, List.filter_cons, lt_self_iff_false, decide_false, Bool.false_eq_true, if_false, List.map_append,
    List.filter_append]
  have hfirst : (((reorderTakePeer cfg pb slot now).1.held cfg).map fun s =>
      (Serial.elapsed s.seq base, s.ts.toNat)).filter (Serial.elapsed (pb.slots slot).seq base < ·.1) =
        ((reorderTakePeer cfg pb slot now).1.held cfg).map fun s => (Serial.elapsed s.seq base, s.ts.toNat) := by
    refine List.filter_eq_self.mpr fun p hp => ?_
    obtain ⟨s, hs, rfl⟩ := List.mem_map.mp hp
    exact decide_eq_true (hkeep s hs)
  have hsecond : ((pb.overtaken cfg slot).map fun s =>
      (Serial.elapsed s.seq base, s.ts.toNat)).filter (Serial.elapsed (pb.slots slot).seq base < ·.1) = [] := by
    refine List.filter_eq_nil_iff.mpr fun p hp => ?_
    obtain ⟨s, hs, rfl⟩ := List.mem_map.mp hp
    simpa using hdrop s hs
  rw [hfirst, hsecond, List.append_nil]

/-- **A release**: of the source, as a jitter buffer does it, or none of its business. -/
theorem release_shows (h : Mirrors keys k base c b) (hk : k ≠ 0) :
    (Mirrors keys k base (rxRelease c t).ctx b ∧ ∀ o ∈ (rxRelease c t).out, reorderKey o.src ≠ k) ∨
      ∃ o ts, (rxRelease c t).out = some o ∧ reorderKey o.src = k ∧ isUnsequenced o = false ∧
        (Serial.elapsed o.seq base, ts) ∈ b.held ∧
        Jitter.Picks (leastHold c.cfg) b t.toNat (Serial.elapsed o.seq base) ts ∧
        Mirrors keys k base (rxRelease c t).ctx
          ⟨some (Serial.elapsed o.seq base), b.held.filter (Serial.elapsed o.seq base < ·.1)⟩ := by
  have hstep := rxRelease_step c t
  have hok := hstep.ok h.ok
  have hwin := rxRelease_windowsOk h.windows t
  generalize rxRelease c t = r at hstep hok hwin ⊢
  cases hstep with
  | nothing => exact Or.inl ⟨h, fun o ho => by cases ho⟩
  | take i slot kind hi hkey hpick hslot hu =>
    have hpk := h.ok.entries i hi hkey
    have hmem : (c.tbl i).slots slot ∈ (c.tbl i).held c.cfg := Slots.mem_held_of hslot hu
    have hsrc := hpk.key_eq _ hmem
    have hsame := (reorderTakePeer_spec hpk hslot hu t).1
    by_cases hik : (c.tbl i).key = k
    · have hshows := h.entry i hi hik
      have hseq : ((c.tbl i).slots slot).seq = ((c.tbl i).slots slot).pkt.seq := hpk.seq_eq _ hmem
      have hpicks := hshows.picks (h.windows i hkey) hpick
      have hafter := hshows.take hpk hslot hu t
      right
      refine ⟨((c.tbl i).slots slot).pkt, ((c.tbl i).slots slot).ts.toNat, rfl, hsrc.trans hik, hshows.sequenced _ hmem,
        ?_, ?_, ?_⟩
      · rw [← hseq]
        exact hshows.mem_held.mpr ⟨_, hmem, rfl⟩
      · rwa [← hseq]
      · rw [← hseq]
        refine ⟨hok, hwin, ?_, fun hno => ?_, fun j hj hjk => ?_⟩
        · refine LruTable.keysIn_put h.keysIn fun _ => ?_
          change (reorderTakePeer c.cfg (c.tbl i) slot t).1.key ∈ keys
          rw [hsame]
          exact h.keysIn i hi hkey
        · exact absurd (by simpa [hsame] using hik) (hno i hi)
        · by_cases hji : j = i
          · subst hji
            simpa using hafter
          · simp only [Function.update_of_ne hji] at hjk
            exact absurd (h.ok.distinct j i hj hi (hjk.trans hik.symm) fun h0 => hk (hjk ▸ h0)) hji
    · left
      refine ⟨h.put_other hik (by rwa [hsame]) (by rw [hsame]; exact h.keysIn i hi hkey) hok hwin, fun o ho => ?_⟩
      obtain rfl := Option.some.inj ho
      rwa [hsrc]

end Steps

/-! ## Runs -/

def coreEvents (cfg : ReorderCfg) (k : U64) (base : U32) (ops : List ReorderOp) : List Jitter.Event :=
  (Machine.outputs (coreView k base) (reorderInit cfg) ops).flatMap Prod.fst

def coreHanded (cfg : ReorderCfg) (k : U64) (base : U32) (ops : List ReorderOp) : List Datagram :=
  (Machine.outputs (coreView k base) (reorderInit cfg) ops).flatMap Prod.snd

/-- A run without a close, of no more sources than the table has entries, in which the sequences of source `k` keep to
half the circle from `base` on. -/
structure RunFits (cfg : ReorderCfg) (keys : Finset U64) (k : U64) (base : U32) (ops : List ReorderOp) : Prop where
  card : keys.card ≤ cfg.peers
  keyed : (0 : U64) ∉ keys
  source : k ∈ keys
  arrivals : ∀ d t, .arrive d t ∈ ops → reorderKey d.src ∈ keys ∧
    (reorderKey d.src = k → 2 * Serial.elapsed d.seq base < 2 ^ 32)
  sequenced : ∀ d t, .arrive d t ∈ ops → isUnsequenced d = false
  noReset : .reset ∉ ops

section Runs
variable {cfg : ReorderCfg} {keys : Finset U64} {k : U64} {base : U32} {ops : List ReorderOp} {c : ReorderCtx}
  {b : Jitter.Buffer} {es : List Jitter.Event} {out : List Nat}

theorem final_coreView (k : U64) (base : U32) (c : ReorderCtx) (ops : List ReorderOp) :
    Machine.final (coreView k base) c ops = Machine.final coreStep c ops := by
  induction ops generalizing c with
  | nil => rfl
  | cons op ops ih => exact ih _

theorem reorderInit_sees (cfg : ReorderCfg) (keys : Finset U64) (k : U64) (base : U32) (hk : k ≠ 0) :
    Mirrors keys k base (reorderInit cfg) ⟨none, 0⟩ where
  ok := reorderInit_ok cfg
  windows _ h := absurd rfl h
  keysIn _ _ h := absurd rfl h
  absent _ := rfl
  entry _ _ h := absurd h.symm hk

theorem Mirrors.rest (h : Mirrors keys k base c b) {c' : ReorderCtx} (hok : RxOk c') (htbl : c'.tbl = c.tbl)
    (hcfg : c'.cfg = c.cfg) : Mirrors keys k base c' b := by
  obtain ⟨cfg, tbl, rr, st⟩ := c'
  obtain rfl : tbl = c.tbl := htbl
  obtain rfl : cfg = c.cfg := hcfg
  exact ⟨hok, h.windows, h.keysIn, h.absent, h.entry⟩

/-- **One operation** is a step of the jitter buffer, or none. -/
theorem coreView_step (h : Mirrors keys k base c b) (hcfg : c.cfg = cfg) (hrun : Jitter.Run (leastHold cfg) es b out)
    {op : ReorderOp} (hfits : RunFits cfg keys k base (ops ++ [op])) :
    ∃ b', Mirrors keys k base (coreView k base c op).1 b' ∧
      Jitter.Run (leastHold cfg) (es ++ (coreView k base c op).2.1) b'
        (out ++ (coreView k base c op).2.2.map fun d => Serial.elapsed d.seq base) ∧
      ∀ o ∈ (coreView k base c op).2.2, isUnsequenced o = false := by
  have hk : k ≠ 0 := fun h0 => hfits.keyed (h0 ▸ hfits.source)
  have hcard : keys.card ≤ c.cfg.peers := hcfg ▸ hfits.card
  have hstay : Jitter.Run (leastHold cfg) (es ++ []) b (out ++ []) := by rwa [List.append_nil, List.append_nil]
  have hnothing : ∀ o ∈ ([] : List Datagram), isUnsequenced o = false := fun o ho => absurd ho List.not_mem_nil
  cases op with
  | arrive d t =>
    obtain ⟨hkeys, harc⟩ := hfits.arrivals d t (by simp)
    have hun := hfits.sequenced d t (by simp)
    simp only [coreView, coreStep_arrive]
    cases hsat : reorderDrainSaturated c with
    | true => exact ⟨b, h, hstay, hnothing⟩
    | false =>
      simp only [Bool.false_eq_true, if_false]
      by_cases hd : reorderKey d.src = k
      · rw [if_pos hd]
        rcases arrive_shows (t := t) h hcard hfits.source hk hd (harc hd) hun hsat with
          ⟨hsees, hout, hwhy⟩ | ⟨hsees, hout, hahead, hnew⟩
        · refine ⟨b, hsees, ?_⟩
          rw [hout]
          simp only [Option.toList_some, List.filter_cons, hd, decide_true, if_true, List.filter_nil, List.map_cons,
            List.map_nil]
          exact ⟨.pass _ _ hrun hwhy, by simpa using hun⟩
        · refine ⟨_, hsees, ?_⟩
          rw [hout]
          simp only [Option.toList_none, List.filter_nil, List.map_nil, List.append_nil]
          exact ⟨.keep _ _ hrun hahead hnew, hnothing⟩
      · obtain ⟨hsees, hout⟩ := arrive_hides (t := t) h hcard hkeys hfits.keyed hk hd hsat
        have hnone : (rxArrive c d t).out.toList.filter (fun d => reorderKey d.src = k) = [] :=
          List.filter_eq_nil_iff.mpr fun o ho => by simpa using hout o (Option.mem_toList.mp ho)
        refine ⟨b, hsees, ?_⟩
        rw [if_neg hd, hnone]
        exact ⟨hstay, hnothing⟩
  | release t =>
    simp only [coreView, coreStep_release]
    rcases release_shows (t := t) h hk with ⟨hsees, hout⟩ | ⟨o, ts, hout, hsrc, hun, hheld, hpicks, hsees⟩
    · have hnone : (rxRelease c t).out.toList.filter (fun d => reorderKey d.src = k) = [] :=
        List.filter_eq_nil_iff.mpr fun o ho => by simpa using hout o (Option.mem_toList.mp ho)
      refine ⟨b, hsees, ?_⟩
      rw [hnone, List.map_nil, List.append_nil]
      exact ⟨.idle _ hrun, hnothing⟩
    · refine ⟨_, hsees, ?_⟩
      rw [hout]
      simp only [Option.toList_some, List.filter_cons, hsrc, decide_true, if_true, List.filter_nil, List.map_cons,
        List.map_nil]
      exact ⟨.take _ _ ts hrun hheld (hcfg ▸ hpicks), by simpa using hun⟩
  | nextReady t => exact ⟨b, h.rest (coreStep_ok h.ok _) (coreStep_nextReady c t).1 (coreStep_cfg _), hstay, hnothing⟩
  | reset => exact absurd (by simp) hfits.noReset
  | count st => exact ⟨b, h.rest (h.ok.stats st) rfl rfl, hstay, hnothing⟩

/-- **The buffer refines a jitter buffer** for each source. -/
theorem coreRun_jitter (hfits : RunFits cfg keys k base ops) :
    ∃ b, Mirrors keys k base (Machine.final coreStep (reorderInit cfg) ops) b ∧
      Jitter.Run (leastHold cfg) (coreEvents cfg k base ops) b
        ((coreHanded cfg k base ops).map fun d => Serial.elapsed d.seq base) ∧
      ∀ o ∈ coreHanded cfg k base ops, isUnsequenced o = false := by
  have hk : k ≠ 0 := fun h0 => hfits.keyed (h0 ▸ hfits.source)
  induction ops using List.reverseRecOn with
  | nil => exact ⟨_, reorderInit_sees cfg keys k base hk, .start, fun o ho => absurd ho List.not_mem_nil⟩
  | append_singleton ops op ih =>
    obtain ⟨b, hsees, hrun, hseq⟩ := ih ⟨hfits.card, hfits.keyed, hfits.source,
      fun d t hd => hfits.arrivals d t (List.mem_append_left _ hd),
      fun d t hd => hfits.sequenced d t (List.mem_append_left _ hd), fun h => hfits.noReset (List.mem_append_left _ h)⟩
    have hcfg : (Machine.final coreStep (reorderInit cfg) ops).cfg = cfg :=
      Machine.final_inv (P := fun c => c.cfg = cfg ∧ RxOk c) ⟨rfl, reorderInit_ok cfg⟩
        (fun _ op h => ⟨(coreStep_cfg op).trans h.1, coreStep_ok h.2 op⟩) ops |>.1
    obtain ⟨b', hsees', hrun', hseq'⟩ := coreView_step hsees hcfg hrun hfits
    have hhanded : coreHanded cfg k base (ops ++ [op]) = coreHanded cfg k base ops ++
        (coreView k base (Machine.final coreStep (reorderInit cfg) ops) op).2.2 := by
      rw [coreHanded, Machine.outputs_concat, List.flatMap_append, final_coreView]
      simp [coreHanded]
    refine ⟨b', ?_, ?_, fun o ho => ?_⟩
    · rw [Machine.final_concat]
      exact hsees'
    · rw [hhanded, List.map_append, coreEvents, Machine.outputs_concat, List.flatMap_append, final_coreView]
      simpa [coreEvents] using hrun'
    · rw [hhanded, List.mem_append] at ho
      exact ho.elim (hseq o) (hseq' o)

end Runs

/-! ## The receive hook -/

def HookOp.core? : HookOp → Option ReorderOp
  | .core op => some op
  | _ => none

/-- The operations on the buffer that a receive call makes. -/
def recvOps (s : RxState) (call : RecvCall) : List ReorderOp := (sockOps s (.recv call)).filterMap HookOp.core?

/-- The operations on the buffer that a run of receive calls makes. -/
def recvRunOps (cfg : ReorderCfg) (drain : Nat) (calls : List RecvCall) : List ReorderOp :=
  Machine.callsOf hookedWSARecvFrom recvOps (rxInit cfg drain) calls

/-- The datagrams of source `k` that carry a sequence. -/
def streamOf (k : U64) (l : List Datagram) : List Datagram :=
  l.filter fun d => reorderKey d.src = k ∧ isUnsequenced d = false

section Hook
variable {sock : Socket} {s : RxState} {k : U64} {base : U32}

/-- A drain makes operations of the buffer only: counts, and arrivals of what it takes that carries a sequence. -/
theorem drainOps_core (sock : Socket) (n : Nat) (s : RxState) (reals : List (RecvResult × U64)) (drained : Nat) :
    ∀ op ∈ drainOps sock n s reals drained, (∃ st, op = .core (.count st)) ∨
      ∃ d t, op = .core (.arrive d t) ∧ isUnsequenced d = false ∧
        d ∈ (rxDrain sock n s reals drained).taken.map Taken.pkt := by
  induction n generalizing s reals drained with
  | zero => exact fun op hop => absurd hop List.not_mem_nil
  | succ n ih =>
    unfold rxDrain drainOps
    cases hsat : reorderDrainSaturated s.rx with
    | true => exact fun op hop => absurd hop List.not_mem_nil
    | false =>
      simp only [Bool.false_eq_true, if_false]
      rcases reals with _ | ⟨⟨d | - | -, t⟩, reals⟩
      · exact fun op hop => absurd hop List.not_mem_nil
      · dsimp only
        by_cases hempty : d.data = []
        · rw [if_pos hempty]
          exact fun op hop => absurd hop List.not_mem_nil
        · rw [if_neg hempty, if_neg hempty]
          cases hwake : isWake d with
          | true =>
            simp only [if_true]
            exact ih _ _ _
          | false =>
            simp only [Bool.false_eq_true, if_false]
            cases hun : isUnsequenced d with
            | true =>
              intro op hop
              exact Or.inl ⟨_, List.mem_singleton.mp hop⟩
            | false =>
              simp only [Bool.false_eq_true, if_false]
              intro op hop
              cases htr : (rxArrive s.rx d t).tracked with
              | false =>
                simp only [htr, Bool.not_false, if_true] at hop ⊢
                exact Or.inr ⟨d, t, List.mem_singleton.mp hop, hun, List.mem_singleton_self _⟩
              | true =>
                simp only [htr, Bool.not_true, Bool.false_eq_true, if_false] at hop ⊢
                rcases List.mem_cons.mp hop with rfl | hop
                · refine Or.inr ⟨d, t, rfl, hun, ?_⟩
                  split <;> exact List.mem_cons_self
                · cases hout : (rxArrive s.rx d t).out with
                  | some out =>
                    simp only [hout] at hop
                    exact Or.inl ⟨_, List.mem_singleton.mp hop⟩
                  | none =>
                    simp only [hout] at hop
                    rcases ih _ _ _ op hop with hcount | ⟨d', t', rfl, hun', hmem⟩
                    · exact Or.inl hcount
                    · exact Or.inr ⟨d', t', rfl, hun', List.mem_cons_of_mem _ hmem⟩
      · intro op hop
        rcases List.mem_cons.mp hop with rfl | hop
        · exact Or.inl ⟨_, rfl⟩
        · exact ih { s with rx := { s.rx with stats := { s.rx.stats with emsgsize := s.rx.stats.emsgsize + 1 } } } reals
            (drained + 1) op hop
      · exact fun op hop => absurd hop List.not_mem_nil

theorem recvCall_taken (s : RxState) (call : RecvCall) :
    let s' := if call.sock = s.reorderSock then { s with lastRecvCallMs := call.pollMs } else s
    (hookedWSARecvFrom s call).2.taken = (rxDrain call.sock s'.drain s' call.reals 0).taken := by
  unfold hookedWSARecvFrom
  dsimp only
  split <;> rfl

theorem sockOps_core (s : RxState) (call : RecvCall) : ∀ op ∈ sockOps s (.recv call),
    (∃ st, op = .core (.count st)) ∨ (∃ t, op = .core (.release t)) ∨
      ∃ d t, op = .core (.arrive d t) ∧ isUnsequenced d = false ∧
        d ∈ (hookedWSARecvFrom s call).2.taken.map Taken.pkt := by
  intro op hop
  rw [recvCall_taken]
  rw [sockOps, List.mem_append] at hop
  rcases hop with hop | hop
  · exact (drainOps_core _ _ _ _ _ op hop).imp_right Or.inr
  · split at hop
    · cases hop
    · rcases List.mem_cons.mp hop with rfl | hop
      · exact Or.inl ⟨_, rfl⟩
      · exact Or.inr (Or.inl ⟨_, List.mem_singleton.mp hop⟩)

theorem final_core (c : ReorderCtx) {ops : List HookOp} (h : ∀ op ∈ ops, op.core?.isSome = true) :
    Machine.final hookStep c ops = Machine.final coreStep c (ops.filterMap HookOp.core?) := by
  induction ops generalizing c with
  | nil => rfl
  | cons op ops ih =>
    have hrest := fun c => ih c fun o ho => h o (List.mem_cons_of_mem _ ho)
    cases op with
    | core op => exact hrest _
    | peer src now => cases h _ List.mem_cons_self
    | adapt src seq now => cases h _ List.mem_cons_self
    | note src seq ts now kind => cases h _ List.mem_cons_self

/-- A receive call moves the buffer by its operations. -/
theorem recvOps_final (s : RxState) (call : RecvCall) :
    (hookedWSARecvFrom s call).1.rx = Machine.final coreStep s.rx (recvOps s call) := by
  rw [recvOps, ← final_core]
  · exact sockStep_ops s (.recv call)
  · intro op hop
    rcases sockOps_core s call op hop with ⟨st, rfl⟩ | ⟨t, rfl⟩ | ⟨d, t, rfl, -⟩ <;> rfl

theorem recvOps_mem (s : RxState) (call : RecvCall) {op : ReorderOp} (hop : op ∈ recvOps s call) :
    op ≠ .reset ∧ ∀ d t, op = .arrive d t → isUnsequenced d = false ∧
      d ∈ (hookedWSARecvFrom s call).2.taken.map Taken.pkt := by
  obtain ⟨o, ho, hcore⟩ := List.mem_filterMap.mp hop
  rcases sockOps_core s call o ho with ⟨st, rfl⟩ | ⟨t, rfl⟩ | ⟨d, t, rfl, hun, hmem⟩
  · obtain rfl := Option.some.inj hcore
    exact ⟨nofun, fun _ _ h => by cases h⟩
  · obtain rfl := Option.some.inj hcore
    exact ⟨nofun, fun _ _ h => by cases h⟩
  · obtain rfl := Option.some.inj hcore
    refine ⟨nofun, fun _ _ h => ?_⟩
    cases h
    exact ⟨hun, hmem⟩

theorem recvRunOps_mem (calls : List RecvCall) (s : RxState) {op : ReorderOp}
    (hop : op ∈ Machine.callsOf hookedWSARecvFrom recvOps s calls) :
    op ≠ .reset ∧ ∀ d t, op = .arrive d t → isUnsequenced d = false ∧
      d ∈ takenOf (Machine.outputs hookedWSARecvFrom s calls) := by
  induction calls generalizing s with
  | nil => cases hop
  | cons call calls ih =>
    have htaken : takenOf (Machine.outputs hookedWSARecvFrom s (call :: calls)) =
        (hookedWSARecvFrom s call).2.taken.map Taken.pkt ++
          takenOf (Machine.outputs hookedWSARecvFrom (hookedWSARecvFrom s call).1 calls) := by
      simp [takenOf, Machine.outputs]
    rw [htaken]
    rcases List.mem_append.mp hop with hop | hop
    · obtain ⟨hne, harr⟩ := recvOps_mem s call hop
      exact ⟨hne, fun d t heq => ⟨(harr d t heq).1, List.mem_append_left _ (harr d t heq).2⟩⟩
    · obtain ⟨hne, harr⟩ := ih _ hop
      exact ⟨hne, fun d t heq => ⟨(harr d t heq).1, List.mem_append_right _ (harr d t heq).2⟩⟩

/-- What an operation hands over of the source's stream. -/
def streamHanded (r : List Jitter.Event × List Datagram) : List Datagram := r.2.filter fun d => isUnsequenced d = false

theorem streamOf_eq (k : U64) (l : List Datagram) :
    (l.filter fun d => reorderKey d.src = k).filter (fun d => isUnsequenced d = false) = streamOf k l := by
  rw [List.filter_filter, streamOf]
  refine List.filter_congr fun d _ => ?_
  simp [and_comm]

theorem outputs_arrive {c : ReorderCtx} {d : Datagram} {t : U64} (hsat : reorderDrainSaturated c = false)
    (ops : List ReorderOp) :
    (Machine.outputs (coreView k base) c (.arrive d t :: ops)).flatMap streamHanded =
      streamOf k (rxArrive c d t).out.toList ++
        (Machine.outputs (coreView k base) (rxArrive c d t).ctx ops).flatMap streamHanded := by
  rw [Machine.outputs, List.flatMap_cons]
  simp only [coreView, coreStep_arrive, hsat, Bool.false_eq_true, if_false, streamHanded, streamOf_eq]

/-- The places of the source's stream that an operation takes in. -/
def streamTaken (r : List Jitter.Event × List Datagram) : List Nat := Jitter.arrivals r.1

theorem outputs_arrive_taken {c : ReorderCtx} {d : Datagram} {t : U64} (hsat : reorderDrainSaturated c = false)
    (hun : isUnsequenced d = false) (ops : List ReorderOp) :
    (Machine.outputs (coreView k base) c (.arrive d t :: ops)).flatMap streamTaken =
      (streamOf k [d]).map (fun d => Serial.elapsed d.seq base) ++
        (Machine.outputs (coreView k base) (rxArrive c d t).ctx ops).flatMap streamTaken := by
  rw [Machine.outputs, List.flatMap_cons]
  simp only [coreView, coreStep_arrive, hsat, Bool.false_eq_true, if_false, streamTaken, streamOf, List.filter_cons,
    hun, and_true, List.filter_nil]
  by_cases hd : reorderKey d.src = k
  · simp only [hd, if_true, decide_true, List.map_cons, List.map_nil]
    rfl
  · simp only [hd, if_false, decide_false, Bool.false_eq_true, List.map_nil]
    rfl

/-- **A drain** takes in and hands over of the stream what its operations do. -/
theorem drainOps_view (k : U64) (base : U32) (sock : Socket) (n : Nat) (s : RxState) (reals : List (RecvResult × U64))
    (drained : Nat) :
    let outs := Machine.outputs (coreView k base) s.rx ((drainOps sock n s reals drained).filterMap HookOp.core?)
    let r := rxDrain sock n s reals drained
    outs.flatMap streamHanded = streamOf k r.out.toList ∧
      outs.flatMap streamTaken = (streamOf k (r.taken.map Taken.pkt)).map fun d => Serial.elapsed d.seq base := by
  induction n generalizing s reals drained with
  | zero => exact ⟨rfl, rfl⟩
  | succ n ih =>
    unfold rxDrain drainOps
    cases hsat : reorderDrainSaturated s.rx with
    | true => exact ⟨rfl, rfl⟩
    | false =>
      simp only [Bool.false_eq_true, if_false]
      rcases reals with _ | ⟨⟨d | - | -, t⟩, reals⟩
      · exact ⟨rfl, rfl⟩
      · dsimp only
        by_cases hempty : d.data = []
        · rw [if_pos hempty, if_pos hempty]
          exact ⟨rfl, rfl⟩
        · rw [if_neg hempty, if_neg hempty]
          cases hwake : isWake d with
          | true =>
            simp only [if_true]
            exact ih _ _ _
          | false =>
            simp only [Bool.false_eq_true, if_false]
            cases hun : isUnsequenced d with
            | true =>
              have hnone : streamOf k [d] = [] := by simp [streamOf, hun]
              exact ⟨hnone.symm, (congrArg (List.map fun d : Datagram => Serial.elapsed d.seq base) hnone).symm⟩
            | false =>
              simp only [Bool.false_eq_true, if_false, List.filterMap_cons, HookOp.core?]
              rw [outputs_arrive hsat, outputs_arrive_taken hsat hun]
              cases htr : (rxArrive s.rx d t).tracked with
              | false => simp [Machine.outputs]
              | true =>
                simp only [Bool.not_true, Bool.false_eq_true, if_false]
                cases hout : (rxArrive s.rx d t).out with
                | some out => simp [HookOp.core?, Machine.outputs, coreView, streamHanded, streamTaken]
                | none =>
                  obtain ⟨hhanded, htaken⟩ := ih
                    { s with rx := (rxArrive s.rx d t).ctx, reorderSock := sock, lastRecvCallMs := t } reals (drained + 1)
                  refine ⟨hhanded, ?_⟩
                  rw [htaken, List.map_cons, streamOf, streamOf, streamOf, ← List.map_append, ← List.filter_append]
                  rfl
      · exact ih { s with rx := { s.rx with stats := { s.rx.stats with emsgsize := s.rx.stats.emsgsize + 1 } } } reals
          (drained + 1)
      · exact ⟨rfl, rfl⟩

/-- **A receive call** takes in and hands over of the stream what its operations do. -/
theorem recvOps_view (k : U64) (base : U32) (s : RxState) (call : RecvCall) :
    let outs := Machine.outputs (coreView k base) s.rx (recvOps s call)
    outs.flatMap streamHanded = streamOf k (hookedWSARecvFrom s call).2.handed.toList ∧
      outs.flatMap streamTaken = (streamOf k ((hookedWSARecvFrom s call).2.taken.map Taken.pkt)).map fun d =>
        Serial.elapsed d.seq base := by
  have hrx : (if call.sock = s.reorderSock then { s with lastRecvCallMs := call.pollMs } else s).rx = s.rx := by
    split <;> rfl
  simp only [recvOps, sockOps, hookedWSARecvFrom]
  generalize (if call.sock = s.reorderSock then { s with lastRecvCallMs := call.pollMs } else s) = s' at hrx ⊢
  obtain ⟨hhanded, htaken⟩ := drainOps_view k base call.sock s'.drain s' call.reals 0
  have hstate : (rxDrain call.sock s'.drain s' call.reals 0).state.rx =
      Machine.final coreStep s'.rx ((drainOps call.sock s'.drain s' call.reals 0).filterMap HookOp.core?) := by
    rw [rxDrain_ops, final_core]
    intro op hop
    rcases drainOps_core _ _ _ _ _ op hop with ⟨st, rfl⟩ | ⟨d, t, rfl, -⟩ <;> rfl
  rw [List.filterMap_append, Machine.outputs_append, List.flatMap_append, List.flatMap_append, ← hrx, hhanded, htaken,
    final_coreView, ← hstate]
  cases hout : (rxDrain call.sock s'.drain s' call.reals 0).out with
  | some d => simp [Machine.outputs]
  | none =>
    simp only [Option.toList_none, List.filterMap_cons, HookOp.core?, List.filterMap_nil, Machine.outputs, coreView,
      List.flatMap_cons, List.flatMap_nil, streamHanded, streamOf_eq, streamTaken]
    rw [List.append_nil]
    exact ⟨rfl, List.append_nil _⟩

/-- **A run of receive calls**: the buffer after it, and what it takes in and hands over of the stream. -/
theorem recvRunOps_view (cfg : ReorderCfg) (drain : Nat) (calls : List RecvCall) (k : U64) (base : U32) :
    let outs := Machine.outputs hookedWSARecvFrom (rxInit cfg drain) calls
    (Machine.final hookedWSARecvFrom (rxInit cfg drain) calls).rx =
        Machine.final coreStep (reorderInit cfg) (recvRunOps cfg drain calls) ∧
      (coreHanded cfg k base (recvRunOps cfg drain calls)).filter (fun d => isUnsequenced d = false) =
        streamOf k (handedOf outs) ∧
      Jitter.arrivals (coreEvents cfg k base (recvRunOps cfg drain calls)) =
        (streamOf k (takenOf outs)).map fun d => Serial.elapsed d.seq base := by
  intro outs
  have hfinal : ∀ s call, (hookedWSARecvFrom s call).1.rx = Machine.final (coreView k base) s.rx (recvOps s call) :=
    fun s call => by rw [recvOps_final, final_coreView]
  refine ⟨@Machine.final_calls _ _ _ _ _ _ _ _ RxState.rx _ recvOps_final (rxInit cfg drain) calls, ?_, ?_⟩
  · have hleft : (coreHanded cfg k base (recvRunOps cfg drain calls)).filter (fun d => isUnsequenced d = false) =
        (Machine.outputs (coreView k base) (reorderInit cfg) (recvRunOps cfg drain calls)).flatMap streamHanded := by
      rw [coreHanded, List.filter_flatMap]
      rfl
    have hright : streamOf k (handedOf outs) = outs.flatMap fun o => streamOf k o.handed.toList := by
      rw [handedOf, List.filterMap_eq_flatMap_toList, streamOf, List.filter_flatMap]
      rfl
    rw [hleft, hright]
    exact Machine.outputs_calls hfinal (fun s call => (recvOps_view k base s call).1) (rxInit cfg drain) calls
  · have hleft : Jitter.arrivals (coreEvents cfg k base (recvRunOps cfg drain calls)) =
        (Machine.outputs (coreView k base) (reorderInit cfg) (recvRunOps cfg drain calls)).flatMap streamTaken := by
      rw [coreEvents, Jitter.arrivals, List.filterMap_flatMap]
      rfl
    have hright : (streamOf k (takenOf outs)).map (fun d => Serial.elapsed d.seq base) =
        outs.flatMap fun o => (streamOf k (o.taken.map Taken.pkt)).map fun d => Serial.elapsed d.seq base := by
      rw [takenOf, List.map_flatMap, streamOf, List.filter_flatMap, List.map_flatMap]
      rfl
    rw [hleft, hright]
    exact Machine.outputs_calls hfinal (fun s call => (recvOps_view k base s call).2) (rxInit cfg drain) calls

end Hook

/-! ## What the hook does for a stream -/

section Streams
variable {cfg : ReorderCfg} {drain : Nat} {calls : List RecvCall} {keys : Finset U64} {k : U64} {base : U32}

/-- The run of the buffer fits what is known of the datagrams taken. -/
theorem recvRunOps_fits (hcard : keys.card ≤ cfg.peers) (hkeyed : (0 : U64) ∉ keys) (hk : k ∈ keys)
    (hsrc : ∀ d ∈ takenOf (Machine.outputs hookedWSARecvFrom (rxInit cfg drain) calls), isUnsequenced d = false →
      reorderKey d.src ∈ keys ∧ (reorderKey d.src = k → 2 * Serial.elapsed d.seq base < 2 ^ 32)) :
    RunFits cfg keys k base (recvRunOps cfg drain calls) where
  card := hcard
  keyed := hkeyed
  source := hk
  arrivals d t hd := by
    obtain ⟨hun, hmem⟩ := (recvRunOps_mem calls (rxInit cfg drain) hd).2 d t rfl
    exact hsrc d hmem hun
  sequenced d t hd := ((recvRunOps_mem calls (rxInit cfg drain) hd).2 d t rfl).1
  noReset h := (recvRunOps_mem calls (rxInit cfg drain) h).1 rfl

/-- The run as that of a jitter buffer, which hands over the stream. -/
theorem recvRun_jitter (hfits : RunFits cfg keys k base (recvRunOps cfg drain calls)) :
    let outs := Machine.outputs hookedWSARecvFrom (rxInit cfg drain) calls
    ∃ b, Mirrors keys k base (Machine.final hookedWSARecvFrom (rxInit cfg drain) calls).rx b ∧
      Jitter.Run (leastHold cfg) (coreEvents cfg k base (recvRunOps cfg drain calls)) b
        ((streamOf k (handedOf outs)).map fun d => Serial.elapsed d.seq base) := by
  intro outs
  obtain ⟨b, hsees, hrun, hseq⟩ := coreRun_jitter hfits
  obtain ⟨hfinal, hhanded, -⟩ := recvRunOps_view cfg drain calls k base
  have hall : (coreHanded cfg k base (recvRunOps cfg drain calls)).filter (fun d => isUnsequenced d = false) =
      coreHanded cfg k base (recvRunOps cfg drain calls) :=
    List.filter_eq_self.mpr fun o ho => decide_eq_true (hseq o ho)
  rw [hall] at hhanded
  rw [hhanded] at hrun
  exact ⟨b, hfinal ▸ hsees, hrun⟩

theorem Mirrors.card_buffered {c : ReorderCtx} {b : Jitter.Buffer} (h : Mirrors keys k base c b) (hk : k ≠ 0) :
    (rxBuffered c).countP (fun d => reorderKey d.src = k) = b.held.card := by
  have hsum : (rxBuffered c).countP (fun d => reorderKey d.src = k) =
      ∑ i ∈ Finset.range c.cfg.peers, ((c.tbl i).packets c.cfg).countP (fun d => reorderKey d.src = k) := by
    rw [rxBuffered, ← Multiset.coe_countPAddMonoidHom, map_sum]
  have hkey : ∀ i, i < c.cfg.peers → ∀ s ∈ (c.tbl i).held c.cfg, reorderKey s.pkt.src = (c.tbl i).key := by
    intro i hi s hs
    by_cases hz : (c.tbl i).key = 0
    · rw [hz, h.ok.unused i hi hz s hs]
    · exact (h.ok.entries i hi hz).key_eq s hs
  have hother : ∀ i, i < c.cfg.peers → (c.tbl i).key ≠ k →
      ((c.tbl i).packets c.cfg).countP (fun d => reorderKey d.src = k) = 0 := by
    intro i hi hik
    refine Multiset.countP_eq_zero.mpr fun d hd => ?_
    obtain ⟨s, hs, rfl⟩ := List.mem_map.mp (Multiset.mem_coe.mp hd)
    rwa [hkey i hi s hs]
  rw [hsum]
  by_cases hin : ∃ i, i < c.cfg.peers ∧ (c.tbl i).key = k
  · obtain ⟨i, hi, hik⟩ := hin
    rw [Finset.sum_eq_single_of_mem i (Finset.mem_range.mpr hi) fun j hj hji => hother j (Finset.mem_range.mp hj)
      fun hjk => hji (h.ok.distinct j i (Finset.mem_range.mp hj) hi (hjk.trans hik.symm) fun h0 => hk (hjk ▸ h0))]
    have hall : ((c.tbl i).packets c.cfg).countP (fun d => reorderKey d.src = k) = ((c.tbl i).packets c.cfg).card := by
      refine Multiset.countP_eq_card.mpr fun d hd => ?_
      obtain ⟨s, hs, rfl⟩ := List.mem_map.mp (Multiset.mem_coe.mp hd)
      rw [hkey i hi s hs, hik]
    rw [hall, (h.entry i hi hik).held, PeerBuf.packets, Multiset.coe_card, Multiset.coe_card, List.length_map,
      List.length_map]
  · have hnone : ∀ i, i < c.cfg.peers → (c.tbl i).key ≠ k := fun i hi hik => hin ⟨i, hi, hik⟩
    rw [h.absent hnone, Finset.sum_eq_zero fun i hi => hother i (Finset.mem_range.mp hi) (hnone i (Finset.mem_range.mp hi))]
    rfl

end Streams

/-- **The buffer sorts.** Among the traffic of no more sources than it has entries: when the datagrams of a source arrive
with distinct sequences, none behind another one once that has been held for the least hold time, and nothing is
released before the first of them is there, then they are handed over in ascending order, whatever is lost. -/
theorem reorder_sorts (cfg : ReorderCfg) (drain : Nat) (calls : List RecvCall) (keys : Finset U64)
    (hcard : keys.card ≤ cfg.peers) (hkeyed : (0 : U64) ∉ keys) (k : U64) (hk : k ∈ keys) (base : U32)
    (hsrc : ∀ d ∈ takenOf (Machine.outputs hookedWSARecvFrom (rxInit cfg drain) calls), isUnsequenced d = false →
      reorderKey d.src ∈ keys ∧ (reorderKey d.src = k → 2 * Serial.elapsed d.seq base < 2 ^ 32))
    (hprompt : Jitter.Prompt (leastHold cfg) (coreEvents cfg k base (recvRunOps cfg drain calls))) :
    (streamOf k (handedOf (Machine.outputs hookedWSARecvFrom (rxInit cfg drain) calls))).Pairwise fun a b =>
      Serial.elapsed a.seq base < Serial.elapsed b.seq base := by
  obtain ⟨b, -, hrun⟩ := recvRun_jitter (recvRunOps_fits hcard hkeyed hk hsrc)
  exact List.pairwise_map.mp (Jitter.run_ascends hrun hprompt)

/-- Of the sequences 10 to 14 the third comes before the second, and 13 is lost. -/
def displacedCalls : List RecvCall :=
  [⟨7, 0, [(.datagram (sampleFrom samplePeer 10), 0)], 0⟩, ⟨7, 1, [(.datagram (sampleFrom samplePeer 12), 1)], 1⟩,
    ⟨7, 3, [(.datagram (sampleFrom samplePeer 11), 3)], 3⟩, ⟨7, 4, [], 4⟩,
    ⟨7, 5, [(.datagram (sampleFrom samplePeer 14), 5)], 5⟩, ⟨7, 200, [], 200⟩]

theorem reorder_sorts_displaced :
    let handed := streamOf (reorderKey samplePeer)
      (handedOf (Machine.outputs hookedWSARecvFrom (rxInit .default kReorderDrainCapDef) displacedCalls))
    handed.map Datagram.seq = [10, 11, 12, 14] ∧
      handed.Pairwise fun a b => Serial.elapsed a.seq 10 < Serial.elapsed b.seq 10 :=
  ⟨by decide +kernel, reorder_sorts .default kReorderDrainCapDef displacedCalls {reorderKey samplePeer} (by decide)
    (by decide) (reorderKey samplePeer) (by decide) 10 (by decide +kernel) (by decide +kernel)⟩

/-- **The buffer restores the stream.** When in addition whatever precedes a datagram of the source has arrived by the
time that one has been held for the least hold time, then what is handed over is the stream from its base on, without
a gap, and all the rest that was taken is held. -/
theorem reorder_restores (cfg : ReorderCfg) (drain : Nat) (calls : List RecvCall) (keys : Finset U64)
    (hcard : keys.card ≤ cfg.peers) (hkeyed : (0 : U64) ∉ keys) (k : U64) (hk : k ∈ keys) (base : U32)
    (hsrc : ∀ d ∈ takenOf (Machine.outputs hookedWSARecvFrom (rxInit cfg drain) calls), isUnsequenced d = false →
      reorderKey d.src ∈ keys ∧ (reorderKey d.src = k → 2 * Serial.elapsed d.seq base < 2 ^ 32))
    (hgap : Jitter.Gapless (leastHold cfg) (coreEvents cfg k base (recvRunOps cfg drain calls))) :
    let outs := Machine.outputs hookedWSARecvFrom (rxInit cfg drain) calls
    let c := (Machine.final hookedWSARecvFrom (rxInit cfg drain) calls).rx
    (streamOf k (handedOf outs)).map (fun d => Serial.elapsed d.seq base) = List.range (streamOf k (handedOf outs)).length ∧
      (streamOf k (takenOf outs) : Multiset Datagram) =
        streamOf k (handedOf outs) + (rxBuffered c).filter fun d => reorderKey d.src = k := by
  intro outs c
  obtain ⟨b, hsees, hrun⟩ : ∃ b, Mirrors keys k base c b ∧
      Jitter.Run (leastHold cfg) (coreEvents cfg k base (recvRunOps cfg drain calls)) b
        ((streamOf k (handedOf outs)).map fun d => Serial.elapsed d.seq base) :=
    recvRun_jitter (recvRunOps_fits hcard hkeyed hk hsrc)
  have harr : Jitter.arrivals (coreEvents cfg k base (recvRunOps cfg drain calls)) =
      (streamOf k (takenOf outs)).map fun d => Serial.elapsed d.seq base := (recvRunOps_view cfg drain calls k base).2.2
  obtain ⟨horder, hall⟩ := Jitter.run_restores hrun hgap
  rw [List.length_map] at horder
  refine ⟨horder, ?_⟩
  have hledger : Conserves cfg keys c (takenOf outs) (handedOf outs) := by
    have hkept : Kept (fun _ d => isUnsequenced d = false → reorderKey d.src ∈ keys) _ :=
      Conserves.kept hcard hkeyed fun d hd hun => hd hun
    simpa using recvRun_inv hkept calls (rxInit cfg drain)
      (fun m hm hun => (hsrc m.pkt (List.mem_map_of_mem hm) hun).1) (reorderInit_conserves cfg keys)
  obtain ⟨overtaken, hbal, -, hseq⟩ := hledger.balance
  have hpart := congrArg (Multiset.filter fun d => reorderKey d.src = k ∧ isUnsequenced d = false) hbal
  have hbuffered : (rxBuffered c).filter (fun d => reorderKey d.src = k ∧ isUnsequenced d = false) =
      (rxBuffered c).filter fun d => reorderKey d.src = k := by
    refine Multiset.filter_congr fun d hd => ?_
    rw [hseq d (Multiset.mem_add.mpr (Or.inl hd))]
    simp
  rw [Multiset.filter_add, Multiset.filter_add, Multiset.filter_coe, Multiset.filter_coe, hbuffered] at hpart
  have hheld := hsees.card_buffered fun h0 => hkeyed (h0 ▸ hk)
  rw [Multiset.countP_eq_card_filter] at hheld
  have hcount := congrArg Multiset.card hpart
  have htaken := congrArg Multiset.card hall
  rw [harr] at htaken
  simp only [Multiset.card_add, Multiset.coe_card, List.length_map, Multiset.card_map, streamOf] at hcount htaken
  have hnone : overtaken.filter (fun d => reorderKey d.src = k ∧ isUnsequenced d = false) = 0 :=
    Multiset.card_eq_zero.mp (by omega)
  rw [hnone, add_zero] at hpart
  exact hpart

theorem reorder_restores_displaced :
    let outs := Machine.outputs hookedWSARecvFrom (rxInit .default kReorderDrainCapDef) (displacedCalls.take 4)
    let c := (Machine.final hookedWSARecvFrom (rxInit .default kReorderDrainCapDef) (displacedCalls.take 4)).rx
    let handed := streamOf (reorderKey samplePeer) (handedOf outs)
    handed.map Datagram.seq = [10, 11, 12] ∧
      handed.map (fun d => Serial.elapsed d.seq 10) = List.range handed.length ∧
      (streamOf (reorderKey samplePeer) (takenOf outs) : Multiset Datagram) =
        handed + (rxBuffered c).filter fun d => reorderKey d.src = reorderKey samplePeer :=
  ⟨by decide +kernel, reorder_restores .default kReorderDrainCapDef (displacedCalls.take 4) {reorderKey samplePeer}
    (by decide) (by decide) (reorderKey samplePeer) (by decide) 10 (by decide +kernel) (by decide +kernel)⟩

end BzNet
