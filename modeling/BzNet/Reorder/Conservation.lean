import BzNet.Reorder.Table

/-!
# No datagram is lost unaccounted

Over a run of receive calls from at most as many sources as the table has entries.

* `rxBuffered` : the datagrams held, as a multiset; `ArriveStep.balance` and `ReleaseStep.balance` say what
  an arrival and a release move;
* `Conserves` : everything taken from the sockets was handed over, is held, or was overtaken by a release and
  counted in `purgedStale`;
* `reorder_conservation` : it holds after every run, and nothing is overtaken while no release is forced
  and every source keeps to less than half the sequence circle.
-/

namespace BzNet

/-! ## Keys of sources -/

theorem reorderKey_toNat (a : SockAddr) : (reorderKey a).toNat = a.addr.toNat * 65536 + a.port.toNat := by
  have haddr := a.addr.isLt
  have hport := a.port.isLt
  rw [reorderKey, BitVec.toNat_or, BitVec.toNat_shiftLeft, BitVec.toNat_setWidth, BitVec.toNat_setWidth,
    Nat.mod_eq_of_lt (by omega), Nat.mod_eq_of_lt (by omega), Nat.shiftLeft_eq, Nat.mod_eq_of_lt (by omega),
    ← Nat.shiftLeft_eq, ← Nat.shiftLeft_add_eq_or_of_lt (i := 16) hport, Nat.shiftLeft_eq]

theorem reorderKey_ne_zero {a : SockAddr} (h : a.addr ≠ 0 ∨ a.port ≠ 0) : reorderKey a ≠ 0 := by
  intro h0
  have hsum := reorderKey_toNat a
  rw [h0] at hsum
  rcases h with h | h
  · exact h (BitVec.eq_of_toNat_eq (by simp at hsum ⊢; omega))
  · exact h (BitVec.eq_of_toNat_eq (by simp at hsum ⊢; omega))

theorem reorderKey_inj {a b : SockAddr} (h : reorderKey a = reorderKey b) : a.addr = b.addr ∧ a.port = b.port := by
  have ha := reorderKey_toNat a
  have hb := reorderKey_toNat b
  have hpa := a.port.isLt
  have hpb := b.port.isLt
  rw [h] at ha
  exact ⟨BitVec.eq_of_toNat_eq (by omega), BitVec.eq_of_toNat_eq (by omega)⟩

/-! ## What is held -/

def PeerBuf.packets (cfg : ReorderCfg) (pb : PeerBuf) : Multiset Datagram := (pb.held cfg).map ReorderSlot.pkt

/-- The datagrams held. -/
def rxBuffered (c : ReorderCtx) : Multiset Datagram := ∑ i ∈ Finset.range c.cfg.peers, (c.tbl i).packets c.cfg

variable {c : ReorderCtx} {i : Nat} {pb : PeerBuf}

theorem rxBuffered_put (hi : i < c.cfg.peers) (pb : PeerBuf) (rr : Nat) (st : ReorderStats) :
    rxBuffered { c with tbl := Function.update c.tbl i pb, rr := rr, stats := st } + (c.tbl i).packets c.cfg =
      rxBuffered c + pb.packets c.cfg :=
  Slots.sum_update (PeerBuf.packets c.cfg) c.tbl hi pb

def VacantHoldNothing (c : ReorderCtx) : Prop :=
  ∀ i, i < c.cfg.peers → (c.tbl i).key = 0 → (c.tbl i).held c.cfg = []

/-- With room in the table nothing is destroyed to admit a source. -/
theorem Enters.of_room {k : U64} {lost : Nat} (h : Enters c k i pb lost) (hi : i < c.cfg.peers)
    (hroom : ¬ TableFull c k) (hvac : VacantHoldNothing c) :
    lost = 0 ∧ pb.held c.cfg = (c.tbl i).held c.cfg := by
  cases h with
  | found hkey hs => exact ⟨rfl, hs.held c.cfg⟩
  | created now hno hz hs =>
    refine ⟨rfl, ?_⟩
    rw [hs.held, reorderFresh_held, hvac i hi hz]
  | reclaimed now hfull hidle hs => exact absurd hfull hroom

theorem ArriveStep.of_room {d : Datagram} {t : U64} {a : Arrived} (h : ArriveStep c d t a)
    (hne : reorderKey d.src ≠ 0) (hroom : ¬ TableFull c (reorderKey d.src)) (hvac : VacantHoldNothing c) :
    ∃ i pb st, i < c.cfg.peers ∧ pb.key = reorderKey d.src ∧ CountsLost c.stats st 0 ∧
      a.ctx = { c with tbl := Function.update c.tbl i pb, stats := st } := by
  cases h with
  | bypass st hfull => exact absurd hfull hroom
  | pass i pb lost st hk hi hent hst hwhy =>
    obtain ⟨rfl, -⟩ := hent.of_room hi hroom hvac
    exact ⟨i, pb, st, hi, hent.key, hst, rfl⟩
  | hold i pb lost st j hk hi hent hst hahead hnew hj hfree =>
    obtain ⟨rfl, -⟩ := hent.of_room hi hroom hvac
    exact ⟨i, pb.fill j ⟨t, d.seq, true, d⟩, st, hi, hent.key, hst, rfl⟩
  | keyless i pb pb' lost st out hk => exact absurd hk hne

/-- **The balance of an arrival.** -/
theorem ArriveStep.balance {d : Datagram} {t : U64} {a : Arrived} (h : ArriveStep c d t a)
    (hne : reorderKey d.src ≠ 0) (hroom : ¬ TableFull c (reorderKey d.src)) (hvac : VacantHoldNothing c) :
    d ::ₘ rxBuffered c = (a.out.toList : Multiset Datagram) + rxBuffered a.ctx := by
  cases h with
  | bypass st hfull => exact absurd hfull hroom
  | pass i pb lost st hk hi hent hst hwhy =>
    have hput := rxBuffered_put hi pb c.rr st
    have hsame := (hent.of_room hi hroom hvac).2
    rw [PeerBuf.packets, PeerBuf.packets, hsame] at hput
    rw [← add_right_cancel hput]
    rfl
  | hold i pb lost st j hk hi hent hst hahead hnew hj hfree =>
    have hput := rxBuffered_put hi (pb.fill j ⟨t, d.seq, true, d⟩) c.rr st
    have hsame := (hent.of_room hi hroom hvac).2
    have hfill : (pb.fill j ⟨t, d.seq, true, d⟩).packets c.cfg = d ::ₘ (c.tbl i).packets c.cfg := by
      rw [PeerBuf.packets, PeerBuf.packets, ← hsame]
      exact Multiset.coe_eq_coe.mpr ((fill_held hj hfree).map ReorderSlot.pkt)
    rw [hfill, ← Multiset.singleton_add, ← add_assoc] at hput
    have hnew := add_right_cancel hput
    simp only [Option.toList_none, Multiset.coe_nil, zero_add]
    rw [hnew, add_comm, Multiset.singleton_add]
  | keyless i pb pb' lost st out hk => exact absurd hk hne

/-- **The balance of a release**: what the release overtakes is counted. -/
theorem ReleaseStep.balance {t : U64} {r : Released} (hok : RxOk c) (h : ReleaseStep c t r) :
    ∃ overtaken : Multiset Datagram,
      rxBuffered c = (r.out.toList : Multiset Datagram) + rxBuffered r.ctx + overtaken ∧
        r.ctx.stats.purgedStale = c.stats.purgedStale + overtaken.card := by
  cases h with
  | nothing => exact ⟨0, by simp, rfl⟩
  | take i slot kind hi hkey hpick hslot hu =>
    have hpk := hok.entries i hi hkey
    refine ⟨((c.tbl i).overtaken c.cfg slot).map ReorderSlot.pkt, ?_, ?_⟩
    · have hput := rxBuffered_put hi (reorderTakePeer c.cfg (c.tbl i) slot t).1 ((i + 1) % c.cfg.peers)
        (reorderCountDelivery c.stats (reorderTakePeer c.cfg (c.tbl i) slot t).2 ((c.tbl i).slots slot).ts t kind)
      have hsplit : (c.tbl i).packets c.cfg = {((c.tbl i).slots slot).pkt} +
          ((reorderTakePeer c.cfg (c.tbl i) slot t).1.packets c.cfg +
            (((c.tbl i).overtaken c.cfg slot).map ReorderSlot.pkt : List Datagram)) := by
        have hperm := Multiset.coe_eq_coe.mpr ((reorderTakePeer_held hpk hslot hu t).map ReorderSlot.pkt)
        rw [List.map_cons, List.map_append, ← Multiset.cons_coe, ← Multiset.coe_add] at hperm
        rw [PeerBuf.packets, hperm, Multiset.singleton_add]
        rfl
      rw [hsplit] at hput
      refine add_right_cancel (b := (reorderTakePeer c.cfg (c.tbl i) slot t).1.packets c.cfg) ?_
      rw [← hput, Released.out_some, Option.toList_some, Multiset.coe_singleton]
      abel
    · rw [Multiset.coe_card, List.length_map, ← (reorderTakePeer_spec hpk hslot hu t).2.2.2.1]
      exact (reorderCountDelivery_counts _ _ _ _ _).1

/-! ## The ledger of a run -/

/-- The ledger: `T` taken from the sockets and `H` handed over, by sources whose keys are among `keys`. -/
structure Conserves (cfg : ReorderCfg) (keys : Finset U64) (c : ReorderCtx) (T H : List Datagram) : Prop where
  cfg_eq : c.cfg = cfg
  ok : RxOk c
  keysIn : LruTable.KeysIn c.cfg.peers c.tbl keys
  vacant : VacantHoldNothing c
  balance : ∃ overtaken : Multiset Datagram, (T : Multiset Datagram) = H + rxBuffered c + overtaken ∧
    overtaken.card = c.stats.purgedStale ∧ ∀ d ∈ rxBuffered c + overtaken, isUnsequenced d = false
  reclaim : c.stats.droppedReclaim = 0
  bypass : c.stats.bypassTableFull = 0

theorem reorderInit_conserves (cfg : ReorderCfg) (keys : Finset U64) : Conserves cfg keys (reorderInit cfg) [] [] where
  cfg_eq := rfl
  ok := reorderInit_ok cfg
  keysIn _ _ h := absurd rfl h
  vacant _ _ _ := zero_held cfg
  balance := by
    have hnone : rxBuffered (reorderInit cfg) = 0 := by
      refine Finset.sum_eq_zero fun i _ => ?_
      change ((PeerBuf.zero.held cfg).map ReorderSlot.pkt : Multiset Datagram) = 0
      rw [zero_held]
      rfl
    exact ⟨0, by rw [hnone]; rfl, rfl, by rw [hnone]; simp⟩
  reclaim := rfl
  bypass := rfl

section Steps
variable {cfg : ReorderCfg} {keys : Finset U64} {T H : List Datagram} {d : Datagram}

theorem Conserves.room (h : Conserves cfg keys c T H) (hcard : keys.card ≤ cfg.peers) {k : U64} (hk : k ∈ keys) :
    ¬ TableFull c k := by
  intro hfull
  rw [← h.cfg_eq] at hcard
  obtain ⟨j, hj, heq⟩ := LruTable.exists_room h.ok.distinct hk hcard h.keysIn
  rcases heq with heq | heq
  · exact (hfull j hj).1 heq
  · exact (hfull j hj).2 heq

theorem Conserves.pass (h : Conserves cfg keys c T H) (d : Datagram) : Conserves cfg keys c (T ++ [d]) (H ++ [d]) where
  cfg_eq := h.cfg_eq
  ok := h.ok
  keysIn := h.keysIn
  vacant := h.vacant
  balance := by
    obtain ⟨overtaken, hbal, hrest⟩ := h.balance
    refine ⟨overtaken, ?_, hrest⟩
    rw [← Multiset.coe_add, ← Multiset.coe_add, hbal]
    abel
  reclaim := h.reclaim
  bypass := h.bypass

theorem VacantHoldNothing.put (h : VacantHoldNothing c) {pb : PeerBuf} (hne : pb.key ≠ 0) (rr : Nat)
    (st : ReorderStats) : VacantHoldNothing { c with tbl := Function.update c.tbl i pb, rr := rr, stats := st } := by
  intro j hj hz
  by_cases hji : j = i
  · subst hji
    simp only [Function.update_self] at hz
    exact absurd hz hne
  · simp only [Function.update_of_ne hji] at hz ⊢
    exact h j hj hz

theorem Conserves.arrive (h : Conserves cfg keys c T H) (hcard : keys.card ≤ cfg.peers)
    (hkeys : reorderKey d.src ∈ keys) (hne : reorderKey d.src ≠ 0) (hd : isUnsequenced d = false)
    (hsat : reorderDrainSaturated c = false) (t : U64) :
    Conserves cfg keys (rxArrive c d t).ctx (T ++ [d]) (H ++ (rxArrive c d t).out.toList) := by
  have hstep := rxArrive_step h.ok hsat d t
  have hroom := h.room hcard hkeys
  have hok := hstep.ok h.ok
  have hbal := hstep.balance hne hroom h.vacant
  obtain ⟨i, pb, st, -, hkey, hst, hctx⟩ := hstep.of_room hne hroom h.vacant
  rw [← Multiset.singleton_add] at hbal
  generalize rxArrive c d t = a at *
  refine ⟨?_, hok, ?_, ?_, ?_, ?_, ?_⟩
  · rw [hctx]
    exact h.cfg_eq
  · rw [hctx]
    exact LruTable.keysIn_put h.keysIn fun _ => show pb.key ∈ keys by rwa [hkey]
  · rw [hctx]
    exact h.vacant.put (by rwa [hkey]) c.rr st
  · obtain ⟨overtaken, hT, hpurged, hseq⟩ := h.balance
    refine ⟨overtaken, ?_, ?_, fun e he => ?_⟩
    · rw [← Multiset.coe_add, ← Multiset.coe_add, hT, Multiset.coe_singleton]
      calc (H : Multiset Datagram) + rxBuffered c + overtaken + {d}
          = H + ({d} + rxBuffered c) + overtaken := by abel
        _ = H + (a.out.toList + rxBuffered a.ctx) + overtaken := by rw [hbal]
        _ = H + a.out.toList + rxBuffered a.ctx + overtaken := by abel
    · rw [hpurged, hctx]
      exact hst.purgedStale.symm
    · have hmem : e ∈ {d} + rxBuffered c + overtaken := by
        rw [hbal, add_assoc]
        exact Multiset.mem_add.mpr (Or.inr he)
      rw [add_assoc, Multiset.mem_add, Multiset.mem_singleton] at hmem
      rcases hmem with rfl | hmem
      · exact hd
      · exact hseq e hmem
  · rw [hctx]
    exact hst.droppedReclaim.trans h.reclaim
  · rw [hctx]
    exact hst.bypassTableFull.trans h.bypass

theorem Conserves.release (h : Conserves cfg keys c T H) (t : U64) :
    Conserves cfg keys (rxRelease c t).ctx T (H ++ (rxRelease c t).out.toList) := by
  have hstep := rxRelease_step c t
  have hok := hstep.ok h.ok
  obtain ⟨overtaken, hbal, hcount⟩ := hstep.balance h.ok
  generalize rxRelease c t = r at *
  obtain ⟨lost, hT, hpurged, hseq⟩ := h.balance
  have hbalance : ∃ lost : Multiset Datagram, (T : Multiset Datagram) = (H ++ r.out.toList : List Datagram) +
      rxBuffered r.ctx + lost ∧ lost.card = r.ctx.stats.purgedStale ∧
      ∀ d ∈ rxBuffered r.ctx + lost, isUnsequenced d = false := by
    refine ⟨lost + overtaken, ?_, ?_, fun e he => hseq e ?_⟩
    · rw [hT, hbal, ← Multiset.coe_add]
      abel
    · rw [Multiset.card_add, hpurged, hcount]
    · rw [hbal]
      simp only [Multiset.mem_add] at he ⊢
      tauto
  cases hstep with
  | nothing => exact ⟨h.cfg_eq, hok, h.keysIn, h.vacant, hbalance, h.reclaim, h.bypass⟩
  | take i slot kind hi hkey hpick hslot hu =>
    have hsame := (reorderTakePeer_spec (h.ok.entries i hi hkey) hslot hu t).1
    obtain ⟨-, hrec, hbyp, -⟩ := reorderCountDelivery_counts c.stats (reorderTakePeer c.cfg (c.tbl i) slot t).2
      ((c.tbl i).slots slot).ts t kind
    refine ⟨h.cfg_eq, hok, ?_, ?_, hbalance, hrec.trans h.reclaim, hbyp.trans h.bypass⟩
    · refine LruTable.keysIn_put h.keysIn fun _ => ?_
      change (reorderTakePeer c.cfg (c.tbl i) slot t).1.key ∈ keys
      rw [hsame]
      exact h.keysIn i hi hkey
    · exact h.vacant.put (by rwa [hsame]) _ _

theorem Conserves.kept {Src : Datagram → Prop} (hcard : keys.card ≤ cfg.peers) (hzero : (0 : U64) ∉ keys)
    (hsrc : ∀ d, Src d → isUnsequenced d = false → reorderKey d.src ∈ keys) :
    Kept (fun _ => Src) (Conserves cfg keys) where
  stats st hp hr hb _ h := by
    obtain ⟨overtaken, hT, hpurged, hseq⟩ := h.balance
    exact ⟨h.cfg_eq, h.ok.stats st, h.keysIn, h.vacant, ⟨overtaken, hT, hpurged.trans hp.symm, hseq⟩,
      hr.trans h.reclaim, hb.trans h.bypass⟩
  pass d _ _ h := h.pass d
  arrive d t hd hun hsat h := by
    have hk := hsrc d hd hun
    exact h.arrive hcard hk (fun h0 => hzero (h0 ▸ hk)) hun hsat t
  release t h := h.release t

/-! ## Runs without loss -/

/-- Every source keeps to an arc of less than half the sequence circle, from `base` on, and nothing was
overtaken without a forced release. -/
structure Calm (base : U64 → U32) (c : ReorderCtx) : Prop where
  spans : ∀ i, i < c.cfg.peers → (c.tbl i).key ≠ 0 → (c.tbl i).SpansFrom c.cfg (base (c.tbl i).key)
  calm : c.stats.deliveredForced = 0 → c.stats.purgedStale = 0

variable {base : U64 → U32}

theorem Calm.put (h : Calm base c) {pb : PeerBuf} (hpb : pb.key ≠ 0 → pb.SpansFrom c.cfg (base pb.key)) {rr : Nat}
    {st : ReorderStats} (hst : st.deliveredForced = 0 → st.purgedStale = 0) :
    Calm base { c with tbl := Function.update c.tbl i pb, rr := rr, stats := st } where
  spans j hj hne := by
    by_cases hji : j = i
    · subst hji
      simp only [Function.update_self] at hne ⊢
      exact hpb hne
    · simp only [Function.update_of_ne hji] at hne ⊢
      exact h.spans j hj hne
  calm := hst

theorem CountsLost.calm {old new : ReorderStats} {lost : Nat} (hst : CountsLost old new lost)
    (h : old.deliveredForced = 0 → old.purgedStale = 0) : new.deliveredForced = 0 → new.purgedStale = 0 := by
  rw [hst.deliveredForced, hst.purgedStale]
  exact h

theorem Enters.spans {k : U64} {lost : Nat} (h : Enters c k i pb lost) (hi : i < c.cfg.peers) (hk : k ≠ 0)
    (hcalm : Calm base c) : pb.SpansFrom c.cfg (base pb.key) := by
  intro s hs
  obtain ⟨hkey, hold⟩ := h.held_before hs
  rw [h.key, ← hkey]
  exact hcalm.spans i hi (hkey ▸ hk) s hold

theorem ArriveStep.calm {t : U64} {a : Arrived} (h : ArriveStep c d t a) (hk : reorderKey d.src ≠ 0)
    (hspan : 2 * Serial.elapsed d.seq (base (reorderKey d.src)) < 2 ^ 32) (hcalm : Calm base c)
    (hroom : ¬ TableFull c (reorderKey d.src)) : Calm base a.ctx := by
  cases h with
  | bypass st hfull => exact absurd hfull hroom
  | pass i pb lost st hk hi hent hst hwhy =>
    exact hcalm.put (fun _ => hent.spans hi hk hcalm) (hst.calm hcalm.calm)
  | hold i pb lost st j hk hi hent hst hahead hnew hj hfree =>
    refine hcalm.put (fun _ s hs => ?_) (hst.calm hcalm.calm)
    rcases List.mem_cons.mp ((fill_held hj hfree).mem_iff.mp hs) with rfl | hs
    · change 2 * Serial.elapsed d.seq (base pb.key) < 2 ^ 32
      rwa [hent.key]
    · exact hent.spans hi hk hcalm s hs
  | keyless i pb pb' lost st out hzero => exact absurd hzero hk

/-- A release that is not forced overtakes nothing. -/
theorem overtaken_of_not_forced {now : U64} {slot : Nat} {kind : DeliverKind} {b : U32} (hok : PeerOk c.cfg pb)
    (hpick : reorderPick c.cfg pb now = some (slot, kind)) (hkind : kind ≠ .forced) (hspan : pb.SpansFrom c.cfg b) :
    pb.overtaken c.cfg slot = [] := by
  obtain ⟨hslot, hu, hcase⟩ := reorderPick_cases hpick
  rcases hcase with ⟨-, -, hfirst⟩ | ⟨-, hinit, hnext⟩ | ⟨rfl, -⟩
  · exact overtaken_first hok hfirst hspan
  · exact overtaken_inOrder hok hslot hu hinit hnext
  · exact absurd rfl hkind

theorem ReleaseStep.calm {t : U64} {r : Released} (hok : RxOk c) (h : ReleaseStep c t r)
    (hcalm : Calm base c) : Calm base r.ctx := by
  cases h with
  | nothing => exact hcalm
  | take i slot kind hi hkey hpick hslot hu =>
    have hpk := hok.entries i hi hkey
    obtain ⟨hsame, -, -, hlost, -, -⟩ := reorderTakePeer_spec hpk hslot hu t
    refine hcalm.put (fun _ s hs => ?_) fun hforced => ?_
    · rw [hsame]
      exact hcalm.spans i hi hkey s ((mem_held_take hpk hslot hu).mp hs).1
    · obtain ⟨hpurged, -, -, hcount⟩ := reorderCountDelivery_counts c.stats
        (reorderTakePeer c.cfg (c.tbl i) slot t).2 ((c.tbl i).slots slot).ts t kind
      rw [hcount] at hforced
      have hkind : kind ≠ .forced := by
        rintro rfl
        simp at hforced
      rw [hpurged, hlost, overtaken_of_not_forced hpk hpick hkind (hcalm.spans i hi hkey), hcalm.calm (by omega)]
      rfl

theorem Calm.kept {Src : Datagram → Prop} (hcard : keys.card ≤ cfg.peers) (hzero : (0 : U64) ∉ keys)
    (hsrc : ∀ d, Src d → isUnsequenced d = false → reorderKey d.src ∈ keys ∧
      2 * Serial.elapsed d.seq (base (reorderKey d.src)) < 2 ^ 32) :
    Kept (fun _ => Src) (fun c T H => Conserves cfg keys c T H ∧ Calm base c) where
  stats st hp hr hb hf h := by
    refine ⟨(Conserves.kept hcard hzero fun d hd hun => (hsrc d hd hun).1).stats st hp hr hb hf h.1, h.2.spans, ?_⟩
    rw [hp, hf]
    exact h.2.calm
  pass d _ _ h := ⟨h.1.pass d, h.2⟩
  arrive d t hd hun hsat h := by
    obtain ⟨hk, hspan⟩ := hsrc d hd hun
    have hne : reorderKey d.src ≠ 0 := fun h0 => hzero (h0 ▸ hk)
    exact ⟨h.1.arrive hcard hk hne hun hsat t,
      (rxArrive_step h.1.ok hsat d t).calm hne hspan h.2 (h.1.room hcard hk)⟩
  release t h := ⟨h.1.release t, (rxRelease_step _ t).calm h.1.ok h.2⟩

end Steps

/-- The smallest datagram with sequence `seq` from a source. -/
def sampleFrom (src : SockAddr) (seq : U32) : Datagram :=
  ⟨src, makePkt true seq 0, by simp [makePkt, kReorderMaxPktBytes]⟩

def samplePeer : SockAddr := ⟨afInet, 0x0100000a, 17770⟩

end BzNet
