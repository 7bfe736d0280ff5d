import BzNet.Reorder.Entry
import BzNet.Reorder.Receive

/-!
# The reorder buffer, one step at a time

* `Enters` : the entry an arrival is inserted into, found, created or reclaimed;
* `ArriveStep`, `ReleaseStep` : everything an arrival and a release can do, with `rxArrive_step` and
  `rxRelease_step`; what follows is read off these;
* `RxOk` : one entry per source, every live entry as `PeerOk` says, kept by both.
-/

namespace BzNet

def PeerBuf.Owned (cfg : ReorderCfg) (pb : PeerBuf) (k : U64) : Prop := ∀ s ∈ pb.held cfg, reorderKey s.pkt.src = k

/-- One entry per source, and every live entry is well formed. Arrivals of key `0` are put into unused
entries, where no release looks. -/
structure RxOk (c : ReorderCtx) : Prop where
  distinct : LruTable.Distinct c.cfg.peers c.tbl
  entries : ∀ i, i < c.cfg.peers → (c.tbl i).key ≠ 0 → PeerOk c.cfg (c.tbl i)
  unused : ∀ i, i < c.cfg.peers → (c.tbl i).key = 0 → (c.tbl i).Owned c.cfg 0

theorem RxOk.empty (cfg : ReorderCfg) (rr : Nat) (st : ReorderStats) : RxOk ⟨cfg, fun _ => PeerBuf.zero, rr, st⟩ where
  distinct _ _ _ _ _ h := absurd rfl h
  entries _ _ h := absurd rfl h
  unused _ _ _ s hs := by
    rw [zero_held] at hs
    cases hs

theorem reorderInit_ok (cfg : ReorderCfg) : RxOk (reorderInit cfg) := .empty cfg 0 {}

theorem RxOk.stats {c : ReorderCtx} (h : RxOk c) (st : ReorderStats) : RxOk { c with stats := st } :=
  ⟨h.distinct, h.entries, h.unused⟩

/-! ## The entry of a source -/

/-- Every entry is live, and none is of key `k`. -/
def TableFull (c : ReorderCtx) (k : U64) : Prop := ∀ j, j < c.cfg.peers → (c.tbl j).key ≠ k ∧ (c.tbl j).key ≠ 0

/-- Entry `i`, as `pb` but for its window, is where packets of key `k` go; making room for it destroyed
`lost` packets. -/
inductive Enters (c : ReorderCtx) (k : U64) (i : Nat) (pb : PeerBuf) : Nat → Prop
  | found : (c.tbl i).key = k → SameButWindow pb (c.tbl i) → Enters c k i pb 0
  | created (now : U64) : (∀ j, j < c.cfg.peers → (c.tbl j).key ≠ k) → (c.tbl i).key = 0 →
      SameButWindow pb (reorderFresh c.cfg k now) → Enters c k i pb 0
  | reclaimed (now : U64) : TableFull c k → kReorderPeerIdleMs ≤ now - (c.tbl i).lastActivityMs →
      SameButWindow pb (reorderFresh c.cfg k now) → Enters c k i pb (c.tbl i).filled

variable {c : ReorderCtx} {k : U64} {i : Nat} {pb : PeerBuf} {lost : Nat}

theorem SameButWindow.trans {a b e : PeerBuf} (h1 : SameButWindow a b) (h2 : SameButWindow b e) : SameButWindow a e :=
  ⟨h1.key.trans h2.key, h1.seqInit.trans h2.seqInit, h1.lastSeq.trans h2.lastSeq, h1.filled.trans h2.filled,
    h1.slots.trans h2.slots⟩

theorem Enters.key (h : Enters c k i pb lost) : pb.key = k := by
  cases h with
  | found hk hs => exact hs.key.trans hk
  | created now _ _ hs => exact hs.key
  | reclaimed now _ _ hs => exact hs.key

theorem Enters.adapt (h : Enters c k i pb lost) {pb' : PeerBuf} (hs : SameButWindow pb' pb) : Enters c k i pb' lost := by
  cases h with
  | found hk h => exact .found hk (hs.trans h)
  | created now hno hz h => exact .created now hno hz (hs.trans h)
  | reclaimed now hfull hidle h => exact .reclaimed now hfull hidle (hs.trans h)

theorem Enters.ok (hok : RxOk c) (hi : i < c.cfg.peers) (hk : k ≠ 0) (h : Enters c k i pb lost) : PeerOk c.cfg pb := by
  cases h with
  | found hkey hs => exact hs.ok (hok.entries i hi (hkey ▸ hk))
  | created now _ _ hs => exact hs.ok (reorderFresh_ok _ _ _)
  | reclaimed now _ _ hs => exact hs.ok (reorderFresh_ok _ _ _)

theorem Enters.room (hsat : reorderDrainSaturated c = false) (hi : i < c.cfg.peers) (hk : k ≠ 0)
    (h : Enters c k i pb lost) : pb.filled < c.cfg.depth := by
  cases h with
  | found hkey hs =>
    rw [hs.filled]
    by_contra hfull
    have hany : reorderDrainSaturated c = true :=
      List.any_eq_true.mpr ⟨i, List.mem_range.mpr hi, decide_eq_true ⟨hkey ▸ hk, Nat.not_lt.mp hfull⟩⟩
    rw [hsat] at hany
    cases hany
  | created now _ _ hs =>
    rw [hs.filled]
    exact c.cfg.depth_pos
  | reclaimed now _ _ hs =>
    rw [hs.filled]
    exact c.cfg.depth_pos

theorem Enters.held_before (h : Enters c k i pb lost) {s : ReorderSlot} (hs : s ∈ pb.held c.cfg) :
    (c.tbl i).key = k ∧ s ∈ (c.tbl i).held c.cfg := by
  cases h with
  | found hkey hsame =>
    rw [hsame.held] at hs
    exact ⟨hkey, hs⟩
  | created now _ _ hsame =>
    rw [hsame.held, reorderFresh_held] at hs
    cases hs
  | reclaimed now _ _ hsame =>
    rw [hsame.held, reorderFresh_held] at hs
    cases hs

/-- The entry an arrival without an address meets holds no packet with one. -/
theorem Enters.owned (hok : RxOk c) (hi : i < c.cfg.peers) (h : Enters c 0 i pb lost) : pb.Owned c.cfg 0 := by
  intro s hs
  obtain ⟨hkey, hold⟩ := h.held_before hs
  exact hok.unused i hi hkey s hold

/-- Making room destroyed `lost` packets, and no other counter of lost, diverted or forced ones moved. -/
structure CountsLost (old new : ReorderStats) (lost : Nat) : Prop where
  purgedStale : new.purgedStale = old.purgedStale
  droppedReclaim : new.droppedReclaim = old.droppedReclaim + lost
  bypassTableFull : new.bypassTableFull = old.bypassTableFull
  deliveredForced : new.deliveredForced = old.deliveredForced

theorem reorderCountDelivery_counts (st : ReorderStats) (n : Nat) (ts now : U64) (kind : DeliverKind) :
    (reorderCountDelivery st n ts now kind).purgedStale = st.purgedStale + n ∧
      (reorderCountDelivery st n ts now kind).droppedReclaim = st.droppedReclaim ∧
      (reorderCountDelivery st n ts now kind).bypassTableFull = st.bypassTableFull ∧
      (reorderCountDelivery st n ts now kind).deliveredForced =
        st.deliveredForced + if kind = .forced then 1 else 0 := by
  cases kind <;> exact ⟨rfl, rfl, rfl, rfl⟩

theorem reorderCountInsert_counts {old st : ReorderStats} (h : CountsLost old st lost) (res : InsertResult) :
    CountsLost old (reorderCountInsert st res) lost := by
  cases res <;> exact ⟨h.1, h.2, h.3, h.4⟩

/-- **Where a packet goes.** -/
theorem reorderGetPeer_cases (c : ReorderCtx) (addr : SockAddr) (now : U64) :
    (TableFull c (reorderKey addr) ∧ reorderGetPeer c addr now = none) ∨
      ∃ i pb lost st, i < c.cfg.peers ∧ Enters c (reorderKey addr) i pb lost ∧
        reorderGetPeer c addr now = some ({ c with tbl := Function.update c.tbl i pb, stats := st }, i) ∧
        CountsLost c.stats st lost := by
  cases hf : LruTable.find? c.cfg.peers c.tbl (reorderKey addr) with
  | some i =>
    have hi := LruTable.find?_some hf
    have hkey : (c.tbl i).key = reorderKey addr := hi.2
    refine Or.inr ⟨i, KeyedRecord.touch now (c.tbl i), 0, c.stats, hi.1, .found hkey ⟨rfl, rfl, rfl, rfl, rfl⟩, ?_,
      ⟨rfl, rfl, rfl, rfl⟩⟩
    simp only [reorderGetPeer, LruTable.locate, hf]
  | none =>
    have hno : ∀ j, j < c.cfg.peers → (c.tbl j).key ≠ reorderKey addr := LruTable.find?_eq_none.mp hf
    cases hz : LruTable.find? c.cfg.peers c.tbl (LruTable.freeKey PeerBuf) with
    | some i =>
      have hi := LruTable.find?_some hz
      refine Or.inr ⟨i, reorderFresh c.cfg (reorderKey addr) now, 0, c.stats, hi.1,
        .created now hno hi.2 (SameButWindow.refl _), ?_, ⟨rfl, rfl, rfl, rfl⟩⟩
      simp only [reorderGetPeer, LruTable.locate, hf, hz]
    | none =>
      have hfull : TableFull c (reorderKey addr) := fun j hj => ⟨hno j hj, LruTable.find?_eq_none.mp hz j hj⟩
      by_cases hidle : now - (c.tbl (LruTable.oldest c.cfg.peers c.tbl)).lastActivityMs < kReorderPeerIdleMs
      · refine Or.inl ⟨hfull, ?_⟩
        simp only [reorderGetPeer, LruTable.locate, hf, hz, if_pos hidle]
      · refine Or.inr ⟨LruTable.oldest c.cfg.peers c.tbl, reorderFresh c.cfg (reorderKey addr) now, _,
          { c.stats with
            peersReclaimed := c.stats.peersReclaimed + 1
            droppedReclaim := c.stats.droppedReclaim + (c.tbl (LruTable.oldest c.cfg.peers c.tbl)).filled },
          LruTable.oldest_lt c.cfg.peers_pos,
          .reclaimed now hfull (BitVec.not_lt.mp hidle) (SameButWindow.refl _), ?_, ⟨rfl, rfl, rfl, rfl⟩⟩
        simp only [reorderGetPeer, LruTable.locate, hf, hz, if_neg hidle]

/-! ## An arrival -/

/-- **An arrival, by cases**: no entry to be had; a sequence behind the cursor or still held, passed on;
a packet held in a free slot; or a packet without an address, put into an unused entry. -/
inductive ArriveStep (c : ReorderCtx) (d : Datagram) (t : U64) : Arrived → Prop
  | bypass (st : ReorderStats) : TableFull c (reorderKey d.src) →
      st.droppedReclaim = c.stats.droppedReclaim →
      ArriveStep c d t ⟨{ c with stats := st }, some d, false⟩
  | pass (i : Nat) (pb : PeerBuf) (lost : Nat) (st : ReorderStats) : reorderKey d.src ≠ 0 → i < c.cfg.peers →
      Enters c (reorderKey d.src) i pb lost → CountsLost c.stats st lost →
      (pb.seqInit = true ∧ seqCmp d.seq pb.lastSeq ≤ 0 ∨ ∃ s ∈ pb.held c.cfg, s.seq = d.seq) →
      ArriveStep c d t ⟨{ c with tbl := Function.update c.tbl i pb, stats := st }, some d, true⟩
  | hold (i : Nat) (pb : PeerBuf) (lost : Nat) (st : ReorderStats) (j : Nat) : reorderKey d.src ≠ 0 →
      i < c.cfg.peers → Enters c (reorderKey d.src) i pb lost → CountsLost c.stats st lost →
      (pb.seqInit = true → 0 < seqCmp d.seq pb.lastSeq) → (∀ s ∈ pb.held c.cfg, s.seq ≠ d.seq) →
      j < c.cfg.depth → (pb.slots j).used = false →
      ArriveStep c d t
        ⟨{ c with tbl := Function.update c.tbl i (pb.fill j ⟨t, d.seq, true, d⟩), stats := st }, none, true⟩
  | keyless (i : Nat) (pb pb' : PeerBuf) (lost : Nat) (st : ReorderStats) (out : Option Datagram) :
      reorderKey d.src = 0 → i < c.cfg.peers → Enters c 0 i pb lost →
      st.droppedReclaim = c.stats.droppedReclaim + lost → pb'.key = 0 → pb'.Owned c.cfg 0 →
      (∀ o ∈ out, reorderKey o.src = 0) →
      ArriveStep c d t ⟨{ c with tbl := Function.update c.tbl i pb', stats := st }, out, true⟩

theorem rxArrive_addressed (hok : RxOk c) (hsat : reorderDrainSaturated c = false) {d : Datagram} {t : U64}
    (hk : reorderKey d.src ≠ 0) {st : ReorderStats} (hi : i < c.cfg.peers) (hent : Enters c (reorderKey d.src) i pb lost)
    (hst : CountsLost c.stats st lost)
    (hget : reorderGetPeer c d.src t = some ({ c with tbl := Function.update c.tbl i pb, stats := st }, i)) :
    ArriveStep c d t (rxArrive c d t) := by
  unfold rxArrive
  rw [hget]
  have hent' : Enters c (reorderKey d.src) i (reorderAdaptOnArrival c.cfg pb d.seq t) lost :=
    hent.adapt (reorderAdaptOnArrival_same c.cfg pb d.seq t)
  simp only [Function.update_self, Function.update_idem]
  generalize reorderAdaptOnArrival c.cfg pb d.seq t = pb' at hent' ⊢
  rcases reorderInsert_cases (hent'.ok hok hi hk) (hent'.room hsat hi hk) d.seq t d with
    ⟨hinit, hle, hins⟩ | ⟨hdup, hins⟩ | ⟨hahead, hnew, j, hj, hfree, hins⟩
  · rw [hins]
    exact .pass i pb' lost _ hk hi hent' (reorderCountInsert_counts hst _) (Or.inl ⟨hinit, hle⟩)
  · rw [hins]
    exact .pass i pb' lost _ hk hi hent' (reorderCountInsert_counts hst _) (Or.inr hdup)
  · rw [hins]
    exact .hold i pb' lost _ j hk hi hent' (reorderCountInsert_counts hst _) hahead hnew hj hfree

theorem rxArrive_keyless (hok : RxOk c) {d : Datagram} {t : U64} (hk : reorderKey d.src = 0) {st : ReorderStats}
    (hi : i < c.cfg.peers) (hent : Enters c (reorderKey d.src) i pb lost) (hst : CountsLost c.stats st lost)
    (hget : reorderGetPeer c d.src t = some ({ c with tbl := Function.update c.tbl i pb, stats := st }, i)) :
    ArriveStep c d t (rxArrive c d t) := by
  unfold rxArrive
  rw [hget]
  simp only [Function.update_self, Function.update_idem]
  rw [hk] at hent
  have hent' := hent.adapt (reorderAdaptOnArrival_same c.cfg pb d.seq t)
  generalize reorderAdaptOnArrival c.cfg pb d.seq t = pb' at hent' ⊢
  have hown := hent'.owned hok hi
  obtain ⟨hheld, hout⟩ := reorderInsert_held c.cfg pb' d.seq t d
  have hkey : (reorderInsert c.cfg pb' d.seq t d).1.key = 0 := by rw [reorderInsert_key, hent'.key]
  have hins : (reorderInsert c.cfg pb' d.seq t d).1.Owned c.cfg 0 := by
    intro s hs
    rcases hheld s hs with hs | hs
    · exact hown s hs
    · rw [hs, hk]
  have hlost := (reorderCountInsert_counts hst (reorderInsert c.cfg pb' d.seq t d).2).droppedReclaim
  split
  · next out hev =>
    have hkeeps := reorderNoteDelivery_keeps c.cfg (reorderInsert c.cfg pb' d.seq t d).1 out.seq t
    refine .keyless i pb _ lost _ _ hk hi hent ?_ (hkeeps.1.trans hkey) (fun s hs => hins s (hkeeps.2.2 s hs)) ?_
    · exact (reorderCountDelivery_counts _ _ _ _ _).2.1.trans hlost
    · rintro _ ⟨⟩
      exact hown out (hout out hev)
  · refine .keyless i pb _ lost _ _ hk hi hent hlost hkey hins ?_
    intro o ho
    split at ho
    · cases ho
      exact hk
    · cases ho

theorem rxArrive_step (hok : RxOk c) (hsat : reorderDrainSaturated c = false) (d : Datagram) (t : U64) :
    ArriveStep c d t (rxArrive c d t) := by
  rcases reorderGetPeer_cases c d.src t with ⟨hfull, hget⟩ | ⟨i, pb, lost, st, hi, hent, hget, hst⟩
  · unfold rxArrive
    rw [hget]
    exact .bypass _ hfull rfl
  · by_cases hk : reorderKey d.src = 0
    · exact rxArrive_keyless hok hk hi hent hst hget
    · exact rxArrive_addressed hok hsat hk hi hent hst hget

/-! ## A release -/

/-- **A release, by cases**: nothing is ready, or the chosen packet of a live entry goes out. -/
inductive ReleaseStep (c : ReorderCtx) (t : U64) : Released → Prop
  | nothing : (∀ i, i < c.cfg.peers → (c.tbl i).key ≠ 0 → reorderPick c.cfg (c.tbl i) t = none) →
      ReleaseStep c t ⟨c, none⟩
  | take (i slot : Nat) (kind : DeliverKind) : i < c.cfg.peers → (c.tbl i).key ≠ 0 →
      reorderPick c.cfg (c.tbl i) t = some (slot, kind) → slot < c.cfg.depth → ((c.tbl i).slots slot).used = true →
      ReleaseStep c t
        ⟨{ c with
            tbl := Function.update c.tbl i (reorderTakePeer c.cfg (c.tbl i) slot t).1
            rr := (i + 1) % c.cfg.peers
            stats := reorderCountDelivery c.stats (reorderTakePeer c.cfg (c.tbl i) slot t).2
              ((c.tbl i).slots slot).ts t kind },
          some (i, (c.tbl i).slots slot)⟩

/-- How many entries the scan from `rr` looks at before entry `i`. -/
def scanDistance (p rr i : Nat) : Nat := (i + (p - rr % p)) % p

theorem scanDistance_reaches {p : Nat} (rr : Nat) (hi : i < p) : (rr + scanDistance p rr i) % p = i := by
  have hlt := Nat.mod_lt rr (Nat.lt_of_le_of_lt (Nat.zero_le i) hi)
  have hdiv := Nat.mod_add_div rr p
  have hsum : rr + (i + (p - rr % p)) = i + p * (rr / p + 1) := by
    rw [Nat.mul_add, Nat.mul_one]
    omega
  rw [scanDistance, Nat.add_mod_mod, hsum, Nat.add_mul_mod_self_left, Nat.mod_eq_of_lt hi]

/-- The scan from any starting point reaches every entry. -/
theorem scan_reaches {p : Nat} (rr : Nat) (hi : i < p) : ∃ n, n < p ∧ (rr + n) % p = i :=
  ⟨scanDistance p rr i, Nat.mod_lt _ (Nat.lt_of_le_of_lt (Nat.zero_le i) hi), scanDistance_reaches rr hi⟩

theorem rxRelease_step (c : ReorderCtx) (t : U64) : ReleaseStep c t (rxRelease c t) := by
  unfold rxRelease
  split
  · next hnone =>
    refine .nothing fun i hi hkey => ?_
    obtain ⟨n, hn, hmod⟩ := scan_reaches c.rr hi
    rw [reorderNextReady, List.findSome?_eq_none_iff] at hnone
    have := hnone n (List.mem_range.mpr hn)
    dsimp only at this
    rw [hmod, if_neg hkey, Option.map_eq_none_iff] at this
    exact this
  · next c' i slot kind hready =>
    obtain ⟨n, -, hn⟩ := List.exists_of_findSome?_eq_some hready
    dsimp only at hn
    split at hn
    · cases hn
    · next hkey =>
      obtain ⟨⟨slot', kind'⟩, hs, heq⟩ := Option.map_eq_some_iff.mp hn
      cases heq
      exact .take _ _ _ (Nat.mod_lt _ c.cfg.peers_pos) hkey hs (reorderPick_cases hs).1 (reorderPick_cases hs).2.1

/-! ## What both keep -/

theorem RxOk.put (hok : RxOk c) {st : ReorderStats} {rr : Nat} (hpb : pb.key ≠ 0 → PeerOk c.cfg pb)
    (hkey : pb.key ≠ 0 → ∀ j, j < c.cfg.peers → j ≠ i → (c.tbl j).key ≠ pb.key) (h0 : pb.key = 0 → pb.Owned c.cfg 0) :
    RxOk { c with tbl := Function.update c.tbl i pb, rr := rr, stats := st } where
  distinct := LruTable.distinct_put hok.distinct hkey
  entries j hj hne := by
    by_cases hji : j = i
    · subst hji
      simp only [Function.update_self] at hne ⊢
      exact hpb hne
    · simp only [Function.update_of_ne hji] at hne ⊢
      exact hok.entries j hj hne
  unused j hj hz := by
    by_cases hji : j = i
    · subst hji
      simp only [Function.update_self] at hz ⊢
      exact h0 hz
    · simp only [Function.update_of_ne hji] at hz ⊢
      exact hok.unused j hj hz

theorem Enters.others (hok : RxOk c) (hi : i < c.cfg.peers) (hk : k ≠ 0) (h : Enters c k i pb lost) :
    ∀ j, j < c.cfg.peers → j ≠ i → (c.tbl j).key ≠ k := by
  intro j hj hji heq
  cases h with
  | found hkey _ => exact hji (hok.distinct j i hj hi (heq.trans hkey.symm) (fun h0 => hk (heq ▸ h0)))
  | created now hno _ _ => exact hno j hj heq
  | reclaimed now hfull _ _ => exact (hfull j hj).1 heq

theorem ArriveStep.ok {d : Datagram} {t : U64} {a : Arrived} (hok : RxOk c) (h : ArriveStep c d t a) :
    RxOk a.ctx := by
  cases h with
  | bypass st => exact hok.stats st
  | pass i pb lost st hk hi hent hst hwhy =>
    refine hok.put (fun _ => hent.ok hok hi hk) (fun _ => ?_) fun h0 => absurd (hent.key.symm.trans h0) hk
    rw [hent.key]
    exact hent.others hok hi hk
  | hold i pb lost st j hk hi hent hst hahead hnew hj hfree =>
    have hkey : (pb.fill j ⟨t, d.seq, true, d⟩).key = reorderKey d.src := hent.key
    refine hok.put (fun _ => ?_) (fun _ => ?_) fun h0 => absurd (hkey.symm.trans h0) hk
    · exact fill_ok (hent.ok hok hi hk) hj hfree hahead hnew rfl hent.key.symm
    · rw [hkey]
      exact hent.others hok hi hk
  | keyless i pb pb' lost st out hk hi hent hst hkey hown hout =>
    exact hok.put (fun hne => absurd hkey hne) (fun hne => absurd hkey hne) fun _ => hown

theorem ReleaseStep.ok {t : U64} {r : Released} (hok : RxOk c) (h : ReleaseStep c t r) :
    RxOk r.ctx := by
  cases h with
  | nothing => exact hok
  | take i slot kind hi hkey hpick hslot hu =>
    have hspec := reorderTakePeer_spec (hok.entries i hi hkey) hslot hu t
    refine hok.put (fun _ => reorderTakePeer_ok (hok.entries i hi hkey) hslot hu t) (fun _ j hj hji => ?_)
      fun h0 => absurd (hspec.1.symm.trans h0) hkey
    rw [hspec.1]
    exact fun heq => hji (hok.distinct j i hj hi heq (fun h0 => hkey (heq ▸ h0)))

end BzNet
