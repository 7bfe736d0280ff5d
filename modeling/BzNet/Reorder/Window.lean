import BzNet.Reorder.Conservation
import BzNet.Reorder.Ready
import BzNet.Reorder.HoldWindow

/-!
# Loss alone does not widen the window

One source whose sequences arrive strictly ascending, over less than half the circle: datagrams are lost, none is
late. Every entry of the source knows earlier sequences only (`Seen`), so an arrival is ahead of its cursor and of all
it holds: it is neither stale nor a duplicate, and it neither comes late nor closes a gap with something held behind
it. Nothing else widens the window, and decay only narrows it.
-/

namespace BzNet

open Machine

variable {cfg : ReorderCfg} {pb : PeerBuf} {c : ReorderCtx}

/-- The sequences ascend strictly and span less than half the circle, counted from `base`. -/
structure AscendsFrom (base : U32) (l : List U32) : Prop where
  ascends : l.Pairwise fun a b => Serial.elapsed a base < Serial.elapsed b base
  arc : ∀ a ∈ l, 2 * Serial.elapsed a base < 2 ^ 32

/-- What the entry holds and its cursor are sequences of `l`, and an adaptive window in use is not under its
floor. -/
structure Seen (cfg : ReorderCfg) (l : List U32) (pb : PeerBuf) : Prop where
  held : ∀ s ∈ pb.held cfg, s.seq ∈ l
  cursor : pb.seqInit = true → pb.lastSeq ∈ l
  floor : pb.key ≠ 0 → cfg.adapt = true → cfg.winMinMs ≤ pb.winMs

theorem Seen.mono {l l' : List U32} (h : Seen cfg l pb) (hl : ∀ a ∈ l, a ∈ l') : Seen cfg l' pb :=
  ⟨fun s hs => hl _ (h.held s hs), fun hi => hl _ (h.cursor hi), h.floor⟩

theorem reorderFresh_seen (cfg : ReorderCfg) (key now : U64) (l : List U32) : Seen cfg l (reorderFresh cfg key now) where
  held s hs := by
    rw [reorderFresh_held] at hs
    cases hs
  cursor := nofun
  floor _ hadapt := by
    change cfg.winMinMs ≤ if cfg.adapt = true then cfg.winMinMs else cfg.winMaxMs
    rw [if_pos hadapt]
    exact BitVec.le_refl _

theorem zero_ok (cfg : ReorderCfg) : PeerOk cfg PeerBuf.zero :=
  (reorderFresh_ok cfg 0 0).of_held (by rw [zero_held, reorderFresh_held]) rfl rfl rfl rfl

theorem zero_seen (cfg : ReorderCfg) (l : List U32) : Seen cfg l PeerBuf.zero where
  held s hs := by
    rw [zero_held] at hs
    cases hs
  cursor := nofun
  floor h := absurd rfl h

/-! ## An arrival at an entry -/

section Arrival
variable {base seq : U32} {l : List U32}

theorem AscendsFrom.cmp_last (h : AscendsFrom base (l ++ [seq])) {a : U32} (ha : a ∈ l) :
    seqCmp seq a = (Serial.elapsed seq base : Int) - (Serial.elapsed a base : Int) ∧
      Serial.elapsed a base < Serial.elapsed seq base := by
  have hlt := (List.pairwise_append.mp h.ascends).2.2 a ha seq (List.mem_singleton_self seq)
  exact ⟨Serial.cmp_of_arc (h.arc seq (List.mem_append_right _ (List.mem_singleton_self seq)))
    (h.arc a (List.mem_append_left _ ha)), hlt⟩

theorem seqCmp_seqNext (a : U32) : seqCmp (seqNext a) a = 1 := by
  have hsub : seqNext a - a = 1 := add_sub_cancel_left a 1
  rw [seqCmp, Serial.cmp, hsub]
  rfl

/-- **No growth**: the arrival neither comes late nor closes a gap. -/
theorem adaptOnArrival_ascending (hok : PeerOk cfg pb) (hseen : Seen cfg l pb) (h : AscendsFrom base (l ++ [seq]))
    (now : U64) : reorderAdaptOnArrival cfg pb seq now = pb := by
  unfold reorderAdaptOnArrival
  cases hinit : pb.seqInit with
  | false => simp
  | true =>
    obtain ⟨hcmp, hlt⟩ := h.cmp_last (hseen.cursor hinit)
    have hgap : ¬ (seq = seqNext pb.lastSeq ∧ pb.filled > 0) := by
      rintro ⟨hnext, hfilled⟩
      rw [hok.filled_eq] at hfilled
      obtain ⟨s, hs⟩ := List.exists_mem_of_length_pos hfilled
      obtain ⟨-, hlt'⟩ := h.cmp_last (hseen.held s hs)
      have hahead := hok.ahead hinit s hs
      have harc := fun a ha => h.arc a (List.mem_append_left [seq] ha)
      rw [seqCmp, Serial.cmp_of_arc (harc _ (hseen.held s hs)) (harc _ (hseen.cursor hinit))] at hahead
      have hone := seqCmp_seqNext pb.lastSeq
      rw [← hnext] at hone
      omega
    have hzero : ¬ seqCmp seq pb.lastSeq = 0 := by omega
    have hlate : ¬ seqCmp seq pb.lastSeq < 0 := by omega
    rw [if_neg hzero, if_neg hlate, if_neg hgap]
    split <;> rfl

/-- **Never stale, never a duplicate.** -/
theorem insert_ascending (hseen : Seen cfg l pb) (h : AscendsFrom base (l ++ [seq])) (ts : U64) (pkt : Datagram) :
    (reorderInsert cfg pb seq ts pkt).2 ≠ .stale ∧ (reorderInsert cfg pb seq ts pkt).2 ≠ .duplicate := by
  have hstale : ¬ (pb.seqInit = true ∧ seqCmp seq pb.lastSeq ≤ 0) := by
    rintro ⟨hinit, hle⟩
    obtain ⟨hcmp, hlt⟩ := h.cmp_last (hseen.cursor hinit)
    omega
  have hnew : (List.range cfg.depth).find? (fun i => (pb.slots i).used && (pb.slots i).seq == seq) = none := by
    rw [List.find?_eq_none]
    intro i hi hp
    rw [Bool.and_eq_true, beq_iff_eq] at hp
    obtain ⟨-, hlt⟩ := h.cmp_last (hseen.held _ (Slots.mem_held_of (List.mem_range.mp hi) hp.1))
    rw [hp.2] at hlt
    omega
  unfold reorderInsert
  rw [if_neg hstale, hnew]
  simp only
  split
  · exact ⟨nofun, nofun⟩
  · exact ⟨nofun, nofun⟩

end Arrival

/-! ## The window of an entry -/

theorem reorderInsert_entry (cfg : ReorderCfg) (pb : PeerBuf) (seq : U32) (ts : U64) (pkt : Datagram) :
    (reorderInsert cfg pb seq ts pkt).1.winMs = pb.winMs ∧ (reorderInsert cfg pb seq ts pkt).1.seqInit = pb.seqInit ∧
      (reorderInsert cfg pb seq ts pkt).1.lastSeq = pb.lastSeq := by
  obtain ⟨slots, filled, hins⟩ := reorderInsert_frame cfg pb seq ts pkt
  rw [hins]
  exact ⟨rfl, rfl, rfl⟩

/-! ## An arrival at the table -/

/-- How an arrival is classified; `none` where it has no entry. -/
def insertResultOf (c : ReorderCtx) (d : Datagram) (t : U64) : Option InsertResult :=
  (reorderGetPeer c d.src t).map fun r =>
    (reorderInsert r.1.cfg (reorderAdaptOnArrival r.1.cfg (r.1.tbl r.2) d.seq t) d.seq t d).2

/-- The entry after an arrival: as the insertion leaves it, or, where a packet was displaced, as its delivery does. -/
def arrivedEntry (cfg : ReorderCfg) (pb : PeerBuf) (d : Datagram) (t : U64) : PeerBuf :=
  let ins := reorderInsert cfg (reorderAdaptOnArrival cfg pb d.seq t) d.seq t d
  match ins.2 with
  | .evicted out => (reorderNoteDelivery cfg ins.1 out.seq t).1
  | _ => ins.1

theorem rxArrive_tbl {d : Datagram} {t : U64} {i : Nat} {pb : PeerBuf} {st : ReorderStats}
    (h : reorderGetPeer c d.src t = some ({ c with tbl := Function.update c.tbl i pb, stats := st }, i)) :
    (rxArrive c d t).ctx.tbl = Function.update c.tbl i (arrivedEntry c.cfg pb d t) := by
  unfold rxArrive arrivedEntry
  rw [h]
  simp only [Function.update_self, Function.update_idem]
  cases hres : (reorderInsert c.cfg (reorderAdaptOnArrival c.cfg pb d.seq t) d.seq t d).2 with
  | buffered => rfl
  | stale => rfl
  | duplicate => rfl
  | evicted out => rfl

theorem arrivedEntry_key (cfg : ReorderCfg) (pb : PeerBuf) (d : Datagram) (t : U64) :
    (arrivedEntry cfg pb d t).key = pb.key := by
  have hins : (reorderInsert cfg (reorderAdaptOnArrival cfg pb d.seq t) d.seq t d).1.key = pb.key := by
    rw [reorderInsert_key, (reorderAdaptOnArrival_same cfg pb d.seq t).key]
  unfold arrivedEntry
  dsimp only
  split
  · exact (reorderNoteDelivery_keeps cfg _ _ t).1.trans hins
  · exact hins

theorem arrivedEntry_ok {d : Datagram} (h : PeerOk cfg pb) (hkey : reorderKey d.src = pb.key) (t : U64) :
    PeerOk cfg (arrivedEntry cfg pb d t) := by
  have hsame := reorderAdaptOnArrival_same cfg pb d.seq t
  have hins := reorderInsert_ok (hsame.ok h) t (hkey.trans hsame.key.symm)
  unfold arrivedEntry
  dsimp only
  split
  · exact reorderNoteDelivery_ok hins _ t
  · exact hins

/-- **An arrival in ascending order at its entry**: nothing but the new sequence is added, and the window stays. -/
theorem arrivedEntry_ascending {base : U32} {l : List U32} {d : Datagram} (hok : PeerOk cfg pb) (hseen : Seen cfg l pb)
    (h : AscendsFrom base (l ++ [d.seq])) (hkey : reorderKey d.src = pb.key) (t : U64) :
    Seen cfg (l ++ [d.seq]) (arrivedEntry cfg pb d t) ∧ (arrivedEntry cfg pb d t).winMs = pb.winMs := by
  have hmono : ∀ a ∈ l, a ∈ l ++ [d.seq] := fun a ha => List.mem_append_left _ ha
  obtain ⟨hwin, hinit, hlast⟩ := reorderInsert_entry cfg pb d.seq t d
  obtain ⟨hheld, hout⟩ := reorderInsert_held cfg pb d.seq t d
  have hinsok := reorderInsert_ok hok t hkey
  have hins : Seen cfg (l ++ [d.seq]) (reorderInsert cfg pb d.seq t d).1 := by
    constructor
    · intro s hs
      rcases hheld s hs with hold | hnew
      · exact hmono _ (hseen.held s hold)
      · rw [hinsok.seq_eq s hs, hnew]
        exact List.mem_append_right _ (List.mem_singleton_self _)
    · rw [hinit, hlast]
      exact fun hi => hmono _ (hseen.cursor hi)
    · rw [hwin, reorderInsert_key]
      exact hseen.floor
  unfold arrivedEntry
  rw [adaptOnArrival_ascending hok hseen h t]
  dsimp only
  split
  · next out hev =>
    obtain ⟨hnkey, -, hnheld⟩ := reorderNoteDelivery_keeps cfg (reorderInsert cfg pb d.seq t d).1 out.seq t
    have hnlast : (reorderNoteDelivery cfg (reorderInsert cfg pb d.seq t d).1 out.seq t).1.lastSeq =
        ((reorderInsert cfg pb d.seq t d).1.advance out.seq).lastSeq :=
      (reorderPurgeStale_spec cfg (show ((reorderInsert cfg pb d.seq t d).1.advance out.seq).seqInit = true from
        rfl)).2.2.2.2.2
    have hnwin := (reorderNoteDelivery_sameWindow cfg (reorderInsert cfg pb d.seq t d).1 out.seq t).winMs
    refine ⟨⟨fun s hs => hins.held s (hnheld s hs), fun _ => ?_, ?_⟩, hnwin.trans hwin⟩
    · rw [hnlast]
      change (if !(reorderInsert cfg pb d.seq t d).1.seqInit ||
        decide (seqCmp out.seq (reorderInsert cfg pb d.seq t d).1.lastSeq > 0) then out.seq
        else (reorderInsert cfg pb d.seq t d).1.lastSeq) ∈ _
      split
      · exact hmono _ (hseen.held out (hout out hev))
      · next hstay =>
        have hi : (reorderInsert cfg pb d.seq t d).1.seqInit = true := by
          by_contra hno
          simp [hno] at hstay
        exact hins.cursor hi
    · rw [hnwin, hnkey]
      exact hins.floor
  · exact ⟨hins, hwin⟩

/-! ## The table -/

/-- The buffer is well formed, and the entries of source `k` have seen the sequences `l` only. -/
structure SourceSeen (k : U64) (l : List U32) (c : ReorderCtx) : Prop where
  ok : RxOk c
  entries : ∀ i, i < c.cfg.peers → (c.tbl i).key = k → PeerOk c.cfg (c.tbl i)
  seen : ∀ i, i < c.cfg.peers → (c.tbl i).key = k → Seen c.cfg l (c.tbl i)

def Narrows (k : U64) (c c' : ReorderCtx) : Prop :=
  ∀ i, i < c.cfg.peers → (c.tbl i).key = k → (c'.tbl i).key = k → (c'.tbl i).winMs ≤ (c.tbl i).winMs

section Table
variable {k : U64} {l : List U32} {base : U32} {d : Datagram} {t : U64}

theorem SourceSeen.of_tbl {c' : ReorderCtx} (h : SourceSeen k l c) (hok : RxOk c') (hcfg : c'.cfg = c.cfg)
    (htbl : ∀ i, (c'.tbl i).key = k → c'.tbl i = c.tbl i) : SourceSeen k l c' where
  ok := hok
  entries i hi hkey := by
    rw [hcfg] at hi ⊢
    have heq := htbl i hkey
    rw [heq] at hkey ⊢
    exact h.entries i hi hkey
  seen i hi hkey := by
    rw [hcfg] at hi ⊢
    have heq := htbl i hkey
    rw [heq] at hkey ⊢
    exact h.seen i hi hkey

theorem Narrows.of_tbl {c' : ReorderCtx} (htbl : ∀ i, (c'.tbl i).key = k → c'.tbl i = c.tbl i) : Narrows k c c' := by
  intro i _ _ hkey
  rw [htbl i hkey]
  exact BitVec.le_refl _

/-- **An arrival of the source.** -/
theorem arrive_own (h : SourceSeen k l c) (hd : reorderKey d.src = k) (hasc : AscendsFrom base (l ++ [d.seq])) :
    SourceSeen k (l ++ [d.seq]) (rxArrive c d t).ctx ∧ Narrows k c (rxArrive c d t).ctx ∧
      insertResultOf c d t ≠ some .stale ∧ insertResultOf c d t ≠ some .duplicate := by
  have hmono : ∀ a ∈ l, a ∈ l ++ [d.seq] := fun a ha => List.mem_append_left _ ha
  have hok := rxArrive_ok h.ok d t
  have hcfg := rxArrive_cfg c d t
  cases hget : reorderGetPeer c d.src t with
  | none =>
    have htbl : ∀ i, ((rxArrive c d t).ctx.tbl i).key = k → (rxArrive c d t).ctx.tbl i = c.tbl i := by
      intro i _
      unfold rxArrive
      rw [hget]
    have hkept := h.of_tbl hok hcfg htbl
    refine ⟨⟨hok, hkept.entries, fun i hi hkey => (hkept.seen i hi hkey).mono hmono⟩, .of_tbl htbl, ?_, ?_⟩
    · simp [insertResultOf, hget]
    · simp [insertResultOf, hget]
  | some r =>
    obtain ⟨c', i⟩ := r
    obtain ⟨hi, pb, st, rfl, hentry⟩ := reorderGetPeer_entry hget
    rw [hd] at hentry
    have hpb : pb.key = k ∧ PeerOk c.cfg pb ∧ Seen c.cfg l pb ∧ ((c.tbl i).key = k → pb.winMs = (c.tbl i).winMs) := by
      rcases hentry with ⟨hkey, rfl⟩ | ⟨hno, rfl⟩
      · have hseen := h.seen i hi hkey
        have hpeer := h.entries i hi hkey
        exact ⟨hkey, hpeer.of_held rfl rfl rfl rfl rfl, ⟨hseen.held, hseen.cursor, hseen.floor⟩, fun _ => rfl⟩
      · exact ⟨rfl, reorderFresh_ok c.cfg k t, reorderFresh_seen c.cfg k t l, fun hkey => absurd hkey (hno i hi)⟩
    obtain ⟨hkey, hpeer, hseen, hwin⟩ := hpb
    have hpeer' := arrivedEntry_ok hpeer (hd.trans hkey.symm) t
    obtain ⟨hseen', hwin'⟩ := arrivedEntry_ascending hpeer hseen hasc (hd.trans hkey.symm) t
    have htbl := rxArrive_tbl hget
    have hres := insert_ascending hseen hasc t d
    have hclass : insertResultOf c d t = some (reorderInsert c.cfg pb d.seq t d).2 := by
      rw [insertResultOf, hget, Option.map_some]
      simp only [Function.update_self]
      rw [adaptOnArrival_ascending hpeer hseen hasc t]
    have hentries : ∀ j, j < c.cfg.peers → ((rxArrive c d t).ctx.tbl j).key = k →
        PeerOk c.cfg ((rxArrive c d t).ctx.tbl j) ∧ Seen c.cfg (l ++ [d.seq]) ((rxArrive c d t).ctx.tbl j) := by
      intro j hj hjkey
      rw [htbl] at hjkey ⊢
      by_cases hji : j = i
      · subst hji
        rw [Function.update_self]
        exact ⟨hpeer', hseen'⟩
      · rw [Function.update_of_ne hji] at hjkey ⊢
        exact ⟨h.entries j hj hjkey, (h.seen j hj hjkey).mono hmono⟩
    refine ⟨⟨hok, ?_, ?_⟩, fun j hj hjkey _ => ?_, ?_, ?_⟩
    · rw [hcfg]
      exact fun j hj hjkey => (hentries j hj hjkey).1
    · rw [hcfg]
      exact fun j hj hjkey => (hentries j hj hjkey).2
    · rw [htbl]
      by_cases hji : j = i
      · subst hji
        rw [Function.update_self, hwin', hwin hjkey]
        exact BitVec.le_refl _
      · rw [Function.update_of_ne hji]
        exact BitVec.le_refl _
    · rw [hclass]
      exact fun heq => hres.1 (Option.some.inj heq)
    · rw [hclass]
      exact fun heq => hres.2 (Option.some.inj heq)

/-- An arrival of another source leaves the entries of source `k`, or takes one over. -/
theorem arrive_other (hd : reorderKey d.src ≠ k) {i : Nat} (hkey : ((rxArrive c d t).ctx.tbl i).key = k) :
    (rxArrive c d t).ctx.tbl i = c.tbl i := by
  cases hget : reorderGetPeer c d.src t with
  | none =>
    unfold rxArrive
    rw [hget]
  | some r =>
    obtain ⟨c', j⟩ := r
    obtain ⟨-, pb, st, rfl, hentry⟩ := reorderGetPeer_entry hget
    have htbl := rxArrive_tbl hget
    rw [htbl] at hkey ⊢
    by_cases hij : i = j
    · subst hij
      rw [Function.update_self, arrivedEntry_key] at hkey
      have hpb : pb.key = reorderKey d.src := by
        rcases hentry with ⟨hfound, rfl⟩ | ⟨-, rfl⟩
        · exact hfound
        · rfl
      exact absurd (hpb.symm.trans hkey) hd
    · exact Function.update_of_ne hij _ _

/-- **A release** takes the cursor to something seen, and only decays the window. -/
theorem release_seen (h : SourceSeen k l c) :
    SourceSeen k l (rxRelease c t).ctx ∧ Narrows k c (rxRelease c t).ctx := by
  have hstep := rxRelease_step c t
  have hok := hstep.ok h.ok
  generalize rxRelease c t = r at hstep hok ⊢
  cases hstep with
  | nothing => exact ⟨h, .of_tbl fun _ _ => rfl⟩
  | take i slot kind hi hkey hpick hslot hu =>
    have hpeer := h.ok.entries i hi hkey
    obtain ⟨hsame, -, hlast, -⟩ := reorderTakePeer_spec hpeer hslot hu t
    have hnote : (reorderNoteDelivery c.cfg ((c.tbl i).release slot) ((c.tbl i).slots slot).seq t).1.winMs =
        (c.tbl i).winMs := (reorderNoteDelivery_sameWindow _ _ _ _).winMs
    have hdecay : (c.tbl i).key = k → (reorderTakePeer c.cfg (c.tbl i) slot t).1.winMs ≤ (c.tbl i).winMs ∧
        (c.cfg.adapt = true → c.cfg.winMinMs ≤ (reorderTakePeer c.cfg (c.tbl i) slot t).1.winMs) := by
      intro hik
      have hfloor := (h.seen i hi hik).floor hkey
      rw [← hnote] at hfloor ⊢
      exact reorderDecay_winMs t hfloor
    refine ⟨⟨hok, fun j hj hjkey => ?_, fun j hj hjkey => ?_⟩, fun j hj hjkey _ => ?_⟩
    · by_cases hji : j = i
      · subst hji
        refine hok.entries j hj ?_
        simp only [Function.update_self]
        rwa [hsame]
      · simp only [Function.update_of_ne hji] at hjkey ⊢
        exact h.entries j hj hjkey
    · by_cases hji : j = i
      · subst hji
        simp only [Function.update_self] at hjkey ⊢
        rw [hsame] at hjkey
        have hseen := h.seen j hi hjkey
        refine ⟨fun s hs => hseen.held s ((mem_held_take hpeer hslot hu).mp hs).1, fun _ => ?_,
          fun _ => (hdecay hjkey).2⟩
        rw [hlast]
        exact hseen.held _ (Slots.mem_held_of hslot hu)
      · simp only [Function.update_of_ne hji] at hjkey ⊢
        exact h.seen j hj hjkey
    · by_cases hji : j = i
      · subst hji
        simp only [Function.update_self]
        exact (hdecay hjkey).1
      · simp only [Function.update_of_ne hji]
        exact BitVec.le_refl _

end Table

/-! ## Runs -/

def arrivalsOf (ops : List ReorderOp) : List Datagram :=
  ops.filterMap fun op => match op with
    | .arrive d _ => some d
    | _ => none

/-- The sequences among them that are of source `k`. -/
def seqsOf (k : U64) (ds : List Datagram) : List U32 := (ds.filter fun d => reorderKey d.src = k).map Datagram.seq

theorem arrivalsOf_append (ops ops' : List ReorderOp) : arrivalsOf (ops ++ ops') = arrivalsOf ops ++ arrivalsOf ops' :=
  List.filterMap_append

theorem seqsOf_append (k : U64) (ds ds' : List Datagram) : seqsOf k (ds ++ ds') = seqsOf k ds ++ seqsOf k ds' := by
  rw [seqsOf, List.filter_append, List.map_append]
  rfl

/-- The window of source `k` only narrows during the life of its entry, and each of its arrivals is taken in. -/
structure LossOnly (cfg : ReorderCfg) (k : U64) (ops : List ReorderOp) : Prop where
  narrows : ∀ i m n, i < cfg.peers → m ≤ n → n ≤ ops.length →
    (∀ p, m ≤ p → p ≤ n → ((stateAt reorderStep (reorderInit cfg) ops p).tbl i).key = k) →
    ((stateAt reorderStep (reorderInit cfg) ops n).tbl i).winMs ≤ ((stateAt reorderStep (reorderInit cfg) ops m).tbl i).winMs
  accepted : ∀ n d t, ops[n]? = some (.arrive d t) → reorderKey d.src = k →
    insertResultOf (stateAt reorderStep (reorderInit cfg) ops n) d t ≠ some .stale ∧
      insertResultOf (stateAt reorderStep (reorderInit cfg) ops n) d t ≠ some .duplicate

section Run
variable {k : U64} {l : List U32} {base : U32}

theorem reorderInit_sourceSeen (cfg : ReorderCfg) (k : U64) : SourceSeen k [] (reorderInit cfg) where
  ok := reorderInit_ok cfg
  entries _ _ _ := zero_ok cfg
  seen _ _ _ := zero_seen cfg []

/-- **One operation.** -/
theorem reorderStep_seen (h : SourceSeen k l c) (op : ReorderOp)
    (hasc : AscendsFrom base (l ++ seqsOf k (arrivalsOf [op]))) :
    SourceSeen k (l ++ seqsOf k (arrivalsOf [op])) (reorderStep c op).1 ∧ Narrows k c (reorderStep c op).1 ∧
      ∀ d t, op = .arrive d t → reorderKey d.src = k →
        insertResultOf c d t ≠ some .stale ∧ insertResultOf c d t ≠ some .duplicate := by
  have hok := reorderStep_ok h.ok op
  have hcfg := reorderStep_cfg (c := c) op
  cases op with
  | arrive d t =>
    by_cases hd : reorderKey d.src = k
    · have hseq : seqsOf k (arrivalsOf [.arrive d t]) = [d.seq] := by simp [arrivalsOf, seqsOf, hd]
      rw [hseq] at hasc ⊢
      obtain ⟨hseen, hnarrows, hstale, hdup⟩ := arrive_own h hd hasc (t := t)
      refine ⟨hseen, hnarrows, ?_⟩
      rintro _ _ ⟨⟩ -
      exact ⟨hstale, hdup⟩
    · have hseq : seqsOf k (arrivalsOf [.arrive d t]) = [] := by simp [arrivalsOf, seqsOf, hd]
      rw [hseq, List.append_nil]
      refine ⟨h.of_tbl hok hcfg fun i => arrive_other hd, .of_tbl fun i => arrive_other hd, ?_⟩
      rintro _ _ ⟨⟩ hk
      exact absurd hk hd
  | release t =>
    rw [show seqsOf k (arrivalsOf [.release t]) = [] from rfl, List.append_nil]
    obtain ⟨hseen, hnarrows⟩ := release_seen h (t := t)
    exact ⟨hseen, hnarrows, fun _ _ hop => by cases hop⟩
  | nextReady t =>
    rw [show seqsOf k (arrivalsOf [.nextReady t]) = [] from rfl, List.append_nil]
    have htbl : ∀ i, ((reorderStep c (.nextReady t)).1.tbl i).key = k → (reorderStep c (.nextReady t)).1.tbl i = c.tbl i := by
      intro i _
      obtain ⟨rr, hrr⟩ := reorderNextReady_asked c t
      rw [reorderStep, hrr]
    exact ⟨h.of_tbl hok hcfg htbl, .of_tbl htbl, fun _ _ hop => by cases hop⟩
  | reset =>
    rw [show seqsOf k (arrivalsOf [.reset]) = [] from rfl, List.append_nil]
    refine ⟨⟨hok, fun i _ _ => zero_ok c.cfg, fun i _ _ => zero_seen c.cfg l⟩, fun i _ _ _ => ?_, fun _ _ hop => by cases hop⟩
    exact BitVec.le_def.mpr (Nat.zero_le _)
  | count st =>
    rw [show seqsOf k (arrivalsOf [.count st]) = [] from rfl, List.append_nil]
    exact ⟨h.of_tbl hok hcfg fun _ _ => rfl, .of_tbl fun _ _ => rfl, fun _ _ hop => by cases hop⟩

theorem AscendsFrom.left {l' : List U32} (h : AscendsFrom base (l ++ l')) : AscendsFrom base l :=
  ⟨(List.pairwise_append.mp h.ascends).1, fun a ha => h.arc a (List.mem_append_left _ ha)⟩

variable {ops : List ReorderOp}

theorem arrivalsOf_take_succ {n : Nat} {op : ReorderOp} (hop : ops[n]? = some op) :
    seqsOf k (arrivalsOf (ops.take (n + 1))) = seqsOf k (arrivalsOf (ops.take n)) ++ seqsOf k (arrivalsOf [op]) := by
  rw [List.take_add_one, hop, arrivalsOf_append, seqsOf_append]
  rfl

theorem ascends_take_succ (hasc : AscendsFrom base (seqsOf k (arrivalsOf ops))) {n : Nat} {op : ReorderOp}
    (hop : ops[n]? = some op) :
    AscendsFrom base (seqsOf k (arrivalsOf (ops.take n)) ++ seqsOf k (arrivalsOf [op])) := by
  rw [← arrivalsOf_take_succ hop]
  rw [← List.take_append_drop (n + 1) ops, arrivalsOf_append, seqsOf_append] at hasc
  exact hasc.left

/-- **A run**: every position sees no more than arrived before it. -/
theorem stateAt_seen (hasc : AscendsFrom base (seqsOf k (arrivalsOf ops))) {n : Nat} (hn : n ≤ ops.length) :
    SourceSeen k (seqsOf k (arrivalsOf (ops.take n))) (stateAt reorderStep (reorderInit cfg) ops n) := by
  induction n with
  | zero => exact reorderInit_sourceSeen cfg k
  | succ n ih =>
    have hop := List.getElem?_eq_getElem (show n < ops.length by omega)
    rw [stateAt_succ _ _ hop, arrivalsOf_take_succ hop]
    exact (reorderStep_seen (ih (by omega)) _ (ascends_take_succ hasc hop)).1

theorem stateAt_step (cfg : ReorderCfg) (hasc : AscendsFrom base (seqsOf k (arrivalsOf ops))) {n : Nat} {op : ReorderOp}
    (hop : ops[n]? = some op) :
    Narrows k (stateAt reorderStep (reorderInit cfg) ops n) (stateAt reorderStep (reorderInit cfg) ops (n + 1)) ∧
      ∀ d t, op = .arrive d t → reorderKey d.src = k →
        insertResultOf (stateAt reorderStep (reorderInit cfg) ops n) d t ≠ some .stale ∧
          insertResultOf (stateAt reorderStep (reorderInit cfg) ops n) d t ≠ some .duplicate := by
  have hlt := (List.getElem?_eq_some_iff.mp hop).1
  rw [stateAt_succ _ _ hop]
  exact (reorderStep_seen (stateAt_seen hasc (Nat.le_of_lt hlt)) op (ascends_take_succ hasc hop)).2

theorem lossOnly_of_ascends (hasc : AscendsFrom base (seqsOf k (arrivalsOf ops))) : LossOnly cfg k ops where
  narrows i m n hi hmn hn hlife := by
    induction n, hmn using Nat.le_induction with
    | base => exact BitVec.le_refl _
    | succ n hmn ih =>
      have hprev := ih (by omega) fun p h1 h2 => hlife p h1 (by omega)
      have hop := List.getElem?_eq_getElem (show n < ops.length by omega)
      have hcfg : (stateAt reorderStep (reorderInit cfg) ops n).cfg = cfg := (reorder_reachable_ok cfg (ops.take n)).1
      have hstep := (stateAt_step cfg hasc hop).1 i (by rwa [hcfg]) (hlife n hmn (by omega))
        (hlife (n + 1) (by omega) (Nat.le_refl _))
      exact BitVec.le_trans hstep hprev
  accepted n d t hop hd := (stateAt_step cfg hasc hop).2 d t rfl hd

end Run

/-! ## The receive hooks -/

/-- What one receive call does to the buffer. -/
theorem recvCall_ops (s : RxState) (call : RecvCall) :
    ∃ ops, (hookedWSARecvFrom s call).1.rx = final reorderStep s.rx ops ∧
      arrivalsOf ops = ((hookedWSARecvFrom s call).2.taken.map Taken.pkt).filter fun d => !isUnsequenced d := by
  have hkept : Kept (fun _ _ => True) fun c T _ => ∃ ops, c = final reorderStep s.rx ops ∧
      arrivalsOf ops = T.filter fun d => !isUnsequenced d := by
    constructor
    · rintro _ T H st - - - - ⟨ops, rfl, harr⟩
      exact ⟨ops ++ [.count st], by rw [final_concat]; rfl, by
        rw [arrivalsOf_append, harr]
        exact List.append_nil _⟩
    · rintro c T H d - hun ⟨ops, hc, harr⟩
      exact ⟨ops, hc, by rw [harr, List.filter_append]; simp [hun]⟩
    · rintro _ T H d t - hun - ⟨ops, rfl, harr⟩
      exact ⟨ops ++ [.arrive d t], by rw [final_concat]; rfl, by
        rw [arrivalsOf_append, harr, List.filter_append]
        simp [arrivalsOf, hun]⟩
    · rintro _ T H t ⟨ops, rfl, harr⟩
      exact ⟨ops ++ [.release t], by rw [final_concat]; rfl, by
        rw [arrivalsOf_append, harr]
        exact List.append_nil _⟩
  have hcall := hookedWSARecvFrom_inv hkept s call (fun _ _ => trivial) (T := []) (H := []) ⟨[], rfl, rfl⟩
  simpa using hcall

/-- **Every run of receive calls is a run of the buffer**, call by call. -/
theorem recvRun_ops (s : RxState) (calls : List RecvCall) :
    ∃ blocks : List (List ReorderOp), blocks.length = calls.length ∧
      (∀ n, (stateAt hookedWSARecvFrom s calls n).rx = final reorderStep s.rx (blocks.take n).flatten) ∧
      arrivalsOf blocks.flatten = (takenOf (outputs hookedWSARecvFrom s calls)).filter fun d => !isUnsequenced d := by
  induction calls generalizing s with
  | nil => exact ⟨[], rfl, fun n => by simp [stateAt], rfl⟩
  | cons call calls ih =>
    obtain ⟨ops, hrx, harr⟩ := recvCall_ops s call
    obtain ⟨blocks, hlen, hstates, hall⟩ := ih (hookedWSARecvFrom s call).1
    refine ⟨ops :: blocks, by simp [hlen], fun n => ?_, ?_⟩
    · cases n with
      | zero => rfl
      | succ n =>
        rw [List.take_succ_cons, List.flatten_cons, final_append, ← hrx]
        exact hstates n
    · rw [List.flatten_cons, arrivalsOf_append, harr, hall]
      simp [takenOf, outputs]

/-- **Pure loss never widens the hold window.** While the sequences that arrive from a source ascend strictly, over
less than half the circle, the window of its entry never grows during the life of that entry, and none of its
datagrams is stale or a duplicate: whatever the configuration, the clock, and the other sources do, and through the
hooks with whatever drain. -/
theorem reorder_pureLoss (cfg : ReorderCfg) (k : U64) (base : U32) :
    (∀ ops, AscendsFrom base (seqsOf k (arrivalsOf ops)) → LossOnly cfg k ops) ∧
      ∀ (drain : Nat) (calls : List RecvCall),
        AscendsFrom base (seqsOf k ((takenOf (outputs hookedWSARecvFrom (rxInit cfg drain) calls)).filter
          fun d => !isUnsequenced d)) →
        ∃ blocks : List (List ReorderOp), blocks.length = calls.length ∧
          (∀ n, (stateAt hookedWSARecvFrom (rxInit cfg drain) calls n).rx =
            final reorderStep (reorderInit cfg) (blocks.take n).flatten) ∧
          arrivalsOf blocks.flatten = (takenOf (outputs hookedWSARecvFrom (rxInit cfg drain) calls)).filter
            (fun d => !isUnsequenced d) ∧
          LossOnly cfg k blocks.flatten := by
  refine ⟨fun ops hasc => lossOnly_of_ascends hasc, fun drain calls hasc => ?_⟩
  obtain ⟨blocks, hlen, hstates, harr⟩ := recvRun_ops (rxInit cfg drain) calls
  rw [← harr] at hasc
  exact ⟨blocks, hlen, hstates, harr, lossOnly_of_ascends hasc⟩

/-- Of the sequences 10 to 15 of one source the odd ones are lost. -/
def lossyCalls : List RecvCall :=
  [⟨7, 0, [(.datagram (sampleFrom samplePeer 10), 0)], 0⟩, ⟨7, 1, [(.datagram (sampleFrom samplePeer 12), 1)], 1⟩,
    ⟨7, 70, [(.datagram (sampleFrom samplePeer 14), 70)], 71⟩, ⟨7, 700, [], 700⟩]

theorem reorder_pureLoss_everySecond :
    seqsOf (reorderKey samplePeer) ((takenOf (outputs hookedWSARecvFrom (rxInit .default kReorderDrainCapDef)
        lossyCalls)).filter fun d => !isUnsequenced d) = [10, 12, 14] ∧
      ∃ blocks : List (List ReorderOp), LossOnly .default (reorderKey samplePeer) blocks.flatten ∧
        seqsOf (reorderKey samplePeer) (arrivalsOf blocks.flatten) = [10, 12, 14] := by
  have hseqs : seqsOf (reorderKey samplePeer) ((takenOf (outputs hookedWSARecvFrom (rxInit .default kReorderDrainCapDef)
      lossyCalls)).filter fun d => !isUnsequenced d) = [10, 12, 14] := by decide +kernel
  have hasc : AscendsFrom 10 [10, 12, 14] := ⟨by decide, by simp [Serial.elapsed]⟩
  obtain ⟨blocks, -, -, harr, hloss⟩ := (reorder_pureLoss .default (reorderKey samplePeer) 10).2 kReorderDrainCapDef
    lossyCalls (hseqs.symm ▸ hasc)
  exact ⟨hseqs, blocks, hloss, harr ▸ hseqs⟩

end BzNet
