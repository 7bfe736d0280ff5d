import BzNet.Reorder.Conservation

/-!
# A stream that arrives in order

One IPv4 source whose datagrams arrive with sequences that never decrease and never skip, among any others.

* `Carries` : an entry holds the consecutive packets `pend`, the first right behind its cursor;
  `Carries.take` releases them in order, `Carries.hold` appends the next one;
* `Pends` : what the buffer holds of the source, `Pends.overwrite` when other sources come and go;
* `reorder_inOrder_stream` : while no datagram repeats a sequence still held, what is handed over is what
  arrived, in order.
-/

namespace BzNet

/-! ## The packets of one entry -/

/-- The cursor, if there is one, and the sequences of `pend`. -/
def PeerBuf.line (pb : PeerBuf) (pend : List Datagram) : List U32 :=
  (if pb.seqInit then [pb.lastSeq] else []) ++ pend.map Datagram.seq

/-- The entry holds the packets `pend`, whose sequences run on from the cursor without a gap, up to `last`. -/
structure Carries (cfg : ReorderCfg) (pb : PeerBuf) (pend : List Datagram) (last : Option U32) : Prop where
  held : List.Perm ((pb.held cfg).map ReorderSlot.pkt) pend
  chain : List.IsChain (fun a b => b = seqNext a) (pb.line pend)
  ends : ∀ q ∈ (pb.line pend).getLast?, last = some q

section Entry
variable {cfg : ReorderCfg} {pb : PeerBuf} {pend : List Datagram} {last : Option U32}

theorem held_length_le (cfg : ReorderCfg) (pb : PeerBuf) : (pb.held cfg).length ≤ cfg.depth := by
  have := List.length_filter_le ReorderSlot.used ((List.range cfg.depth).map pb.slots)
  simpa [PeerBuf.held, Slots.held] using this

theorem Carries.length_le (h : Carries cfg pb pend last) : pend.length ≤ kReorderSlotCap := by
  rw [← h.held.length_eq, List.length_map]
  exact (held_length_le cfg pb).trans cfg.depth_le

theorem SameButWindow.carries {pb' : PeerBuf} (hs : SameButWindow pb' pb) (h : Carries cfg pb pend last) :
    Carries cfg pb' pend last where
  held := by
    rw [hs.held]
    exact h.held
  chain := by
    rw [PeerBuf.line, hs.seqInit, hs.lastSeq]
    exact h.chain
  ends := by
    rw [PeerBuf.line, hs.seqInit, hs.lastSeq]
    exact h.ends

theorem Carries.fresh (cfg : ReorderCfg) (key now : U64) (last : Option U32) :
    Carries cfg (reorderFresh cfg key now) [] last where
  held := by simp
  chain := List.isChain_nil
  ends := nofun

theorem Carries.mem_held (h : Carries cfg pb pend last) (hok : PeerOk cfg pb) {d : Datagram} (hd : d ∈ pend) :
    ∃ s ∈ pb.held cfg, s.pkt = d ∧ s.seq = d.seq := by
  obtain ⟨s, hs, rfl⟩ := List.mem_map.mp (h.held.mem_iff.mpr hd)
  exact ⟨s, hs, rfl, hok.seq_eq s hs⟩

theorem Carries.next_ahead (h : Carries cfg pb pend last) {q : U32} (hlast : last = some q) (hinit : pb.seqInit = true) :
    0 < seqCmp (seqNext q) pb.lastSeq := by
  have hline : pb.line pend = pb.lastSeq :: pend.map Datagram.seq := by simp [PeerBuf.line, hinit]
  have hchain := h.chain
  have hends := h.ends
  rw [hline] at hchain hends
  have hq := hends _ (Option.mem_def.mpr (Serial.chain_getLast? hchain))
  rw [hlast, Option.some_inj] at hq
  have hlen := h.length_le
  rw [kReorderSlotCap] at hlen
  have hstep : seqNext q = pb.lastSeq + BitVec.ofNat 32 (pend.length + 1) := by
    rw [seqNext, hq, List.length_map, BitVec.ofNat_add, add_assoc]
    rfl
  have hel : Serial.elapsed (seqNext q) pb.lastSeq = pend.length + 1 := by
    rw [hstep]
    exact Serial.elapsed_add_ofNat (by omega)
  rw [seqCmp, Serial.cmp_pos_iff, hel]
  omega

theorem Carries.spans_head {d : Datagram} {rest : List Datagram} (h : Carries cfg pb (d :: rest) last)
    (hok : PeerOk cfg pb) (hinit : pb.seqInit = false) : pb.SpansFrom cfg d.seq := by
  have hline : pb.line (d :: rest) = d.seq :: rest.map Datagram.seq := by simp [PeerBuf.line, hinit]
  have hchain := h.chain
  rw [hline] at hchain
  have hlen := h.length_le
  rw [List.length_cons, kReorderSlotCap] at hlen
  intro s hs
  have hmem : s.seq ∈ d.seq :: rest.map Datagram.seq := by
    rw [← List.map_cons (f := Datagram.seq), hok.seq_eq s hs]
    exact List.mem_map_of_mem (h.held.mem_iff.mp (List.mem_map_of_mem hs))
  have hspan := Serial.elapsed_of_mem_chain hchain (by rw [List.length_map]; omega) hmem
  rw [List.length_map] at hspan
  omega

theorem Carries.head_next {d : Datagram} {rest : List Datagram} (h : Carries cfg pb (d :: rest) last)
    (hinit : pb.seqInit = true) : d.seq = seqNext pb.lastSeq := by
  have hline : pb.line (d :: rest) = pb.lastSeq :: d.seq :: rest.map Datagram.seq := by simp [PeerBuf.line, hinit]
  have hchain := h.chain
  rw [hline] at hchain
  exact (List.isChain_cons_cons.mp hchain).1

/-- The first packet in line is what a release takes. -/
theorem Carries.pick_head (h : Carries cfg pb pend last) (hok : PeerOk cfg pb) {now : U64} {slot : Nat}
    {kind : DeliverKind} (hpick : reorderPick cfg pb now = some (slot, kind)) :
    ∃ rest, pend = (pb.slots slot).pkt :: rest ∧ pb.overtaken cfg slot = [] := by
  obtain ⟨hslot, hu, hwhy⟩ := reorderPick_cases hpick
  have hheld : pb.slots slot ∈ pb.held cfg := Slots.mem_held_of hslot hu
  cases pend with
  | nil =>
    have hnil := List.map_eq_nil_iff.mp h.held.eq_nil
    rw [hnil] at hheld
    cases hheld
  | cons d rest =>
    obtain ⟨s, hs, hsd, hseq⟩ := h.mem_held hok List.mem_cons_self
    have hhead : (pb.slots slot).seq = d.seq → (pb.slots slot).pkt = d := fun heq => by
      rw [← hsd, hok.eq_of_seq hheld hs (heq.trans hseq.symm)]
    rcases hwhy with ⟨-, hinit, hfirst⟩ | ⟨-, hinit, hnext⟩ | ⟨-, hinit, hno, -⟩
    · -- no cursor yet: the first packet in line is the serial minimum of a short arc
      have hspan := h.spans_head hok hinit
      have hle := reorderPickFirst_least hfirst hspan s hs
      rw [seqCmp, Serial.cmp_of_arc (hspan s hs) (hspan _ hheld), hseq, Serial.elapsed_self] at hle
      have hzero := (Serial.elapsed_eq_zero_iff _ _).mp (show Serial.elapsed (pb.slots slot).seq d.seq = 0 by omega)
      exact ⟨rest, by rw [hhead hzero], overtaken_first hok hfirst hspan⟩
    · exact ⟨rest, by rw [hhead (hnext.trans (h.head_next hinit).symm)], overtaken_inOrder hok hslot hu hinit hnext⟩
    · exact absurd (hseq.trans (h.head_next hinit)) (hno s hs)

/-- **A release hands over the first packet in line**, and the rest stays in line. -/
theorem Carries.take (h : Carries cfg pb pend last) (hok : PeerOk cfg pb) {now : U64} {slot : Nat}
    {kind : DeliverKind} (hpick : reorderPick cfg pb now = some (slot, kind)) :
    ∃ rest, pend = (pb.slots slot).pkt :: rest ∧ Carries cfg (reorderTakePeer cfg pb slot now).1 rest last := by
  obtain ⟨hslot, hu, -⟩ := reorderPick_cases hpick
  obtain ⟨rest, hpend, hover⟩ := h.pick_head hok hpick
  obtain ⟨-, hinit, hlast, -⟩ := reorderTakePeer_spec hok hslot hu now
  have hseq : (pb.slots slot).seq = (pb.slots slot).pkt.seq := hok.seq_eq _ (Slots.mem_held_of hslot hu)
  have hline : (reorderTakePeer cfg pb slot now).1.line rest = pend.map Datagram.seq := by
    rw [PeerBuf.line, hinit, hlast, if_pos rfl, hseq, hpend]
    rfl
  have hne : pend.map Datagram.seq ≠ [] := by
    rw [hpend]
    exact List.cons_ne_nil _ _
  refine ⟨rest, hpend, ?_, ?_, ?_⟩
  · have hperm := (reorderTakePeer_held hok hslot hu now).map ReorderSlot.pkt
    rw [hover, List.append_nil, List.map_cons] at hperm
    exact ((hperm.symm.trans h.held).trans (List.Perm.of_eq hpend)).cons_inv
  · rw [hline]
    exact h.chain.right_of_append
  · rw [hline]
    intro q hq
    refine h.ends q ?_
    rw [PeerBuf.line, List.getLast?_append_of_ne_nil _ hne]
    exact hq

/-- **The next packet joins the end of the line.** -/
theorem Carries.hold (h : Carries cfg pb pend last) {d : Datagram} {t : U64} {j : Nat} (hj : j < cfg.depth)
    (hfree : (pb.slots j).used = false) (hnext : ∀ q ∈ (pb.line pend).getLast?, d.seq = seqNext q) :
    Carries cfg (pb.fill j ⟨t, d.seq, true, d⟩) (pend ++ [d]) (some d.seq) := by
  have hline : (pb.fill j ⟨t, d.seq, true, d⟩).line (pend ++ [d]) = pb.line pend ++ [d.seq] := by
    simp [PeerBuf.line]
  refine ⟨?_, ?_, ?_⟩
  · refine ((fill_held hj hfree).map ReorderSlot.pkt).trans ?_
    rw [List.map_cons]
    exact (h.held.cons d).trans (List.perm_append_singleton d pend).symm
  · rw [hline]
    refine h.chain.append (List.isChain_singleton _) fun q hq b hb => ?_
    rw [List.head?_cons, Option.mem_some_iff] at hb
    rw [← hb]
    exact hnext q hq
  · rw [hline, List.getLast?_concat]
    exact fun q hq => hq

/-- The end of the line is held, or it is the cursor. -/
theorem line_ends {q : U32} (h : q ∈ (pb.line pend).getLast?) :
    (pend = [] ∧ pb.seqInit = true ∧ q = pb.lastSeq) ∨ ∃ d ∈ pend, d.seq = q := by
  rcases List.eq_nil_or_concat pend with rfl | ⟨front, d, rfl⟩
  · left
    cases hinit : pb.seqInit with
    | false => simp [PeerBuf.line, hinit] at h
    | true =>
      rw [PeerBuf.line, hinit] at h
      exact ⟨rfl, rfl, (Option.some.inj h).symm⟩
  · right
    rw [PeerBuf.line, List.concat_eq_append, List.map_append, ← List.append_assoc, List.map_singleton,
      List.getLast?_concat] at h
    exact ⟨d, by simp, Option.some.inj h⟩

theorem Carries.ends_cursor (h : Carries cfg pb pend last) (hok : PeerOk cfg pb) {seq : U32}
    (hnew : ∀ s ∈ pb.held cfg, s.seq ≠ seq) (hends : seq ∈ (pb.line pend).getLast?) :
    pend = [] ∧ pb.seqInit = true ∧ seq = pb.lastSeq := by
  rcases line_ends hends with hcursor | ⟨e, he, heq⟩
  · exact hcursor
  · obtain ⟨s, hs, -, hseq⟩ := h.mem_held hok he
    exact absurd (hseq.trans heq) (hnew s hs)

theorem line_getLast_of_init (hinit : pb.seqInit = true) : ∃ q, q ∈ (pb.line pend).getLast? := by
  rw [PeerBuf.line, hinit]
  exact ⟨_, List.getLast?_eq_some_getLast (List.cons_ne_nil pb.lastSeq (pend.map Datagram.seq))⟩

end Entry

/-! ## What the buffer holds of one source -/

/-- The buffer holds the packets `pend` of key `k`, in line up to `last`. -/
structure Pends (c : ReorderCtx) (k : U64) (pend : List Datagram) (last : Option U32) : Prop where
  absent : (∀ i, i < c.cfg.peers → (c.tbl i).key ≠ k) → pend = []
  entry : ∀ i, i < c.cfg.peers → (c.tbl i).key = k → Carries c.cfg (c.tbl i) pend last

section Table
variable {c : ReorderCtx} {k : U64} {pend : List Datagram} {last : Option U32} {i : Nat} {pb : PeerBuf} {lost : Nat}

theorem Enters.carries (h : Enters c k i pb lost) (hi : i < c.cfg.peers) (hp : Pends c k pend last) :
    Carries c.cfg pb pend last := by
  cases h with
  | found hkey hs => exact hs.carries (hp.entry i hi hkey)
  | created now hno _ hs =>
    rw [hp.absent hno]
    exact hs.carries (.fresh c.cfg k now last)
  | reclaimed now hfull _ hs =>
    rw [hp.absent fun j hj => (hfull j hj).1]
    exact hs.carries (.fresh c.cfg k now last)

theorem Pends.put (hok : RxOk c) (hk : k ≠ 0) (hi : i < c.cfg.peers) (hent : Enters c k i pb lost) {pb' : PeerBuf}
    (hkey : pb'.key = k) (h : Carries c.cfg pb' pend last) {rr : Nat} {st : ReorderStats} :
    Pends { c with tbl := Function.update c.tbl i pb', rr := rr, stats := st } k pend last where
  absent hno := absurd (by simpa using hkey) (hno i hi)
  entry j hj hjk := by
    by_cases hji : j = i
    · subst hji
      simpa using h
    · simp only [Function.update_of_ne hji] at hjk
      exact absurd hjk (hent.others hok hi hk j hj hji)

/-- Another source's entry is replaced, or this one's is lost to it. -/
theorem Pends.overwrite (hok : RxOk c) (hk : k ≠ 0) (hi : i < c.cfg.peers) (h : Pends c k pend last) {pb' : PeerBuf}
    (hkey : pb'.key ≠ k) (rr : Nat) (st : ReorderStats) :
    Pends { c with tbl := Function.update c.tbl i pb', rr := rr, stats := st } k
      (if (c.tbl i).key = k then [] else pend) last where
  absent hno := by
    split
    · rfl
    · next hik =>
      refine h.absent fun j hj => ?_
      by_cases hji : j = i
      · exact hji ▸ hik
      · have := hno j hj
        simpa only [Function.update_of_ne hji] using this
  entry j hj hjk := by
    by_cases hji : j = i
    · subst hji
      simp only [Function.update_self] at hjk
      exact absurd hjk hkey
    · simp only [Function.update_of_ne hji] at hjk ⊢
      have hik : (c.tbl i).key ≠ k := fun hik => hji (hok.distinct j i hj hi (hjk.trans hik.symm) fun h0 => hk (hjk ▸ h0))
      rw [if_neg hik]
      exact h.entry j hj hjk

theorem Pends.reclaimed (hok : RxOk c) (hk : k ≠ 0) (hi : i < c.cfg.peers) (h : Pends c k pend last) {k' : U64}
    (hent : Enters c k' i pb lost) (hkk : k' ≠ k) (hik : (c.tbl i).key = k) : lost = pend.length := by
  cases hent with
  | found hkey _ => exact absurd (hkey.symm.trans hik) hkk
  | created now _ hz _ => exact absurd (hik.symm.trans hz) hk
  | reclaimed now _ _ _ =>
    rw [(hok.entries i hi (hik ▸ hk)).filled_eq, ← (h.entry i hi hik).held.length_eq, List.length_map]

end Table

/-! ## The stream -/

/-- Sequenced datagrams whose sequences never decrease and never skip. -/
structure InOrderStream (l : List Datagram) : Prop where
  sequenced : ∀ d ∈ l, isUnsequenced d = false
  steps : List.IsChain (fun a b => b.seq = a.seq ∨ b.seq = seqNext a.seq) l

/-- The buffer that `d` meets still holds a packet of its source with its sequence. -/
def RepeatsHeld (c : ReorderCtx) (d : Datagram) : Prop :=
  ∃ i, i < c.cfg.peers ∧ (c.tbl i).key = reorderKey d.src ∧ ∃ s ∈ (c.tbl i).held c.cfg, s.seq = d.seq

instance (c : ReorderCtx) (d : Datagram) : Decidable (RepeatsHeld c d) :=
  inferInstanceAs (Decidable (∃ i, i < c.cfg.peers ∧ (c.tbl i).key = reorderKey d.src ∧
    ∃ s ∈ (c.tbl i).held c.cfg, s.seq = d.seq))

def ofSource (p : SockAddr) (l : List Datagram) : List Datagram := l.filter (·.src = p)

/-- Source `p` has sent `A`, of which `H` is handed over: what is missing is held, in order, or was lost with
an entry reclaimed. -/
structure InOrder (p : SockAddr) (c : ReorderCtx) (A H : List Datagram) : Prop where
  ok : RxOk c
  order : ∃ pend, Pends c (reorderKey p) pend (A.getLast?.map Datagram.seq) ∧ List.Sublist (H ++ pend) A ∧
    (c.stats.droppedReclaim = 0 → H ++ pend = A)

section Stream
variable {p : SockAddr} {c : ReorderCtx} {A H : List Datagram} {d : Datagram}

theorem Enters.fresh_seq {i : Nat} {pb : PeerBuf} {lost : Nat} (h : Enters c (reorderKey d.src) i pb lost)
    (hi : i < c.cfg.peers) (hrep : ¬ RepeatsHeld c d) : ∀ s ∈ pb.held c.cfg, s.seq ≠ d.seq := by
  intro s hs heq
  obtain ⟨hkey, hold⟩ := h.held_before hs
  exact hrep ⟨i, hi, hkey, s, hold, heq⟩

theorem InOrderStream.of_append {l₁ l₂ : List Datagram} (h : InOrderStream (l₁ ++ l₂)) : InOrderStream l₁ :=
  ⟨fun d hd => h.sequenced d (List.mem_append_left _ hd), h.steps.left_of_append⟩

theorem InOrderStream.step (h : InOrderStream (A ++ [d])) {q : U32} (hq : A.getLast?.map Datagram.seq = some q) :
    d.seq = q ∨ d.seq = seqNext q := by
  obtain ⟨e, he, rfl⟩ := Option.map_eq_some_iff.mp hq
  exact (List.isChain_append.mp h.steps).2.2 e he d rfl

section Next
variable {cfg : ReorderCfg} {pb : PeerBuf} {pend : List Datagram}

/-- The next datagram of the stream, when nothing held has its sequence and it is not ahead of the cursor: it repeats
the cursor, and nothing is pending. -/
theorem Carries.repeats_cursor (h : Carries cfg pb pend (A.getLast?.map Datagram.seq)) (hok : PeerOk cfg pb)
    (hA : InOrderStream (A ++ [d])) (hnew : ∀ s ∈ pb.held cfg, s.seq ≠ d.seq) (hinit : pb.seqInit = true)
    (hle : seqCmp d.seq pb.lastSeq ≤ 0) : pend = [] ∧ A.getLast?.map Datagram.seq = some d.seq := by
  obtain ⟨q, hq⟩ := @line_getLast_of_init pb pend hinit
  have hAq := h.ends q hq
  rcases hA.step hAq with hdq | hdq
  · exact ⟨(h.ends_cursor hok hnew (hdq ▸ hq)).1, hdq ▸ hAq⟩
  · have hahead := h.next_ahead hAq hinit
    rw [← hdq] at hahead
    omega

/-- The next datagram of the stream, when nothing held has its sequence and it is ahead of the cursor: it joins the
end of the line. -/
theorem Carries.joins_end (h : Carries cfg pb pend (A.getLast?.map Datagram.seq)) (hok : PeerOk cfg pb)
    (hA : InOrderStream (A ++ [d])) (hnew : ∀ s ∈ pb.held cfg, s.seq ≠ d.seq)
    (hahead : pb.seqInit = true → 0 < seqCmp d.seq pb.lastSeq) :
    ∀ q ∈ (pb.line pend).getLast?, d.seq = seqNext q := by
  intro q hq
  refine (hA.step (h.ends q hq)).resolve_left fun hdq => ?_
  obtain ⟨-, hinit, hlast⟩ := h.ends_cursor hok hnew (hdq ▸ hq)
  have hpos := hahead hinit
  rw [hlast, seqCmp, Serial.cmp_self] at hpos
  omega

end Next

/-- **An arrival of the source.** -/
theorem InOrder.arrive (h : InOrder p c A H) (hp : reorderKey p ≠ 0) (hsrc : d.src = p) (hA : InOrderStream (A ++ [d]))
    (hrep : ¬ RepeatsHeld c d) {t : U64} {a : Arrived} (hstep : ArriveStep c d t a) :
    InOrder p a.ctx (A ++ [d]) (H ++ ofSource p a.out.toList) := by
  obtain ⟨pend, hpend, hsub, hall⟩ := h.order
  have hself : ofSource p [d] = [d] := by simp [ofSource, hsrc]
  have hlast : (A ++ [d]).getLast?.map Datagram.seq = some d.seq := by simp
  have hok := hstep.ok h.ok
  refine ⟨hok, ?_⟩
  rw [hlast]
  subst hsrc
  cases hstep with
  | bypass st hfull hst =>
    have hnone : pend = [] := hpend.absent fun j hj => (hfull j hj).1
    subst hnone
    rw [List.append_nil] at hsub hall
    simp only [Option.toList_some, hself]
    refine ⟨[], ⟨fun _ => rfl, fun i hi hik => absurd hik (hfull i hi).1⟩, ?_, fun h0 => ?_⟩
    · simpa using hsub.append_right [d]
    · rw [hst] at h0
      simp [hall h0]
  | pass i pb lost st hk hi hent hst hwhy =>
    have hcar := hent.carries hi hpend
    have hnew := hent.fresh_seq hi hrep
    obtain ⟨hinit, hle⟩ := hwhy.resolve_right fun ⟨s, hs, heq⟩ => hnew s hs heq
    obtain ⟨rfl, hAd⟩ := hcar.repeats_cursor (hent.ok h.ok hi hp) hA hnew hinit hle
    rw [hAd] at hcar
    rw [List.append_nil] at hsub hall
    simp only [Option.toList_some, hself]
    refine ⟨[], .put h.ok hp hi hent hent.key hcar, ?_, fun h0 => ?_⟩
    · simpa using hsub.append_right [d]
    · change st.droppedReclaim = 0 at h0
      rw [hst.droppedReclaim] at h0
      simp [hall (by omega)]
  | hold i pb lost st j hk hi hent hst hahead hnew hj hfree =>
    have hcar := hent.carries hi hpend
    have hnext := hcar.joins_end (hent.ok h.ok hi hp) hA hnew hahead
    have hkey : (pb.fill j ⟨t, d.seq, true, d⟩).key = reorderKey d.src := hent.key
    refine ⟨pend ++ [d], .put h.ok hp hi hent hkey (hcar.hold hj hfree hnext), ?_, fun h0 => ?_⟩
    · simpa [ofSource] using hsub.append_right [d]
    · change st.droppedReclaim = 0 at h0
      rw [hst.droppedReclaim] at h0
      simp [ofSource, ← hall (by omega)]
  | keyless i pb pb' lost st out hk => exact absurd hk hp

theorem reorderKey_ne (hfam : p.family = afInet) (hd : isUnsequenced d = false) (hsrc : d.src ≠ p) :
    reorderKey d.src ≠ reorderKey p := by
  intro hkey
  obtain ⟨haddr, hport⟩ := reorderKey_inj hkey
  exact hsrc (SockAddr.ext ((family_of_sequenced hd).trans hfam.symm) haddr hport)

theorem InOrder.overwrite (h : InOrder p c A H) (hp : reorderKey p ≠ 0) {i : Nat} (hi : i < c.cfg.peers) {k : U64}
    {pb pb' : PeerBuf} {lost : Nat} (hent : Enters c k i pb lost) (hkk : k ≠ reorderKey p)
    (hkey : pb'.key ≠ reorderKey p) {st : ReorderStats} (hst : st.droppedReclaim = c.stats.droppedReclaim + lost)
    (hok : RxOk { c with tbl := Function.update c.tbl i pb', stats := st }) :
    InOrder p { c with tbl := Function.update c.tbl i pb', stats := st } A H := by
  obtain ⟨pend, hpend, hsub, hall⟩ := h.order
  refine ⟨hok, _, hpend.overwrite h.ok hp hi hkey c.rr st, ?_, fun h0 => ?_⟩
  · split
    · rw [List.append_nil]
      exact (List.sublist_append_left H pend).trans hsub
    · exact hsub
  · change st.droppedReclaim = 0 at h0
    rw [hst] at h0
    have hH := hall (by omega)
    split
    · next hik =>
      have hlost := hpend.reclaimed h.ok hp hi hent hkk hik
      have hnone : pend = [] := List.length_eq_zero_iff.mp (by omega)
      rwa [hnone] at hH
    · exact hH

/-- **An arrival of another source.** -/
theorem InOrder.arrive_other (h : InOrder p c A H) (hp : reorderKey p ≠ 0) (hfam : p.family = afInet)
    (hd : isUnsequenced d = false) (hsrc : d.src ≠ p) {t : U64} {a : Arrived} (hstep : ArriveStep c d t a) :
    InOrder p a.ctx A H ∧ ∀ o ∈ a.out, o.src ≠ p := by
  have hkk := reorderKey_ne hfam hd hsrc
  have hok := hstep.ok h.ok
  cases hstep with
  | bypass st hfull hst =>
    obtain ⟨pend, hpend, hsub, hall⟩ := h.order
    refine ⟨⟨hok, pend, ⟨hpend.absent, hpend.entry⟩, hsub, fun h0 => hall (hst.symm.trans h0)⟩, ?_⟩
    rintro o ⟨⟩
    exact hsrc
  | pass i pb lost st hk hi hent hst hwhy =>
    refine ⟨h.overwrite hp hi hent hkk (by rwa [hent.key]) hst.droppedReclaim hok, ?_⟩
    rintro o ⟨⟩
    exact hsrc
  | hold i pb lost st j hk hi hent hst hahead hnew hj hfree =>
    have hkey : (pb.fill j ⟨t, d.seq, true, d⟩).key = reorderKey d.src := hent.key
    exact ⟨h.overwrite hp hi hent hkk (by rwa [hkey]) hst.droppedReclaim hok, nofun⟩
  | keyless i pb pb' lost st out hk hi hent hst hkey hown hout =>
    refine ⟨h.overwrite hp hi hent (Ne.symm hp) (by rw [hkey]; exact Ne.symm hp) hst hok, ?_⟩
    rintro o ho rfl
    exact hp (hout o ho)

/-- **A release.** -/
theorem InOrder.release (h : InOrder p c A H) (hp : reorderKey p ≠ 0) (hA : ∀ d ∈ A, d.src = p) {t : U64} {r : Released}
    (hstep : ReleaseStep c t r) : InOrder p r.ctx A (H ++ ofSource p r.out.toList) := by
  have hok := hstep.ok h.ok
  obtain ⟨pend, hpend, hsub, hall⟩ := h.order
  cases hstep with
  | nothing => exact ⟨hok, pend, hpend, by simpa [ofSource] using hsub, by simpa [ofSource] using hall⟩
  | take i slot kind hi hkey hpick hslot hu =>
    have hpk := h.ok.entries i hi hkey
    have hsame := (reorderTakePeer_spec hpk hslot hu t).1
    obtain ⟨-, hrec, -⟩ := reorderCountDelivery_counts c.stats (reorderTakePeer c.cfg (c.tbl i) slot t).2
      ((c.tbl i).slots slot).ts t kind
    have hmem : (c.tbl i).slots slot ∈ (c.tbl i).held c.cfg := Slots.mem_held_of hslot hu
    by_cases hik : (c.tbl i).key = reorderKey p
    · obtain ⟨rest, rfl, hcar⟩ := (hpend.entry i hi hik).take hpk hpick
      have hsrc : ((c.tbl i).slots slot).pkt.src = p := hA _ (hsub.subset (by simp))
      have hout : ofSource p [((c.tbl i).slots slot).pkt] = [((c.tbl i).slots slot).pkt] := by simp [ofSource, hsrc]
      rw [Released.out_some, Option.toList_some, hout]
      refine ⟨hok, rest, ⟨fun hno => ?_, fun j hj hjk => ?_⟩, by simpa using hsub, fun h0 => ?_⟩
      · exact absurd (by simpa [hsame] using hik) (hno i hi)
      · by_cases hji : j = i
        · subst hji
          simpa using hcar
        · simp only [Function.update_of_ne hji] at hjk
          exact absurd (h.ok.distinct j i hj hi (hjk.trans hik.symm) fun h0 => hp (hjk ▸ h0)) hji
      · simpa using hall (hrec.symm.trans h0)
    · have hsrc : ((c.tbl i).slots slot).pkt.src ≠ p := by
        rintro rfl
        exact hik (hpk.key_eq _ hmem).symm
      have hout : ofSource p [((c.tbl i).slots slot).pkt] = [] := by simp [ofSource, hsrc]
      rw [Released.out_some, Option.toList_some, hout, List.append_nil]
      have hover := fun rr st => Pends.overwrite h.ok hp hi hpend
        (show (reorderTakePeer c.cfg (c.tbl i) slot t).1.key ≠ reorderKey p by rwa [hsame]) rr st
      simp only [if_neg hik] at hover
      exact ⟨hok, pend, hover _ _, hsub, fun h0 => hall (hrec.symm.trans h0)⟩

/-! ## Runs -/

theorem ofSource_append (p : SockAddr) (l₁ l₂ : List Datagram) : ofSource p (l₁ ++ l₂) = ofSource p l₁ ++ ofSource p l₂ :=
  List.filter_append ..

theorem ofSource_eq_nil {l : List Datagram} (h : ∀ d ∈ l, d.src ≠ p) : ofSource p l = [] :=
  List.filter_eq_nil_iff.mpr (by simpa using h)

theorem src_of_mem_ofSource {l : List Datagram} (h : d ∈ ofSource p l) : d.src = p := by
  simpa using (List.mem_filter.mp h).2

theorem reorderInit_inOrder (p : SockAddr) (cfg : ReorderCfg) (hp : reorderKey p ≠ 0) :
    InOrder p (reorderInit cfg) [] [] where
  ok := reorderInit_ok cfg
  order := ⟨[], ⟨fun _ => rfl, fun _ _ h => absurd h.symm hp⟩, List.nil_sublist _, fun _ => rfl⟩

theorem InOrder.kept (hp : reorderKey p ≠ 0) (hfam : p.family = afInet) :
    Kept (fun c d => d.src = p → ¬ RepeatsHeld c d)
      (fun c T H => InOrderStream (ofSource p T) → InOrder p c (ofSource p T) (ofSource p H)) where
  stats st _ hr _ _ h hT := by
    obtain ⟨hok, pend, hpend, hsub, hall⟩ := h hT
    exact ⟨hok.stats st, pend, ⟨hpend.absent, hpend.entry⟩, hsub, fun h0 => hall (hr.symm.trans h0)⟩
  pass d _ hun h hT := by
    rw [ofSource_append] at hT ⊢
    by_cases hsrc : d.src = p
    · have hmem : d ∈ ofSource p [d] := by simp [ofSource, hsrc]
      have := hT.sequenced d (List.mem_append_right _ hmem)
      rw [hun] at this
      cases this
    · have hnone : ofSource p [d] = [] := ofSource_eq_nil (by simpa using hsrc)
      rw [hnone, List.append_nil] at hT
      rw [ofSource_append, hnone, List.append_nil, List.append_nil]
      exact h hT
  arrive d t hrep hun hsat h hT := by
    rw [ofSource_append] at hT
    have hin := h hT.of_append
    have hstep := rxArrive_step hin.ok hsat d t
    rw [ofSource_append, ofSource_append]
    by_cases hsrc : d.src = p
    · have hself : ofSource p [d] = [d] := by simp [ofSource, hsrc]
      rw [hself] at hT ⊢
      exact hin.arrive hp hsrc hT (hrep hsrc) hstep
    · have hnone : ofSource p [d] = [] := ofSource_eq_nil (by simpa using hsrc)
      obtain ⟨hother, hout⟩ := hin.arrive_other hp hfam hun hsrc hstep
      rw [hnone, ofSource_eq_nil (l := (rxArrive _ d t).out.toList) (by simpa using hout), List.append_nil, List.append_nil]
      exact hother
  release t h hT := by
    have hin := h hT
    rw [ofSource_append]
    exact hin.release hp (fun d hd => src_of_mem_ofSource hd) (rxRelease_step _ t)

theorem filter_rxBuffered (c : ReorderCtx) (p : SockAddr) :
    (rxBuffered c).filter (·.src = p) =
      ∑ i ∈ Finset.range c.cfg.peers, ((c.tbl i).packets c.cfg).filter (·.src = p) :=
  map_sum ({ toFun := Multiset.filter (·.src = p), map_zero' := Multiset.filter_zero _, map_add' := Multiset.filter_add _ } :
    Multiset Datagram →+ Multiset Datagram) _ _

theorem Pends.buffered (hok : RxOk c) {pend : List Datagram} {last : Option U32} (hp : reorderKey p ≠ 0)
    (h : Pends c (reorderKey p) pend last) (hsrc : ∀ d ∈ pend, d.src = p) :
    (pend : Multiset Datagram) = (rxBuffered c).filter (·.src = p) := by
  have hother : ∀ i, i < c.cfg.peers → (c.tbl i).key ≠ reorderKey p →
      ((c.tbl i).packets c.cfg).filter (·.src = p) = 0 := by
    intro i hi hik
    refine Multiset.filter_eq_nil.mpr fun d hd hdp => hik ?_
    obtain ⟨s, hs, rfl⟩ := List.mem_map.mp (Multiset.mem_coe.mp hd)
    rw [← hdp]
    by_cases hz : (c.tbl i).key = 0
    · rw [hz, hok.unused i hi hz s hs]
    · rw [(hok.entries i hi hz).key_eq s hs]
  rw [filter_rxBuffered]
  by_cases hin : ∃ i, i < c.cfg.peers ∧ (c.tbl i).key = reorderKey p
  · obtain ⟨i, hi, hik⟩ := hin
    rw [Finset.sum_eq_single_of_mem i (Finset.mem_range.mpr hi) fun j hj hji => hother j (Finset.mem_range.mp hj)
      fun hjk => hji (hok.distinct j i (Finset.mem_range.mp hj) hi (hjk.trans hik.symm) fun h0 => hp (hjk ▸ h0))]
    have hheld : (c.tbl i).packets c.cfg = pend := Multiset.coe_eq_coe.mpr (h.entry i hi hik).held
    rw [hheld]
    exact (Multiset.filter_eq_self.mpr fun d hd => hsrc d (Multiset.mem_coe.mp hd)).symm
  · have hnone : ∀ i, i < c.cfg.peers → (c.tbl i).key ≠ reorderKey p := fun i hi hik => hin ⟨i, hi, hik⟩
    rw [h.absent hnone, Finset.sum_eq_zero fun i hi => hother i (Finset.mem_range.mp hi) (hnone i (Finset.mem_range.mp hi))]
    rfl

end Stream

/-- **A stream that arrives in order is handed over in order.** Among any other traffic, when the datagrams of
an IPv4 source arrive with sequences that never decrease and never skip, and none repeats a sequence that
is still held, then those handed over, followed by those still held, are those that arrived, in that
order, less what was lost with an idle entry reclaimed for another source. -/
theorem reorder_inOrder_stream (cfg : ReorderCfg) (drain : Nat) (calls : List RecvCall) (p : SockAddr)
    (hp : p.addr ≠ 0 ∨ p.port ≠ 0) (hfam : p.family = afInet)
    (hstream : InOrderStream (ofSource p (takenOf (Machine.outputs hookedWSARecvFrom (rxInit cfg drain) calls))))
    (hrepeat : ∀ m ∈ (Machine.outputs hookedWSARecvFrom (rxInit cfg drain) calls).flatMap RecvOut.taken,
      m.pkt.src = p → ¬ RepeatsHeld m.met m.pkt) :
    let c := (Machine.final hookedWSARecvFrom (rxInit cfg drain) calls).rx
    let outs := Machine.outputs hookedWSARecvFrom (rxInit cfg drain) calls
    ∃ pend : List Datagram, (pend : Multiset Datagram) = (rxBuffered c).filter (·.src = p) ∧
      List.Sublist (ofSource p (handedOf outs) ++ pend) (ofSource p (takenOf outs)) ∧
      (c.stats.droppedReclaim = 0 → ofSource p (handedOf outs) ++ pend = ofSource p (takenOf outs)) := by
  intro c outs
  have hkey := reorderKey_ne_zero hp
  have hrun := recvRun_inv (InOrder.kept hkey hfam) calls (rxInit cfg drain) hrepeat (T := []) (H := [])
    fun _ => reorderInit_inOrder p cfg hkey
  obtain ⟨hok, pend, hpend, hsub, hall⟩ := hrun hstream
  refine ⟨pend, hpend.buffered hok hkey fun d hd => ?_, hsub, hall⟩
  exact src_of_mem_ofSource (hsub.subset (List.mem_append_right _ hd))

/-- Sequence 5 arrives, then 5 again once it is handed over, then 6. -/
def repeatCalls : List RecvCall :=
  [⟨7, 0, [(.datagram (sampleFrom samplePeer 5), 0)], 0⟩, ⟨7, 1, [(.datagram (sampleFrom samplePeer 5), 1)], 1⟩,
    ⟨7, 2, [(.datagram (sampleFrom samplePeer 6), 2)], 2⟩]

theorem reorder_inOrder_stream_repeat :
    ∃ pend : List Datagram,
      ofSource samplePeer (handedOf (Machine.outputs hookedWSARecvFrom (rxInit .default kReorderDrainCapDef) repeatCalls)) ++
          pend =
        [sampleFrom samplePeer 5, sampleFrom samplePeer 5, sampleFrom samplePeer 6] := by
  have htaken : ofSource samplePeer (takenOf (Machine.outputs hookedWSARecvFrom (rxInit .default kReorderDrainCapDef)
      repeatCalls)) = [sampleFrom samplePeer 5, sampleFrom samplePeer 5, sampleFrom samplePeer 6] := by decide +kernel
  obtain ⟨pend, -, -, hall⟩ := reorder_inOrder_stream .default kReorderDrainCapDef repeatCalls samplePeer (by decide) rfl
    ⟨by decide +kernel, by decide +kernel⟩ (by decide +kernel)
  exact ⟨pend, (hall (by decide +kernel)).trans htaken⟩

/-- Two datagrams of sequence 5 in one drain: the second is passed on while the first is held. -/
theorem reorder_inOrder_stream_overtaken :
    let first := sampleFrom samplePeer 5
    let second : Datagram := ⟨samplePeer, makePkt true 5 1, by decide⟩
    let calls : List RecvCall :=
      [⟨7, 0, [(.datagram first, 0), (.datagram second, 0)], 0⟩, ⟨7, 1, [(.failed, 1)], 1⟩]
    let outs := Machine.outputs hookedWSARecvFrom (rxInit .default kReorderDrainCapDef) calls
    InOrderStream (ofSource samplePeer (takenOf outs)) ∧ takenOf outs = [first, second] ∧
      handedOf outs = [second, first] ∧ ofSource samplePeer (handedOf outs) ≠ ofSource samplePeer (takenOf outs) := by
  refine ⟨⟨by decide +kernel, by decide +kernel⟩, by decide +kernel, by decide +kernel, by decide +kernel⟩

end BzNet
