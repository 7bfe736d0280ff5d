import BzNet.Reorder.Conservation

/-!
# Closing a socket

Runs of receive calls and closes.

* `SockOp`, `sockStep` : the two hooks as one machine;
* `Empty`, `PeerBuf.Touched` : a table as the reset leaves it, and an entry that an arrival has reached;
* `reorder_close_frame` : the close of a socket that does not carry the P2P traffic leaves the buffer alone
  exactly when no sequenced datagram has arrived since the last close.
-/

namespace BzNet

inductive SockOp where
  | recv (call : RecvCall)
  | close (sock : Socket)

/-- One hooked call; a close takes nothing from a socket. -/
def sockStep (s : RxState) : SockOp → RxState × Option RecvOut
  | .recv call =>
    let r := hookedWSARecvFrom s call
    (r.1, some r.2)
  | .close sock => (closeReorder s sock, none)

/-- A sequenced datagram was taken from a socket and no socket closed after it. -/
def SequencedSinceClose (outs : List (Option RecvOut)) : Prop :=
  ∃ before out after, outs = before ++ some out :: after ∧ none ∉ after ∧
    ∃ m ∈ out.taken, isUnsequenced m.pkt = false

theorem sequencedSinceClose_close (outs : List (Option RecvOut)) : ¬ SequencedSinceClose (outs ++ [none]) := by
  rintro ⟨before, out, after, heq, hno, -⟩
  rcases List.eq_nil_or_concat after with rfl | ⟨front, last, rfl⟩
  · have := (List.append_inj' heq rfl).2
    cases this
  · rw [List.concat_eq_append, ← List.cons_append, ← List.append_assoc] at heq
    have := (List.append_inj' heq rfl).2
    rw [List.cons.injEq] at this
    exact hno (by simp [this.1])

theorem sequencedSinceClose_recv (outs : List (Option RecvOut)) (out : RecvOut) :
    SequencedSinceClose (outs ++ [some out]) ↔
      SequencedSinceClose outs ∨ ∃ d ∈ out.taken.map Taken.pkt, isUnsequenced d = false := by
  constructor
  · rintro ⟨before, out', after, heq, hno, m, hm, hseq⟩
    rcases List.eq_nil_or_concat after with rfl | ⟨front, last, rfl⟩
    · have := (List.append_inj' heq rfl).2
      rw [List.cons.injEq, Option.some_inj] at this
      exact Or.inr ⟨m.pkt, List.mem_map_of_mem (this.1 ▸ hm), hseq⟩
    · rw [List.concat_eq_append, ← List.cons_append, ← List.append_assoc] at heq
      have := (List.append_inj' heq rfl).1
      exact Or.inl ⟨before, out', front, this, fun h => hno (by simp [h]), m, hm, hseq⟩
  · rintro (⟨before, out', after, rfl, hno, hm⟩ | ⟨d, hd, hseq⟩)
    · exact ⟨before, out', after ++ [some out], by simp, by simpa using hno, hm⟩
    · obtain ⟨m, hm, rfl⟩ := List.mem_map.mp hd
      exact ⟨outs, out, [], rfl, List.not_mem_nil, m, hm, hseq⟩

/-! ## Entries that an arrival has reached -/

/-- Some arrival has been here since the reset. -/
def PeerBuf.Touched (pb : PeerBuf) : Prop := pb.key ≠ 0 ∨ pb.seqInit = true ∨ ∃ j, (pb.slots j).used = true

theorem zero_untouched : ¬ PeerBuf.zero.Touched := by
  rintro (h | h | ⟨j, h⟩)
  · exact h rfl
  · cases h
  · cases h

/-- The buffer as the reset leaves it. -/
structure Empty (c : ReorderCtx) : Prop where
  tbl : c.tbl = fun _ => PeerBuf.zero
  rr : c.rr = 0

def InUse (c : ReorderCtx) : Prop := ∃ i, (c.tbl i).Touched

theorem reorderInsert_touched (cfg : ReorderCfg) (pb : PeerBuf) (seq : U32) (ts : U64) (pkt : Datagram) :
    (∃ out, (reorderInsert cfg pb seq ts pkt).2 = .evicted out) ∨ (reorderInsert cfg pb seq ts pkt).1.Touched := by
  unfold reorderInsert
  split
  · next hstale => exact Or.inr (Or.inr (Or.inl hstale.1))
  · split
    · next j hdup =>
      have hp := List.find?_some hdup
      rw [Bool.and_eq_true] at hp
      exact Or.inr (Or.inr (Or.inr ⟨j, hp.1⟩))
    · split
      · next j hfree => exact Or.inr (Or.inr (Or.inr ⟨j, by simp⟩))
      · exact Or.inl ⟨_, rfl⟩

variable {c : ReorderCtx}

theorem rxArrive_inUse (c : ReorderCtx) (d : Datagram) (t : U64) : InUse (rxArrive c d t).ctx := by
  unfold rxArrive
  rcases reorderGetPeer_cases c d.src t with ⟨hfull, hget⟩ | ⟨i, pb, lost, st, hi, hent, hget, hst⟩
  · rw [hget]
    exact ⟨0, Or.inl (hfull 0 c.cfg.peers_pos).2⟩
  · rw [hget]
    simp only [Function.update_self, Function.update_idem]
    have hnote : ∀ (pb : PeerBuf) (seq : U32), (reorderNoteDelivery c.cfg pb seq t).1.Touched := fun pb seq =>
      Or.inr (Or.inl (reorderNoteDelivery_keeps c.cfg pb seq t).2.1)
    split
    · exact ⟨i, by simpa using hnote _ _⟩
    · next hev =>
      rcases reorderInsert_touched c.cfg (reorderAdaptOnArrival c.cfg pb d.seq t) d.seq t d with ⟨out, hout⟩ | htouch
      · exact absurd hout (hev out)
      · exact ⟨i, by simpa using htouch⟩

theorem ReleaseStep.inUse {t : U64} {r : Released} (h : ReleaseStep c t r) :
    (InUse c → InUse r.ctx) ∧ (Empty c → Empty r.ctx) := by
  cases h with
  | nothing => exact ⟨id, id⟩
  | take i slot kind hi hkey hpick hslot hu =>
    refine ⟨fun _ => ⟨i, Or.inl ?_⟩, fun he => absurd (by rw [he.tbl]; rfl) hkey⟩
    simp only [Function.update_self]
    have hsame : (reorderTakePeer c.cfg (c.tbl i) slot t).1.key = (c.tbl i).key :=
      (reorderDecay_same _ _ _).key.trans (reorderNoteDelivery_keeps _ _ _ _).1
    rwa [hsame]

/-! ## Runs -/

/-- What the buffer is, by whether a sequenced datagram has arrived. -/
structure Reached (arrived : Prop) (c : ReorderCtx) : Prop where
  inUse : arrived → InUse c
  empty : ¬ arrived → Empty c

theorem Reached.kept (arrived : Prop) :
    Kept (fun _ _ => True) fun c T _ => Reached (arrived ∨ ∃ d ∈ T, isUnsequenced d = false) c where
  stats st _ _ _ _ h := ⟨h.inUse, fun hno => ⟨(h.empty hno).tbl, (h.empty hno).rr⟩⟩
  pass d _ hun h := by
    refine ⟨fun harr => h.inUse ?_, fun hno => h.empty ?_⟩
    · rcases harr with harr | ⟨e, he, hseq⟩
      · exact Or.inl harr
      · rcases List.mem_append.mp he with he | he
        · exact Or.inr ⟨e, he, hseq⟩
        · rw [List.mem_singleton.mp he, hun] at hseq
          cases hseq
    · exact fun harr => hno (harr.imp_right fun ⟨e, he, hseq⟩ => ⟨e, List.mem_append_left _ he, hseq⟩)
  arrive d t _ hun _ _ :=
    ⟨fun _ => rxArrive_inUse _ d t, fun hno => absurd (Or.inr ⟨d, by simp, hun⟩) hno⟩
  release t h :=
    ⟨fun harr => (rxRelease_step _ t).inUse.1 (h.inUse harr), fun hno => (rxRelease_step _ t).inUse.2 (h.empty hno)⟩

/-- After any run the buffer is in use exactly when a sequenced datagram has arrived since the last close. -/
theorem sockRun_reached (cfg : ReorderCfg) (drain : Nat) (ops : List SockOp) :
    Reached (SequencedSinceClose (Machine.outputs sockStep (rxInit cfg drain) ops))
      (Machine.final sockStep (rxInit cfg drain) ops).rx := by
  induction ops using List.reverseRecOn with
  | nil =>
    refine ⟨?_, fun _ => ⟨rfl, rfl⟩⟩
    rintro ⟨before, out, after, heq, -⟩
    simp [Machine.outputs] at heq
  | append_singleton ops op ih =>
    rw [Machine.outputs_concat, Machine.final_concat]
    cases op with
    | close sock =>
      exact ⟨fun harr => absurd harr (sequencedSinceClose_close _), fun _ => ⟨rfl, rfl⟩⟩
    | recv call =>
      have hcall := hookedWSARecvFrom_inv (Reached.kept (SequencedSinceClose
        (Machine.outputs sockStep (rxInit cfg drain) ops))) (Machine.final sockStep (rxInit cfg drain) ops) call
        (fun _ _ => trivial) (T := []) (H := []) (by simpa using ih)
      rw [List.nil_append] at hcall
      exact ⟨fun harr => hcall.inUse ((sequencedSinceClose_recv _ _).mp harr),
        fun hno => hcall.empty fun harr => hno ((sequencedSinceClose_recv _ _).mpr harr)⟩

/-- **Closing a socket that does not carry the P2P traffic.** In every state that a run reaches it leaves the
table and the scan position as they are exactly when no sequenced datagram was taken from a socket since
the last close. -/
theorem reorder_close_frame (cfg : ReorderCfg) (drain : Nat) (ops : List SockOp) (sock : Socket) :
    let s := Machine.final sockStep (rxInit cfg drain) ops
    (sock ≠ s.reorderSock → (closeReorder s sock).rx.tbl = s.rx.tbl ∧ (closeReorder s sock).rx.rr = s.rx.rr) ↔
      (sock ≠ s.reorderSock → ¬ SequencedSinceClose (Machine.outputs sockStep (rxInit cfg drain) ops)) := by
  intro s
  have hreach := sockRun_reached cfg drain ops
  refine imp_congr_right fun _ => ⟨fun ⟨htbl, _⟩ harr => ?_, fun hno => ?_⟩
  · obtain ⟨i, htouch⟩ := hreach.inUse harr
    have hzero : s.rx.tbl i = PeerBuf.zero := (congrFun htbl i).symm
    rw [hzero] at htouch
    exact zero_untouched htouch
  · have hempty := hreach.empty hno
    exact ⟨hempty.tbl.symm, hempty.rr.symm⟩

/-- Socket 7 carries the traffic and one of its datagrams is held when socket 9 closes: it is erased, and
never handed over. -/
theorem reorder_close_frame_erased :
    let s := Machine.final sockStep (rxInit .default kReorderDrainCapDef)
      [.recv ⟨7, 0, [(.datagram (sampleFrom samplePeer 10), 0)], 0⟩,
        .recv ⟨7, 1, [(.datagram (sampleFrom samplePeer 12), 1)], 1⟩]
    let poll : RecvCall := ⟨7, 1000, [(.failed, 1000)], 1000⟩
    (9 : Socket) ≠ s.reorderSock ∧ s.reorderSock = 7 ∧ rxBuffered s.rx = {sampleFrom samplePeer 12} ∧
      (hookedWSARecvFrom s poll).2.handed = some (sampleFrom samplePeer 12) ∧
      (closeReorder s 9).rx.tbl ≠ s.rx.tbl ∧ rxBuffered (closeReorder s 9).rx = 0 ∧
      (hookedWSARecvFrom (closeReorder s 9) poll).2.handed = none := by
  refine ⟨by decide +kernel, by decide +kernel, by decide +kernel, by decide +kernel, fun h => ?_, by decide +kernel,
    by decide +kernel⟩
  exact absurd (congrArg PeerBuf.key (congrFun h 0)) (by decide +kernel)

end BzNet
