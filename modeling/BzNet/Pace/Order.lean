import BzNet.Pace.Core
import BzNet.Lib.Run

/-!
# What the pacer does with the order of the sends

One game thread offers datagrams through `pace_take` and sends them itself when the pacer declines; the
pacer thread wakes and a flush may happen between any two of its locked sections. What has been passed to
the real send function, followed by what is queued, is what the game offered.

A declined datagram is sent after the lock is released, so the invariant (`Ordered`) has to say that
nothing is queued while a sequenced one is on its way.
-/

namespace BzNet

/-! ## What each function does to the queue -/

/-- The datagrams in the queue, first to leave first. -/
def PaceCtx.pending (c : PaceCtx) : List Outgoing := c.q.toList.map PaceEntry.toOutgoing

@[simp] theorem paceTick_q (c : PaceCtx) (now : U64) : (paceTick c now).q = c.q := by
  unfold paceTick
  split <;> rfl

@[simp] theorem paceObserve_q (c : PaceCtx) (len : U32) (now : U64) : (paceObserve c len now).q = c.q :=
  paceTick_q c now

@[simp] theorem paceTick_rateBps (c : PaceCtx) (now : U64) : (paceTick c now).rateBps = c.rateBps := by
  unfold paceTick
  split <;> rfl

@[simp] theorem paceObserve_rateBps (c : PaceCtx) (len : U32) (now : U64) :
    (paceObserve c len now).rateBps = c.rateBps :=
  paceTick_rateBps c now

@[simp] theorem paceRefill_q (c : PaceCtx) (now : U64) : (paceRefill c now).q = c.q := by
  unfold paceRefill
  dsimp only
  split <;> rfl

@[simp] theorem paceRefill_rateBps (c : PaceCtx) (now : U64) : (paceRefill c now).rateBps = c.rateBps := by
  unfold paceRefill
  dsimp only
  split <;> rfl

/-- When each decision is taken. -/
inductive AdmitStep (c : PaceCtx) (len : U32) : PaceDecision → Prop where
  | off (hrate : c.rateBps = 0) : AdmitStep c len .sendNow
  | exempt (hsmall : len.toNat < kReorderSeqMinPay) : AdmitStep c len .sendNow
  | idle (hrate : c.rateBps ≠ 0) (hidle : c.q.used = 0) : AdmitStep c len .sendNow
  | giveUp (hrate : c.rateBps ≠ 0) (hbusy : 0 < c.q.used) : AdmitStep c len .flushThenSend
  | queued (hrate : c.rateBps ≠ 0) (hseq : kReorderSeqMinPay ≤ len.toNat) (hroom : c.q.used < kPaceQueueSlots) :
      AdmitStep c len .queued

/-- **One admission.** It leaves the queue and the rate alone. -/
theorem paceAdmit_step (c : PaceCtx) (len : U32) (now : U64) :
    (paceAdmit c len now).1.q = c.q ∧ (paceAdmit c len now).1.rateBps = c.rateBps ∧
      AdmitStep c len (paceAdmit c len now).2.1 := by
  unfold paceAdmit
  dsimp only
  rw [paceObserve_rateBps]
  by_cases hrate : c.rateBps = 0
  · rw [if_pos hrate]
    exact ⟨paceObserve_q c len now, paceObserve_rateBps c len now, .off hrate⟩
  · rw [if_neg hrate]
    by_cases hsmall : len.toNat < kReorderSeqMinPay
    · rw [if_pos hsmall]
      exact ⟨by simp, by simp, .exempt hsmall⟩
    · rw [if_neg hsmall]
      simp only [paceRefill_q, paceObserve_q]
      split
      · next h => exact ⟨by simp, by simp, .idle hrate h.1⟩
      · split
        · refine ⟨by simp, by simp, ?_⟩
          by_cases hbusy : 0 < c.q.used
          · simp only [hbusy, if_true]
            exact .giveUp hrate hbusy
          · simp only [hbusy, if_false]
            exact .idle hrate (by omega)
        · next h =>
          push Not at h
          exact ⟨by simp, by simp, .queued hrate (by omega) h.2⟩

theorem paceSendWhile_split {pop : PaceCtx → Option (PaceEntry × PaceCtx)}
    (hpop : ∀ c e c', pop c = some (e, c') → c.q.toList = e :: c'.q.toList ∧ c'.rateBps = c.rateBps)
    (n : Nat) (c : PaceCtx) :
    (paceSendWhile pop n c).2 ++ (paceSendWhile pop n c).1.q.toList = c.q.toList ∧
      (paceSendWhile pop n c).1.rateBps = c.rateBps := by
  induction n generalizing c with
  | zero => exact ⟨rfl, rfl⟩
  | succ n ih =>
    unfold paceSendWhile
    cases h : pop c with
    | none => exact ⟨rfl, rfl⟩
    | some r =>
      obtain ⟨hq, hr⟩ := hpop c r.1 r.2 h
      obtain ⟨ih1, ih2⟩ := ih r.2
      exact ⟨by simp only [List.cons_append, ih1, hq], ih2.trans hr⟩

theorem pacePopAny_some {c c' : PaceCtx} {e : PaceEntry} (h : pacePopAny c = some (e, c')) :
    c.q.toList = e :: c'.q.toList ∧ c'.rateBps = c.rateBps := by
  unfold pacePopAny at h
  split at h
  · exact absurd h (by simp)
  · next hne =>
    obtain ⟨rfl, rfl⟩ := Prod.mk.inj (Option.some.inj h)
    exact ⟨RingBuffer.toList_eq_cons hne, rfl⟩

theorem pacePopDue_some {now : U64} {c c' : PaceCtx} {e : PaceEntry} (h : pacePopDue now c = some (e, c')) :
    c.q.toList = e :: c'.q.toList ∧ c'.rateBps = c.rateBps := by
  unfold pacePopDue at h
  split at h
  · exact absurd h (by simp)
  · next hne =>
    obtain ⟨rfl, rfl⟩ := Prod.mk.inj (Option.some.inj h)
    exact ⟨RingBuffer.toList_eq_cons fun h0 => hne (Or.inl h0), rfl⟩

theorem pacePopAny_isSome {c : PaceCtx} (h : c.q.used ≠ 0) : (pacePopAny c).isSome = true := by
  simp [pacePopAny, h]

theorem paceFlushLocked_all (c : PaceCtx) :
    (paceFlushLocked c).2 = c.q.toList ∧ (paceFlushLocked c).1.q.toList = [] ∧
      (paceFlushLocked c).1.rateBps = c.rateBps := by
  obtain ⟨hsplit, hrate⟩ := paceSendWhile_split (fun _ _ _ => pacePopAny_some) c.q.used c
  have hempty : ∀ n (c : PaceCtx), c.q.used ≤ n → (paceSendWhile pacePopAny n c).1.q.toList = [] := by
    intro n
    induction n with
    | zero => exact fun c hc => RingBuffer.toList_eq_nil.mpr (Nat.le_zero.mp hc)
    | succ n ih =>
      intro c hc
      unfold paceSendWhile
      cases h : pacePopAny c with
      | none =>
        by_contra hne
        have := pacePopAny_isSome fun h0 => hne (RingBuffer.toList_eq_nil.mpr h0)
        simp [h] at this
      | some r =>
        have hlen := congrArg List.length (pacePopAny_some h).1
        simp only [List.length_cons, RingBuffer.length_toList] at hlen
        exact ih r.2 (by omega)
  have hnil := hempty c.q.used c (Nat.le_refl _)
  refine ⟨?_, hnil, hrate⟩
  rw [hnil, List.append_nil] at hsplit
  exact hsplit

theorem sendPaceTurn_split (c : PaceCtx) (now : U64) :
    (sendPaceTurn c now).2 ++ (sendPaceTurn c now).1.q.toList = c.q.toList ∧
      (sendPaceTurn c now).1.rateBps = c.rateBps := by
  have hpop : ∀ c e c', pacePopDue now c = some (e, c') → c.q.toList = e :: c'.q.toList ∧ c'.rateBps = c.rateBps :=
    fun _ _ _ => pacePopDue_some
  obtain ⟨h1, h2⟩ := paceSendWhile_split hpop (paceTick c now).q.used (paceTick c now)
  rw [paceTick_q c now] at h1 h2
  unfold sendPaceTurn
  simp only [paceTick_q]
  exact ⟨h1, h2.trans (paceTick_rateBps c now)⟩

theorem paceEnqueue_some {c c' : PaceCtx} {o : Outgoing} {due : U64} (h : paceEnqueue c o due = some c') :
    c'.q.toList = c.q.toList ++ [⟨o, due⟩] ∧ c'.rateBps = c.rateBps := by
  unfold paceEnqueue at h
  split at h
  · exact absurd h (by simp)
  · next hroom =>
    obtain rfl := Option.some.inj h
    exact ⟨c.q.toList_push_room _ (by unfold kPaceQueueSlots at *; omega), rfl⟩

/-- The datagrams the pacer keeps in order: large enough to carry a sequence, and within its storage. -/
def Outgoing.Paceable (o : Outgoing) : Prop :=
  kReorderSeqMinPay ≤ o.data.length ∧ o.data.length ≤ kReorderMaxPktBytes ∧ 0 < o.dest.length ∧
    o.dest.length ≤ kPaceAddrBytes

instance (o : Outgoing) : Decidable o.Paceable := inferInstanceAs (Decidable (_ ∧ _))

/-- What one `pace_take` can do: whether it took the datagram, what it flushed, and the queue after it. -/
inductive TakeStep (c : PaceCtx) (o : Outgoing) (q : List PaceEntry) : Bool → List PaceEntry → Prop where
  | taken (due : U64) (hrate : c.rateBps ≠ 0) (hpace : o.Paceable) (hq : q = c.q.toList ++ [⟨o, due⟩]) :
      TakeStep c o q true []
  | passed (hwhy : ¬ o.Paceable ∨ c.rateBps = 0 ∨ c.q.toList = []) (hq : q = c.q.toList) : TakeStep c o q false []
  | flushed (hq : q = []) : TakeStep c o q false c.q.toList

/-- **One offer.** -/
theorem paceTake_step (c : PaceCtx) (o : Outgoing) (now : U64) :
    (paceTake c o now).1.rateBps = c.rateBps ∧
      TakeStep c o (paceTake c o now).1.q.toList (paceTake c o now).2.1 (paceTake c o now).2.2 := by
  unfold paceTake
  split
  · next h =>
    refine ⟨rfl, .passed (Or.inl fun hp => ?_) rfl⟩
    obtain ⟨h1, h2, h3, h4⟩ := hp
    rcases h with h | h | h | h
    · simp [h] at h3
    · simp [h, kReorderSeqMinPay] at h1
    · omega
    · omega
  · next h =>
    push Not at h
    obtain ⟨hdest, hdata, hmax, haddr⟩ := h
    have hlen : (BitVec.ofNat 32 o.data.length).toNat = o.data.length := by
      rw [BitVec.toNat_ofNat]
      exact Nat.mod_eq_of_lt (by unfold kReorderMaxPktBytes at hmax; omega)
    obtain ⟨hq, hrate, hstep⟩ := paceAdmit_step c (BitVec.ofNat 32 o.data.length) now
    obtain ⟨hflush, hnil, hfrate⟩ := paceFlushLocked_all (paceAdmit c (BitVec.ofNat 32 o.data.length) now).1
    rw [hq] at hflush
    dsimp only
    generalize hdec : (paceAdmit c (BitVec.ofNat 32 o.data.length) now).2.1 = d at hstep
    cases hstep with
    | off hr => exact ⟨hrate, .passed (Or.inr (Or.inl hr)) (by rw [hq])⟩
    | exempt hs =>
      refine ⟨hrate, .passed (Or.inl fun hp => ?_) (by rw [hq])⟩
      have := hp.1
      omega
    | idle _ hidle => exact ⟨hrate, .passed (Or.inr (Or.inr (RingBuffer.toList_eq_nil.mpr hidle))) (by rw [hq])⟩
    | giveUp =>
      rw [hflush]
      exact ⟨hfrate.trans hrate, .flushed hnil⟩
    | queued hr hs _ =>
      cases he : paceEnqueue (paceAdmit c (BitVec.ofNat 32 o.data.length) now).1 o
          (paceAdmit c (BitVec.ofNat 32 o.data.length) now).2.2 with
      | none =>
        simp only
        rw [hflush]
        exact ⟨hfrate.trans hrate, .flushed hnil⟩
      | some c' =>
        obtain ⟨hq', hr'⟩ := paceEnqueue_some he
        rw [hq] at hq'
        have hpos : 0 < o.dest.length := List.length_pos_iff.mpr hdest
        exact ⟨hr'.trans hrate, .taken _ hr ⟨by omega, hmax, hpos, haddr⟩ hq'⟩

/-! ## One game thread and the pacer thread -/

/-- The pacer, the datagram the game thread is about to send itself, and what has been passed to the real
send function. -/
structure PaceSys where
  tx : PaceCtx
  direct : Option Outgoing
  wire : List Outgoing

inductive PaceAct where
  /-- The game thread's locked section of a send. -/
  | take (o : Outgoing) (now : U64)
  /-- The game thread's own send, after the pacer declined. -/
  | send
  | turn (now : U64)
  | flush

def paceSysInit (rateBps maxDelayMs : U32) (now : U64) : PaceSys := ⟨paceInit rateBps maxDelayMs now, none, []⟩

/-- One action, where it is possible: the game thread does one thing after the other. -/
def paceSysStep (s : PaceSys) : PaceAct → Option PaceSys
  | .take o now =>
    if s.direct.isSome then none
    else
      let r := paceTake s.tx o now
      some ⟨r.1, if r.2.1 then none else some o, s.wire ++ r.2.2.map PaceEntry.toOutgoing⟩
  | .send => s.direct.map fun o => { s with direct := none, wire := s.wire ++ [o] }
  | .turn now =>
    let r := sendPaceTurn s.tx now
    some { s with tx := r.1, wire := s.wire ++ r.2.map PaceEntry.toOutgoing }
  | .flush =>
    let r := paceFlushLocked s.tx
    some { s with tx := r.1, wire := s.wire ++ r.2.map PaceEntry.toOutgoing }

def PaceAct.offer? : PaceAct → Option Outgoing
  | .take o _ => some o
  | _ => none

def paceables (l : List Outgoing) : List Outgoing := l.filter fun o => o.Paceable

@[simp] theorem paceables_append (l l' : List Outgoing) : paceables (l ++ l') = paceables l ++ paceables l' :=
  List.filter_append ..

/-- What holds between any two actions. -/
structure Ordered (acts : List PaceAct) (s : PaceSys) : Prop where
  /-- Measuring only, nothing is ever queued. -/
  off : s.tx.rateBps = 0 → s.tx.q.toList = []
  queued : ∀ e ∈ s.tx.q.toList, e.toOutgoing.Paceable
  order : paceables s.wire ++ (paceables s.direct.toList ++ s.tx.pending) = paceables (acts.filterMap PaceAct.offer?)
  /-- A sequenced datagram on its way has nothing before it. -/
  clear : ∀ o, s.direct = some o → o.Paceable → s.tx.q.toList = []

theorem paceables_entries {es : List PaceEntry} (h : ∀ e ∈ es, e.toOutgoing.Paceable) :
    paceables (es.map PaceEntry.toOutgoing) = es.map PaceEntry.toOutgoing := by
  refine List.filter_eq_self.mpr fun o ho => ?_
  obtain ⟨e, he, rfl⟩ := List.mem_map.mp ho
  exact decide_eq_true (h e he)

/-- Taking entries off the front of the queue and sending them keeps everything. -/
theorem Ordered.sends {acts : List PaceAct} {s : PaceSys} (h : Ordered acts s) {act : PaceAct} {c : PaceCtx}
    {es : List PaceEntry} (hoffer : act.offer? = none) (hsplit : es ++ c.q.toList = s.tx.q.toList)
    (hrate : c.rateBps = s.tx.rateBps) :
    Ordered (acts ++ [act]) { s with tx := c, wire := s.wire ++ es.map PaceEntry.toOutgoing } where
  off := by
    intro hr
    have hnil := h.off (hrate ▸ hr)
    rw [← hsplit] at hnil
    exact (List.append_eq_nil_iff.mp hnil).2
  queued := fun e he => h.queued e (hsplit ▸ List.mem_append_right es he)
  order := by
    have hes : paceables (es.map PaceEntry.toOutgoing) = es.map PaceEntry.toOutgoing :=
      paceables_entries fun e he => h.queued e (hsplit ▸ List.mem_append_left _ he)
    rw [List.filterMap_append, List.filterMap_cons_none hoffer, List.filterMap_nil, List.append_nil, ← h.order]
    simp only [paceables_append, hes, PaceCtx.pending, ← hsplit, List.map_append]
    cases hd : s.direct with
    | none => simp [paceables]
    | some o =>
      by_cases hp : o.Paceable
      · have hnil := h.clear o hd hp
        rw [← hsplit] at hnil
        obtain ⟨rfl, -⟩ := List.append_eq_nil_iff.mp hnil
        simp
      · simp [paceables, hp]
  clear := by
    intro o hd hp
    have hnil := h.clear o hd hp
    rw [← hsplit] at hnil
    exact (List.append_eq_nil_iff.mp hnil).2

/-- The game thread offers a datagram while it has none on its way. -/
theorem Ordered.take {acts : List PaceAct} {s : PaceSys} (h : Ordered acts s) (hd : s.direct = none) (o : Outgoing)
    (now : U64) {c : PaceCtx} {taken : Bool} {es : List PaceEntry} (hrate : c.rateBps = s.tx.rateBps)
    (hstep : TakeStep s.tx o c.q.toList taken es) : Ordered (acts ++ [.take o now])
      ⟨c, if taken then none else some o, s.wire ++ es.map PaceEntry.toOutgoing⟩ := by
  have horder := h.order
  rw [hd] at horder
  have hoffers : paceables ((acts ++ [PaceAct.take o now]).filterMap PaceAct.offer?) =
      paceables s.wire ++ s.tx.pending ++ paceables [o] := by
    rw [List.filterMap_append, paceables_append, ← horder]
    simp [PaceAct.offer?, paceables]
  cases hstep with
  | taken due hr hp hq =>
    refine ⟨fun h0 => absurd (hrate ▸ h0) hr, fun e he => ?_, ?_, fun o' h' => by simp at h'⟩
    · rw [hq] at he
      rcases List.mem_append.mp he with he | he
      · exact h.queued e he
      · rw [List.mem_singleton.mp he]
        exact hp
    · rw [hoffers]
      simp [PaceCtx.pending, hq, paceables, hp]
  | passed hwhy hq =>
    have hnil : o.Paceable → s.tx.q.toList = [] := by
      intro hp
      rcases hwhy with h1 | h1 | h1
      · exact absurd hp h1
      · exact h.off h1
      · exact h1
    refine ⟨fun h0 => by rw [hq]; exact h.off (hrate ▸ h0), fun e he => h.queued e (hq ▸ he), ?_, ?_⟩
    · rw [hoffers]
      by_cases hp : o.Paceable
      · simp [PaceCtx.pending, hq, hnil hp]
      · simp [PaceCtx.pending, hq, paceables, hp]
    · intro o' ho' hp'
      obtain rfl : o = o' := by simpa using ho'
      rw [hq]
      exact hnil hp'
  | flushed hq =>
    have hes : paceables s.tx.pending = s.tx.pending := paceables_entries h.queued
    refine ⟨fun _ => hq, fun e he => by simp [hq] at he, ?_, fun _ _ _ => hq⟩
    rw [hoffers]
    simp only [paceables_append, PaceCtx.pending, hq] at hes ⊢
    simp [hes]

theorem Ordered.step {acts : List PaceAct} {s s' : PaceSys} {act : PaceAct} (h : Ordered acts s)
    (hs : paceSysStep s act = some s') : Ordered (acts ++ [act]) s' := by
  cases act with
  | take o now =>
    simp only [paceSysStep] at hs
    split at hs
    · exact absurd hs (by simp)
    · next hidle =>
      obtain rfl := Option.some.inj hs
      obtain ⟨hrate, hstep⟩ := paceTake_step s.tx o now
      exact h.take (by simpa using hidle) o now hrate hstep
  | send =>
    simp only [paceSysStep] at hs
    obtain ⟨o, hd, rfl⟩ := Option.map_eq_some_iff.mp hs
    refine ⟨h.off, h.queued, ?_, fun o' h' => by simp at h'⟩
    have horder := h.order
    rw [hd] at horder
    rw [List.filterMap_append, List.filterMap_cons_none rfl, List.filterMap_nil, List.append_nil, ← horder]
    simp [paceables]
  | turn now =>
    obtain rfl := Option.some.inj hs
    obtain ⟨hsplit, hrate⟩ := sendPaceTurn_split s.tx now
    exact h.sends rfl hsplit hrate
  | flush =>
    obtain rfl := Option.some.inj hs
    obtain ⟨hall, hnil, hrate⟩ := paceFlushLocked_all s.tx
    exact h.sends rfl (by rw [hall, hnil, List.append_nil]) hrate

/-- **Every sequenced datagram leaves once, and in order.** For every configuration, clock and interleaving
of the game thread with the pacer thread and with flushes: whenever the game thread is not in the middle
of a send, the sequenced datagrams passed to the real send function, followed by the queue, are those the
game offered, with the same sockets, addresses and bytes. -/
theorem pacer_exactly_once (rateBps maxDelayMs : U32) (t0 : U64) (acts : List PaceAct) (s : PaceSys)
    (hrun : acts.foldlM paceSysStep (paceSysInit rateBps maxDelayMs t0) = some s) (hidle : s.direct = none) :
    paceables s.wire ++ s.tx.pending = paceables (acts.filterMap PaceAct.offer?) := by
  have h := Machine.foldlM_inv (P := Ordered)
    ⟨fun _ => rfl, fun e he => by simp [paceSysInit, paceInit] at he, rfl, fun o ho => by simp [paceSysInit] at ho⟩
    (fun _ _ _ _ => Ordered.step) hrun
  have horder := h.order
  rw [hidle] at horder
  exact horder

def sampleOutgoing (sock : Socket) (n : Nat) (b : U8) : Outgoing := ⟨sock, List.replicate 16 2, List.replicate n b⟩

/-- The first datagram fits the budget, the second waits, the third would wait too long: it gives up, and
the queue leaves before it. The small one in between overtakes. -/
def giveUpRun : List PaceAct :=
  [.take (sampleOutgoing 5 1100 1) 0, .send, .take (sampleOutgoing 5 1100 2) 0, .take (sampleOutgoing 5 4 9) 0, .send,
    .turn 2, .take (sampleOutgoing 5 1100 3) 3, .send]

theorem giveUpRun_isSome : (giveUpRun.foldlM paceSysStep (paceSysInit 8000 20 0)).isSome = true := by
  decide +kernel

theorem pacer_exactly_once_giveUp :
    let s := (giveUpRun.foldlM paceSysStep (paceSysInit 8000 20 0)).get giveUpRun_isSome
    s.wire.map (fun o => o.data.head?) = [some 1, some 9, some 2, some 3] ∧
      paceables s.wire ++ s.tx.pending = paceables (giveUpRun.filterMap PaceAct.offer?) :=
  ⟨by decide +kernel, pacer_exactly_once 8000 20 0 giveUpRun _ (Option.some_get _).symm (by decide +kernel)⟩

end BzNet
