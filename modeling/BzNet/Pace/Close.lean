import BzNet.Pace.Order
import BzNet.Pace.Duplicate
import Mathlib.Data.List.Forall2

/-!
# Queued datagrams and the close of their socket

The queues of the pacer and of the delayed duplicates, under any interleaving of sends, of the two threads
that drain them, and of hooked `closesocket` calls. The close path calls the real function first, then
purges the duplicates, then flushes the pacer and purges what the flush has left of the socket, which is
nothing: a paced datagram still queued when its socket is closed is sent on a closed handle. The duplicates are
there as the code has them, but dormant; what goes wrong in a real run is the pacer's part.

The stamps are not part of the program. They say of every queued datagram how often its socket had been
closed when it was queued, so that a reused handle is told apart from the one before.
-/

namespace BzNet

/-! ## Stamps beside a queue -/

section Stamps
variable {R S : Nat → Outgoing → Prop}

def keptStamps (p : Outgoing → Bool) (stamps : List Nat) (l : List Outgoing) : List Nat :=
  ((stamps.zip l).filter fun x => p x.2).map Prod.fst

theorem forall₂_keptStamps {p : Outgoing → Bool} {stamps : List Nat} {l : List Outgoing}
    (h : List.Forall₂ R stamps l) : List.Forall₂ R (keptStamps p stamps l) (l.filter p) := by
  unfold keptStamps
  induction h with
  | nil => exact .nil
  | @cons b o stamps l hR _ ih =>
    cases hp : p o with
    | true =>
      rw [List.zip_cons_cons, List.filter_cons_of_pos (by simpa using hp), List.filter_cons_of_pos hp]
      exact .cons hR ih
    | false =>
      rw [List.zip_cons_cons, List.filter_cons_of_neg (by simp [hp]), List.filter_cons_of_neg (by simp [hp])]
      exact ih

theorem forall₂_imp_mem {stamps : List Nat} {l : List Outgoing} (h : List.Forall₂ R stamps l)
    (himp : ∀ b o, o ∈ l → R b o → S b o) : List.Forall₂ S stamps l := by
  induction h with
  | nil => exact .nil
  | cons hR _ ih =>
    exact .cons (himp _ _ List.mem_cons_self hR) (ih fun b o ho => himp b o (List.mem_cons_of_mem _ ho))

theorem forall₂_concat {stamps : List Nat} {l : List Outgoing} {b : Nat} {o : Outgoing}
    (h : List.Forall₂ R stamps l) (hR : R b o) : List.Forall₂ R (stamps ++ [b]) (l ++ [o]) := by
  induction h with
  | nil => exact .cons hR .nil
  | cons h1 _ ih => exact .cons h1 ih

end Stamps

/-! ## The system -/

/-- A queued datagram passed to the real send function. -/
structure Sent where
  out : Outgoing
  /-- How often its socket had been closed when it was queued, and when it was sent. -/
  queuedAt : Nat
  sentAt : Nat

/-- It was sent after the socket it names had been closed. -/
def Sent.Late (w : Sent) : Prop := w.queuedAt < w.sentAt

/-- What a `closesocket` that has made the real call has still to do. -/
inductive CloseStage where
  | dupPurge
  | pacePurge
deriving DecidableEq

structure CloseSys where
  tx : PaceCtx
  dup : DupCtx
  /-- The copy that the duplicate thread has taken off the queue and not sent yet. -/
  hand : Option Outgoing
  closing : Socket → Option CloseStage
  wire : List Sent
  closes : Socket → Nat
  txStamps : List Nat
  dupStamps : List Nat
  handStamp : Nat

inductive CloseAct where
  | take (o : Outgoing) (now : U64)
  | duplicate (o : Outgoing) (now : U64)
  | turn (now : U64)
  | dupPop (now : U64)
  | dupSend
  | realClose (s : Socket)
  | dupPurge (s : Socket)
  | pacePurge (s : Socket)

def closeSysInit (rateBps maxDelayMs dupDelayMs dupMaxPps : U32) (now : U64) : CloseSys where
  tx := paceInit rateBps maxDelayMs now
  dup := dupInit dupDelayMs dupMaxPps
  hand := none
  closing := fun _ => none
  wire := []
  closes := fun _ => 0
  txStamps := []
  dupStamps := []
  handStamp := 0

/-- What the wire sees of the first entries of a queue. -/
def sentOf (closes : Socket → Nat) (stamps : List Nat) (es : List Outgoing) : List Sent :=
  List.zipWith (fun b o => ⟨o, b, closes o.sock⟩) stamps es

/-- The pacer sends the entries `es` off the front of its queue and goes on as `c`. -/
def CloseSys.pacerSends (s : CloseSys) (c : PaceCtx) (es : List PaceEntry) : CloseSys :=
  { s with
    tx := c
    txStamps := s.txStamps.drop es.length
    wire := s.wire ++ sentOf s.closes s.txStamps (es.map PaceEntry.toOutgoing) }

/-- One locked section, one real call, or one send of the duplicate thread; `none` where no thread is there. -/
def closeSysStep (s : CloseSys) : CloseAct → Option CloseSys
  | .take o now =>
    let r := paceTake s.tx o now
    let t := s.pacerSends r.1 r.2.2
    some { t with txStamps := if r.2.1 then t.txStamps ++ [s.closes o.sock] else t.txStamps }
  | .duplicate o now =>
    let d := dupEnqueue s.dup o now
    some { s with
      dup := d
      dupStamps := if s.dup.q.used < d.q.used then s.dupStamps ++ [s.closes o.sock] else s.dupStamps }
  | .turn now =>
    let r := sendPaceTurn s.tx now
    some (s.pacerSends r.1 r.2)
  | .dupPop now =>
    if s.hand.isSome then none
    else (dupPopDue s.dup now).map fun r =>
      { s with
        dup := r.2
        hand := some r.1.toOutgoing
        dupStamps := s.dupStamps.drop 1
        handStamp := s.dupStamps.headD 0 }
  | .dupSend => s.hand.map fun o =>
      { s with hand := none, wire := s.wire ++ [⟨o, s.handStamp, s.closes o.sock⟩] }
  | .realClose sock =>
    if (s.closing sock).isSome then none
    else some { s with
      closes := Function.update s.closes sock (s.closes sock + 1)
      closing := Function.update s.closing sock (some .dupPurge) }
  | .dupPurge sock =>
    if s.closing sock = some .dupPurge then
      some { s with
        dup := dupPurgeSocket s.dup sock
        dupStamps := keptStamps (fun o => o.sock != sock) s.dupStamps s.dup.pending
        closing := Function.update s.closing sock (some .pacePurge) }
    else none
  | .pacePurge sock =>
    if s.closing sock = some .pacePurge then
      let r := paceFlushLocked s.tx
      let t := s.pacerSends r.1 r.2
      some { t with
        tx := pacePurgeSocket t.tx sock
        txStamps := keptStamps (fun o => o.sock != sock) t.txStamps t.tx.pending
        closing := Function.update s.closing sock none }
    else none

/-! ## Stamps along a run -/

/-- Every queued datagram has a stamp, and it stands in relation `R` to the closes of its socket. -/
structure StampedBy (R : Nat → Nat → Prop) (s : CloseSys) : Prop where
  tx : List.Forall₂ (fun b (o : Outgoing) => R b (s.closes o.sock)) s.txStamps s.tx.pending
  hand : ∀ o, s.hand = some o → R s.handStamp (s.closes o.sock)
  wire : ∀ w ∈ s.wire, R w.queuedAt w.sentAt

theorem mem_sentOf {R : Nat → Nat → Prop} {closes : Socket → Nat} {stamps : List Nat} {es rest : List Outgoing}
    (h : List.Forall₂ (fun b (o : Outgoing) => R b (closes o.sock)) stamps (es ++ rest)) :
    ∀ w ∈ sentOf closes stamps es, R w.queuedAt w.sentAt := by
  induction es generalizing stamps with
  | nil => simp [sentOf]
  | cons o es ih =>
    cases h with
    | @cons b _ stamps _ hR h =>
      intro w hw
      rw [sentOf, List.zipWith_cons_cons] at hw
      rcases List.mem_cons.mp hw with rfl | hw
      · exact hR
      · exact ih h w hw

theorem StampedBy.pacerSends {R : Nat → Nat → Prop} {s : CloseSys} (h : StampedBy R s) {c : PaceCtx}
    {es : List PaceEntry} (hsplit : es ++ c.q.toList = s.tx.q.toList) : StampedBy R (s.pacerSends c es) := by
  have htx := h.tx
  rw [PaceCtx.pending, ← hsplit, List.map_append] at htx
  have hdrop := List.forall₂_drop_append _ _ _ htx
  rw [List.length_map] at hdrop
  refine ⟨hdrop, h.hand, fun w hw => ?_⟩
  rcases List.mem_append.mp hw with hw | hw
  · exact h.wire w hw
  · exact mem_sentOf htx w hw

theorem takeStep_split {c : PaceCtx} {o : Outgoing} {q es : List PaceEntry} (h : TakeStep c o q false es) :
    es ++ q = c.q.toList := by
  cases h with
  | passed _ hq => rw [hq, List.nil_append]
  | flushed hq => rw [hq, List.append_nil]

theorem StampedBy.take {R : Nat → Nat → Prop} (hrefl : ∀ n, R n n) {s t : CloseSys} (h : StampedBy R s)
    {o : Outgoing} {now : U64} (hs : closeSysStep s (.take o now) = some t) : StampedBy R t := by
  obtain rfl := Option.some.inj hs
  obtain ⟨-, hstep⟩ := paceTake_step s.tx o now
  generalize paceTake s.tx o now = r at hstep
  obtain ⟨c, taken, es⟩ := r
  simp only at hstep
  cases taken with
  | false => exact h.pacerSends (takeStep_split hstep)
  | true =>
    cases hstep with
    | taken due _ _ hq =>
      refine ⟨?_, h.hand, by simpa [CloseSys.pacerSends, sentOf] using h.wire⟩
      simp only [CloseSys.pacerSends, PaceCtx.pending, hq, List.map_append, List.length_nil, List.drop_zero, if_true]
      exact forall₂_concat h.tx (hrefl _)

theorem StampedBy.pacePurge {R : Nat → Nat → Prop} {s t : CloseSys} (h : StampedBy R s) {sock : Socket}
    (hs : closeSysStep s (.pacePurge sock) = some t) : StampedBy R t := by
  simp only [closeSysStep] at hs
  split at hs
  · obtain rfl := Option.some.inj hs
    obtain ⟨hall, hnil, -⟩ := paceFlushLocked_all s.tx
    have hfront : (paceFlushLocked s.tx).2 ++ (paceFlushLocked s.tx).1.q.toList = s.tx.q.toList := by
      rw [hall, hnil, List.append_nil]
    have hsent := h.pacerSends hfront
    refine ⟨?_, hsent.hand, hsent.wire⟩
    have hkept := forall₂_keptStamps (p := fun o => o.sock != sock) hsent.tx
    have hpend : (pacePurgeSocket (paceFlushLocked s.tx).1 sock).pending =
        (s.pacerSends (paceFlushLocked s.tx).1 (paceFlushLocked s.tx).2).tx.pending.filter fun o => o.sock != sock := by
      rw [PaceCtx.pending, pacePurgeSocket, RingBuffer.toList_keep, PaceCtx.pending, List.filter_map]
      rfl
    rw [← hpend] at hkept
    exact hkept
  · exact absurd hs (by simp)

theorem closes_realClose {s t : CloseSys} {sock : Socket} (hs : closeSysStep s (.realClose sock) = some t) :
    t = { s with
      closes := Function.update s.closes sock (s.closes sock + 1)
      closing := Function.update s.closing sock (some .dupPurge) } := by
  simp only [closeSysStep] at hs
  split at hs
  · exact absurd hs (by simp)
  · exact (Option.some.inj hs).symm

theorem dupPop_some {s t : CloseSys} {now : U64} (hs : closeSysStep s (.dupPop now) = some t) :
    ∃ e c, dupPopDue s.dup now = some (e, c) ∧
      t = { s with
        dup := c
        hand := some e.toOutgoing
        dupStamps := s.dupStamps.drop 1
        handStamp := s.dupStamps.headD 0 } := by
  simp only [closeSysStep] at hs
  split at hs
  · exact absurd hs (by simp)
  · obtain ⟨⟨e, c⟩, hpop, rfl⟩ := Option.map_eq_some_iff.mp hs
    exact ⟨e, c, hpop, rfl⟩

/-- **One action on the stamps.** Only a real close and the taking of a duplicate can spoil them. -/
theorem StampedBy.step {R : Nat → Nat → Prop} (hrefl : ∀ n, R n n) {s t : CloseSys} {act : CloseAct}
    (h : StampedBy R s) (hs : closeSysStep s act = some t)
    (hclose : ∀ sock, act = .realClose sock → ∀ b (o : Outgoing), o ∈ s.tx.pending ∨ s.hand = some o →
      R b (s.closes o.sock) → R b (Function.update s.closes sock (s.closes sock + 1) o.sock))
    (hpop : ∀ now e c, act = .dupPop now → dupPopDue s.dup now = some (e, c) →
      R (s.dupStamps.headD 0) (s.closes e.sock)) : StampedBy R t := by
  cases act with
  | take o now => exact h.take hrefl hs
  | duplicate o now =>
    obtain rfl := Option.some.inj hs
    exact ⟨h.tx, h.hand, h.wire⟩
  | turn now =>
    obtain rfl := Option.some.inj hs
    exact h.pacerSends (sendPaceTurn_split s.tx now).1
  | dupPop now =>
    obtain ⟨e, c, hdue, rfl⟩ := dupPop_some hs
    refine ⟨h.tx, fun o ho => ?_, h.wire⟩
    obtain rfl : e.toOutgoing = o := Option.some.inj ho
    exact hpop now e c rfl hdue
  | dupSend =>
    simp only [closeSysStep] at hs
    obtain ⟨o, hhand, rfl⟩ := Option.map_eq_some_iff.mp hs
    refine ⟨h.tx, fun o ho => by simp at ho, fun w hw => ?_⟩
    rcases List.mem_append.mp hw with hw | hw
    · exact h.wire w hw
    · rw [List.mem_singleton.mp hw]
      exact h.hand o hhand
  | realClose sock =>
    obtain rfl := closes_realClose hs
    exact ⟨forall₂_imp_mem h.tx fun b o ho hR => hclose sock rfl b o (Or.inl ho) hR,
      fun o ho => hclose sock rfl _ o (Or.inr ho) (h.hand o ho), h.wire⟩
  | dupPurge sock =>
    simp only [closeSysStep] at hs
    split at hs
    · obtain rfl := Option.some.inj hs
      exact ⟨h.tx, h.hand, h.wire⟩
    · exact absurd hs (by simp)
  | pacePurge sock => exact h.pacePurge hs

/-- The queued duplicates are stamped no later than now. -/
def DupStamped (s : CloseSys) : Prop :=
  List.Forall₂ (fun b (o : Outgoing) => b ≤ s.closes o.sock) s.dupStamps s.dup.pending

theorem le_update_closes (closes : Socket → Nat) (sock sock' : Socket) :
    closes sock' ≤ Function.update closes sock (closes sock + 1) sock' := by
  by_cases h : sock' = sock
  · subst h
    rw [Function.update_self]
    omega
  · rw [Function.update_of_ne h]

/-- The real close of a socket leaves every stamp of it behind. -/
theorem lt_update_closes {closes : Socket → Nat} {b : Nat} {sock sock' : Socket} (hle : b ≤ closes sock')
    (hsock : sock' = sock) : b < Function.update closes sock (closes sock + 1) sock' := by
  subst hsock
  rw [Function.update_self]
  omega

theorem DupStamped.head_le {s : CloseSys} (h : DupStamped s) {now : U64} {e : DupEntry} {c : DupCtx}
    (hdue : dupPopDue s.dup now = some (e, c)) : s.dupStamps.headD 0 ≤ s.closes e.sock := by
  unfold DupStamped at h
  rw [dupPopDue_some hdue] at h
  cases hst : s.dupStamps with
  | nil => exact Nat.zero_le _
  | cons b stamps =>
    rw [hst] at h
    cases h with
    | cons hb _ => exact hb

theorem DupStamped.step {s t : CloseSys} {act : CloseAct} (h : DupStamped s) (hs : closeSysStep s act = some t) :
    DupStamped t := by
  cases act with
  | take o now =>
    obtain rfl := Option.some.inj hs
    exact h
  | duplicate o now =>
    obtain rfl := Option.some.inj hs
    unfold DupStamped
    simp only
    have hlen := length_dupPending s.dup
    have hlen' := length_dupPending (dupEnqueue s.dup o now)
    rcases dupEnqueue_pending s.dup o now with heq | heq
    · rw [heq] at hlen' ⊢
      rw [if_neg (by omega)]
      exact h
    · rw [heq, List.length_append, List.length_singleton] at hlen'
      rw [heq, if_pos (by omega)]
      exact forall₂_concat h (Nat.le_refl _)
  | turn now =>
    obtain rfl := Option.some.inj hs
    exact h
  | dupPop now =>
    obtain ⟨e, c, hdue, rfl⟩ := dupPop_some hs
    unfold DupStamped at h
    rw [dupPopDue_some hdue] at h
    exact List.forall₂_drop_append _ [e.toOutgoing] _ h
  | dupSend =>
    simp only [closeSysStep] at hs
    obtain ⟨o, hhand, rfl⟩ := Option.map_eq_some_iff.mp hs
    exact h
  | realClose sock =>
    obtain rfl := closes_realClose hs
    exact forall₂_imp_mem h fun b o _ hle => Nat.le_trans hle (le_update_closes s.closes sock o.sock)
  | dupPurge sock =>
    simp only [closeSysStep] at hs
    split at hs
    · obtain rfl := Option.some.inj hs
      unfold DupStamped
      simp only
      rw [dupPurgeSocket_pending]
      exact forall₂_keptStamps h
    · exact absurd hs (by simp)
  | pacePurge sock =>
    simp only [closeSysStep] at hs
    split at hs
    · obtain rfl := Option.some.inj hs
      exact h
    · exact absurd hs (by simp)

/-! ## When nothing is sent late -/

/-- The state before an action is such that nothing queued can miss the close of its socket: a socket is
closed only when no paced datagram and no copy in the duplicate thread's hand names it, and a copy is taken
off the queue only when its socket has not been closed since. -/
def Tidy (s : CloseSys) : CloseAct → Prop
  | .realClose sock => (∀ o ∈ s.tx.pending, o.sock ≠ sock) ∧ ∀ o ∈ s.hand, o.sock ≠ sock
  | .dupPop now => ∀ r ∈ dupPopDue s.dup now, s.dupStamps.headD 0 = s.closes r.1.sock
  | _ => True

instance (s : CloseSys) : (act : CloseAct) → Decidable (Tidy s act)
  | .realClose sock => inferInstanceAs (Decidable ((∀ o ∈ s.tx.pending, o.sock ≠ sock) ∧ ∀ o ∈ s.hand, o.sock ≠ sock))
  | .dupPop now => inferInstanceAs (Decidable (∀ r ∈ dupPopDue s.dup now, s.dupStamps.headD 0 = s.closes r.1.sock))
  | .take _ _ | .duplicate _ _ | .turn _ | .dupSend | .dupPurge _ | .pacePurge _ => isTrue trivial

/-- Every action of the run is tidy when it is taken. -/
def TidyRun : CloseSys → List CloseAct → Prop
  | _, [] => True
  | s, act :: acts => Tidy s act ∧ ∀ t ∈ closeSysStep s act, TidyRun t acts

instance TidyRun.decidable : (s : CloseSys) → (acts : List CloseAct) → Decidable (TidyRun s acts)
  | _, [] => isTrue trivial
  | s, act :: acts =>
    have : ∀ t, Decidable (TidyRun t acts) := fun t => TidyRun.decidable t acts
    inferInstanceAs (Decidable (Tidy s act ∧ ∀ t ∈ closeSysStep s act, TidyRun t acts))

theorem StampedBy.tidyStep {s t : CloseSys} {act : CloseAct} (h : StampedBy (· = ·) s) (htidy : Tidy s act)
    (hs : closeSysStep s act = some t) : StampedBy (· = ·) t := by
  refine h.step (fun n => rfl) hs ?_ ?_
  · rintro sock rfl b o ho rfl
    have hne : o.sock ≠ sock := ho.elim (htidy.1 o) (htidy.2 o)
    rw [Function.update_of_ne hne]
  · rintro now e c rfl hdue
    exact htidy (e, c) hdue

theorem stampedBy_init (R : Nat → Nat → Prop) (rateBps maxDelayMs dupDelayMs dupMaxPps : U32) (t0 : U64) :
    StampedBy R (closeSysInit rateBps maxDelayMs dupDelayMs dupMaxPps t0) :=
  ⟨.nil, fun o ho => by simp [closeSysInit] at ho, fun w hw => by simp [closeSysInit] at hw⟩

/-- Along a run of tidy actions every stamp is up to date. -/
theorem tidyRun_stamped {s t : CloseSys} {acts : List CloseAct} (h0 : StampedBy (· = ·) s)
    (hrun : acts.foldlM closeSysStep s = some t) (htidy : TidyRun s acts) : StampedBy (· = ·) t := by
  induction acts generalizing s with
  | nil =>
    obtain rfl : s = t := Option.some.inj hrun
    exact h0
  | cons act acts ih =>
    obtain ⟨u, hu, hrest⟩ := Machine.foldlM_cons_iff.mp hrun
    exact ih (h0.tidyStep htidy.1 hu) hrest (htidy.2 u hu)

theorem run_stamped {s t : CloseSys} {acts : List CloseAct} (h0 : StampedBy (· ≤ ·) s ∧ DupStamped s)
    (hrun : acts.foldlM closeSysStep s = some t) : StampedBy (· ≤ ·) t ∧ DupStamped t := by
  refine Machine.foldlM_inv (P := fun _ s => StampedBy (· ≤ ·) s ∧ DupStamped s) h0 ?_ hrun
  intro _ s act t ⟨h, hdup⟩ hs
  refine ⟨h.step Nat.le_refl hs ?_ ?_, hdup.step hs⟩
  · rintro sock - b o - hle
    exact Nat.le_trans hle (le_update_closes s.closes sock o.sock)
  · intro now e c _ hdue
    exact hdup.head_le hdue

/-! ## What an untidy action leads to -/

theorem exists_sentOf {R : Nat → Outgoing → Prop} (closes : Socket → Nat) {stamps : List Nat} {l : List Outgoing}
    (h : List.Forall₂ R stamps l) {o : Outgoing} (ho : o ∈ l) :
    ∃ b, R b o ∧ ⟨o, b, closes o.sock⟩ ∈ sentOf closes stamps l := by
  induction h with
  | nil => simp at ho
  | @cons b o' stamps l hR _ ih =>
    rw [sentOf, List.zipWith_cons_cons]
    rcases List.mem_cons.mp ho with rfl | ho
    · exact ⟨b, hR, List.mem_cons_self⟩
    · obtain ⟨b', hR', hmem⟩ := ih ho
      exact ⟨b', hR', List.mem_cons_of_mem _ hmem⟩

theorem foldlM_pair {s t u : CloseSys} {a b : CloseAct} (h1 : closeSysStep s a = some t)
    (h2 : closeSysStep t b = some u) : [a, b].foldlM closeSysStep s = some u := by
  simp [h1, h2]

/-- The rest of the close path sends everything the pacer holds. -/
theorem closePath_flushes {s : CloseSys} {sock : Socket} (hstage : s.closing sock = some .dupPurge) :
    ∃ u, [CloseAct.dupPurge sock, .pacePurge sock].foldlM closeSysStep s = some u ∧
      u.wire = s.wire ++ sentOf s.closes s.txStamps s.tx.pending := by
  have hpurge : closeSysStep s (.dupPurge sock) = some { s with
      dup := dupPurgeSocket s.dup sock
      dupStamps := keptStamps (fun o => o.sock != sock) s.dupStamps s.dup.pending
      closing := Function.update s.closing sock (some .pacePurge) } := if_pos hstage
  refine ⟨_, foldlM_pair hpurge (if_pos (Function.update_self ..)), ?_⟩
  obtain ⟨hall, -, -⟩ := paceFlushLocked_all s.tx
  simp only [CloseSys.pacerSends]
  rw [hall]
  rfl

/-- A paced datagram that is queued when its socket is closed is flushed by the close path itself. -/
theorem realClose_flushes {s t : CloseSys} {sock : Socket} (h : StampedBy (· ≤ ·) s)
    (hs : closeSysStep s (.realClose sock) = some t) {o : Outgoing} (ho : o ∈ s.tx.pending) (hsock : o.sock = sock) :
    ∃ u, [CloseAct.dupPurge sock, .pacePurge sock].foldlM closeSysStep t = some u ∧ ∃ w ∈ u.wire, w.Late := by
  obtain rfl := closes_realClose hs
  obtain ⟨u, hu, hwire⟩ := closePath_flushes (s := { s with
    closes := Function.update s.closes sock (s.closes sock + 1)
    closing := Function.update s.closing sock (some .dupPurge) }) (Function.update_self sock _ _)
  obtain ⟨b, hle, hmem⟩ := exists_sentOf (Function.update s.closes sock (s.closes sock + 1)) h.tx ho
  refine ⟨u, hu, _, hwire ▸ List.mem_append_right _ hmem, ?_⟩
  exact lt_update_closes hle hsock

theorem dupSend_late {s : CloseSys} {o : Outgoing} (hhand : s.hand = some o) (hlt : s.handStamp < s.closes o.sock) :
    ∃ u, [CloseAct.dupSend].foldlM closeSysStep s = some u ∧ ∃ w ∈ u.wire, w.Late := by
  refine ⟨{ s with hand := none, wire := s.wire ++ [⟨o, s.handStamp, s.closes o.sock⟩] }, ?_, _,
    List.mem_append_right _ (List.mem_singleton_self _), hlt⟩
  simp [closeSysStep, hhand]

theorem untidy_late {s t : CloseSys} {act : CloseAct} (h : StampedBy (· ≤ ·) s) (hdup : DupStamped s)
    (hs : closeSysStep s act = some t) (huntidy : ¬ Tidy s act) :
    ∃ (more : List CloseAct) (u : CloseSys), more.foldlM closeSysStep t = some u ∧ ∃ w ∈ u.wire, w.Late := by
  cases act with
  | realClose sock =>
    by_cases hq : ∀ o ∈ s.tx.pending, o.sock ≠ sock
    · have hhand : ¬ ∀ o ∈ s.hand, o.sock ≠ sock := fun hh => huntidy ⟨hq, hh⟩
      push Not at hhand
      obtain ⟨o, ho, hsock⟩ := hhand
      have hle := h.hand o ho
      obtain rfl := closes_realClose hs
      exact ⟨_, dupSend_late ho (lt_update_closes hle hsock)⟩
    · push Not at hq
      obtain ⟨o, ho, hsock⟩ := hq
      exact ⟨_, realClose_flushes h hs ho hsock⟩
  | dupPop now =>
    unfold Tidy at huntidy
    push Not at huntidy
    obtain ⟨⟨e, c⟩, hdue, hne⟩ := huntidy
    obtain ⟨e', c', hdue', rfl⟩ := dupPop_some hs
    obtain ⟨rfl, rfl⟩ := Prod.mk.inj (Option.some.inj (hdue.symm.trans hdue'))
    exact ⟨_, dupSend_late rfl (Nat.lt_of_le_of_ne (hdup.head_le hdue) hne)⟩
  | take | duplicate | turn | dupSend | dupPurge | pacePurge => exact absurd trivial huntidy

/-- **When no queued datagram is sent after the close of its socket.** Not in a run of tidy actions; and
every untidy action of a run can be followed by others that send one. -/
theorem close_sends_late_iff_untidy (rateBps maxDelayMs dupDelayMs dupMaxPps : U32) (t0 : U64) (acts : List CloseAct)
    (s : CloseSys)
    (hrun : acts.foldlM closeSysStep (closeSysInit rateBps maxDelayMs dupDelayMs dupMaxPps t0) = some s) :
    (TidyRun (closeSysInit rateBps maxDelayMs dupDelayMs dupMaxPps t0) acts → ∀ w ∈ s.wire, ¬ w.Late) ∧
      ∀ act t, closeSysStep s act = some t → ¬ Tidy s act →
        ∃ (more : List CloseAct) (u : CloseSys), more.foldlM closeSysStep t = some u ∧ ∃ w ∈ u.wire, w.Late := by
  constructor
  · intro htidy w hw
    have hstamped := tidyRun_stamped (stampedBy_init _ ..) hrun htidy
    have heq := hstamped.wire w hw
    unfold Sent.Late
    omega
  · intro act t hs huntidy
    obtain ⟨h, hdup⟩ := run_stamped ⟨stampedBy_init _ .., .nil⟩ hrun
    exact untidy_late h hdup hs huntidy

/-- Two datagrams, the second of which waits in the queue, and the close of their socket. -/
def closeRun (between : List CloseAct) : List CloseAct :=
  [.take (sampleOutgoing 5 1100 1) 0, .take (sampleOutgoing 5 1100 2) 0] ++ between ++
    [.realClose 5, .dupPurge 5, .pacePurge 5]

theorem closeRun_isSome :
    ((closeRun [.turn 20]).foldlM closeSysStep (closeSysInit 8000 20 25 40 0)).isSome = true ∧
      ((closeRun []).foldlM closeSysStep (closeSysInit 8000 20 25 40 0)).isSome = true := by
  decide +kernel

/-- When the pacer thread gets to it first, the close finds nothing. -/
theorem close_sends_late_iff_untidy_turn :
    let s := ((closeRun [.turn 20]).foldlM closeSysStep (closeSysInit 8000 20 25 40 0)).get closeRun_isSome.1
    s.wire.length = 1 ∧ ∀ w ∈ s.wire, ¬ w.Late :=
  ⟨by decide +kernel, (close_sends_late_iff_untidy 8000 20 25 40 0 (closeRun [.turn 20]) _
    (Option.some_get _).symm).1 (by decide +kernel)⟩

/-- When it does not, the close path sends the datagram on the closed socket. -/
theorem close_sends_late :
    ¬ ∀ (rateBps maxDelayMs dupDelayMs dupMaxPps : U32) (t0 : U64) (acts : List CloseAct) (s : CloseSys),
      acts.foldlM closeSysStep (closeSysInit rateBps maxDelayMs dupDelayMs dupMaxPps t0) = some s →
        ∀ w ∈ s.wire, ¬ w.Late := by
  intro h
  have hlate := h 8000 20 25 40 0 (closeRun []) _ (Option.some_get closeRun_isSome.2).symm
  revert hlate
  unfold Sent.Late
  decide +kernel

end BzNet
