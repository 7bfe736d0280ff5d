import BzNet.Link.Core
import BzNet.Proxy.RttSends

/-!
# What the send side of a machine still has to send

* `SendSys.outbox` : what is queued, in the hand of the duplicate thread, or with the game's own thread;
* `sendSysStep_outbox` : no section hands over and keeps more than it had and was given.
-/

namespace BzNet

/-- How often the datagram of the send in progress may still be sent. -/
def Flight.copies (sendDup : Bool) (f : Flight) : Nat := if sendDup && f.stage ≠ .dup then 2 else 1

def SendSys.inFlight (s : SendSys) : List Outgoing :=
  s.flight.toList.flatMap fun f => List.replicate (f.copies s.sendDup) f.args.outgoing

/-- What the send side has still to send: queued, as a delayed duplicate, or by the game's own thread. -/
def SendSys.outbox (s : SendSys) : List Outgoing := s.tx.pending ++ s.dup.pending ++ s.hand.toList ++ s.inFlight

/-- What a call brings in: with duplication on, room for a second copy. -/
def SendAct.brings (sendDup : Bool) : SendAct → List Outgoing
  | .start a _ _ => List.replicate (if sendDup then 2 else 1) a.outgoing
  | _ => []

section Send
variable {s t : SendSys} {q : Outgoing → Bool}

theorem handOver_out (ms : Nat → U64) (es : List PaceEntry) :
    (handOver ms es).map Handed.out = es.map PaceEntry.toOutgoing := by
  refine List.ext_getElem (by simp [handOver]) fun i h1 h2 => ?_
  simp [handOver]

theorem countP_handOver (ms : Nat → U64) (es : List PaceEntry) :
    (handOver ms es).countP (fun w => q w.out) = (es.map PaceEntry.toOutgoing).countP q := by
  rw [← handOver_out ms es, List.countP_map]
  rfl

theorem countP_pending {c c' : PaceCtx} {es : List PaceEntry} (h : es ++ c'.q.toList = c.q.toList) :
    (es.map PaceEntry.toOutgoing).countP q + c'.pending.countP q = c.pending.countP q := by
  rw [PaceCtx.pending, PaceCtx.pending, ← h, List.map_append, List.countP_append]

theorem countP_outbox (s : SendSys) (q : Outgoing → Bool) : s.outbox.countP q =
    s.tx.pending.countP q + s.dup.pending.countP q + s.hand.toList.countP q + s.inFlight.countP q := by
  simp only [SendSys.outbox, List.countP_append]

theorem inFlight_none (h : s.flight = none) : s.inFlight = [] := by
  rw [SendSys.inFlight, h]
  rfl

theorem inFlight_some {f : Flight} (h : s.flight = some f) :
    s.inFlight = List.replicate (f.copies s.sendDup) f.args.outgoing := by
  rw [SendSys.inFlight, h]
  simp

theorem Flight.copies_of {f : Flight} (h : f.stage ≠ .dup) (sendDup : Bool) :
    f.copies sendDup = if sendDup then 2 else 1 := by
  simp [Flight.copies, h]

theorem pending_of_q {c c' : PaceCtx} (h : c'.q = c.q) : c'.pending = c.pending := by
  rw [PaceCtx.pending, PaceCtx.pending, h]

theorem start_outbox (hf : s.flight = none) (a : SendArgs) (admitMs rttMs : U64) (q : Outgoing → Bool) :
    (s.start a admitMs rttMs).wire = s.wire ∧ (s.start a admitMs rttMs).sendDup = s.sendDup ∧
      (s.start a admitMs rttMs).outbox.countP q ≤
        s.outbox.countP q + (List.replicate (if s.sendDup then 2 else 1) a.outgoing).countP q := by
  rw [countP_outbox, countP_outbox, inFlight_none hf]
  unfold SendSys.start
  dsimp only
  split
  · refine ⟨rfl, rfl, ?_⟩
    rw [inFlight_none (by exact hf), pending_of_q (paceObserve_q _ _ _)]
    exact Nat.le_add_right _ _
  · refine ⟨rfl, rfl, ?_⟩
    rw [inFlight_some rfl, Flight.copies_of (by simp)]
    simp

theorem offer_outbox {f : Flight} (hf : s.flight = some f) (hstage : f.stage = .offer) (now : U64) (ms : Nat → U64)
    (q : Outgoing → Bool) : ∃ ws, (s.offer f now ms).wire = s.wire ++ ws ∧ (s.offer f now ms).sendDup = s.sendDup ∧
      ws.countP (fun w => q w.out) + (s.offer f now ms).outbox.countP q ≤ s.outbox.countP q := by
  have hcopies : ∀ g : Flight, g.stage ≠ .dup → g.copies s.sendDup = f.copies s.sendDup := fun g hg => by
    rw [Flight.copies_of hg, Flight.copies_of (by rw [hstage]; decide)]
  rw [countP_outbox s, inFlight_some hf]
  unfold SendSys.offer
  split
  · have hstep := (paceTake_step s.tx f.args.outgoing now).2
    generalize paceTake s.tx f.args.outgoing now = r at hstep
    obtain ⟨c, taken, es⟩ := r
    refine ⟨handOver ms es, rfl, rfl, ?_⟩
    simp only at hstep
    rw [countP_outbox, countP_handOver]
    cases hstep with
    | taken due hrate hpace hq =>
      have hpend : c.pending = s.tx.pending ++ [f.args.outgoing] := by
        rw [PaceCtx.pending, hq, List.map_append]
        rfl
      have hpos : 1 ≤ f.copies s.sendDup := by
        unfold Flight.copies
        split <;> omega
      have hone : [f.args.outgoing].countP q ≤ (List.replicate (f.copies s.sendDup) f.args.outgoing).countP q := by
        rw [List.countP_replicate, List.countP_singleton]
        split <;> omega
      rw [inFlight_none rfl]
      simp only [List.map_nil, List.countP_nil, hpend, List.countP_append]
      omega
    | passed hwhy hq =>
      have hpend : c.pending = s.tx.pending := by rw [PaceCtx.pending, hq, PaceCtx.pending]
      rw [inFlight_some rfl, hcopies _ (by simp)]
      simp only [List.map_nil, List.countP_nil, hpend]
      omega
    | flushed hq =>
      have hpend : (s.tx.q.toList.map PaceEntry.toOutgoing).countP q + c.pending.countP q = s.tx.pending.countP q :=
        countP_pending (by rw [hq, List.append_nil])
      rw [inFlight_some rfl, hcopies _ (by simp)]
      simp only
      omega
  · refine ⟨[], (List.append_nil _).symm, rfl, ?_⟩
    rw [countP_outbox, inFlight_some rfl, hcopies _ (by simp)]
    simp

theorem real_outbox {f : Flight} (hf : s.flight = some f) (hstage : f.stage = .real) (ok : Bool) (ms : U64)
    (q : Outgoing → Bool) : (s.real f ok ms).wire = s.wire ++ [⟨f.args.outgoing, ms⟩] ∧
      (s.real f ok ms).sendDup = s.sendDup ∧
      [f.args.outgoing].countP q + (s.real f ok ms).outbox.countP q ≤ s.outbox.countP q := by
  refine ⟨rfl, rfl, ?_⟩
  rw [countP_outbox, countP_outbox, inFlight_some hf, Flight.copies_of (by rw [hstage]; decide)]
  by_cases hdup : (ok && s.sendDup && f.args.duplicable) = true
  · have hon : s.sendDup = true := by
      simp only [Bool.and_eq_true] at hdup
      exact hdup.1.2
    have hnext : (s.real f ok ms).flight = some { f with stage := .dup } := by simp [SendSys.real, hdup]
    have hcopies : ({ f with stage := .dup } : Flight).copies (s.real f ok ms).sendDup = 1 := by simp [Flight.copies]
    rw [inFlight_some hnext, hcopies, hon, if_pos rfl]
    simp only [SendSys.real, List.countP_replicate, List.countP_singleton]
    split <;> omega
  · have hnext : (s.real f ok ms).flight = none := by
      simp only [SendSys.real]
      exact if_neg hdup
    rw [inFlight_none hnext]
    simp only [SendSys.real, List.countP_replicate, List.countP_singleton, List.countP_nil]
    split
    · split <;> omega
    · omega

theorem duplicate_outbox {f : Flight} (hf : s.flight = some f) (hstage : f.stage = .dup) (ms : U64)
    (q : Outgoing → Bool) : ∃ ws, (s.duplicate f ms).wire = s.wire ++ ws ∧ (s.duplicate f ms).sendDup = s.sendDup ∧
      ws.countP (fun w => q w.out) + (s.duplicate f ms).outbox.countP q ≤ s.outbox.countP q := by
  have hone : f.copies s.sendDup = 1 := by simp [Flight.copies, hstage]
  rw [countP_outbox s, inFlight_some hf, hone]
  unfold SendSys.duplicate
  split
  · refine ⟨[⟨f.args.outgoing, ms⟩], rfl, rfl, ?_⟩
    rw [countP_outbox, inFlight_none rfl]
    simp only [List.countP_singleton, List.replicate_one, List.countP_nil]
    omega
  · refine ⟨[], (List.append_nil _).symm, rfl, ?_⟩
    rw [countP_outbox, inFlight_none rfl]
    rcases dupEnqueue_pending s.dup f.args.outgoing ms with h | h
    · simp only [h, List.countP_nil]
      omega
    · simp only [h, List.countP_append, List.countP_nil, List.replicate_one]
      omega

/-- **One section** of the send side hands over and keeps no more than it had and was given. -/
theorem sendSysStep_outbox {act : SendAct} (h : sendSysStep s act = some t) (q : Outgoing → Bool) :
    ∃ ws, t.wire = s.wire ++ ws ∧ t.sendDup = s.sendDup ∧
      ws.countP (fun w => q w.out) + t.outbox.countP q ≤ s.outbox.countP q + (act.brings s.sendDup).countP q := by
  cases act with
  | start a admitMs rttMs =>
    simp only [sendSysStep] at h
    split at h
    · cases h
    · next hf =>
      obtain rfl := Option.some.inj h
      have hf : s.flight = none := by simpa using hf
      obtain ⟨hwire, hdup, hle⟩ := start_outbox hf a admitMs rttMs q
      exact ⟨[], by rw [hwire, List.append_nil], hdup, by simpa [SendAct.brings] using hle⟩
  | offer now ms =>
    obtain ⟨f, hat, rfl⟩ := Option.map_eq_some_iff.mp h
    obtain ⟨hf, hstage⟩ := at_some hat
    exact offer_outbox hf hstage now ms q
  | real ok ms =>
    obtain ⟨f, hat, rfl⟩ := Option.map_eq_some_iff.mp h
    obtain ⟨hf, hstage⟩ := at_some hat
    obtain ⟨hwire, hdup, hle⟩ := real_outbox hf hstage ok ms q
    exact ⟨_, hwire, hdup, hle⟩
  | dup ms =>
    obtain ⟨f, hat, rfl⟩ := Option.map_eq_some_iff.mp h
    obtain ⟨hf, hstage⟩ := at_some hat
    exact duplicate_outbox hf hstage ms q
  | turn now ms =>
    obtain rfl := Option.some.inj h
    refine ⟨handOver ms (sendPaceTurn s.tx now).2, rfl, rfl, ?_⟩
    have hpend := countP_pending (q := q) (sendPaceTurn_split s.tx now).1
    rw [countP_outbox, countP_outbox, countP_handOver, ← hpend]
    simp only [SendSys.inFlight, SendAct.brings, List.countP_nil]
    omega
  | dupPop now =>
    simp only [sendSysStep] at h
    split at h
    · cases h
    · next hhand =>
      obtain ⟨r, hpop, rfl⟩ := Option.map_eq_some_iff.mp h
      have hhand : s.hand = none := by simpa using hhand
      refine ⟨[], (List.append_nil _).symm, rfl, ?_⟩
      rw [countP_outbox, countP_outbox, dupPopDue_some hpop, hhand, ← List.singleton_append, List.countP_append]
      simp only [SendSys.inFlight, SendAct.brings, List.countP_nil, Option.toList_some, Option.toList_none]
      omega
  | dupSend ms =>
    obtain ⟨o, hhand, rfl⟩ := Option.map_eq_some_iff.mp h
    refine ⟨[⟨o, ms⟩], rfl, rfl, ?_⟩
    rw [countP_outbox, countP_outbox, hhand]
    simp only [SendSys.inFlight, SendAct.brings, List.countP_nil, Option.toList_some, Option.toList_none,
      List.countP_singleton]
    omega
  | recv addr pay now =>
    obtain rfl := Option.some.inj h
    refine ⟨[], (List.append_nil _).symm, rfl, ?_⟩
    rw [List.countP_nil, Nat.zero_add]
    exact Nat.le_add_right _ _

end Send

end BzNet
