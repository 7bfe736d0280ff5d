import BzNet.Proxy.SendSections
import BzNet.Rtt.Karn
import Mathlib.Algebra.Order.Group.Multiset
import Mathlib.Tactic.Abel

/-!
# The sampler's send records against the wire

A send is recorded once, before the pacer and before its duplicate. The records are therefore the copies handed to a
real send function as long as nothing reliable is queued by the pacer, duplicated, sent past the sampler's section,
or handed over at another tick than it was recorded.

* `Balanced` : the records are the copies handed over and the one of the send in progress;
* `Clean` : the condition on an action, in terms of the state before it;
* `step_balanced_iff` : an action keeps the balance exactly when it is clean;
* `rtt_records_match_iff_clean` : so does a run, and then every sample is timed against a copy on the wire;
* `sample_recorded_once` : when a sample is for a sequence that was recorded once.
-/

namespace BzNet

open Machine

/-! ## The balance -/

/-- The copy that the send in progress is about to hand over, as it was when the sampler looked at it. -/
def SendSys.carried (s : SendSys) : Option Copy :=
  (s.flight.filter fun f => f.stage ≠ .dup).bind fun f => copyOf f.args.outgoing f.rttMs

/-- **The records are the copies handed over**, and the one on its way. -/
def Balanced (s : SendSys) : Prop :=
  (s.records : Multiset Copy) = s.handed + (s.carried.toList : Multiset Copy)

/-- The pacer holds nothing reliable for a peer. -/
def QueueUntracked (s : SendSys) : Prop := ∀ e ∈ s.tx.q.toList, ¬ e.Tracked

/-- What keeps the balance. A reliable datagram for a peer is sent visibly, is not queued by the pacer, is handed over
at the tick it was recorded, and leaves once. -/
def Clean (s : SendSys) : SendAct → Prop
  | .start a _ _ => a.outgoing.Tracked → a.Visible
  | .offer now _ => ∀ f, s.at .offer = some f → f.args.outgoing.Tracked →
      ¬ (f.args.offered = true ∧ PacerQueues s.tx f.args.outgoing now)
  | .real _ ms => ∀ f, s.at .real = some f → f.args.outgoing.Tracked → f.rttMs = ms
  | .dup _ => ∀ f, s.at .dup = some f → f.args.outgoing.Tracked → s.dup.delayMs ≠ 0
  | .dupSend _ => ∀ o, s.hand = some o → ¬ o.Tracked
  | .turn _ _ => True
  | .dupPop _ => True
  | .recv _ _ _ => True

section Balance
variable {s t : SendSys}

theorem at_some {stage : SendStage} {f : Flight} (h : s.at stage = some f) : s.flight = some f ∧ f.stage = stage := by
  rw [SendSys.at, Option.filter_eq_some_iff] at h
  simpa using h

theorem handed_append (s : SendSys) (ws : List Handed) :
    (s.wire ++ ws).filterMap (fun w => copyOf w.out w.ms) = s.handed ++ ws.filterMap fun w => copyOf w.out w.ms :=
  List.filterMap_append

theorem handed_one (o : Outgoing) (ms : U64) :
    ([⟨o, ms⟩] : List Handed).filterMap (fun w => copyOf w.out w.ms) = (copyOf o ms).toList := by
  cases h : copyOf o ms <;> simp [h]

theorem copyOf_eq_none {o : Outgoing} {ms : U64} : copyOf o ms = none ↔ ¬ o.Tracked := by
  unfold copyOf
  split
  · next h => simp [h]
  · next h => simp [h]

theorem handOver_untracked {es : List PaceEntry} (h : ∀ e ∈ es, ¬ e.Tracked) (ms : Nat → U64) :
    (handOver ms es).filterMap (fun w => copyOf w.out w.ms) = [] := by
  rw [List.filterMap_eq_nil_iff]
  intro w hw
  obtain ⟨i, hi, rfl⟩ := List.mem_mapIdx.mp hw
  exact copyOf_eq_none.mpr (h _ (List.getElem_mem hi))

/-- One action against the balance: what it records and what it hands over, with the copy on its way before and
after. -/
theorem balanced_iff (noted out : Option Copy) (hb : Balanced s) (hr : t.records = s.records ++ noted.toList)
    (hh : t.handed = s.handed ++ out.toList) : Balanced t ↔
      (noted.toList : Multiset Copy) + s.carried.toList = (out.toList : Multiset Copy) + t.carried.toList := by
  unfold Balanced at hb ⊢
  rw [hr, hh, ← Multiset.coe_add, ← Multiset.coe_add, hb]
  have hl : (s.handed : Multiset Copy) + s.carried.toList + noted.toList =
      s.handed + ((noted.toList : Multiset Copy) + s.carried.toList) := by abel
  rw [hl, add_assoc, add_right_inj]

theorem toList_coe_inj {x y : Option Copy} : (x.toList : Multiset Copy) = y.toList ↔ x = y := by
  constructor
  · intro h
    cases x with
    | none => cases y with
      | none => rfl
      | some b => simp at h
    | some a => cases y with
      | none => simp at h
      | some b => simpa using h
  · rintro rfl
    rfl

/-- A send starts: what is recorded has to be what is on its way. -/
theorem balanced_starts (hb : Balanced s) (hc : s.carried = none) {noted : Option Copy}
    (hr : t.records = s.records ++ noted.toList) (hh : t.handed = s.handed) : Balanced t ↔ noted = t.carried := by
  rw [balanced_iff noted none hb hr (by simp [hh]), hc, ← toList_coe_inj]
  simp

/-- A send in progress ends, or hands its datagram over: what was on its way has to be what is handed over. -/
theorem balanced_lands (hb : Balanced s) (hc : t.carried = none) {out : Option Copy} (hr : t.records = s.records)
    (hh : t.handed = s.handed ++ out.toList) : Balanced t ↔ s.carried = out := by
  rw [balanced_iff none out hb (by simp [hr]) hh, hc, ← toList_coe_inj]
  simp

theorem balanced_besides (hb : Balanced s) (hc : t.carried = s.carried) {out : Option Copy}
    (hr : t.records = s.records) (hh : t.handed = s.handed ++ out.toList) : Balanced t ↔ out = none := by
  rw [balanced_iff none out hb (by simp [hr]) hh, hc, ← toList_coe_inj, add_left_inj, eq_comm]

theorem carried_none (h : s.flight = none) : s.carried = none := by rw [SendSys.carried, h]; rfl

theorem carried_some {f : Flight} (h : s.flight = some f) (hstage : f.stage ≠ .dup) :
    s.carried = copyOf f.args.outgoing f.rttMs := by
  rw [SendSys.carried, h, Option.filter_some, if_pos (decide_eq_true hstage), Option.bind_some]

theorem carried_dup {f : Flight} (h : s.flight = some f) (hstage : f.stage = .dup) : s.carried = none := by
  rw [SendSys.carried, h, Option.filter_some, if_neg (by simp [hstage]), Option.bind_none]

theorem copyOf_eq_copyOf {o : Outgoing} {m n : U64} : copyOf o m = copyOf o n ↔ (o.Tracked → m = n) := by
  unfold copyOf
  split
  · next h => simp [h]
  · next h => simp [h]

/-! ## One action -/

theorem balanced_of_same (hb : Balanced s) (hr : t.records = s.records) (hh : t.handed = s.handed)
    (hc : t.carried = s.carried) : Balanced t := by
  exact (balanced_besides hb hc hr (by simpa using hh)).mpr rfl

theorem start_calls (s : SendSys) (a : SendArgs) (admitMs rttMs : U64) :
    (s.start a admitMs rttMs).calls = s.calls ++ rttCalls s.proxy (.send (a.call admitMs rttMs)) := by
  unfold SendSys.start
  dsimp only
  split <;> rfl

theorem records_start (s : SendSys) (a : SendArgs) (admitMs rttMs : U64) : (s.start a admitMs rttMs).records =
    s.records ++ (if (hookedSend s.proxy (a.call admitMs rttMs)).2 then none else a.noted rttMs).toList := by
  rw [SendSys.records, start_calls, List.filterMap_append, rttCalls, call_gate]
  congr 1
  split
  · rfl
  · rw [SendArgs.noted]
    cases sendGate a.flags (a.dest.map readSockAddr) a.form.flat with
    | none => rfl
    | some g =>
      simp only [Option.map_some, Option.toList_some, Option.bind_some, List.filterMap_cons, List.filterMap_nil,
        SendArgs.call]
      split <;> simp_all

theorem start_balanced (hb : Balanced s) (hq : QueueUntracked s) (a : SendArgs) (admitMs rttMs : U64)
    (hf : s.flight = none) : (Balanced (s.start a admitMs rttMs) ↔ (a.outgoing.Tracked → a.Visible)) ∧
      QueueUntracked (s.start a admitMs rttMs) := by
  have hr := records_start s a admitMs rttMs
  have hc := carried_none hf
  by_cases hsup : (hookedSend s.proxy (a.call admitMs rttMs)).2 = true
  · rw [if_pos hsup] at hr
    have hstart : s.start a admitMs rttMs = { s with
        proxy := (hookedSend s.proxy (a.call admitMs rttMs)).1
        calls := s.calls ++ rttCalls s.proxy (.send (a.call admitMs rttMs))
        tx := paceObserve s.tx (BitVec.ofNat 32 a.form.data.length) admitMs } := by
      rw [SendSys.start]
      exact if_pos hsup
    have hvis : a.Visible := by
      cases hg : (a.call admitMs rttMs).gate with
      | none =>
        rw [hookedSend_ungated hg] at hsup
        cases hsup
      | some g =>
        rw [call_gate] at hg
        exact visible_of_gate hg
    refine ⟨⟨fun _ _ => hvis, fun _ => ?_⟩, ?_⟩
    · refine balanced_of_same hb (by simpa using hr) ?_ ?_
      · rw [hstart]
        rfl
      · rw [hstart]
        rfl
    · rw [hstart]
      intro e he
      rw [paceObserve_q] at he
      exact hq e he
  · rw [if_neg hsup] at hr
    have hstart : s.start a admitMs rttMs = { s with
        proxy := (hookedSend s.proxy (a.call admitMs rttMs)).1
        calls := s.calls ++ rttCalls s.proxy (.send (a.call admitMs rttMs))
        flight := some ⟨a, rttMs, .offer⟩ } := by
      rw [SendSys.start]
      exact if_neg hsup
    have hhand : (s.start a admitMs rttMs).handed = s.handed := by
      rw [hstart]
      rfl
    have hcarried : (s.start a admitMs rttMs).carried = copyOf a.outgoing rttMs := by
      rw [hstart]
      exact carried_some (f := ⟨a, rttMs, .offer⟩) rfl (by simp)
    rw [balanced_starts hb hc hr hhand, hcarried, noted_eq_iff]
    refine ⟨Iff.rfl, ?_⟩
    rw [hstart]
    exact hq

theorem handed_untracked {es : List PaceEntry} (h : ∀ e ∈ es, ¬ e.Tracked) (ms : Nat → U64)
    (hw : t.wire = s.wire ++ handOver ms es) : t.handed = s.handed := by
  rw [SendSys.handed, hw, handed_append, handOver_untracked h, List.append_nil]

theorem declined_queue {c : PaceCtx} {o : Outgoing} {q es : List PaceEntry} (h : TakeStep c o q false es) :
    (∀ e ∈ es, e ∈ c.q.toList) ∧ ∀ e ∈ q, e ∈ c.q.toList := by
  cases h with
  | passed hwhy hq => exact ⟨fun _ he => absurd he List.not_mem_nil, fun e he => hq ▸ he⟩
  | flushed hq => exact ⟨fun e he => he, fun e he => absurd (hq ▸ he) List.not_mem_nil⟩

theorem taken_queue {c : PaceCtx} {o : Outgoing} {q es : List PaceEntry} (h : TakeStep c o q true es) :
    es = [] ∧ ∀ e ∈ q, e ∈ c.q.toList ∨ e.toOutgoing = o := by
  cases h with
  | taken due hrate hpace hq =>
    refine ⟨rfl, fun e he => ?_⟩
    rw [hq, List.mem_append, List.mem_singleton] at he
    exact he.imp_right fun h => congrArg PaceEntry.toOutgoing h

theorem offer_balanced (hb : Balanced s) (hq : QueueUntracked s) {f : Flight} (hf : s.flight = some f)
    (hstage : f.stage = .offer) (now : U64) (ms : Nat → U64) :
    (Balanced (s.offer f now ms) ↔
      (f.args.outgoing.Tracked → ¬ (f.args.offered = true ∧ PacerQueues s.tx f.args.outgoing now))) ∧
    ((f.args.outgoing.Tracked → ¬ (f.args.offered = true ∧ PacerQueues s.tx f.args.outgoing now)) →
      QueueUntracked (s.offer f now ms)) := by
  have hc := carried_some hf (by simp [hstage])
  have hnext : ∀ {u : SendSys}, u.flight = some { f with stage := .real } → u.carried = s.carried := by
    intro u hu
    rw [carried_some hu (by simp), hc]
  unfold SendSys.offer
  by_cases hoff : f.args.offered = true
  · rw [if_pos hoff]
    simp only [hoff, true_and, ← paceTake_taken_iff]
    obtain ⟨-, hstep⟩ := paceTake_step s.tx f.args.outgoing now
    generalize paceTake s.tx f.args.outgoing now = r at hstep ⊢
    obtain ⟨c', took, es⟩ := r
    cases took with
    | true =>
      obtain ⟨hes, hmem⟩ := taken_queue hstep
      obtain rfl : es = [] := hes
      simp only [if_true, not_true_eq_false, imp_false]
      refine ⟨?_, fun hun e he ht => ?_⟩
      · refine (@balanced_lands s _ hb ?_ none ?_ ?_).trans ?_
        · exact carried_none rfl
        · rfl
        · rw [handed_untracked (fun e he => absurd he List.not_mem_nil) ms rfl, Option.toList_none, List.append_nil]
        · rw [hc, copyOf_eq_none]
      · rcases hmem e he with h | h
        · exact hq e h ht
        · exact hun (h ▸ ht)
    | false =>
      obtain ⟨hes, hmem⟩ := declined_queue hstep
      simp only [Bool.false_eq_true, if_false, not_false_eq_true, implies_true, iff_true, true_implies]
      refine ⟨balanced_of_same hb rfl (handed_untracked (fun e he => hq e (hes e he)) ms rfl) (hnext rfl), ?_⟩
      exact fun e he => hq e (hmem e he)
  · rw [if_neg hoff]
    simp only [hoff, Bool.false_eq_true, false_and, not_false_eq_true, implies_true, iff_true, true_implies]
    exact ⟨balanced_of_same hb rfl rfl (hnext rfl), hq⟩

theorem real_balanced (hb : Balanced s) {f : Flight} (hf : s.flight = some f) (hstage : f.stage = .real) (ok : Bool)
    (ms : U64) : Balanced (s.real f ok ms) ↔ (f.args.outgoing.Tracked → f.rttMs = ms) := by
  have hc := carried_some hf (by simp [hstage])
  have hnone : (s.real f ok ms).carried = none := by
    unfold SendSys.real
    split
    · exact carried_dup (f := { f with stage := .dup }) rfl rfl
    · exact carried_none rfl
  have hhand : (s.real f ok ms).handed = s.handed ++ (copyOf f.args.outgoing ms).toList := by
    rw [SendSys.handed, SendSys.real, handed_append, handed_one]
  rw [balanced_lands hb hnone rfl hhand, hc, copyOf_eq_copyOf]

theorem duplicate_balanced (hb : Balanced s) {f : Flight} (hf : s.flight = some f) (hstage : f.stage = .dup) (ms : U64) :
    Balanced (s.duplicate f ms) ↔ (f.args.outgoing.Tracked → s.dup.delayMs ≠ 0) := by
  have hc := carried_dup hf hstage
  unfold SendSys.duplicate
  by_cases hd : s.dup.delayMs = 0
  · rw [if_pos hd]
    refine (@balanced_besides s { s with wire := s.wire ++ [⟨f.args.outgoing, ms⟩], flight := none } hb ?_
      (copyOf f.args.outgoing ms) rfl ?_).trans ?_
    · exact (carried_none rfl).trans hc.symm
    · rw [SendSys.handed, handed_append, handed_one]
    · rw [copyOf_eq_none]
      simp [hd]
  · rw [if_neg hd]
    simp only [ne_eq, hd, not_false_eq_true, implies_true, iff_true]
    exact balanced_of_same hb rfl rfl ((carried_none rfl).trans hc.symm)

theorem dupSend_balanced (hb : Balanced s) (o : Outgoing) (ms : U64) :
    Balanced { s with hand := none, wire := s.wire ++ [⟨o, ms⟩] } ↔ ¬ o.Tracked := by
  refine (@balanced_besides s { s with hand := none, wire := s.wire ++ [⟨o, ms⟩] } hb rfl
    (copyOf o ms) rfl ?_).trans copyOf_eq_none
  rw [SendSys.handed, handed_append, handed_one]

theorem receive_balanced (hb : Balanced s) (addr : U32) (pay : Payload) (now : U64) :
    Balanced (s.receive addr pay now) := by
  refine balanced_of_same hb ?_ rfl rfl
  rw [SendSys.records, SendSys.receive, List.filterMap_append]
  exact List.append_nil _

theorem turn_untracked (hq : QueueUntracked s) (now : U64) :
    (∀ e ∈ (sendPaceTurn s.tx now).2, ¬ e.Tracked) ∧ ∀ e ∈ (sendPaceTurn s.tx now).1.q.toList, ¬ e.Tracked := by
  obtain ⟨hsplit, -⟩ := sendPaceTurn_split s.tx now
  constructor
  · exact fun e he => hq e (hsplit ▸ List.mem_append_left _ he)
  · exact fun e he => hq e (hsplit ▸ List.mem_append_right _ he)

/-- **One action** keeps the balance exactly when it is clean. -/
theorem step_balanced_iff {act : SendAct} (hq : QueueUntracked s) (hb : Balanced s) (hs : sendSysStep s act = some t) :
    (Balanced t ↔ Clean s act) ∧ (Clean s act → QueueUntracked t) := by
  cases act with
  | start a admitMs rttMs =>
    rw [sendSysStep] at hs
    split at hs
    · cases hs
    · next hf =>
      obtain rfl := Option.some.inj hs
      have hst := start_balanced hb hq a admitMs rttMs (by simpa using hf)
      exact ⟨hst.1, fun _ => hst.2⟩
  | offer now ms =>
    obtain ⟨f, hf, rfl⟩ := Option.map_eq_some_iff.mp hs
    obtain ⟨hfl, hstage⟩ := at_some hf
    have hclean : Clean s (.offer now ms) ↔
        (f.args.outgoing.Tracked → ¬ (f.args.offered = true ∧ PacerQueues s.tx f.args.outgoing now)) := by
      simp [Clean, hf]
    rw [hclean]
    exact offer_balanced hb hq hfl hstage now ms
  | real ok ms =>
    obtain ⟨f, hf, rfl⟩ := Option.map_eq_some_iff.mp hs
    obtain ⟨hfl, hstage⟩ := at_some hf
    have hclean : Clean s (.real ok ms) ↔ (f.args.outgoing.Tracked → f.rttMs = ms) := by simp [Clean, hf]
    exact ⟨(real_balanced hb hfl hstage ok ms).trans hclean.symm, fun _ => hq⟩
  | dup ms =>
    obtain ⟨f, hf, rfl⟩ := Option.map_eq_some_iff.mp hs
    obtain ⟨hfl, hstage⟩ := at_some hf
    have hclean : Clean s (.dup ms) ↔ (f.args.outgoing.Tracked → s.dup.delayMs ≠ 0) := by simp [Clean, hf]
    refine ⟨(duplicate_balanced hb hfl hstage ms).trans hclean.symm, fun _ => ?_⟩
    unfold SendSys.duplicate
    split <;> exact hq
  | turn now ms =>
    obtain rfl := Option.some.inj hs
    obtain ⟨hsent, hrest⟩ := turn_untracked hq now
    exact ⟨⟨fun _ => trivial, fun _ => balanced_of_same hb rfl (handed_untracked hsent ms rfl) rfl⟩, fun _ => hrest⟩
  | dupPop now =>
    rw [sendSysStep] at hs
    split at hs
    · cases hs
    · obtain ⟨r, hr, rfl⟩ := Option.map_eq_some_iff.mp hs
      exact ⟨⟨fun _ => trivial, fun _ => balanced_of_same hb rfl rfl rfl⟩, fun _ => hq⟩
  | dupSend ms =>
    obtain ⟨o, ho, rfl⟩ := Option.map_eq_some_iff.mp hs
    have hclean : Clean s (.dupSend ms) ↔ ¬ o.Tracked := by simp [Clean, ho]
    exact ⟨(dupSend_balanced hb o ms).trans hclean.symm, fun _ => hq⟩
  | recv addr pay now =>
    obtain rfl := Option.some.inj hs
    exact ⟨⟨fun _ => trivial, fun _ => receive_balanced hb addr pay now⟩, fun _ => hq⟩

end Balance

/-! ## The samples -/

def Copy.isOf (peer seq : U32) (c : Copy) : Bool := c.peer == peer && c.seq == seq

def timesRecorded (calls : List RttOp) (peer seq : U32) : Nat :=
  (calls.filterMap recordOf).countP (Copy.isOf peer seq)

/-- Every send of `seq` to `peer` among the calls is the first, or finds the sequence still outstanding. -/
def ResentOutstanding (calls : List RttOp) (peer seq : U32) : Prop :=
  ∀ cs op cs', calls = cs ++ op :: cs' → (∃ c, recordOf op = some c ∧ Copy.isOf peer seq c = true) →
    Outstanding (rttRecord (final rttStep (rttInit true) cs) peer) seq ∨ timesRecorded cs peer seq = 0

section Samples
variable {op : RttOp} {peer seq : U32}

theorem recordOf_isOf : (∃ c, recordOf op = some c ∧ Copy.isOf peer seq c = true) ↔
    ∃ pay t, op = .send peer pay t ∧ Sequenced pay ∧ reorderSeqFromPayload pay = seq := by
  constructor
  · rintro ⟨c, hop, hc⟩
    unfold recordOf at hop
    split at hop
    · split at hop
      · next hseq =>
        cases hop
        rw [Copy.isOf, Bool.and_eq_true, beq_iff_eq, beq_iff_eq] at hc
        obtain ⟨rfl, rfl⟩ := hc
        exact ⟨_, _, rfl, hseq, rfl⟩
      · cases hop
    · cases hop
  · rintro ⟨pay, t, rfl, hseq, rfl⟩
    exact ⟨_, if_pos hseq, by simp [Copy.isOf]⟩

theorem timesRecorded_split (cs cs' : List RttOp) (h : ∃ c, recordOf op = some c ∧ Copy.isOf peer seq c = true) :
    timesRecorded (cs ++ op :: cs') peer seq = timesRecorded cs peer seq + 1 + timesRecorded cs' peer seq := by
  obtain ⟨c, hop, hc⟩ := h
  unfold timesRecorded
  rw [List.filterMap_append, List.filterMap_cons_some hop, List.countP_append, List.countP_cons_of_pos hc]
  omega

theorem timesRecorded_eq_zero {calls : List RttOp} (h : ∀ pay t, RttOp.send peer pay t ∈ calls → Sequenced pay →
    reorderSeqFromPayload pay ≠ seq) : timesRecorded calls peer seq = 0 := by
  rw [timesRecorded, List.countP_eq_zero]
  intro c hc hof
  obtain ⟨op, hmem, hrec⟩ := List.mem_filterMap.mp hc
  obtain ⟨pay, t, rfl, hpay, hseq⟩ := recordOf_isOf.mp ⟨c, hrec, hof⟩
  exact h pay t hmem hpay hseq

end Samples

/-- A sample is for a sequence recorded once exactly when no send of it came after the sampler had forgotten one. -/
theorem sample_recorded_once (calls : List RttOp) {addr : U32} {pay : Payload} {now : U64} {ms : U32}
    (h : (rttStep (final rttStep (rttInit true) calls) (.recv addr pay now)).2 = some (.sample ms)) :
    timesRecorded calls addr (reorderAckFromPayload pay) = 1 ↔
      ResentOutstanding calls addr (reorderAckFromPayload pay) := by
  obtain ⟨cs, pay', t, cs', rfl, hpay', hseq', -, hnew, hlast⟩ := sample_last calls h
  have hop : ∃ c, recordOf (.send addr pay' t) = some c ∧ Copy.isOf addr (reorderAckFromPayload pay) c = true :=
    recordOf_isOf.mpr ⟨pay', t, rfl, hpay', hseq'⟩
  constructor
  · intro hone ds op ds' hsplit hop'
    rw [hsplit, timesRecorded_split ds ds' hop'] at hone
    exact Or.inr (by omega)
  · intro hres
    rw [timesRecorded_split cs cs' hop, timesRecorded_eq_zero hlast, (hres cs _ cs' rfl hop).resolve_left hnew]

/-- What holds of the sampler in every run. -/
structure SamplerOk (s : SendSys) : Prop where
  run : s.proxy.rtt = final rttStep (rttInit true) s.calls
  timed : ∀ x ∈ s.samples, ∃ c ∈ s.records, c.peer = x.peer ∧ c.seq = x.seq ∧ x.ms.toNat = x.now.toNat - c.ms.toNat

theorem receive_samplerOk {s : SendSys} (h : SamplerOk s) (addr : U32) (pay : Payload) (now : U64) :
    SamplerOk (s.receive addr pay now) where
  run := by
    rw [SendSys.receive, final_concat, ← h.run]
    rfl
  timed := by
    have hrec : (s.receive addr pay now).records = s.records := by
      rw [SendSys.records, SendSys.receive, List.filterMap_append]
      exact List.append_nil _
    rw [hrec]
    intro x hx
    rcases List.mem_append.mp hx with hold | hnew
    · exact h.timed x hold
    · rw [Option.mem_toList, sampleOf.eq_def] at hnew
      split at hnew
      · next ms hms =>
        cases hnew
        have hsample : (rttStep (final rttStep (rttInit true) s.calls) (.recv addr pay now)).2 = some (.sample ms) := by
          rw [← h.run]
          exact congrArg some hms
        obtain ⟨cs, pay', t, cs', hsplit, hpay', hseq', htime, -⟩ := sample_last s.calls hsample
        refine ⟨⟨addr, reorderSeqFromPayload pay', t⟩, ?_, rfl, hseq', htime⟩
        exact List.mem_filterMap.mpr ⟨.send addr pay' t, by simp [hsplit], if_pos hpay'⟩
      · cases hnew

theorem start_samplerOk {s : SendSys} (h : SamplerOk s) (a : SendArgs) (admitMs rttMs : U64) :
    SamplerOk (s.start a admitMs rttMs) where
  run := by
    have hrtt : (s.start a admitMs rttMs).proxy.rtt =
        final rttStep s.proxy.rtt (rttCalls s.proxy (.send (a.call admitMs rttMs))) := by
      rw [← proxyStep_rtt]
      unfold SendSys.start
      dsimp only
      split <;> rfl
    rw [hrtt, start_calls, final_append, h.run]
  timed := by
    rw [records_start]
    have hsamples : (s.start a admitMs rttMs).samples = s.samples := by
      unfold SendSys.start
      dsimp only
      split <;> rfl
    rw [hsamples]
    intro x hx
    obtain ⟨c, hc, hx⟩ := h.timed x hx
    exact ⟨c, List.mem_append_left _ hc, hx⟩

theorem samplerOk_of_same {s t : SendSys} (h : SamplerOk s) (hproxy : t.proxy = s.proxy) (hcalls : t.calls = s.calls)
    (hsamples : t.samples = s.samples) : SamplerOk t where
  run := by rw [hproxy, hcalls, h.run]
  timed := by
    rw [SendSys.records, hcalls, hsamples]
    exact h.timed

theorem step_samplerOk {s t : SendSys} (h : SamplerOk s) {act : SendAct} (hs : sendSysStep s act = some t) :
    SamplerOk t := by
  cases act with
  | start a admitMs rttMs =>
    rw [sendSysStep] at hs
    split at hs
    · cases hs
    · obtain rfl := Option.some.inj hs
      exact start_samplerOk h a admitMs rttMs
  | offer now ms =>
    obtain ⟨f, -, rfl⟩ := Option.map_eq_some_iff.mp hs
    unfold SendSys.offer
    split <;> exact samplerOk_of_same h rfl rfl rfl
  | real ok ms =>
    obtain ⟨f, -, rfl⟩ := Option.map_eq_some_iff.mp hs
    exact samplerOk_of_same h rfl rfl rfl
  | dup ms =>
    obtain ⟨f, -, rfl⟩ := Option.map_eq_some_iff.mp hs
    unfold SendSys.duplicate
    split <;> exact samplerOk_of_same h rfl rfl rfl
  | turn now ms =>
    obtain rfl := Option.some.inj hs
    exact samplerOk_of_same h rfl rfl rfl
  | dupPop now =>
    rw [sendSysStep] at hs
    split at hs
    · cases hs
    · obtain ⟨r, -, rfl⟩ := Option.map_eq_some_iff.mp hs
      exact samplerOk_of_same h rfl rfl rfl
  | dupSend ms =>
    obtain ⟨o, -, rfl⟩ := Option.map_eq_some_iff.mp hs
    exact samplerOk_of_same h rfl rfl rfl
  | recv addr pay now =>
    obtain rfl := Option.some.inj hs
    exact receive_samplerOk h addr pay now

/-! ## The main result -/

/-- **The records against the wire.** All along a run the records are the copies handed over, each at its time,
exactly when every action of the run is clean. A sample is then the time since a copy was handed over, and is for a
sequence of which two copies left only when the game resent one that the sampler had forgotten. -/
theorem rtt_records_match_iff_clean (cfg : ProxyCfg) (tx : TxCfg) (acts : List SendAct) :
    (StatesMeet sendSysStep Balanced (sendSysInit cfg tx) acts ↔
      StepsMeet sendSysStep Clean (sendSysInit cfg tx) acts) ∧
    ∀ s, acts.foldlM sendSysStep (sendSysInit cfg tx) = some s →
      StepsMeet sendSysStep Clean (sendSysInit cfg tx) acts →
      (s.flight = none → (s.records : Multiset Copy) = s.handed) ∧
      (∀ x ∈ s.samples, ∃ c ∈ s.records, c.peer = x.peer ∧ c.seq = x.seq ∧ x.ms.toNat = x.now.toNat - c.ms.toNat) ∧
      ∀ addr pay now ms, (rttOnRecv s.proxy.rtt addr pay now).2 = .sample ms →
        (s.records.countP (Copy.isOf addr (reorderAckFromPayload pay)) = 1 ↔
          ResentOutstanding s.calls addr (reorderAckFromPayload pay)) := by
  have hq0 : QueueUntracked (sendSysInit cfg tx) := fun e he => absurd he List.not_mem_nil
  have hb0 : Balanced (sendSysInit cfg tx) := rfl
  have hexact : StatesMeet sendSysStep Balanced (sendSysInit cfg tx) acts ↔
      StepsMeet sendSysStep Clean (sendSysInit cfg tx) acts :=
    statesMeet_iff (fun hq hb hs => step_balanced_iff hq hb hs) hq0 hb0 acts
  refine ⟨hexact, fun s hrun hclean => ?_⟩
  have hok : SamplerOk s :=
    foldlM_inv (P := fun _ s => SamplerOk s) ⟨rfl, fun x hx => absurd hx List.not_mem_nil⟩
      (fun _ _ _ _ h hs => step_samplerOk h hs) hrun
  refine ⟨fun hf => ?_, hok.timed, fun addr pay now ms hms => ?_⟩
  · have hb : Balanced s := (hexact.mpr hclean).last hrun
    rw [Balanced, carried_none hf] at hb
    simpa using hb
  · have hsample : (rttStep (final rttStep (rttInit true) s.calls) (.recv addr pay now)).2 = some (.sample ms) := by
      rw [← hok.run]
      exact congrArg some hms
    exact sample_recorded_once s.calls hsample

/-- A reliable send that the pacer holds for 18 ms is recorded when it is queued, so that the sample of its
acknowledgement includes them. One duplicated at once would be recorded once and leave twice, and its acknowledgement be
timed; but nothing sets `g_send_dup`. -/
theorem rtt_records_differ :
    let args (pay : Payload) : SendArgs := ⟨7, .sendto (some pay), 0, some [2, 0, 0x45, 0x6a, 10, 0, 0, 2]⟩
    let pay := makePkt true 5 0
    let ack : SendAct := .recv (sampleAddr 2) (makePkt true 1 5) 1048
    let shaped := sendSysInit (sampleCfg false) ⟨1000, 40, false, 0, 0, 1000⟩
    let late : List SendAct := [.start (args (makePkt false 6 0 ++ List.replicate 2030 0)) 1000 1000,
      .offer 1000 fun _ => 1000, .real true 1000, .start (args pay) 1000 1000, .offer 1000 fun _ => 1000,
      .turn 1018 fun _ => 1018, ack]
    let doubled := sendSysInit (sampleCfg false) ⟨0, 40, true, 0, 0, 1000⟩
    let twice : List SendAct := [.start (args pay) 1000 1000, .offer 1000 fun _ => 1000, .real true 1000, .dup 1000, ack]
    (∃ s, late.foldlM sendSysStep shaped = some s ∧ s.flight = none ∧ (s.records : Multiset Copy) ≠ s.handed ∧
      s.records = [⟨sampleAddr 2, 5, 1000⟩] ∧ s.handed = [⟨sampleAddr 2, 5, 1018⟩] ∧
      s.samples.map Sampled.ms = [48]) ∧
    ∃ s, twice.foldlM sendSysStep doubled = some s ∧ s.flight = none ∧ (s.records : Multiset Copy) ≠ s.handed ∧
      s.records = [⟨sampleAddr 2, 5, 1000⟩] ∧ s.handed = [⟨sampleAddr 2, 5, 1000⟩, ⟨sampleAddr 2, 5, 1000⟩] ∧
      s.samples.map Sampled.ms = [48] := by
  intro args pay ack shaped late doubled twice
  have hlate : (late.foldlM sendSysStep shaped).isSome = true := by decide +kernel
  have htwice : (twice.foldlM sendSysStep doubled).isSome = true := by decide +kernel
  refine ⟨⟨_, (Option.some_get hlate).symm, ?_⟩, ⟨_, (Option.some_get htwice).symm, ?_⟩⟩
  · decide +kernel +revert
  · decide +kernel +revert

end BzNet
