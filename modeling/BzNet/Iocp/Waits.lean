import BzNet.Iocp.Completions
import BzNet.Lib.Loop

/-!
# How long a call waits

What the port and the game see of one hooked `GetQueuedCompletionStatus`: the real calls it makes, the timeout each of
them is given, and what it returns.

* `iocpRemaining` : the part of the budget that is left;
* `CallTrace`, `iocpTrace` : the loop as it runs, with its real calls in order, and without a bound on its rounds other
  than the fuel;
* `iocpLoop_trace` : it is the loop of `iocpCall`;
* `iocp_call_terminates` : it returns, within `kIocpHoldCap + 1` real calls and the time the game allowed.
-/

namespace BzNet

variable {s t : IocpState} {c : IocpCall} {r : IocpRound} {budget : U32}

/-! ## The budget -/

/-- `remaining`: nothing past the deadline. -/
def iocpRemaining (enteredMs : U64) (budget : U32) (now : U64) : U32 :=
  let deadline := enteredMs + budget.setWidth 64
  if now ≥ deadline then 0 else (deadline - now).setWidth 32

theorem iocpBudget_toNat (s : IocpState) (timeout : U32) :
    (iocpBudget s timeout).toNat = min timeout.toNat s.rx.cfg.winMaxMs.toNat := by
  have hmax := s.rx.cfg.winMaxMs.isLt
  unfold iocpBudget
  split
  · next h =>
    have hinf : timeout.toNat = 4294967295 := congrArg BitVec.toNat h
    omega
  · split
    · next h => exact (Nat.min_eq_left (Nat.le_of_lt (BitVec.lt_def.mp h))).symm
    · next h => exact (Nat.min_eq_right (BitVec.le_def.mp (BitVec.not_lt.mp h))).symm

/-- The wait never reaches past the deadline, whatever the clock does. -/
theorem iocpRemaining_le (enteredMs : U64) (budget : U32) (now : U64) :
    (iocpRemaining enteredMs budget now).toNat ≤ enteredMs.toNat + budget.toNat - now.toNat := by
  unfold iocpRemaining
  dsimp only
  split
  · exact Nat.zero_le _
  · next h =>
    have hle : now ≤ enteredMs + budget.setWidth 64 := BitVec.le_of_lt (BitVec.not_le.mp h)
    have hdeadline : (enteredMs + budget.setWidth 64).toNat ≤ enteredMs.toNat + budget.toNat := by
      rw [BitVec.toNat_add, BitVec.toNat_setWidth_of_le (by decide)]
      exact Nat.mod_le _ _
    rw [BitVec.toNat_setWidth, BitVec.toNat_sub_of_le hle]
    calc ((enteredMs + budget.setWidth 64).toNat - now.toNat) % 2 ^ 32
        ≤ (enteredMs + budget.setWidth 64).toNat - now.toNat := Nat.mod_le _ _
      _ ≤ enteredMs.toNat + budget.toNat - now.toNat := Nat.sub_le_sub_right hdeadline _

/-! ## The trace of a call -/

/-- A call of the real function: the clock its timeout goes by, the timeout, and the answer. -/
structure RealCall where
  clockMs : U64
  waitMs : U32
  answer : PortAnswer

/-- A hooked call from outside: the real calls of its loop, the one it makes in place of the loop or after the
watchdog, and the return value with the three results. -/
structure CallTrace where
  loop : List RealCall
  outside : Option RealCall
  result : Completion

/-- What the caller learns of: a failure without an overlapped is no completion. -/
def Completion.delivered (d : Completion) : Option Completion := if d.ok ∨ d.ov ≠ 0 then some d else none

def CallTrace.calls (tr : CallTrace) : List RealCall := tr.loop ++ tr.outside.toList

def CallTrace.out (tr : CallTrace) : IocpOut :=
  ⟨tr.calls.filterMap fun q => q.answer.dequeued, tr.result.delivered⟩

/-- The real call of a round, which it makes unless something held is ready. -/
def iocpRoundCall (c : IocpCall) (budget : U32) (s : IocpState) (r : IocpRound) : Option RealCall :=
  match (iocpPickReady s r.nowMs).2 with
  | some _ => none
  | none => some ⟨r.nowMs, iocpRemaining c.enteredMs budget r.nowMs, r.answer⟩

/-- What a round that returns leaves in the caller's variables. -/
def iocpRoundResult (s : IocpState) (r : IocpRound) : Completion :=
  match (iocpPickReady s r.nowMs).2 with
  | some (i, _) => (s.held i).completion
  | none =>
    if r.answer.completion.ov = 0 then
      match iocpPickOldest s with
      | some i => (s.held i).completion
      | none => r.answer.completion
    else r.answer.completion

/-- The loop before a round. -/
structure LoopAt where
  round : Nat
  state : IocpState
  asked : List RealCall

def iocpLoopStep (c : IocpCall) (budget : U32) (l : LoopAt) : LoopAt ⊕ CallTrace :=
  let r := c.rounds l.round
  let asked := l.asked ++ (iocpRoundCall c budget l.state r).toList
  match iocpRound l.state r with
  | .returns _ _ => .inr ⟨asked, none, iocpRoundResult l.state r⟩
  | .defers t _ =>
    if iocpOverrun c budget r then .inr ⟨asked, some ⟨r.watchMs, 0, c.last⟩, c.last.completion⟩
    else .inl ⟨l.round + 1, t, asked⟩

/-- The hooked call, cut off after `fuel` rounds of its loop. -/
def iocpTrace (fuel : Nat) (s : IocpState) (c : IocpCall) : Option CallTrace :=
  if !s.reorder || s.disabled then some ⟨[], some ⟨c.enteredMs, c.timeout, c.last⟩, c.last.completion⟩
  else Loop.run (iocpLoopStep c (iocpBudget s c.timeout)) fuel ⟨0, s, []⟩

/-! ## A round from outside -/

theorem dequeued_one (q : RealCall) : [q].filterMap (fun q => q.answer.dequeued) = q.answer.dequeued.toList := by
  cases h : q.answer.dequeued with
  | none => simp [h]
  | some d => simp [h]

theorem iocpArrive_defers (s : IocpState) (a : PortAnswer) (now : U64) :
    (iocpArrive s a now).2 = false ∨ ∃ k h, k < kIocpHoldCap ∧ (s.held k).used = false ∧ h.used = true ∧
      (iocpArrive s a now).1.held = Function.update s.held k h := by
  unfold iocpArrive
  split
  · exact Or.inl rfl
  · split
    · exact Or.inl rfl
    · dsimp only
      split
      · exact Or.inl rfl
      · split
        · exact Or.inl rfl
        · split
          · exact Or.inl rfl
          · split
            · exact Or.inl rfl
            · next k hfind =>
              have hp := List.find?_some hfind
              have hfree : (!(s.held k).used) = true := hp
              refine Or.inr ⟨k, _, List.mem_range.mp (List.mem_of_find?_eq_some hfind), ?_, rfl, rfl⟩
              simpa using hfree

/-- A round that returns takes off the port what its real call hands out, and returns its result. -/
theorem iocpRound_returns {o : IocpOut} (h : iocpRound s r = .returns t o) :
    o = ⟨(iocpRoundCall c budget s r).toList.filterMap fun q => q.answer.dequeued, (iocpRoundResult s r).delivered⟩ := by
  have hov : ∀ {a : PortAnswer}, a.completion.ov ≠ 0 → a.dequeued = some a.completion := dequeued_of_ov
  unfold iocpRound at h
  unfold iocpRoundCall iocpRoundResult
  dsimp only at h
  cases hready : (iocpPickReady s r.nowMs).2 with
  | some p =>
    rw [hready] at h
    cases h
    rfl
  | none =>
    rw [hready] at h
    dsimp only at h ⊢
    split at h
    · next h0 =>
      rw [if_pos h0]
      have hold : iocpPickOldest { s with rx := (iocpPickReady s r.nowMs).1 } = iocpPickOldest s := rfl
      rw [hold] at h
      cases hpick : iocpPickOldest s with
      | some i =>
        rw [hpick] at h
        cases h
        rw [Option.toList_some, dequeued_one]
        rfl
      | none =>
        rw [hpick] at h
        cases h
        rw [Option.toList_some, dequeued_one]
        rfl
    · next h0 =>
      rw [if_neg h0]
      have hdelivered : r.answer.completion.delivered = some r.answer.completion := hov h0
      split at h
      · cases h
        simp [hov h0, hdelivered]
      · split at h
        · cases h
        · cases h
          simp [hov h0, hdelivered]

/-- A round that goes on has made a real call, and put what that handed out into a free place. -/
theorem iocpRound_defers {d : Completion} (h : iocpRound s r = .defers t d) :
    iocpRoundCall c budget s r = some ⟨r.nowMs, iocpRemaining c.enteredMs budget r.nowMs, r.answer⟩ ∧
      r.answer.dequeued = some d ∧ Multiset.card (heldOf t) = Multiset.card (heldOf s) + 1 := by
  unfold iocpRound at h
  unfold iocpRoundCall
  dsimp only at h
  cases hready : (iocpPickReady s r.nowMs).2 with
  | some p =>
    rw [hready] at h
    cases h
  | none =>
    rw [hready] at h
    dsimp only at h
    split at h
    · split at h <;> cases h
    · next h0 =>
      split at h
      · cases h
      · split at h
        · next hdef =>
          cases h
          refine ⟨rfl, dequeued_of_ov h0, ?_⟩
          rcases iocpArrive_defers { s with rx := (iocpPickReady s r.nowMs).1 } r.answer r.afterMs with hno | hfill
          · rw [hno] at hdef
            cases hdef
          · obtain ⟨k, hh, hk, hfree, hu, ht⟩ := hfill
            have hheld : heldOf _ = hh.completion ::ₘ heldOf s := heldOf_fill hk hfree hu ht
            rw [hheld, Multiset.card_cons]
        · cases h

/-! ## The loop of the call -/

theorem iocpLoop_trace (c : IocpCall) (budget : U32) (fuel k : Nat) (s : IocpState) (asked : List RealCall) :
    (Loop.run (iocpLoopStep c budget) fuel ⟨k, s, asked⟩).map CallTrace.out =
      (iocpLoop c budget fuel k s).map fun p =>
        ⟨(asked.filterMap fun q => q.answer.dequeued) ++ p.2.dequeued, p.2.returned⟩ := by
  induction fuel generalizing k s asked with
  | zero => rfl
  | succ fuel ih =>
    cases hround : iocpRound s (c.rounds k) with
    | returns t o =>
      have hstep : iocpLoopStep c budget ⟨k, s, asked⟩ = .inr
          ⟨asked ++ (iocpRoundCall c budget s (c.rounds k)).toList, none, iocpRoundResult s (c.rounds k)⟩ := by
        simp only [iocpLoopStep, hround]
      rw [Loop.run_returns hstep, iocpLoop, hround]
      simp only [Option.map_some, CallTrace.out, CallTrace.calls, Option.toList_none, List.append_nil,
        List.filterMap_append, @iocpRound_returns s t c (c.rounds k) budget o hround]
    | defers t d =>
      obtain ⟨hcall, hd, -⟩ := @iocpRound_defers s t c (c.rounds k) budget d hround
      have htook : (asked ++ (iocpRoundCall c budget s (c.rounds k)).toList).filterMap (fun q => q.answer.dequeued) =
          (asked.filterMap fun q => q.answer.dequeued) ++ [d] := by
        rw [hcall, Option.toList_some, List.filterMap_append, dequeued_one, hd, Option.toList_some]
      by_cases hover : iocpOverrun c budget (c.rounds k)
      · have hstep : iocpLoopStep c budget ⟨k, s, asked⟩ = .inr
            ⟨asked ++ (iocpRoundCall c budget s (c.rounds k)).toList, some ⟨(c.rounds k).watchMs, 0, c.last⟩,
              c.last.completion⟩ := by
          simp only [iocpLoopStep, hround, if_pos hover]
        rw [Loop.run_returns hstep, iocpLoop, hround]
        dsimp only
        rw [if_pos hover]
        simp only [Option.map_some, CallTrace.out, CallTrace.calls, Option.toList_some]
        rw [List.filterMap_append, htook, dequeued_one, List.append_assoc, List.singleton_append]
        rfl
      · have hstep : iocpLoopStep c budget ⟨k, s, asked⟩ = .inl
            ⟨k + 1, t, asked ++ (iocpRoundCall c budget s (c.rounds k)).toList⟩ := by
          simp only [iocpLoopStep, hround, if_neg hover]
        rw [Loop.run_goes_on hstep, ih, iocpLoop, hround, htook]
        dsimp only
        rw [if_neg hover, Option.map_map]
        congr 1
        funext p
        simp only [Function.comp_apply, List.append_assoc, List.singleton_append]

/-- What a call reports: a completion, or the empty answer of the last real call. -/
def CallTrace.Reports (tr : CallTrace) : Prop :=
  tr.result.delivered = some tr.result ∨
    ∃ q, tr.calls.getLast? = some q ∧ tr.result = q.answer.completion ∧ q.answer.dequeued = none

theorem CallTrace.reports_last {tr : CallTrace} {q : RealCall} (hlast : tr.calls.getLast? = some q)
    (hres : tr.result = q.answer.completion) : tr.Reports := by
  have hsame : q.answer.dequeued = tr.result.delivered := by
    rw [hres]
    rfl
  by_cases hd : tr.result.ok = true ∨ tr.result.ov ≠ 0
  · exact Or.inl (if_pos hd)
  · exact Or.inr ⟨q, hlast, hres, hsame.trans (if_neg hd)⟩

theorem iocpRound_reports (c : IocpCall) (budget : U32) (s : IocpState) (r : IocpRound) (asked : List RealCall) :
    CallTrace.Reports ⟨asked ++ (iocpRoundCall c budget s r).toList, none, iocpRoundResult s r⟩ := by
  have hheld : ∀ i, (s.held i).completion.delivered = some (s.held i).completion := fun i => rfl
  unfold iocpRoundCall iocpRoundResult
  cases hready : (iocpPickReady s r.nowMs).2 with
  | some p => exact Or.inl (hheld p.1)
  | none =>
    have hlast : ∀ d, (CallTrace.calls ⟨asked ++ [⟨r.nowMs, iocpRemaining c.enteredMs budget r.nowMs, r.answer⟩], none,
        d⟩).getLast? = some ⟨r.nowMs, iocpRemaining c.enteredMs budget r.nowMs, r.answer⟩ := by
      intro d
      rw [CallTrace.calls, Option.toList_none, List.append_nil, List.getLast?_concat]
    dsimp only
    split
    · split
      · next i _ => exact Or.inl (hheld i)
      · exact CallTrace.reports_last (hlast _) rfl
    · exact CallTrace.reports_last (hlast _) rfl

/-! ## The bounds -/

/-- What holds all along the loop: the real calls so far filled a place each, and none was given more than was left
until `deadlineMs`. -/
structure LoopInv (deadlineMs : Nat) (l : LoopAt) : Prop where
  asked : l.asked.length ≤ Multiset.card (heldOf l.state)
  waits : ∀ q ∈ l.asked, q.waitMs.toNat ≤ deadlineMs - q.clockMs.toNat

/-- What holds of a call that came through the loop. -/
structure LoopEnds (deadlineMs : Nat) (tr : CallTrace) : Prop where
  asked : tr.loop.length ≤ kIocpHoldCap + 1
  waits : ∀ q ∈ tr.loop, q.waitMs.toNat ≤ deadlineMs - q.clockMs.toNat
  outside : ∀ q ∈ tr.outside, q.waitMs = 0
  reports : tr.Reports

theorem iocpRoundCall_waits {q : RealCall} (hq : q ∈ iocpRoundCall c budget s r) :
    q.waitMs.toNat ≤ c.enteredMs.toNat + budget.toNat - q.clockMs.toNat := by
  unfold iocpRoundCall at hq
  split at hq
  · cases hq
  · cases hq
    exact iocpRemaining_le c.enteredMs budget r.nowMs

theorem LoopInv.waits_round {l : LoopAt} (h : LoopInv (c.enteredMs.toNat + budget.toNat) l) :
    ∀ q ∈ l.asked ++ (iocpRoundCall c budget l.state r).toList,
      q.waitMs.toNat ≤ c.enteredMs.toNat + budget.toNat - q.clockMs.toNat := by
  intro q hq
  rcases List.mem_append.mp hq with hq | hq
  · exact h.waits q hq
  · exact iocpRoundCall_waits (Option.mem_toList.mp hq)

theorem length_round (l : LoopAt) (r : IocpRound) :
    (l.asked ++ (iocpRoundCall c budget l.state r).toList).length ≤ l.asked.length + 1 := by
  rw [List.length_append]
  cases iocpRoundCall c budget l.state r <;> simp

theorem iocpLoopStep_goes_on {l l' : LoopAt} (h : iocpLoopStep c budget l = .inl l') :
    Multiset.card (heldOf l'.state) = Multiset.card (heldOf l.state) + 1 ∧
      l'.asked = l.asked ++ (iocpRoundCall c budget l.state (c.rounds l.round)).toList := by
  unfold iocpLoopStep at h
  dsimp only at h
  split at h
  · cases h
  · next t d hround =>
    split at h
    · cases h
    · cases h
      exact ⟨(@iocpRound_defers _ _ c _ budget _ hround).2.2, rfl⟩

theorem LoopInv.goes_on {l l' : LoopAt} (h : LoopInv (c.enteredMs.toNat + budget.toNat) l)
    (hstep : iocpLoopStep c budget l = .inl l') : LoopInv (c.enteredMs.toNat + budget.toNat) l' := by
  obtain ⟨hcard, hasked⟩ := iocpLoopStep_goes_on hstep
  constructor
  · have hlen := @length_round c budget l (c.rounds l.round)
    have := h.asked
    rw [hasked, hcard]
    omega
  · rw [hasked]
    exact h.waits_round

theorem LoopInv.ends {l : LoopAt} {tr : CallTrace} (h : LoopInv (c.enteredMs.toNat + budget.toNat) l)
    (hstep : iocpLoopStep c budget l = .inr tr) : LoopEnds (c.enteredMs.toNat + budget.toNat) tr := by
  have hlen : (l.asked ++ (iocpRoundCall c budget l.state (c.rounds l.round)).toList).length ≤ kIocpHoldCap + 1 := by
    have hone := @length_round c budget l (c.rounds l.round)
    have hasked := h.asked
    have hcap := card_heldOf_le l.state
    omega
  unfold iocpLoopStep at hstep
  dsimp only at hstep
  split at hstep
  · cases hstep
    refine ⟨hlen, h.waits_round, ?_, iocpRound_reports c budget l.state _ l.asked⟩
    rintro q ⟨⟩
  · split at hstep
    · cases hstep
      refine ⟨hlen, h.waits_round, ?_, ?_⟩
      · rintro q ⟨⟩
        rfl
      · refine @CallTrace.reports_last _ ⟨(c.rounds l.round).watchMs, 0, c.last⟩ ?_ rfl
        rw [CallTrace.calls, Option.toList_some, List.getLast?_concat]
    · cases hstep

/-- **One hooked call terminates.** Whatever is held, whatever the port answers and whatever the clock reads, the call
returns after at most `kIocpHoldCap + 1` real calls of its loop and one that does not wait, each of the loop given no
more than what was left of the caller's timeout or the ceiling of the windows; and it returns either a completion or
the port's own empty answer. A call that the path does not touch is one real call with the caller's timeout. -/
theorem iocp_call_terminates (s : IocpState) (c : IocpCall) :
    ∃ tr, (∀ fuel, kIocpHoldCap < fuel → iocpTrace fuel s c = some tr) ∧ (iocpCall s c).2 = tr.out ∧
      tr.loop.length ≤ kIocpHoldCap + 1 ∧
      (∀ q ∈ tr.loop, q.waitMs.toNat ≤
        c.enteredMs.toNat + min c.timeout.toNat s.rx.cfg.winMaxMs.toNat - q.clockMs.toNat) ∧
      (if s.reorder = true ∧ s.disabled = false then ∀ q ∈ tr.outside, q.waitMs = 0
        else tr.loop = [] ∧ tr.outside = some ⟨c.enteredMs, c.timeout, c.last⟩) ∧
      tr.Reports := by
  by_cases hon : s.reorder = true ∧ s.disabled = false
  · have huse : ∀ l l', iocpLoopStep c (iocpBudget s c.timeout) l = .inl l' →
        kIocpHoldCap - Multiset.card (heldOf l'.state) < kIocpHoldCap - Multiset.card (heldOf l.state) := by
      intro l l' hstep
      have hcard := (iocpLoopStep_goes_on hstep).1
      have hcap := card_heldOf_le l'.state
      omega
    have hstart : LoopInv (c.enteredMs.toNat + (iocpBudget s c.timeout).toNat) ⟨0, s, []⟩ :=
      ⟨Nat.zero_le _, fun q hq => absurd hq List.not_mem_nil⟩
    obtain ⟨tr, hrun, hends⟩ := Loop.returns huse (fun l l' h hstep => h.goes_on hstep) (fun l tr h hstep => h.ends hstep)
      hstart
    have htrace : ∀ fuel, iocpTrace fuel s c = Loop.run (iocpLoopStep c (iocpBudget s c.timeout)) fuel ⟨0, s, []⟩ := by
      intro fuel
      rw [iocpTrace, if_neg (by simp [hon.1, hon.2])]
    refine ⟨tr, fun fuel hfuel => ?_, ?_, hends.asked, ?_, ?_, hends.reports⟩
    · rw [htrace]
      exact hrun fuel (Nat.lt_of_le_of_lt (Nat.sub_le _ _) hfuel)
    · have hloop := iocpLoop_trace c (iocpBudget s c.timeout) (kIocpHoldCap + 1) 0 s []
      rw [hrun _ (Nat.lt_succ_of_le (Nat.sub_le _ _)), Option.map_some] at hloop
      obtain ⟨⟨t, o⟩, hsome, hout⟩ := Option.map_eq_some_iff.mp hloop.symm
      rw [iocpCall, if_neg (by simp [hon.1, hon.2]), hsome, ← hout]
      rfl
    · rw [← iocpBudget_toNat]
      exact hends.waits
    · rw [if_pos hon]
      exact hends.outside
  · have hoff : (!s.reorder || s.disabled) = true := by
      rw [Bool.or_eq_true, Bool.not_eq_true']
      by_contra hno
      rw [not_or, Bool.not_eq_false, Bool.not_eq_true] at hno
      exact hon hno
    refine ⟨⟨[], some ⟨c.enteredMs, c.timeout, c.last⟩, c.last.completion⟩, fun fuel _ => if_pos hoff, ?_, Nat.zero_le _,
      fun q hq => absurd hq List.not_mem_nil, ?_, CallTrace.reports_last rfl rfl⟩
    · rw [iocpCall, if_pos hoff]
      simp only [CallTrace.out, CallTrace.calls, List.nil_append, Option.toList_some, dequeued_one]
      rfl
    · rw [if_neg hon]
      exact ⟨rfl, rfl⟩

end BzNet
