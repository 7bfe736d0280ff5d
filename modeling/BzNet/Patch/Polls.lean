import BzNet.Gov.Arrival
import BzNet.Gov.Window
import BzNet.Patch.Threads

/-!
# The governor's thread polls

Whatever the game does in between, the thread of the governor goes through a run of `govStep` on the values that it has
loaded, and it stores where that run answers with a bump or a rescue.

* `govStep_setWindow` : the window of the periodic trace, which the thread starts anew, decides nothing;
* `govStep_stores` : a store answers the sentinel;
* `govAccesses` : the accesses for a list of polls;
* `GovOk`, `govMove_ok` : what the thread has done in each phase, up to a part of the last poll;
* `govAccesses_stores`, `final_seen` : what its state says of its accesses.
-/

namespace BzNet

open Machine (final outputs)
open Serial (elapsed)
open Shared (Access)

/-! ## The window -/

/-- The state with another window of the periodic trace. -/
abbrev GovTraceState.setWindow (s : GovTraceState) (w : U32 × U32 × U32) : GovTraceState :=
  { s with
    winMin := w.1
    winMax := w.2.1
    winSamples := w.2.2 }

theorem govObserve_setWindow (s : GovTraceState) (w : U32 × U32 × U32) (live : U32) (now : U64) :
    govObserve (s.setWindow w) live now = (govObserve s live now).setWindow w := by
  unfold govObserve
  dsimp only [GovTraceState.setWindow]
  by_cases h : s.polls ≠ 0 ∧ live ≠ s.lastSeen
  · rw [if_pos h, if_pos h]
  · rw [if_neg h, if_neg h]

theorem govTraceTail_setWindow (c : GovTraceCfg) (s : GovTraceState) (w : U32 × U32 × U32) (live : U32) (now : U64) :
    govTraceTail c (s.setWindow w) live now =
      ((govTraceTail c s live now).1.setWindow w, (govTraceTail c s live now).2) := by
  unfold govTraceTail
  dsimp only [GovTraceState.setWindow]
  by_cases hdue : s.armed = true ∧ c.verifyMs.toNat ≤ elapsed now s.bumpedAt
  · rw [if_pos hdue, if_pos hdue]
    cases s.lowSeen <;> rfl
  · rw [if_neg hdue, if_neg hdue]
    by_cases htrace : c.traceMs ≠ 0 ∧ c.traceMs.toNat ≤ elapsed now s.lastTraceMs
    · rw [if_pos htrace, if_pos htrace]
    · rw [if_neg htrace, if_neg htrace]

/-- **The window decides nothing.** -/
theorem govStep_setWindow (c : GovTraceCfg) (s : GovTraceState) (w : U32 × U32 × U32) (p : GovPoll) :
    ∃ w', govStep c (s.setWindow w) p = ((govStep c s p).1.setWindow w', (govStep c s p).2) := by
  unfold govStep govTraceStep
  dsimp only
  rw [govObserve_setWindow]
  have harrival : govDescentArrival c (s.setWindow w) ((govObserve s p.1 p.2).setWindow w) p.1 =
      govDescentArrival c s (govObserve s p.1 p.2) p.1 := rfl
  rw [harrival]
  generalize govObserve s p.1 p.2 = u
  generalize govDescentArrival c s u p.1 = descent
  dsimp only [GovTraceState.setWindow]
  by_cases hbump : p.1 = c.coldStart ∧ ¬ descent = true ∧ ¬ u.armed = true ∧
      (u.bumps = 0 ∨ c.verifyMs.toNat ≤ elapsed p.2 u.bumpedAt)
  · rw [if_pos hbump, if_pos hbump]
    exact ⟨w, rfl⟩
  rw [if_neg hbump, if_neg hbump]
  by_cases hrescue : descent = true ∧ ¬ u.armed = true ∧
      (u.floorRescues = 0 ∨ c.descentMs.toNat ≤ elapsed p.2 u.lastRescueMs)
  · rw [if_pos hrescue, if_pos hrescue]
    exact ⟨w, rfl⟩
  rw [if_neg hrescue, if_neg hrescue]
  by_cases hlow : u.armed = true ∧ govLow c p.1 = true
  · rw [if_pos hlow, if_pos hlow]
    by_cases hseen : u.lowSeen = true
    · rw [if_pos hseen, if_pos hseen]
      exact ⟨(_, _, _), rfl⟩
    · rw [if_neg hseen, if_neg hseen]
      exact ⟨_, govTraceTail_setWindow c { u.setWindow (countValue u.window p.1) with lowSeen := true }
        (countValue w p.1) p.1 p.2⟩
  · rw [if_neg hlow, if_neg hlow]
    exact ⟨_, govTraceTail_setWindow c { u.setWindow (countValue u.window p.1) with lowSeen := false }
      (countValue w p.1) p.1 p.2⟩
theorem govRound_eq (c : GovTraceCfg) (s : GovTraceState) (w : U32 × U32 × U32) (p : GovPoll) :
    (∃ w', (govRound c (s.setWindow w) p).1 = (govStep c s p).1.setWindow w') ∧
      (govRound c (s.setWindow w) p).2 = (govStep c s p).2 := by
  obtain ⟨w', hstep⟩ := govStep_setWindow c s w p
  unfold govRound
  dsimp only
  rw [hstep]
  refine ⟨?_, rfl⟩
  split
  · exact ⟨(_, _, _), rfl⟩
  · exact ⟨w', rfl⟩

/-! ## The stores -/

/-- A store answers the sentinel, and is a bump or a rescue. -/
theorem govStep_stores (c : GovTraceCfg) (s : GovTraceState) (p : GovPoll) :
    ((govStep c s p).2.stores = true → p.1 = c.coldStart) ∧
      (govStep c s p).1.bumps + (govStep c s p).1.floorRescues =
        s.bumps + s.floorRescues + if (govStep c s p).2.stores then 1 else 0 := by
  have hl := govStep_ledger c s p
  have hs := govStep_sentinel c s p
  have hrescue := hs.rescued
  have hbumped := hs.bumped
  have hcounted := hs.counted
  have hkept := hs.kept
  generalize govStep c s p = r at hl hrescue hbumped hcounted hkept
  obtain ⟨s', e⟩ := r
  dsimp only at hl hrescue hbumped hcounted hkept ⊢
  have hsentinel : govDescentArrival c s (govObserve s p.1 p.2) p.1 = true → p.1 = c.coldStart := fun h =>
    (of_decide_eq_true h).1
  cases hl with
  | bump _ _ _ _ hb _ =>
    have hf := congrArg Prod.fst (hkept (by decide))
    refine ⟨fun _ => (hbumped.mp rfl).1, ?_⟩
    show s'.bumps + s'.floorRescues = s.bumps + s.floorRescues + 1
    rw [hb, show s'.floorRescues = s.floorRescues from hf]
    omega
  | clamp _ _ _ hb _ =>
    have hf := congrArg Prod.fst (hkept (by decide))
    refine ⟨fun h => absurd h (by decide), ?_⟩
    show s'.bumps + s'.floorRescues = s.bumps + s.floorRescues + 0
    rw [hb, show s'.floorRescues = s.floorRescues from hf]
    rfl
  | held _ _ _ hb _ =>
    have hf := congrArg Prod.fst (hkept (by decide))
    refine ⟨fun h => absurd h (by decide), ?_⟩
    show s'.bumps + s'.floorRescues = s.bumps + s.floorRescues + 0
    rw [hb, show s'.floorRescues = s.floorRescues from hf]
    rfl
  | quiet _ hnb _ _ _ _ hb _ _ =>
    by_cases he : e = .floorRescue
    · have hf := congrArg Prod.fst (hcounted he)
      subst he
      refine ⟨fun _ => hsentinel (hrescue.mp rfl).1, ?_⟩
      show s'.bumps + s'.floorRescues = s.bumps + s.floorRescues + 1
      rw [hb, show s'.floorRescues = s.floorRescues + 1 from hf]
      omega
    · have hf := congrArg Prod.fst (hkept he)
      have hquiet : e.stores = false := by
        cases e with
        | bumped => exact absurd rfl hnb
        | floorRescue => exact absurd rfl he
        | _ => rfl
      rw [hquiet]
      refine ⟨fun h => absurd h (by decide), ?_⟩
      show s'.bumps + s'.floorRescues = s.bumps + s.floorRescues + 0
      rw [hb, show s'.floorRescues = s.floorRescues from hf]
      rfl

/-! ## The accesses -/

/-- The accesses of a poll that is answered with `e`. -/
def govCycle (start live : U32) (e : GovEvent) : List PatchAccess :=
  ⟨.gov, false, kGovRateAddr, live⟩ :: if e.stores then [⟨.gov, true, kGovRateAddr, start⟩] else []

def govAccesses (c : PatchCfg) (t0 : U64) (polls : List GovPoll) : List PatchAccess :=
  (polls.zip (govEvents c.gov t0 polls)).flatMap fun q => govCycle c.govStart q.1.1 q.2

@[simp] theorem govAccesses_nil (c : PatchCfg) (t0 : U64) : govAccesses c t0 [] = [] := rfl

theorem govAccesses_concat (c : PatchCfg) (t0 : U64) (polls : List GovPoll) (p : GovPoll) :
    govAccesses c t0 (polls ++ [p]) = govAccesses c t0 polls ++
      govCycle c.govStart p.1 (govStep c.gov (final (govStep c.gov) (govTraceInit t0) polls) p).2 := by
  rw [govAccesses, govEvents, Machine.outputs_concat,
    List.zip_append (Machine.length_outputs _ _ polls).symm, List.flatMap_append]
  show _ ++ (govCycle c.govStart p.1 _ ++ []) = _
  rw [List.append_nil]
  rfl

/-- The state of the thread after the polls, but for the window. -/
def GovAt (c : PatchCfg) (t0 : U64) (polls : List GovPoll) (s : GovTraceState) : Prop :=
  ∃ w, s = (final (govStep c.gov) (govTraceInit t0) polls).setWindow w

/-- What the governor's thread has done by each phase. -/
def GovOk (c : PatchCfg) (mine : List PatchAccess) : GovPhase → Prop
  | .asleep => mine = []
  | .polling s => ∃ t0 polls, GovAt c t0 polls s ∧ mine = govAccesses c t0 polls
  | .loaded s live => ∃ t0 polls, GovAt c t0 polls s ∧
      mine = govAccesses c t0 polls ++ [⟨.gov, false, kGovRateAddr, live⟩]
  | .storing s => ∃ t0 polls live now, GovAt c t0 (polls ++ [(live, now)]) s ∧
      (govStep c.gov (final (govStep c.gov) (govTraceInit t0) polls) (live, now)).2.stores = true ∧
      mine = govAccesses c t0 polls ++ [⟨.gov, false, kGovRateAddr, live⟩]
  | .returned none => mine = []
  | .returned (some s) => ∃ t0 polls, GovAt c t0 polls s ∧ mine = govAccesses c t0 polls

/-- **A move of the governor's thread.** -/
theorem govMove_ok {c : PatchCfg} {mine : List PatchAccess} {phase : GovPhase} (h : GovOk c mine phase)
    (main : Option PeImage) (now : U64) (stop : Bool) (m : Memory) :
    GovOk c (mine ++ (govMove c main now stop m phase).2.toList) (govMove c main now stop m phase).1 := by
  cases phase with
  | asleep =>
    rw [govMove]
    split
    · exact (List.append_nil mine).trans h
    · split
      · refine ⟨now, [], ⟨(govTraceInit now).window, rfl⟩, ?_⟩
        exact (List.append_nil mine).trans h
      · exact (List.append_nil mine).trans h
  | polling s =>
    obtain ⟨t0, polls, hs, hmine⟩ := h
    rw [govMove]
    split
    · exact ⟨t0, polls, hs, (List.append_nil mine).trans hmine⟩
    · exact ⟨t0, polls, hs, congrArg (· ++ _) hmine⟩
  | loaded s live =>
    obtain ⟨t0, polls, ⟨w, rfl⟩, hmine⟩ := h
    rw [govMove]
    dsimp only
    obtain ⟨⟨w', hstate⟩, hevent⟩ := govRound_eq c.gov (final (govStep c.gov) (govTraceInit t0) polls) w (live, now)
    have hat : GovAt c t0 (polls ++ [(live, now)])
        (govRound c.gov ((final (govStep c.gov) (govTraceInit t0) polls).setWindow w) (live, now)).1 :=
      ⟨w', by rw [hstate, Machine.final_concat]⟩
    have hacc := govAccesses_concat c t0 polls (live, now)
    rw [← hevent] at hacc
    split
    · next hstores => exact ⟨t0, polls, live, now, hat, hevent ▸ hstores, (List.append_nil mine).trans hmine⟩
    · next hstores =>
      refine ⟨t0, polls ++ [(live, now)], hat, ?_⟩
      rw [hacc, govCycle, if_neg hstores]
      exact (List.append_nil mine).trans hmine
  | storing s =>
    obtain ⟨t0, polls, live, now, hat, hstores, hmine⟩ := h
    refine ⟨t0, polls ++ [(live, now)], hat, ?_⟩
    rw [govAccesses_concat, govCycle, if_pos hstores, hmine, List.append_assoc]
    rfl
  | returned s =>
    rw [govMove]
    cases s with
    | none => exact (List.append_nil mine).trans h
    | some s =>
      obtain ⟨t0, polls, hs, hmine⟩ := h
      exact ⟨t0, polls, hs, (List.append_nil mine).trans hmine⟩

/-! ## The account -/

theorem govAccesses_loads (c : PatchCfg) (t0 : U64) (polls : List GovPoll) :
    ((govAccesses c t0 polls).filter fun x => !x.store).map Access.value = polls.map Prod.fst := by
  induction polls using List.reverseRecOn with
  | nil => rfl
  | append_singleton polls p ih =>
    have hcycle : ∀ e, ((govCycle c.govStart p.1 e).filter fun x => !x.store).map Access.value = [p.1] := fun e => by
      cases e <;> rfl
    rw [govAccesses_concat, List.filter_append, List.map_append, ih, hcycle, List.map_append, List.map_singleton]

/-- Every store is counted, as a bump or as a rescue. -/
theorem govAccesses_stores (c : PatchCfg) (t0 : U64) (polls : List GovPoll) :
    ((govAccesses c t0 polls).filter Access.store).length =
      (final (govStep c.gov) (govTraceInit t0) polls).bumps +
        (final (govStep c.gov) (govTraceInit t0) polls).floorRescues := by
  induction polls using List.reverseRecOn with
  | nil => rfl
  | append_singleton polls p ih =>
    have hcycle : ∀ e, ((govCycle c.govStart p.1 e).filter Access.store).length = if e.stores then 1 else 0 := fun e => by
      cases e <;> rfl
    rw [govAccesses_concat, List.filter_append, List.length_append, ih, hcycle, Machine.final_concat,
      (govStep_stores c.gov _ p).2]

def GovTraceState.seen (s : GovTraceState) : U32 × U32 := (s.lastSeen, s.peak)

theorem govTraceTail_seen (c : GovTraceCfg) (s : GovTraceState) (live : U32) (now : U64) :
    (govTraceTail c s live now).1.seen = s.seen := by
  unfold govTraceTail
  split
  · cases s.lowSeen <;> rfl
  · split <;> rfl

theorem govStep_seen (c : GovTraceCfg) (s : GovTraceState) (p : GovPoll) :
    (govStep c s p).1.seen = (p.1, if s.peak < p.1 then p.1 else s.peak) := by
  have hobs : (govObserve s p.1 p.2).seen = (p.1, if s.peak < p.1 then p.1 else s.peak) := by
    unfold govObserve
    dsimp only
    split <;> rfl
  rw [← hobs]
  unfold govStep govTraceStep
  dsimp only
  split
  · rfl
  · split
    · rfl
    · split
      · split
        · rfl
        · exact govTraceTail_seen c _ _ _
      · exact govTraceTail_seen c _ _ _

theorem final_seen (c : GovTraceCfg) (t0 : U64) (polls : List GovPoll) :
    (final (govStep c) (govTraceInit t0) polls).lastSeen = (polls.map Prod.fst).getLastD 0 ∧
      (final (govStep c) (govTraceInit t0) polls).peak.toNat = (polls.map fun p => p.1.toNat).foldl max 0 := by
  induction polls using List.reverseRecOn with
  | nil => exact ⟨rfl, rfl⟩
  | append_singleton polls p ih =>
    have hstep := govStep_seen c (final (govStep c) (govTraceInit t0) polls) p
    rw [← Machine.final_concat] at hstep
    obtain ⟨hlast, hpeak⟩ := Prod.mk.inj hstep
    rw [hlast, hpeak, List.map_append, List.map_append, List.foldl_append, ← ih.2]
    refine ⟨List.getLastD_concat.symm, ?_⟩
    show _ = max _ p.1.toNat
    split
    · next hlt => exact (Nat.max_eq_right (Nat.le_of_lt hlt)).symm
    · next hlt => exact (Nat.max_eq_left (Nat.le_of_not_lt hlt)).symm

end BzNet
