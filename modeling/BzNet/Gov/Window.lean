import BzNet.Gov.Arrival
import BzNet.Lib.Extremes

/-!
# The window of the periodic trace

`gov_trace_window` reports the least and the greatest value polled since its last call, and how many there were. A
poll that is answered with a bump or a rescue has returned by then: `govStep_window` says which polls the window
counts, and `gov_window_covers_iff` when its report is the one for all of them.
-/

namespace BzNet

open Machine Extremes
open Serial (elapsed)

/-! ## What a report says -/

/-- The report `lo`, `hi`, `n` is that of the values. -/
structure WindowCovers (report : U32 × U32 × U32) (values : List U32) : Prop where
  count : report.2.2.toNat = values.length
  empty : values = [] → report.1 = 0 ∧ report.2.1 = 0
  least : values ≠ [] → IsLeast {v | v ∈ values.map BitVec.toNat} report.1.toNat
  greatest : values ≠ [] → IsGreatest {v | v ∈ values.map BitVec.toNat} report.2.1.toNat

/-- The poll reads the sentinel where a bump or a rescue is due. -/
def SentinelDue (c : GovTraceCfg) (s : GovTraceState) (p : GovPoll) : Prop :=
  (p.1 = c.coldStart ∧ govDescentArrival c s (govObserve s p.1 p.2) p.1 = false ∧ s.armed = false ∧
    (s.bumps = 0 ∨ c.verifyMs.toNat ≤ elapsed p.2 s.bumpedAt)) ∨
  (govDescentArrival c s (govObserve s p.1 p.2) p.1 = true ∧ s.armed = false ∧
    (s.floorRescues = 0 ∨ c.descentMs.toNat ≤ elapsed p.2 s.lastRescueMs))

instance (c : GovTraceCfg) (s : GovTraceState) (p : GovPoll) : Decidable (SentinelDue c s p) :=
  inferInstanceAs (Decidable (_ ∨ _))

/-! ## One poll -/

def GovTraceState.window (s : GovTraceState) : U32 × U32 × U32 := (s.winMin, s.winMax, s.winSamples)

def freshWindow : U32 × U32 × U32 := (0xffffffff#32, 0, 0)

def countValue (w : U32 × U32 × U32) (v : U32) : U32 × U32 × U32 :=
  (if v < w.1 then v else w.1, if w.2.1 < v then v else w.2.1, w.2.2 + 1)

@[simp] theorem govObserve_window (s : GovTraceState) (live : U32) (now : U64) :
    (govObserve s live now).window = s.window := by unfold govObserve; split <;> rfl

theorem govTraceTail_window (c : GovTraceCfg) (s : GovTraceState) (live : U32) (now : U64) :
    (govTraceTail c s live now).1.window = s.window := by
  unfold govTraceTail
  split
  · dsimp only
    split <;> rfl
  · split <;> rfl

/-- **One poll on the window.** -/
theorem govStep_window (c : GovTraceCfg) (s : GovTraceState) (p : GovPoll) :
    (govStep c s p).1.window = if SentinelDue c s p then s.window else countValue s.window p.1 := by
  have hobs := govObserve_window s p.1 p.2
  have hres := govObserve_rescue s p.1 p.2
  simp only [GovTraceState.rescue, Prod.mk.injEq] at hres
  unfold govStep govTraceStep
  dsimp only
  simp only [govObserve_armed, govObserve_bumps, govObserve_bumpedAt, hres.1, hres.2, Bool.not_eq_true]
  by_cases hbump : p.1 = c.coldStart ∧ govDescentArrival c s (govObserve s p.1 p.2) p.1 = false ∧ s.armed = false ∧
      (s.bumps = 0 ∨ c.verifyMs.toNat ≤ elapsed p.2 s.bumpedAt)
  · rw [if_pos hbump, if_pos (show SentinelDue c s p from Or.inl hbump)]
    exact hobs
  rw [if_neg hbump]
  by_cases hrescue : govDescentArrival c s (govObserve s p.1 p.2) p.1 = true ∧ s.armed = false ∧
      (s.floorRescues = 0 ∨ c.descentMs.toNat ≤ elapsed p.2 s.lastRescueMs)
  · rw [if_pos hrescue, if_pos (show SentinelDue c s p from Or.inr hrescue)]
    exact hobs
  rw [if_neg hrescue, if_neg (show ¬ SentinelDue c s p from not_or.mpr ⟨hbump, hrescue⟩), ← hobs]
  split
  · split
    · rfl
    · exact govTraceTail_window _ _ _ _
  · exact govTraceTail_window _ _ _ _

/-! ## Runs of polls and reports -/

inductive GovOp where
  | poll (p : GovPoll)
  | window

/-- The governor's state, and the polls since the last report, each with the state it found. -/
structure GovLog where
  s : GovTraceState
  since : List (GovTraceState × GovPoll)

def govLogInit (t0 : U64) : GovLog := ⟨govTraceInit t0, []⟩

/-- One operation; a report answers. -/
def govLogStep (c : GovTraceCfg) (l : GovLog) : GovOp → GovLog × Option (U32 × U32 × U32)
  | .poll p => (⟨(govStep c l.s p).1, l.since ++ [(l.s, p)]⟩, none)
  | .window => (⟨(govTraceWindow l.s).2, []⟩, some (govTraceWindow l.s).1)

def GovLog.values (l : GovLog) : List U32 := l.since.map fun q => q.2.1

/-- What the window counts of the values polled since the last report. -/
def GovLog.counted (c : GovTraceCfg) (l : GovLog) : List U32 :=
  (l.since.filter fun q => ¬ SentinelDue c q.1 q.2).map fun q => q.2.1

/-- **The window counts** what no bump and no rescue answered. -/
theorem govLog_window (c : GovTraceCfg) (t0 : U64) (ops : List GovOp) :
    (final (govLogStep c) (govLogInit t0) ops).s.window =
      ((final (govLogStep c) (govLogInit t0) ops).counted c).foldl countValue freshWindow := by
  refine final_inv (P := fun l : GovLog => l.s.window = (l.counted c).foldl countValue freshWindow) rfl (fun l op h => ?_) ops
  cases op with
  | window => rfl
  | poll p =>
    have hcounted : (govLogStep c l (.poll p)).1.counted c =
        l.counted c ++ if SentinelDue c l.s p then [] else [p.1] := by
      simp only [govLogStep, GovLog.counted, List.filter_append, List.map_append]
      by_cases hdue : SentinelDue c l.s p
      · simp [hdue]
      · simp [hdue]
    rw [hcounted, List.foldl_append, ← h]
    change (govStep c l.s p).1.window = _
    rw [govStep_window]
    split <;> rfl

theorem foldl_countValue (values : List U32) (w : U32 × U32 × U32) :
    (values.foldl countValue w).1.toNat = (values.map BitVec.toNat).foldl keepMin w.1.toNat ∧
      (values.foldl countValue w).2.1.toNat = (values.map BitVec.toNat).foldl keepMax w.2.1.toNat ∧
      (values.foldl countValue w).2.2 = w.2.2 + BitVec.ofNat 32 values.length := by
  induction values generalizing w with
  | nil => simp
  | cons v values ih =>
    obtain ⟨hlo, hhi, hn⟩ := ih (countValue w v)
    have hmin : (countValue w v).1.toNat = keepMin w.1.toNat v.toNat := by
      unfold countValue keepMin
      rw [apply_ite BitVec.toNat]
      rfl
    have hmax : (countValue w v).2.1.toNat = keepMax w.2.1.toNat v.toNat := by
      unfold countValue keepMax
      rw [apply_ite BitVec.toNat]
      rfl
    refine ⟨?_, ?_, ?_⟩
    · rw [List.foldl_cons, hlo, hmin, List.map_cons, List.foldl_cons]
    · rw [List.foldl_cons, hhi, hmax, List.map_cons, List.foldl_cons]
    · rw [List.foldl_cons, hn, List.length_cons]
      change w.2.2 + 1 + _ = _
      rw [BitVec.ofNat_add, BitVec.add_assoc, BitVec.add_comm 1]
      rfl

theorem winSamples_toNat {s : GovTraceState} {values : List U32} (h : s.window = values.foldl countValue freshWindow) :
    s.winSamples.toNat = values.length % 2 ^ 32 := by
  have hn := (foldl_countValue values freshWindow).2.2
  rw [← h] at hn
  have hsamples : s.winSamples = BitVec.ofNat 32 values.length := hn.trans (BitVec.zero_add _)
  rw [hsamples, BitVec.toNat_ofNat]

/-- The report on values that the window has all counted. -/
theorem windowCovers_counted {s : GovTraceState} {values : List U32}
    (hwin : s.window = values.foldl countValue freshWindow) (hlen : values.length < 2 ^ 32) :
    WindowCovers (govTraceWindow s).1 values := by
  obtain ⟨hlo, hhi, -⟩ := foldl_countValue values freshWindow
  rw [← hwin] at hlo hhi
  have hcount : s.winSamples.toNat = values.length := by rw [winSamples_toNat hwin, Nat.mod_eq_of_lt hlen]
  have hsamples : values ≠ [] → s.winSamples ≠ 0 := fun hne h0 => by
    rw [h0] at hcount
    exact hne (List.length_eq_zero_iff.mp hcount.symm)
  refine ⟨hcount, fun hnil => ?_, fun hne => ?_, fun hne => ?_⟩
  · subst hnil
    have hzero : s.winSamples = 0 := BitVec.eq_of_toNat_eq hcount
    exact ⟨if_neg (not_not.mpr hzero), BitVec.eq_of_toNat_eq hhi⟩
  · change IsLeast _ (if s.winSamples ≠ 0 then s.winMin else 0).toNat
    rw [if_pos (hsamples hne)]
    change s.winMin.toNat = _ at hlo
    rw [hlo]
    refine isLeast_keepMin (by simpa using hne) fun v hv => ?_
    obtain ⟨w, -, rfl⟩ := List.mem_map.mp hv
    exact Nat.le_of_lt_succ w.isLt
  · change IsGreatest _ s.winMax.toNat
    change s.winMax.toNat = _ at hhi
    rw [hhi]
    exact isGreatest_keepMax (by simpa using hne) fun v _ => Nat.zero_le v

/-- **What the trace window covers.** After every run of polls and reports the next report is that of all values
polled since the last one exactly when there are fewer than `2 ^ 32` of them and none was the sentinel where a bump or
a rescue was due. -/
theorem gov_window_covers_iff (c : GovTraceCfg) (t0 : U64) (ops : List GovOp) :
    WindowCovers (govTraceWindow (final (govLogStep c) (govLogInit t0) ops).s).1
        (final (govLogStep c) (govLogInit t0) ops).values ↔
      (final (govLogStep c) (govLogInit t0) ops).since.length < 2 ^ 32 ∧
        ∀ q ∈ (final (govLogStep c) (govLogInit t0) ops).since, ¬ SentinelDue c q.1 q.2 := by
  have hwin := govLog_window c t0 ops
  generalize final (govLogStep c) (govLogInit t0) ops = l at hwin ⊢
  constructor
  · intro hcov
    have hcount := hcov.count
    rw [GovLog.values, List.length_map] at hcount
    have hlen : l.since.length < 2 ^ 32 := hcount ▸ BitVec.isLt _
    refine ⟨hlen, ?_⟩
    change l.s.winSamples.toNat = _ at hcount
    rw [winSamples_toNat hwin, GovLog.counted, List.length_map] at hcount
    have hle := List.length_filter_le (fun q => decide ¬ SentinelDue c q.1 q.2) l.since
    rw [Nat.mod_eq_of_lt (by omega)] at hcount
    intro q hq
    simpa using List.length_filter_eq_length_iff.mp hcount q hq
  · rintro ⟨hlen, hfree⟩
    have hall : l.counted c = l.values := by
      rw [GovLog.counted, List.filter_eq_self.mpr fun q hq => decide_eq_true (hfree q hq)]
      rfl
    rw [hall] at hwin
    exact windowCovers_counted hwin (by rwa [GovLog.values, List.length_map])

def bumpThenHeld : List GovOp := [.poll (4000, 1000), .poll (40000, 1100)]

/-- The report leaves the sentinel out that the bump answered. -/
theorem gov_window_misses_bump :
    let l := final (govLogStep (govTraceCfgDefaults 40000 4000)) (govLogInit 0) bumpThenHeld
    l.values = [4000, 40000] ∧ (govTraceWindow l.s).1 = (40000, 40000, 1) ∧
      ¬ WindowCovers (govTraceWindow l.s).1 l.values := by
  intro l
  refine ⟨by decide, by decide, fun hcov => ?_⟩
  exact absurd hcov.count (by decide)

end BzNet
