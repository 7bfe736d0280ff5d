import BzNet.Gov.Ledger
import BzNet.Lib.History

/-!
# How the sentinel was arrived at

`gov_trace_step` tells a match start from a collapse onto the floor by four fields it keeps up to date:
the last value, the value before the last change, how long that one was held, and when the change came.
`Arrival` says what they are of the history of the polls, and `descent_iff` that the test on them is the
test on the history: the run of equal reads before the present one had a value just above the sentinel
and did not last longer than `descent_ms`.
-/

namespace BzNet

open Machine
open Serial (elapsed)

/-! ## The history of the polls -/

/-- When the run that starts at poll `a` counts from: its first poll, or the start of the proxy. -/
def HeldSince (t0 : U64) (polls : List GovPoll) (a : Nat) (t : U64) : Prop :=
  if a = 0 then t = t0 else (polls.map Prod.snd)[a]? = some t

/-- Poll `k` reads the sentinel, and the run of equal reads before the present one had a value at most
`descent_band` above it and lasted at most `descent_ms`. -/
def DescentAt (c : GovTraceCfg) (t0 : U64) (polls : List GovPoll) (k : Nat) : Prop :=
  ∃ (a b : Nat) (y : U32) (since arrived : U64),
    (polls.map Prod.fst)[k]? = some c.coldStart ∧
      EqualRun (polls.map Prod.fst) a k ∧ 0 < a ∧
      EqualRun (polls.map Prod.fst) b (a - 1) ∧ (polls.map Prod.fst)[a - 1]? = some y ∧
      HeldSince t0 polls b since ∧ (polls.map Prod.snd)[a]? = some arrived ∧
      c.coldStart.toNat < y.toNat ∧ y.toNat ≤ c.coldStart.toNat + c.descentBand.toNat ∧
      arrived.toNat ≤ since.toNat + c.descentMs.toNat

def Awaiting (events : List GovEvent) (k : Nat) : Prop :=
  ∃ i, i < k ∧ BumpAt events i ∧ ∀ j, i < j → j < k → ¬ VerdictAt events j

def RescueAt (events : List GovEvent) (k : Nat) : Prop := events[k]? = some .floorRescue

/-! ## What one poll does to the arrival fields -/

/-- The fields the arrival is read from. -/
def GovTraceState.arrival (s : GovTraceState) : Nat × U32 × U32 × U64 × U64 :=
  (s.polls, s.lastSeen, s.prevDistinct, s.lastChangeMs, s.prevHoldMs)

theorem govTraceTail_arrival (c : GovTraceCfg) (s : GovTraceState) (live : U32) (now : U64) :
    (govTraceTail c s live now).1.arrival = s.arrival := by
  unfold govTraceTail
  split
  · cases s.lowSeen <;> rfl
  · split <;> rfl

theorem govStep_arrival (c : GovTraceCfg) (s : GovTraceState) (p : GovPoll) :
    (govStep c s p).1.arrival = (govObserve s p.1 p.2).arrival := by
  unfold govStep govTraceStep
  dsimp only
  split
  · rfl
  · split
    · rfl
    · split
      · split
        · rfl
        · exact govTraceTail_arrival c _ _ _
      · exact govTraceTail_arrival c _ _ _

theorem govTraceTail_event (c : GovTraceCfg) (s : GovTraceState) (live : U32) (now : U64) :
    (govTraceTail c s live now).2 ≠ .bumped ∧ (govTraceTail c s live now).2 ≠ .floorRescue := by
  unfold govTraceTail
  split
  · cases s.lowSeen <;> simp
  · split <;> simp

def GovTraceState.rescue (s : GovTraceState) : Nat × U64 := (s.floorRescues, s.lastRescueMs)

theorem govTraceTail_rescue (c : GovTraceCfg) (s : GovTraceState) (live : U32) (now : U64) :
    (govTraceTail c s live now).1.rescue = s.rescue := by
  unfold govTraceTail
  split
  · cases s.lowSeen <;> rfl
  · split <;> rfl

@[simp] theorem govObserve_rescue (s : GovTraceState) (live : U32) (now : U64) :
    (govObserve s live now).rescue = s.rescue := by unfold govObserve; split <;> rfl

/-- When a poll is answered with a bump or a rescue, and what a rescue leaves behind. -/
structure SentinelStep (c : GovTraceCfg) (s : GovTraceState) (p : GovPoll) (s' : GovTraceState)
    (e : GovEvent) : Prop where
  bumped : e = .bumped ↔ p.1 = c.coldStart ∧ govDescentArrival c s (govObserve s p.1 p.2) p.1 = false ∧
    s.armed = false ∧ (s.bumps = 0 ∨ c.verifyMs.toNat ≤ elapsed p.2 s.bumpedAt)
  rescued : e = .floorRescue ↔ govDescentArrival c s (govObserve s p.1 p.2) p.1 = true ∧
    s.armed = false ∧ (s.floorRescues = 0 ∨ c.descentMs.toNat ≤ elapsed p.2 s.lastRescueMs)
  counted : e = .floorRescue → s'.rescue = (s.floorRescues + 1, p.2)
  kept : e ≠ .floorRescue → s'.rescue = s.rescue

theorem govStep_sentinel (c : GovTraceCfg) (s : GovTraceState) (p : GovPoll) :
    SentinelStep c s p (govStep c s p).1 (govStep c s p).2 := by
  have hres := govObserve_rescue s p.1 p.2
  simp only [GovTraceState.rescue, Prod.mk.injEq] at hres
  unfold govStep govTraceStep
  dsimp only
  simp only [govObserve_armed, govObserve_bumps, govObserve_bumpedAt, hres.1, hres.2, Bool.not_eq_true]
  split
  · next h =>
    refine ⟨iff_of_true rfl h, iff_of_false (by simp) fun h' => ?_, fun h' => by simp at h',
      fun _ => rfl⟩
    rw [h.2.1] at h'
    exact absurd h'.1 (by decide)
  · next hnb =>
    split
    · next h =>
      exact ⟨iff_of_false (by simp) hnb, iff_of_true rfl h, fun _ => rfl, fun h' => absurd rfl h'⟩
    · next hnr =>
      have htail : ∀ t : GovTraceState, t.rescue = s.rescue →
          SentinelStep c s p (govTraceTail c t p.1 p.2).1 (govTraceTail c t p.1 p.2).2 := by
        intro t ht
        obtain ⟨h1, h2⟩ := govTraceTail_event c t p.1 p.2
        exact ⟨iff_of_false h1 hnb, iff_of_false h2 hnr, fun h => absurd h h2,
          fun _ => (govTraceTail_rescue c t p.1 p.2).trans ht⟩
      split
      · split
        · exact ⟨iff_of_false (by simp) hnb, iff_of_false (by simp) hnr, fun h => by simp at h,
            fun _ => rfl⟩
        · exact htail _ rfl
      · exact htail _ rfl

/-! ## The fields against the history -/

/-- What the arrival fields hold once poll `k` has been observed. -/
structure Arrival (t0 : U64) (polls : List GovPoll) (k : Nat) (s : GovTraceState) : Prop where
  polled : s.polls = k + 1
  seen : (polls.map Prod.fst)[k]? = some s.lastSeen
  run : ∃ a, EqualRun (polls.map Prod.fst) a k ∧ HeldSince t0 polls a s.lastChangeMs ∧
    (a = 0 → s.prevDistinct = 0) ∧
    (a ≠ 0 → ∃ b since, EqualRun (polls.map Prod.fst) b (a - 1) ∧
      (polls.map Prod.fst)[a - 1]? = some s.prevDistinct ∧ HeldSince t0 polls b since ∧
      s.prevHoldMs = s.lastChangeMs - since)

section Runs
variable {c : GovTraceCfg} {t0 : U64} {polls : List GovPoll}

theorem Arrival.of_eq {k : Nat} {s s' : GovTraceState} (h : Arrival t0 polls k s)
    (heq : s'.arrival = s.arrival) : Arrival t0 polls k s' := by
  simp only [GovTraceState.arrival, Prod.mk.injEq] at heq
  obtain ⟨h1, h2, h3, h4, h5⟩ := heq
  refine ⟨h1.trans h.polled, by rw [h2]; exact h.seen, ?_⟩
  rw [h3, h4, h5]
  exact h.run

theorem arrival_first {p : GovPoll} (hp : polls[0]? = some p) :
    Arrival t0 polls 0 (govObserve (govTraceInit t0) p.1 p.2) where
  polled := rfl
  seen := by simp [hp, govObserve]
  run := ⟨0, EqualRun.zero (by simpa using (List.getElem?_eq_some_iff.mp hp).1), rfl, fun _ => rfl,
    fun h => absurd rfl h⟩

/-- An equal read extends the run, another one closes it and opens the next. -/
theorem Arrival.next {k : Nat} {p : GovPoll} {s : GovTraceState} (h : Arrival t0 polls k s)
    (hp : polls[k + 1]? = some p) : Arrival t0 polls (k + 1) (govObserve s p.1 p.2) := by
  have hlt : k + 1 < (polls.map Prod.fst).length := by simpa using (List.getElem?_eq_some_iff.mp hp).1
  have hval : (polls.map Prod.fst)[k + 1]? = some p.1 := by simp [hp]
  obtain ⟨a, hrun, hsince, hfirst, hlater⟩ := h.run
  have hpolled := h.polled
  unfold govObserve
  dsimp only
  by_cases hne : p.1 = s.lastSeen
  · rw [if_neg (by simp [hne])]
    have heq : (polls.map Prod.fst)[k + 1]? = (polls.map Prod.fst)[k]? := by rw [hval, h.seen, hne]
    exact ⟨by simp [hpolled], hval, a, hrun.extend hlt heq, hsince, hfirst, hlater⟩
  · rw [if_pos ⟨by omega, hne⟩]
    have hdiff : (polls.map Prod.fst)[k + 1]? ≠ (polls.map Prod.fst)[k]? := by
      rw [hval, h.seen]
      exact fun heq => hne (Option.some.inj heq)
    refine ⟨by simp [hpolled], hval, k + 1, EqualRun.fresh hlt hdiff, ?_, fun h0 => by omega, fun _ => ?_⟩
    · simp [HeldSince, hp]
    · exact ⟨a, s.lastChangeMs, hrun, h.seen, hsince, rfl⟩

/-- **The fields are the history.** -/
theorem arrival_at {k : Nat} {p : GovPoll} (hp : polls[k]? = some p) :
    Arrival t0 polls k (govObserve (govAt c t0 polls k) p.1 p.2) := by
  induction k generalizing p with
  | zero =>
    rw [govAt, stateAt_zero]
    exact arrival_first hp
  | succ k ih =>
    have hlt : k + 1 < polls.length := (List.getElem?_eq_some_iff.mp hp).1
    have hq := List.getElem?_eq_getElem (show k < polls.length by omega)
    have hstep := (ih hq).of_eq (govStep_arrival c (govAt c t0 polls k) (polls[k]))
    rw [govAt, stateAt_succ _ _ hq]
    exact hstep.next hp

theorem govDescentArrival_iff (c : GovTraceCfg) (s : GovTraceState) (p : GovPoll) (hpolls : s.polls ≠ 0) :
    govDescentArrival c s (govObserve s p.1 p.2) p.1 = true ↔
      p.1 = c.coldStart ∧ c.coldStart < (govObserve s p.1 p.2).prevDistinct ∧
        (govObserve s p.1 p.2).prevDistinct - c.coldStart ≤ c.descentBand ∧
        (govObserve s p.1 p.2).prevHoldMs.toNat ≤ c.descentMs.toNat := by
  have hsource : (if p.1 ≠ s.lastSeen then s.lastSeen else (govObserve s p.1 p.2).prevDistinct) =
      (govObserve s p.1 p.2).prevDistinct := by
    split
    · next hne => simp [govObserve, hpolls, hne]
    · rfl
  unfold govDescentArrival
  rw [hsource]
  simp [hpolls]

theorem HeldSince.unique {a : Nat} {t t' : U64} (h : HeldSince t0 polls a t) (h' : HeldSince t0 polls a t') :
    t = t' := by
  unfold HeldSince at h h'
  split at h
  · next h0 =>
    rw [if_pos h0] at h'
    exact h.trans h'.symm
  · next h0 =>
    rw [if_neg h0, h, Option.some.injEq] at h'
    exact h'

theorem HeldSince.le (hmono : Nondecreasing (t0 :: polls.map Prod.snd)) {b a : Nat} {since arrived : U64}
    (hb : HeldSince t0 polls b since) (ha : (polls.map Prod.snd)[a]? = some arrived) (hba : b < a) :
    since ≤ arrived := by
  have harrived : (t0 :: polls.map Prod.snd)[a + 1]? = some arrived := ha
  unfold HeldSince at hb
  split at hb
  · subst hb
    exact Nondecreasing.le hmono (Nat.succ_pos a) rfl harrived
  · exact Nondecreasing.le hmono (show b + 1 < a + 1 by omega) hb harrived

/-- **The test on the fields is the test on the history.** -/
theorem descent_iff (hmono : Nondecreasing (t0 :: polls.map Prod.snd)) {k : Nat} {p : GovPoll}
    (hp : polls[k]? = some p) :
    govDescentArrival c (govAt c t0 polls k) (govObserve (govAt c t0 polls k) p.1 p.2) p.1 = true ↔
      DescentAt c t0 polls k := by
  have harr := @arrival_at c t0 polls k p hp
  have hval : (polls.map Prod.fst)[k]? = some p.1 := by simp [hp]
  obtain ⟨a, hrun, hsince, hfirst, hlater⟩ := harr.run
  by_cases hpolls : (govAt c t0 polls k).polls = 0
  · have hk : k = 0 := by
      have := harr.polled
      simp only [govObserve] at this
      split at this
      · simp_all
      · simp_all
    refine iff_of_false (by simp [govDescentArrival, hpolls]) ?_
    intro ⟨a', b, y, since, arrived, _, hrun', hpos, _⟩
    have := hrun'.le
    omega
  · rw [govDescentArrival_iff c _ p hpolls]
    constructor
    · intro ⟨hcold, hlt, hband, hheld⟩
      have ha : a ≠ 0 := by
        intro h0
        rw [hfirst h0] at hlt
        simp [BitVec.lt_def] at hlt
      obtain ⟨b, since, hrunb, hy, hheldb, hdur⟩ := hlater ha
      have hat : (polls.map Prod.snd)[a]? = some (govObserve (govAt c t0 polls k) p.1 p.2).lastChangeMs := by
        unfold HeldSince at hsince
        rwa [if_neg ha] at hsince
      have hle := hheldb.le hmono hat (by have := hrunb.le; omega)
      have hle' := BitVec.le_def.mp hle
      have hlt' := BitVec.lt_def.mp hlt
      rw [BitVec.le_def, BitVec.toNat_sub_of_le (BitVec.le_of_lt hlt)] at hband
      rw [hdur, BitVec.toNat_sub_of_le hle] at hheld
      exact ⟨a, b, _, since, _, by rw [hval, hcold], hrun, Nat.pos_of_ne_zero ha, hrunb, hy, hheldb, hat,
        hlt', by omega, by omega⟩
    · intro ⟨a', b', y, since', arrived, hcold, hrun', hpos, hrunb', hy', hheldb', hat', hlt, hband, hheld⟩
      obtain rfl := hrun.unique hrun'
      have ha : a ≠ 0 := by omega
      obtain ⟨b, since, hrunb, hy, hheldb, hdur⟩ := hlater ha
      obtain rfl := hrunb.unique hrunb'
      obtain rfl := hheldb.unique hheldb'
      unfold HeldSince at hsince
      rw [if_neg ha, hat', Option.some.injEq] at hsince
      rw [hy, Option.some.injEq] at hy'
      rw [hval, Option.some.injEq] at hcold
      have hle := hheldb.le hmono hat' (by have := hrunb.le; omega)
      have hlt' : c.coldStart < (govObserve (govAt c t0 polls k) p.1 p.2).prevDistinct := by
        rw [hy', BitVec.lt_def]
        exact hlt
      refine ⟨hcold, hlt', ?_, ?_⟩
      · rw [BitVec.le_def, BitVec.toNat_sub_of_le (BitVec.le_of_lt hlt'), hy']
        omega
      · rw [hdur, ← hsince, BitVec.toNat_sub_of_le hle]
        omega

/-! ## Bumps and rescues of a run -/

theorem armed_iff_awaiting {k : Nat} (hk : k ≤ polls.length) :
    (govAt c t0 polls k).armed = true ↔ Awaiting (govEvents c t0 polls) k := by
  constructor
  · intro harm
    obtain ⟨i, hik, hi, hno⟩ := armed_since hk harm
    exact ⟨i, hik, hi, fun j h1 h2 => (hno j h1 h2).2⟩
  · intro ⟨i, hik, hi, hno⟩
    obtain ⟨p, -, -, -, harm, -⟩ := bump_at hi
    exact (armed_until_verdict (show i + 1 ≤ k by omega) hk harm rfl fun j h1 h2 => hno j (by omega) h2).1

theorem stamped_bump (c : GovTraceCfg) :
    Stamped (govStep c) GovTraceState.bumps GovTraceState.bumpedAt .bumped Prod.snd := by
  constructor
  · intro s p hm
    have hl := govStep_ledger c s p
    rw [hm] at hl
    cases hl with
    | bump _ _ _ hat hb => exact ⟨hb, hat⟩
    | quiet _ hnb => exact absurd rfl hnb
  · intro s p hm
    have hl := govStep_ledger c s p
    generalize govStep c s p = r at hl hm
    obtain ⟨s', e⟩ := r
    cases hl with
    | bump => exact absurd rfl hm
    | clamp _ _ hat hb => exact ⟨hb, hat⟩
    | held _ _ hat hb => exact ⟨hb, hat⟩
    | quiet _ _ _ _ _ hat hb => exact ⟨hb, hat⟩

theorem stamped_rescue (c : GovTraceCfg) :
    Stamped (govStep c) GovTraceState.floorRescues GovTraceState.lastRescueMs .floorRescue Prod.snd := by
  constructor
  · intro s p hm
    simpa [GovTraceState.rescue] using (govStep_sentinel c s p).counted hm
  · intro s p hm
    simpa [GovTraceState.rescue] using (govStep_sentinel c s p).kept hm

theorem sentinel_at {k : Nat} {p : GovPoll} (hp : polls[k]? = some p) :
    SentinelStep c (govAt c t0 polls k) p (govAt c t0 polls (k + 1))
      (govStep c (govAt c t0 polls k) p).2 := by
  have h := govStep_sentinel c (govAt c t0 polls k) p
  rw [govAt, govAt, stateAt_succ _ _ hp]
  exact h

theorem bumped_iff (hmono : Nondecreasing (t0 :: polls.map Prod.snd)) {k : Nat} {p : GovPoll}
    (hp : polls[k]? = some p) :
    BumpAt (govEvents c t0 polls) k ↔ p.1 = c.coldStart ∧ ¬ DescentAt c t0 polls k ∧
      ¬ Awaiting (govEvents c t0 polls) k ∧
      Rested (polls.map Prod.snd) (govEvents c t0 polls) .bumped c.verifyMs.toNat k p.2 := by
  have hk : k < polls.length := (List.getElem?_eq_some_iff.mp hp).1
  have hready := (stamped_bump c).ready_iff (s := govTraceInit t0) rfl (List.Pairwise.of_cons hmono) hp
    c.verifyMs.toNat
  rw [BumpAt, outputs_getElem? _ _ hp, Option.some.injEq, (sentinel_at hp).bumped, ← hready, ← descent_iff hmono hp,
    ← armed_iff_awaiting (Nat.le_of_lt hk), Bool.not_eq_true, Bool.not_eq_true]

theorem rescued_iff (hmono : Nondecreasing (t0 :: polls.map Prod.snd)) {k : Nat} {p : GovPoll}
    (hp : polls[k]? = some p) :
    RescueAt (govEvents c t0 polls) k ↔ DescentAt c t0 polls k ∧
      ¬ Awaiting (govEvents c t0 polls) k ∧
      Rested (polls.map Prod.snd) (govEvents c t0 polls) .floorRescue c.descentMs.toNat k p.2 := by
  have hk : k < polls.length := (List.getElem?_eq_some_iff.mp hp).1
  have hready := (stamped_rescue c).ready_iff (s := govTraceInit t0) rfl (List.Pairwise.of_cons hmono) hp
    c.descentMs.toNat
  rw [RescueAt, outputs_getElem? _ _ hp, Option.some.injEq, (sentinel_at hp).rescued, ← hready,
    ← descent_iff hmono hp, ← armed_iff_awaiting (Nat.le_of_lt hk), Bool.not_eq_true]

end Runs

/-- **The sentinel is classified by its history.** For every configuration and every run of polls whose
times never decrease from the start on: a bump answers exactly the sentinel reads that are no descents, a
rescue exactly the descents, both only while no bump awaits its verdict and long enough after the last
one of their kind. When every later sentinel read is a descent there is at most one bump, and rescues
are `descent_ms` apart. -/
theorem gov_arrival_classified (c : GovTraceCfg) (t0 : U64) (polls : List GovPoll)
    (hmono : Nondecreasing (t0 :: polls.map Prod.snd)) :
    let events := outputs (govStep c) (govTraceInit t0) polls
    let times := polls.map Prod.snd
    (∀ k p, polls[k]? = some p →
      (BumpAt events k ↔ p.1 = c.coldStart ∧ ¬ DescentAt c t0 polls k ∧ ¬ Awaiting events k ∧
        Rested times events .bumped c.verifyMs.toNat k p.2) ∧
      (RescueAt events k ↔ DescentAt c t0 polls k ∧ ¬ Awaiting events k ∧
        Rested times events .floorRescue c.descentMs.toNat k p.2)) ∧
      ((∀ k p, 0 < k → polls[k]? = some p → p.1 = c.coldStart → DescentAt c t0 polls k) →
        ∀ i j, BumpAt events i → BumpAt events j → i = j) ∧
      ∀ i j ti tj, i < j → RescueAt events i → RescueAt events j → times[i]? = some ti →
        times[j]? = some tj → ti.toNat + c.descentMs.toNat ≤ tj.toNat := by
  intro events times
  refine ⟨fun k p hp => ⟨bumped_iff hmono hp, rescued_iff hmono hp⟩, fun hall => ?_, ?_⟩
  · have hfirst : ∀ k, BumpAt events k → k = 0 := by
      intro k hk
      by_contra hpos
      obtain ⟨p, hp, -⟩ := bump_at hk
      obtain ⟨hcold, hnd, -⟩ := (bumped_iff hmono hp).mp hk
      exact hnd (hall k p (Nat.pos_of_ne_zero hpos) hp hcold)
    intro i j hi hj
    rw [hfirst i hi, hfirst j hj]
  · intro i j ti tj hij hi hj hti htj
    obtain ⟨p, hp, -⟩ := exists_input _ _ hj
    obtain ⟨-, -, hrest⟩ := (rescued_iff hmono hp).mp hj
    rw [← time_at hp htj]
    exact hrest i ti hij hi hti

/-- A match start, then a collapse onto the floor that is walked, not written. -/
def collapse : List GovPoll :=
  [(4000, 100), (40000, 200), (40000, 20000), (5000, 30000), (4000, 32000), (4000, 32100)]

theorem gov_arrival_classified_collapse :
    let c := govTraceCfgDefaults 40000 kGovColdStartSentinel
    outputs (govStep c) (govTraceInit 0) collapse = [.bumped, .none, .held, .trace, .floorRescue, .none] ∧
      DescentAt c 0 collapse 4 :=
  ⟨by decide,
    (((gov_arrival_classified (govTraceCfgDefaults 40000 kGovColdStartSentinel) 0 collapse (by decide)).1 4
      (4000, 32000) rfl).2.mp (by unfold RescueAt; decide)).1⟩

end BzNet
