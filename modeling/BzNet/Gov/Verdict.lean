import BzNet.Gov.Ledger

/-!
# What the governor's verdict says

The two-sample debounce and the deadline of `gov_trace_step`, against the history of the polls. After a
bump the verdict is `clamped` at the first pair of consecutive low reads, unless the deadline comes first;
at the deadline the read at hand decides.

The source keeps one flag for the debounce, `low_seen`. It is clear at every bump because it is clear
whenever nothing is armed (`unarmed_lowSeen`), and between a bump and its verdict it says that the last
poll since the bump was low (`lowSeen_at`).
-/

namespace BzNet

open Machine
open Serial (elapsed)

/-! ## The history of the polls -/

def LowAt (c : GovTraceCfg) (polls : List GovPoll) (k : Nat) : Prop :=
  ∃ p, polls[k]? = some p ∧ p.1 < c.target ∧ p.1 ≤ c.clampFloor ∧ c.downSlack < c.target - p.1

/-- Poll `k` and the one right before it are both low, and both come after poll `i`. -/
def LowPairAt (c : GovTraceCfg) (polls : List GovPoll) (i k : Nat) : Prop :=
  i < k - 1 ∧ LowAt c polls (k - 1) ∧ LowAt c polls k

/-- Poll `d` comes `verify_ms` or more after poll `i`. -/
def DueAt (c : GovTraceCfg) (polls : List GovPoll) (i d : Nat) : Prop :=
  i < d ∧ ∃ p q : GovPoll, polls[i]? = some p ∧ polls[d]? = some q ∧
    p.2.toNat + c.verifyMs.toNat ≤ q.2.toNat

/-- Event `v` is the verdict on the bump at `i`: the first one after it, with no other bump between. -/
def VerdictOn (events : List GovEvent) (i v : Nat) : Prop :=
  i < v ∧ VerdictAt events v ∧ ∀ j, i < j → j < v → ¬ VerdictAt events j ∧ ¬ BumpAt events j

def FirstAt (P : Nat → Prop) (n : Nat) : Prop := P n ∧ ∀ m, m < n → ¬ P m

theorem govLow_iff {c : GovTraceCfg} {polls : List GovPoll} {k : Nat} {p : GovPoll}
    (hp : polls[k]? = some p) : govLow c p.1 = true ↔ LowAt c polls k := by
  unfold govLow LowAt
  simp [hp]

theorem LowAt.lt_length {c : GovTraceCfg} {polls : List GovPoll} {k : Nat} (h : LowAt c polls k) :
    k < polls.length := by
  obtain ⟨p, hp, -⟩ := h
  exact (List.getElem?_eq_some_iff.mp hp).1

/-! ## One poll on the debounce flag -/

/-- What a poll does while a bump awaits its verdict. -/
inductive ArmedStep (c : GovTraceCfg) (p : GovPoll) (s s' : GovTraceState) : GovEvent → Prop where
  | pair (hlow : govLow c p.1 = true) (hseen : s.lowSeen = true) (hclear : s'.lowSeen = false) :
      ArmedStep c p s s' .clamped
  | dueLow (hlow : govLow c p.1 = true) (hseen : s.lowSeen = false)
      (hdue : c.verifyMs.toNat ≤ elapsed p.2 s.bumpedAt) (hclear : s'.lowSeen = false) :
      ArmedStep c p s s' .clamped
  | dueHeld (hlow : govLow c p.1 = false) (hdue : c.verifyMs.toNat ≤ elapsed p.2 s.bumpedAt)
      (hclear : s'.lowSeen = false) : ArmedStep c p s s' .held
  | wait (e : GovEvent) (hnc : e ≠ .clamped) (hnh : e ≠ .held)
      (hno : govLow c p.1 = true → s.lowSeen = false)
      (hopen : elapsed p.2 s.bumpedAt < c.verifyMs.toNat) (harm : s'.armed = true)
      (hseen : s'.lowSeen = govLow c p.1) : ArmedStep c p s s' e

@[simp] theorem govObserve_lowSeen (s : GovTraceState) (live : U32) (now : U64) :
    (govObserve s live now).lowSeen = s.lowSeen := by unfold govObserve; split <;> rfl

theorem govTraceTail_armed (c : GovTraceCfg) (s t : GovTraceState) (p : GovPoll) (ha : t.armed = true)
    (hat : t.bumpedAt = s.bumpedAt) (hseen : t.lowSeen = govLow c p.1)
    (hno : govLow c p.1 = true → s.lowSeen = false) :
    ArmedStep c p s (govTraceTail c t p.1 p.2).1 (govTraceTail c t p.1 p.2).2 := by
  unfold govTraceTail
  by_cases hdue : c.verifyMs.toNat ≤ elapsed p.2 t.bumpedAt
  · rw [if_pos ⟨ha, hdue⟩]
    rw [hat] at hdue
    cases hlow : govLow c p.1 with
    | true =>
      simp only [hseen, hlow, if_true]
      exact .dueLow hlow (hno hlow) hdue rfl
    | false =>
      simp only [hseen, hlow, Bool.false_eq_true, if_false]
      exact .dueHeld hlow hdue rfl
  · rw [if_neg fun h => hdue h.2]
    rw [hat] at hdue
    have hopen := Nat.lt_of_not_le hdue
    split
    · exact .wait .trace (by decide) (by decide) hno hopen ha hseen
    · exact .wait .none (by decide) (by decide) hno hopen ha hseen

/-- **One poll while armed.** -/
theorem govStep_armed (c : GovTraceCfg) (s : GovTraceState) (p : GovPoll) (harm : s.armed = true) :
    ArmedStep c p s (govStep c s p).1 (govStep c s p).2 := by
  unfold govStep govTraceStep
  dsimp only
  rw [if_neg (by simp [harm]), if_neg (by simp [harm])]
  simp only [govObserve_armed, govObserve_lowSeen, harm, true_and]
  cases hlow : govLow c p.1 with
  | true =>
    simp only [if_true]
    cases hseen : s.lowSeen with
    | true => exact .pair hlow hseen rfl
    | false => exact govTraceTail_armed c s _ p rfl (by simp) hlow.symm fun _ => hseen
  | false =>
    simp only [Bool.false_eq_true, if_false]
    exact govTraceTail_armed c s _ p rfl (by simp) hlow.symm fun h => by simp [hlow] at h

theorem govTraceTail_lowSeen (c : GovTraceCfg) (s : GovTraceState) (live : U32) (now : U64)
    (h : s.lowSeen = false) : (govTraceTail c s live now).1.lowSeen = false := by
  unfold govTraceTail
  split
  · simp [h]
  · split
    · exact h
    · exact h

/-- While nothing is armed a clear flag stays clear, whatever the poll answers. -/
theorem govStep_unarmed (c : GovTraceCfg) (s : GovTraceState) (p : GovPoll) (hun : s.armed = false)
    (hseen : s.lowSeen = false) : (govStep c s p).1.lowSeen = false := by
  unfold govStep govTraceStep
  dsimp only
  split
  · simpa using hseen
  · split
    · simpa using hseen
    · simp only [govObserve_armed, hun, Bool.false_eq_true, false_and, if_false]
      exact govTraceTail_lowSeen c _ _ _ rfl

/-- The flag is clear whenever nothing is armed. -/
def LowSeenClear (s : GovTraceState) : Prop := s.armed = false → s.lowSeen = false

theorem govStep_clear (c : GovTraceCfg) (s : GovTraceState) (p : GovPoll) (h : LowSeenClear s) :
    LowSeenClear (govStep c s p).1 := by
  intro hun'
  cases harm : s.armed with
  | false => exact govStep_unarmed c s p harm (h harm)
  | true =>
    have hstep := govStep_armed c s p harm
    generalize govStep c s p = r at hstep hun'
    obtain ⟨s', e⟩ := r
    cases hstep with
    | pair _ _ hclear => exact hclear
    | dueLow _ _ _ hclear => exact hclear
    | dueHeld _ _ hclear => exact hclear
    | wait _ _ _ _ _ harm' => exact absurd (harm'.symm.trans hun') (by decide)

/-! ## Between a bump and its verdict -/

section Runs
variable {c : GovTraceCfg} {t0 : U64} {polls : List GovPoll}

theorem unarmed_lowSeen (c : GovTraceCfg) (t0 : U64) (polls : List GovPoll) (k : Nat) :
    LowSeenClear (govAt c t0 polls k) :=
  stateAt_inv (P := LowSeenClear) (fun _ => rfl) (fun s p => govStep_clear c s p) polls k

theorem bump_lowSeen {i : Nat} (hi : BumpAt (govEvents c t0 polls) i) :
    (govAt c t0 polls (i + 1)).lowSeen = false := by
  obtain ⟨p, hp, hun, -⟩ := bump_at hi
  rw [govAt, stateAt_succ _ _ hp]
  exact govStep_unarmed c _ p hun (unarmed_lowSeen c t0 polls i hun)

/-- While the bump at `i` awaits its verdict, every poll is an armed one. -/
theorem armedStep_at {i j : Nat} {p : GovPoll} (hi : BumpAt (govEvents c t0 polls) i) (hij : i < j)
    (hp : polls[j]? = some p) (hno : ∀ k, i < k → k < j → ¬ VerdictAt (govEvents c t0 polls) k) :
    (govAt c t0 polls j).bumpedAt = (govAt c t0 polls (i + 1)).bumpedAt ∧
      ∃ e, (govEvents c t0 polls)[j]? = some e ∧
        ArmedStep c p (govAt c t0 polls j) (govAt c t0 polls (j + 1)) e := by
  obtain ⟨q, -, -, -, harm, -⟩ := bump_at hi
  have hj : j < polls.length := (List.getElem?_eq_some_iff.mp hp).1
  have hkept := armed_until_verdict (show i + 1 ≤ j by omega) (by omega) harm rfl
    fun k h1 h2 => hno k (by omega) (by omega)
  refine ⟨hkept.2, _, outputs_getElem? _ _ hp, ?_⟩
  have hstep := govStep_armed c (govAt c t0 polls j) p hkept.1
  rw [govAt, govAt, stateAt_succ _ _ hp]
  exact hstep

/-- **The flag is the history.** While the bump at `i` awaits its verdict, the flag says that the last
poll was low and came after the bump. -/
theorem lowSeen_at {i j : Nat} (hi : BumpAt (govEvents c t0 polls) i) (hij : i < j) (hj : j ≤ polls.length)
    (hno : ∀ k, i < k → k < j → ¬ VerdictAt (govEvents c t0 polls) k) :
    (govAt c t0 polls j).lowSeen = true ↔ i < j - 1 ∧ LowAt c polls (j - 1) := by
  induction j, Nat.succ_le_of_lt hij using Nat.le_induction with
  | base => simp [bump_lowSeen hi]
  | succ j hij' ih =>
    have hq := List.getElem?_eq_getElem (show j < polls.length by omega)
    obtain ⟨-, e, he, hstep⟩ := armedStep_at hi (by omega) hq fun k h1 h2 => hno k h1 (by omega)
    have hnv := hno j (by omega) (by omega)
    rw [VerdictAt, he] at hnv
    cases hstep with
    | pair => simp at hnv
    | dueLow => simp at hnv
    | dueHeld => simp at hnv
    | wait _ _ _ _ _ _ hseen =>
      rw [hseen, govLow_iff hq]
      simp [show i < j by omega]

theorem due_iff (hmono : Nondecreasing (polls.map Prod.snd)) {i j : Nat} {q : GovPoll}
    (hi : BumpAt (govEvents c t0 polls) i) (hij : i < j) (hq : polls[j]? = some q) :
    DueAt c polls i j ↔ c.verifyMs.toNat ≤ elapsed q.2 (govAt c t0 polls (i + 1)).bumpedAt := by
  obtain ⟨p, hp, -, -, -, hat, -⟩ := bump_at hi
  have hle : p.2 ≤ q.2 := hmono.le hij (by simp [hp]) (by simp [hq])
  have hlt := BitVec.le_def.mp hle
  rw [hat, Serial.elapsed_of_le hle]
  constructor
  · intro ⟨_, p', q', hp', hq', h⟩
    rw [hp, Option.some.injEq] at hp'
    rw [hq, Option.some.injEq] at hq'
    subst hp' hq'
    omega
  · intro h
    exact ⟨hij, p, q, hp, hq, by omega⟩

/-- **The first verdict.** Until one has fallen, a poll after the bump convicts at a pair of low reads,
decides at the deadline, and otherwise leaves the question open. -/
theorem verdict_step (hmono : Nondecreasing (polls.map Prod.snd)) {i j : Nat}
    (hi : BumpAt (govEvents c t0 polls) i) (hij : i < j) (hj : j < polls.length)
    (hno : ∀ k, i < k → k < j → ¬ VerdictAt (govEvents c t0 polls) k) :
    (LowPairAt c polls i j → (govEvents c t0 polls)[j]? = some .clamped) ∧
      (DueAt c polls i j → LowAt c polls j → (govEvents c t0 polls)[j]? = some .clamped) ∧
      (DueAt c polls i j → ¬ LowAt c polls j → (govEvents c t0 polls)[j]? = some .held) ∧
      (VerdictAt (govEvents c t0 polls) j → LowPairAt c polls i j ∨ DueAt c polls i j) := by
  have hq := List.getElem?_eq_getElem hj
  obtain ⟨hat, e, he, hstep⟩ := armedStep_at hi hij hq hno
  have hflag := lowSeen_at hi hij (by omega) hno
  have hlow := @govLow_iff c polls j _ hq
  have hdue := due_iff hmono hi hij hq
  rw [← hat] at hdue
  unfold LowPairAt VerdictAt
  rw [he, hdue, ← hlow]
  cases hstep with
  | pair hl hseen _ =>
    have := hflag.mp hseen
    simp [hl, this]
  | dueLow hl hseen hd _ => simp [hl, hd]
  | dueHeld hl hd _ => simp [hl, hd]
  | wait _ hnc hnh hn hopen _ _ =>
    have hnd : ¬ c.verifyMs.toNat ≤ elapsed (polls[j]).2 (govAt c t0 polls j).bumpedAt := by omega
    have hnp : ¬ (i < j - 1 ∧ LowAt c polls (j - 1) ∧ govLow c (polls[j]).1 = true) := by
      intro ⟨h1, h2, h3⟩
      have := hflag.mpr ⟨h1, h2⟩
      simp [hn h3] at this
    simp [hnd, hnp, hnc, hnh]

theorem no_verdict_before (hmono : Nondecreasing (polls.map Prod.snd)) {i n : Nat}
    (hi : BumpAt (govEvents c t0 polls) i)
    (hnone : ∀ j, i < j → j < n → ¬ LowPairAt c polls i j ∧ ¬ DueAt c polls i j) :
    ∀ j, i < j → j < n → ¬ VerdictAt (govEvents c t0 polls) j := by
  intro j
  induction j using Nat.strong_induction_on with
  | _ j ih =>
    intro hij hjn hv
    have hstep := verdict_step hmono hi hij (verdict_lt_length hv) fun k h1 h2 => ih k h2 h1 (by omega)
    obtain ⟨hnp, hnd⟩ := hnone j hij hjn
    exact (hstep.2.2.2 hv).elim hnp hnd

theorem verdictOn_of_first {i v : Nat} (hi : BumpAt (govEvents c t0 polls) i) (hij : i < v)
    (hv : VerdictAt (govEvents c t0 polls) v)
    (hno : ∀ j, i < j → j < v → ¬ VerdictAt (govEvents c t0 polls) j) :
    VerdictOn (govEvents c t0 polls) i v := by
  refine ⟨hij, hv, fun j h1 h2 => ⟨hno j h1 h2, fun hb => ?_⟩⟩
  obtain ⟨w, hw1, hw2, hw⟩ := exists_verdict_between h1 hi hb
  exact hno w hw1 (by omega) hw

end Runs

/-- **The verdict is what the history says.** For every configuration and every run of polls with
non-decreasing times, and for every bump: the verdict is `clamped` at the first pair of low reads if that
is no later than the deadline; otherwise it falls at the deadline and says whether the read there is low.
No verdict falls before the deadline on a low read that stands alone. -/
theorem gov_verdict_correct (c : GovTraceCfg) (t0 : U64) (polls : List GovPoll)
    (hmono : Nondecreasing (polls.map Prod.snd)) :
    let events := outputs (govStep c) (govTraceInit t0) polls
    ∀ i, BumpAt events i →
      (∀ k, FirstAt (LowPairAt c polls i) k → (∀ d, DueAt c polls i d → k ≤ d) →
        VerdictOn events i k ∧ events[k]? = some .clamped) ∧
      (∀ d, FirstAt (DueAt c polls i) d → (∀ k, LowPairAt c polls i k → d < k) →
        VerdictOn events i d ∧ (LowAt c polls d → events[d]? = some .clamped) ∧
          (¬ LowAt c polls d → events[d]? = some .held)) ∧
      (∀ v, VerdictOn events i v → ¬ DueAt c polls i v → LowPairAt c polls i v) := by
  intro events i hi
  refine ⟨fun k hk hfirst => ?_, fun d hd hfirst => ?_, fun v hv hnd => ?_⟩
  · have hno := no_verdict_before hmono hi (n := k) fun j h1 h2 =>
      ⟨hk.2 j h2, fun hdue => absurd (hfirst j hdue) (by omega)⟩
    have hik : i < k := by have := hk.1.1; omega
    have hclamped := (verdict_step hmono hi hik hk.1.2.2.lt_length hno).1 hk.1
    exact ⟨verdictOn_of_first hi hik (Or.inl hclamped) hno, hclamped⟩
  · have hno := no_verdict_before hmono hi (n := d) fun j h1 h2 =>
      ⟨fun hpair => absurd (hfirst j hpair) (by omega), hd.2 j h2⟩
    obtain ⟨hid, p, q, -, hq, -⟩ := hd.1
    have hstep := verdict_step hmono hi hid (List.getElem?_eq_some_iff.mp hq).1 hno
    have hlow := hstep.2.1 hd.1
    have hheld := hstep.2.2.1 hd.1
    have hv : VerdictAt events d := by
      by_cases h : LowAt c polls d
      · exact Or.inl (hlow h)
      · exact Or.inr (hheld h)
    exact ⟨verdictOn_of_first hi hid hv hno, hlow, hheld⟩
  · have hstep := verdict_step hmono hi hv.1 (verdict_lt_length hv.2.1) fun j h1 h2 => (hv.2.2 j h1 h2).1
    exact (hstep.2.2.2 hv.2.1).resolve_right hnd

theorem lowPairAt_twoMatches :
    FirstAt (LowPairAt (govTraceCfgDefaults 40000 kGovColdStartSentinel) twoMatches 4) 6 := by
  refine ⟨⟨by decide, ⟨(16000, 90100), ?_⟩, ⟨(16000, 90200), ?_⟩⟩, fun m hm h => ?_⟩
  · decide
  · decide
  · have := h.1
    omega

theorem dueAt_twoMatches {d : Nat}
    (h : DueAt (govTraceCfgDefaults 40000 kGovColdStartSentinel) twoMatches 4 d) : 6 ≤ d := by
  obtain ⟨hd, p, q, hp, hq, hdue⟩ := h
  by_contra hlt
  obtain rfl : d = 5 := by omega
  obtain rfl := Option.some.inj hp
  obtain rfl := Option.some.inj hq
  exact absurd hdue (by decide)

/-- The second match of `twoMatches`: a bump, two low reads, and the verdict at the second of them. -/
theorem gov_verdict_correct_twoMatches :
    let c := govTraceCfgDefaults 40000 kGovColdStartSentinel
    let events := outputs (govStep c) (govTraceInit 0) twoMatches
    VerdictOn events 4 6 ∧ events[6]? = some .clamped :=
  (gov_verdict_correct _ 0 twoMatches (by decide) 4 (by unfold BumpAt; decide)).1 6 lowPairAt_twoMatches
    fun _ h => dueAt_twoMatches h

end BzNet
