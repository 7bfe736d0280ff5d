import BzNet.Gov.Trace
import BzNet.Lib.Run

/-!
# The verdict ledger of the governor trace

A bump opens an account and exactly one verdict, `clamped` or `held`, closes it. `VerdictLedger`
says this of a log of events alone; `govStep_ledger` is what one poll does to the four fields the
account lives in, and every statement about runs below is drawn from it.
-/

namespace BzNet

open Machine
open Serial (elapsed)

/-! ## Event logs -/

def VerdictAt (events : List GovEvent) (k : Nat) : Prop :=
  events[k]? = some .clamped ∨ events[k]? = some .held

def BumpAt (events : List GovEvent) (k : Nat) : Prop := events[k]? = some .bumped

/-- A log of events, with the times of the polls that raised them, in which every bump is settled by
one verdict within `verify` milliseconds. -/
structure VerdictLedger (verify : Nat) (times : List U64) (events : List GovEvent) : Prop where
  /-- Between a bump and the next one there is exactly one verdict. -/
  settled : ∀ i j, i < j → BumpAt events i → BumpAt events j →
    (∀ k, i < k → k < j → ¬ BumpAt events k) → ∃! v, i < v ∧ v < j ∧ VerdictAt events v
  /-- Two verdicts have a bump between them. -/
  single : ∀ v w, v < w → VerdictAt events v → VerdictAt events w → ∃ k, v < k ∧ k < w ∧ BumpAt events k
  /-- The verdict comes no later than the first poll past the deadline. -/
  prompt : ∀ i d (ti td : U64), i < d → BumpAt events i → times[i]? = some ti → times[d]? = some td →
    ti.toNat + verify ≤ td.toNat →
    ∃ v, i < v ∧ v ≤ d ∧ VerdictAt events v ∧ ∀ k, i < k → k < v → ¬ BumpAt events k
  /-- A verdict settles an earlier bump, with nothing between them. -/
  caused : ∀ v, VerdictAt events v →
    ∃ i, i < v ∧ BumpAt events i ∧ ∀ k, i < k → k < v → ¬ BumpAt events k ∧ ¬ VerdictAt events k
  /-- Bumps are at least `verify` milliseconds apart. -/
  spaced : ∀ i j (ti tj : U64), i < j → BumpAt events i → BumpAt events j → times[i]? = some ti →
    times[j]? = some tj → ti.toNat + verify ≤ tj.toNat

/-! ## What one poll does to the ledger -/

/-- The effect of one poll on the fields the account lives in. -/
inductive LedgerStep (c : GovTraceCfg) (now : U64) (s s' : GovTraceState) : GovEvent → Prop where
  | bump (hun : s.armed = false)
      (hfresh : s.bumps = 0 ∨ c.verifyMs.toNat ≤ elapsed now s.bumpedAt)
      (harm : s'.armed = true) (hat : s'.bumpedAt = now)
      (hb : s'.bumps = s.bumps + 1) (hc : s'.clamps = s.clamps) : LedgerStep c now s s' .bumped
  | clamp (harm : s.armed = true) (hun : s'.armed = false) (hat : s'.bumpedAt = s.bumpedAt)
      (hb : s'.bumps = s.bumps) (hc : s'.clamps = s.clamps + 1) : LedgerStep c now s s' .clamped
  | held (harm : s.armed = true) (hun : s'.armed = false) (hat : s'.bumpedAt = s.bumpedAt)
      (hb : s'.bumps = s.bumps) (hc : s'.clamps = s.clamps) : LedgerStep c now s s' .held
  | quiet (e : GovEvent) (hnb : e ≠ .bumped) (hnc : e ≠ .clamped) (hnh : e ≠ .held)
      (harm : s'.armed = s.armed) (hat : s'.bumpedAt = s.bumpedAt)
      (hb : s'.bumps = s.bumps) (hc : s'.clamps = s.clamps)
      (hopen : s.armed = true → elapsed now s.bumpedAt < c.verifyMs.toNat) : LedgerStep c now s s' e

@[simp] theorem govObserve_armed (s : GovTraceState) (live : U32) (now : U64) :
    (govObserve s live now).armed = s.armed := by unfold govObserve; split <;> rfl

@[simp] theorem govObserve_bumpedAt (s : GovTraceState) (live : U32) (now : U64) :
    (govObserve s live now).bumpedAt = s.bumpedAt := by unfold govObserve; split <;> rfl

@[simp] theorem govObserve_bumps (s : GovTraceState) (live : U32) (now : U64) :
    (govObserve s live now).bumps = s.bumps := by unfold govObserve; split <;> rfl

@[simp] theorem govObserve_clamps (s : GovTraceState) (live : U32) (now : U64) :
    (govObserve s live now).clamps = s.clamps := by unfold govObserve; split <;> rfl

theorem govTraceTail_ledger (c : GovTraceCfg) (s t : GovTraceState) (live : U32) (now : U64)
    (ha : t.armed = s.armed) (hat : t.bumpedAt = s.bumpedAt) (hb : t.bumps = s.bumps)
    (hc : t.clamps = s.clamps) :
    LedgerStep c now s (govTraceTail c t live now).1 (govTraceTail c t live now).2 := by
  unfold govTraceTail
  by_cases hd : t.armed = true ∧ c.verifyMs.toNat ≤ elapsed now t.bumpedAt
  · rw [if_pos hd]
    have harm : s.armed = true := ha ▸ hd.1
    by_cases hl : t.lowSeen = true
    · simp only [hl, if_true]
      exact .clamp harm rfl hat hb (by simp [hc])
    · simp only [hl, Bool.false_eq_true, if_false]
      exact .held harm rfl hat hb hc
  · rw [if_neg hd]
    have hopen : s.armed = true → elapsed now s.bumpedAt < c.verifyMs.toNat := by
      intro harm
      rw [← ha] at harm
      rw [← hat]
      exact Nat.lt_of_not_le fun h => hd ⟨harm, h⟩
    split
    · exact .quiet .trace (by decide) (by decide) (by decide) ha hat hb hc hopen
    · exact .quiet .none (by decide) (by decide) (by decide) ha hat hb hc hopen

/-- **One poll on the ledger.** -/
theorem govTraceStep_ledger (c : GovTraceCfg) (s : GovTraceState) (live : U32) (now : U64) :
    LedgerStep c now s (govTraceStep c s live now).1 (govTraceStep c s live now).2 := by
  unfold govTraceStep
  dsimp only
  split
  · next h =>
    simp only [govObserve_armed, govObserve_bumps, govObserve_bumpedAt, Bool.not_eq_true] at h
    exact .bump h.2.2.1 h.2.2.2 rfl rfl (by simp) (by simp)
  · split
    · next h =>
      have hun : s.armed = false := by simpa using h.2.1
      exact .quiet .floorRescue (by decide) (by decide) (by decide) (by simp) (by simp) (by simp)
        (by simp) (fun harm => by simp [hun] at harm)
    · split
      · next h =>
        have harm : s.armed = true := by simpa using h.1
        split
        · exact .clamp harm rfl (by simp) (by simp) (by simp)
        · exact govTraceTail_ledger c s _ live now (by simp) (by simp) (by simp) (by simp)
      · exact govTraceTail_ledger c s _ live now (by simp) (by simp) (by simp) (by simp)

theorem govStep_ledger (c : GovTraceCfg) (s : GovTraceState) (p : GovPoll) :
    LedgerStep c p.2 s (govStep c s p).1 (govStep c s p).2 :=
  govTraceStep_ledger c s p.1 p.2

/-! ## Runs -/

section Runs
variable {c : GovTraceCfg} {t0 : U64} {polls : List GovPoll}

abbrev govAt (c : GovTraceCfg) (t0 : U64) (polls : List GovPoll) (k : Nat) : GovTraceState :=
  stateAt (govStep c) (govTraceInit t0) polls k

abbrev govEvents (c : GovTraceCfg) (t0 : U64) (polls : List GovPoll) : List GovEvent :=
  outputs (govStep c) (govTraceInit t0) polls

theorem ledger_at {k : Nat} {e : GovEvent} (h : (govEvents c t0 polls)[k]? = some e) :
    ∃ p, polls[k]? = some p ∧ LedgerStep c p.2 (govAt c t0 polls k) (govAt c t0 polls (k + 1)) e := by
  obtain ⟨p, hp, he⟩ := exists_input _ _ h
  refine ⟨p, hp, ?_⟩
  rw [govAt, govAt, stateAt_succ _ _ hp, ← he]
  exact govStep_ledger c _ p

theorem ledger_of_poll (c : GovTraceCfg) (t0 : U64) {k : Nat} {p : GovPoll} (h : polls[k]? = some p) :
    ∃ e, (govEvents c t0 polls)[k]? = some e ∧
      LedgerStep c p.2 (govAt c t0 polls k) (govAt c t0 polls (k + 1)) e := by
  refine ⟨_, outputs_getElem? _ _ h, ?_⟩
  rw [govAt, govAt, stateAt_succ _ _ h]
  exact govStep_ledger c _ p

theorem bump_at {k : Nat} (h : BumpAt (govEvents c t0 polls) k) :
    ∃ p, polls[k]? = some p ∧ (govAt c t0 polls k).armed = false ∧
      ((govAt c t0 polls k).bumps = 0 ∨ c.verifyMs.toNat ≤ elapsed p.2 (govAt c t0 polls k).bumpedAt) ∧
      (govAt c t0 polls (k + 1)).armed = true ∧ (govAt c t0 polls (k + 1)).bumpedAt = p.2 ∧
      (govAt c t0 polls (k + 1)).bumps ≠ 0 := by
  obtain ⟨p, hp, hl⟩ := ledger_at h
  refine ⟨p, hp, ?_⟩
  cases hl with
  | bump hun hfresh harm hat hb hc => exact ⟨hun, hfresh, harm, hat, by omega⟩
  | quiet _ hnb => exact absurd rfl hnb

theorem verdict_at {k : Nat} (h : VerdictAt (govEvents c t0 polls) k) :
    (govAt c t0 polls k).armed = true ∧ (govAt c t0 polls (k + 1)).armed = false := by
  rcases h with h | h
  · obtain ⟨p, hp, hl⟩ := ledger_at h
    cases hl with
    | clamp harm hun => exact ⟨harm, hun⟩
    | quiet _ _ hnc => exact absurd rfl hnc
  · obtain ⟨p, hp, hl⟩ := ledger_at h
    cases hl with
    | held harm hun => exact ⟨harm, hun⟩
    | quiet _ _ _ hnh => exact absurd rfl hnh

theorem armed_until_verdict {i j : Nat} {b : U64} (hij : i ≤ j) (hj : j ≤ polls.length)
    (harm : (govAt c t0 polls i).armed = true) (hat : (govAt c t0 polls i).bumpedAt = b)
    (hno : ∀ k, i ≤ k → k < j → ¬ VerdictAt (govEvents c t0 polls) k) :
    (govAt c t0 polls j).armed = true ∧ (govAt c t0 polls j).bumpedAt = b := by
  refine stateAt_keeps (P := fun s : GovTraceState => s.armed = true ∧ s.bumpedAt = b) hij hj ⟨harm, hat⟩ ?_
  intro k p hik hkj hp hk
  obtain ⟨e, he, hl⟩ := ledger_of_poll c t0 hp
  rw [govAt, govAt, stateAt_succ _ _ hp] at hl
  have hnv := hno k hik hkj
  cases hl with
  | bump hun => exact absurd hk.1 (by simp [hun])
  | clamp => exact absurd (Or.inl he) hnv
  | held => exact absurd (Or.inr he) hnv
  | quiet _ _ _ _ harm' hat' => exact ⟨harm'.trans hk.1, hat'.trans hk.2⟩

theorem unarmed_until_bump {i j : Nat} (hij : i ≤ j) (hj : j ≤ polls.length)
    (hun : (govAt c t0 polls i).armed = false)
    (hno : ∀ k, i ≤ k → k < j → ¬ BumpAt (govEvents c t0 polls) k) :
    (govAt c t0 polls j).armed = false := by
  refine stateAt_keeps (P := fun s : GovTraceState => s.armed = false) hij hj hun ?_
  intro k p hik hkj hp hk
  obtain ⟨e, he, hl⟩ := ledger_of_poll c t0 hp
  rw [govAt, govAt, stateAt_succ _ _ hp] at hl
  cases hl with
  | bump => exact absurd he (hno k hik hkj)
  | clamp _ hun' => exact hun'
  | held _ hun' => exact hun'
  | quiet _ _ _ _ harm' => exact harm'.trans hk

theorem bumpedAt_until_bump {i j : Nat} {b : U64} (hij : i ≤ j) (hj : j ≤ polls.length)
    (hat : (govAt c t0 polls i).bumpedAt = b) (hb : (govAt c t0 polls i).bumps ≠ 0)
    (hno : ∀ k, i ≤ k → k < j → ¬ BumpAt (govEvents c t0 polls) k) :
    (govAt c t0 polls j).bumpedAt = b ∧ (govAt c t0 polls j).bumps ≠ 0 := by
  refine stateAt_keeps (P := fun s : GovTraceState => s.bumpedAt = b ∧ s.bumps ≠ 0) hij hj ⟨hat, hb⟩ ?_
  intro k p hik hkj hp hk
  obtain ⟨e, he, hl⟩ := ledger_of_poll c t0 hp
  rw [govAt, govAt, stateAt_succ _ _ hp] at hl
  cases hl with
  | bump => exact absurd he (hno k hik hkj)
  | clamp _ _ hat' hb' => exact ⟨hat'.trans hk.1, hb' ▸ hk.2⟩
  | held _ _ hat' hb' => exact ⟨hat'.trans hk.1, hb' ▸ hk.2⟩
  | quiet _ _ _ _ _ hat' hb' => exact ⟨hat'.trans hk.1, hb' ▸ hk.2⟩

/-- An open account was opened by a bump, with neither bump nor verdict since. -/
theorem armed_since {k : Nat} (hk : k ≤ polls.length) (harm : (govAt c t0 polls k).armed = true) :
    ∃ i, i < k ∧ BumpAt (govEvents c t0 polls) i ∧
      ∀ l, i < l → l < k → ¬ BumpAt (govEvents c t0 polls) l ∧ ¬ VerdictAt (govEvents c t0 polls) l := by
  induction k with
  | zero => simp [govAt, govTraceInit] at harm
  | succ k ih =>
    have hp := List.getElem?_eq_getElem (show k < polls.length by omega)
    obtain ⟨e, he, hl⟩ := ledger_of_poll c t0 hp
    cases hl with
    | bump => exact ⟨k, Nat.lt_succ_self k, he, fun l h1 h2 => by omega⟩
    | clamp _ hun => simp [hun] at harm
    | held _ hun => simp [hun] at harm
    | quiet _ hnb hnc hnh harm' =>
      obtain ⟨i, hik, hb, hno⟩ := ih (by omega) (harm' ▸ harm)
      refine ⟨i, by omega, hb, fun l h1 h2 => ?_⟩
      rcases Nat.lt_succ_iff_lt_or_eq.mp h2 with h2 | rfl
      · exact hno l h1 h2
      · simp [BumpAt, VerdictAt, he, hnb, hnc, hnh]

/-- `bumps = clamps + held + armed` at every point of a run. -/
theorem gov_balance (c : GovTraceCfg) (t0 : U64) (polls : List GovPoll) :
    (final (govStep c) (govTraceInit t0) polls).bumps =
      (final (govStep c) (govTraceInit t0) polls).clamps + (govEvents c t0 polls).count .held +
        (if (final (govStep c) (govTraceInit t0) polls).armed then 1 else 0) := by
  induction polls using List.reverseRecOn with
  | nil => rfl
  | append_singleton polls p ih =>
    have hl := govStep_ledger c (final (govStep c) (govTraceInit t0) polls) p
    rw [govEvents] at ih ⊢
    rw [outputs_concat, final_concat, List.count_append, List.count_singleton]
    generalize govStep c (final (govStep c) (govTraceInit t0) polls) p = r at hl
    obtain ⟨s', e⟩ := r
    cases hl with
    | bump hun _ harm _ hb hc => simp_all
    | clamp harm hun _ hb hc => simp_all; omega
    | held harm hun _ hb hc => simp_all; omega
    | quiet _ _ _ hnh harm' _ hb hc => simp_all

/-! ## The ledger of a run -/

theorem bump_lt_length {k : Nat} (h : BumpAt (govEvents c t0 polls) k) : k < polls.length := by
  simpa using (List.getElem?_eq_some_iff.mp h).1

theorem verdict_lt_length {k : Nat} (h : VerdictAt (govEvents c t0 polls) k) : k < polls.length := by
  rcases h with h | h <;> simpa using (List.getElem?_eq_some_iff.mp h).1

theorem time_at {k : Nat} {p : GovPoll} {t : U64} (hp : polls[k]? = some p)
    (ht : (polls.map Prod.snd)[k]? = some t) : p.2 = t := by
  rw [List.getElem?_map, hp] at ht
  exact Option.some.inj ht

theorem exists_verdict_between {i j : Nat} (hij : i < j) (hi : BumpAt (govEvents c t0 polls) i)
    (hj : BumpAt (govEvents c t0 polls) j) : ∃ v, i < v ∧ v < j ∧ VerdictAt (govEvents c t0 polls) v := by
  by_contra hno
  push Not at hno
  obtain ⟨p, -, -, -, harm, hat, -⟩ := bump_at hi
  obtain ⟨q, -, hun, -⟩ := bump_at hj
  have h := armed_until_verdict (by omega) (Nat.le_of_lt (bump_lt_length hj)) harm hat
    (fun k h1 h2 => hno k (by omega) h2)
  simp [h.1] at hun

theorem exists_bump_between {v w : Nat} (hvw : v < w) (hv : VerdictAt (govEvents c t0 polls) v)
    (hw : VerdictAt (govEvents c t0 polls) w) : ∃ k, v < k ∧ k < w ∧ BumpAt (govEvents c t0 polls) k := by
  by_contra hno
  push Not at hno
  have hun := @unarmed_until_bump c t0 polls _ _ (show v + 1 ≤ w by omega)
    (Nat.le_of_lt (verdict_lt_length hw)) (verdict_at hv).2 (fun k h1 h2 => hno k (by omega) h2)
  have harm := (verdict_at hw).1
  simp [hun] at harm

theorem verdict_by_deadline {i d : Nat} {ti td : U64} (hid : i < d)
    (hi : BumpAt (govEvents c t0 polls) i) (hti : (polls.map Prod.snd)[i]? = some ti)
    (htd : (polls.map Prod.snd)[d]? = some td) (hle : ti ≤ td)
    (hdue : ti.toNat + c.verifyMs.toNat ≤ td.toNat) :
    ∃ v, i < v ∧ v ≤ d ∧ VerdictAt (govEvents c t0 polls) v := by
  by_contra hno
  push Not at hno
  obtain ⟨p, hp, -, -, harm, hat, -⟩ := bump_at hi
  have hd : d < polls.length := by simpa using (List.getElem?_eq_some_iff.mp htd).1
  have hq := List.getElem?_eq_getElem hd
  have h := armed_until_verdict (by omega) (Nat.le_of_lt hd) harm hat (fun k h1 h2 => hno k (by omega) (by omega))
  obtain ⟨e, he, hl⟩ := ledger_of_poll c t0 hq
  have hnv := hno d hid (Nat.le_refl d)
  cases hl with
  | bump hun => simp [h.1] at hun
  | clamp => exact hnv (Or.inl he)
  | held => exact hnv (Or.inr he)
  | quiet _ _ _ _ _ _ _ _ hopen =>
    have hlt := hopen h.1
    rw [h.2, time_at hp hti, time_at hq htd, Serial.elapsed_of_le hle] at hlt
    omega

abbrev Nondecreasing (ts : List U64) : Prop := ts.Pairwise (· ≤ ·)

theorem Nondecreasing.le {ts : List U64} (h : Nondecreasing ts) {i j : Nat} {ti tj : U64} (hij : i < j)
    (hi : ts[i]? = some ti) (hj : ts[j]? = some tj) : ti ≤ tj := by
  obtain ⟨hi', rfl⟩ := List.getElem?_eq_some_iff.mp hi
  obtain ⟨hj', rfl⟩ := List.getElem?_eq_some_iff.mp hj
  exact List.pairwise_iff_getElem.mp h i j hi' hj' hij

theorem bumps_spaced (hmono : Nondecreasing (polls.map Prod.snd)) {i j : Nat} {ti tj : U64} (hij : i < j)
    (hi : BumpAt (govEvents c t0 polls) i) (hj : BumpAt (govEvents c t0 polls) j)
    (hti : (polls.map Prod.snd)[i]? = some ti) (htj : (polls.map Prod.snd)[j]? = some tj) :
    ti.toNat + c.verifyMs.toNat ≤ tj.toNat := by
  induction j using Nat.strong_induction_on generalizing tj with
  | _ j ih =>
    by_cases hmid : ∃ k, i < k ∧ k < j ∧ BumpAt (govEvents c t0 polls) k
    · obtain ⟨k, hik, hkj, hk⟩ := hmid
      have htk := List.getElem?_eq_getElem (l := polls.map Prod.snd) (i := k)
        (by simpa using bump_lt_length hk)
      have h1 := ih k hkj hik hk htk
      have h2 := BitVec.le_def.mp (hmono.le hkj htk htj)
      omega
    · push Not at hmid
      obtain ⟨p, hp, -, -, -, hat, hb⟩ := bump_at hi
      obtain ⟨q, hq, -, hfresh, -⟩ := bump_at hj
      have h := bumpedAt_until_bump (by omega) (Nat.le_of_lt (bump_lt_length hj)) hat hb
        (fun k h1 h2 => hmid k (by omega) h2)
      have hle := hmono.le hij hti htj
      have hlate := hfresh.resolve_left h.2
      rw [h.1, time_at hp hti, time_at hq htj, Serial.elapsed_of_le hle] at hlate
      have := BitVec.le_def.mp hle
      omega

end Runs

/-- **Every run balances its ledger.** For every configuration and every run of polls with
non-decreasing times, the counters balance and the log of events is a verdict ledger. -/
theorem gov_verdict_accounting (c : GovTraceCfg) (t0 : U64) (polls : List GovPoll)
    (hmono : Nondecreasing (polls.map Prod.snd)) :
    let s := final (govStep c) (govTraceInit t0) polls
    let events := outputs (govStep c) (govTraceInit t0) polls
    s.bumps = s.clamps + events.count .held + (if s.armed then 1 else 0) ∧
      VerdictLedger c.verifyMs.toNat (polls.map Prod.snd) events := by
  refine ⟨gov_balance c t0 polls, ?_, ?_, ?_, ?_, ?_⟩
  · intro i j hij hi hj hno
    obtain ⟨v, h1, h2, hv⟩ := exists_verdict_between hij hi hj
    refine ⟨v, ⟨h1, h2, hv⟩, ?_⟩
    rintro w ⟨hw1, hw2, hw⟩
    rcases Nat.lt_trichotomy v w with hlt | rfl | hlt
    · obtain ⟨k, hk1, hk2, hk⟩ := exists_bump_between hlt hv hw
      exact absurd hk (hno k (by omega) (by omega))
    · rfl
    · obtain ⟨k, hk1, hk2, hk⟩ := exists_bump_between hlt hw hv
      exact absurd hk (hno k (by omega) (by omega))
  · intro v w hvw hv hw
    exact exists_bump_between hvw hv hw
  · intro i d ti td hid hi hti htd hdue
    have hex := verdict_by_deadline hid hi hti htd (hmono.le hid hti htd) hdue
    classical
    obtain ⟨h1, h2, h3⟩ := Nat.find_spec hex
    have hmin := fun m => @Nat.find_min _ _ hex m
    refine ⟨Nat.find hex, h1, h2, h3, fun k hk1 hk2 hk => ?_⟩
    obtain ⟨v, hv1, hv2, hv⟩ := exists_verdict_between hk1 hi hk
    exact hmin v (by omega) ⟨hv1, by omega, hv⟩
  · intro v hv
    exact armed_since (Nat.le_of_lt (verdict_lt_length hv)) (verdict_at hv).1
  · intro i j ti tj hij hi hj hti htj
    exact bumps_spaced hmono hij hi hj hti htj

/-- Two matches: the first poke holds to its deadline, the second is overwritten. -/
def twoMatches : List GovPoll :=
  [(4000, 0), (40000, 100), (40100, 10000), (40100, 60000), (4000, 90000), (16000, 90100), (16000, 90200)]

theorem gov_verdict_accounting_twoMatches :
    let c := govTraceCfgDefaults 40000 kGovColdStartSentinel
    outputs (govStep c) (govTraceInit 0) twoMatches =
        [.bumped, .none, .held, .trace, .bumped, .trace, .clamped] ∧
      VerdictLedger c.verifyMs.toNat (twoMatches.map Prod.snd)
        (outputs (govStep c) (govTraceInit 0) twoMatches) :=
  ⟨by decide, (gov_verdict_accounting _ 0 twoMatches (by decide)).2⟩

end BzNet
