import Mathlib.Data.Nat.Init

/-!
# Loops that return from inside

A loop without a counter: `step` is one round, which goes on from another state or returns.

* `run` : the loop, cut off after so many rounds;
* `run_more` : rounds to spare change nothing, and `run_stuck` : a round that comes back to its start never returns;
* `run_total` : a loop whose rounds use something up returns before it runs out;
* `run_inv` : what every round keeps holds wherever the loop returns;
* `returns` : the three together, the rule for a loop.
-/

namespace Loop

variable {σ ρ : Type} {step : σ → σ ⊕ ρ} {s : σ} {r : ρ} {n : Nat}

/-- The loop from `s`, for at most `n` rounds. -/
def run (step : σ → σ ⊕ ρ) : Nat → σ → Option ρ
  | 0, _ => none
  | n + 1, s =>
    match step s with
    | .inl t => run step n t
    | .inr r => some r

theorem run_goes_on {t : σ} (h : step s = .inl t) : run step (n + 1) s = run step n t := by
  rw [run, h]

theorem run_returns (h : step s = .inr r) : run step (n + 1) s = some r := by
  rw [run, h]

theorem run_more (h : run step n s = some r) (extra : Nat) : run step (n + extra) s = some r := by
  induction n generalizing s with
  | zero => cases h
  | succ n ih =>
    rw [Nat.add_right_comm]
    cases hs : step s with
    | inl t =>
      rw [run_goes_on hs] at h ⊢
      exact ih h
    | inr r' =>
      rw [run_returns hs] at h ⊢
      exact h

theorem run_stuck (h : step s = .inl s) (n : Nat) : run step n s = none := by
  induction n with
  | zero => rfl
  | succ n ih => rwa [run_goes_on h]

theorem run_total {left : σ → Nat} (huse : ∀ s t, step s = .inl t → left t < left s) (hn : left s < n) :
    ∃ r, run step n s = some r := by
  induction n generalizing s with
  | zero => exact absurd hn (Nat.not_lt_zero _)
  | succ n ih =>
    cases hs : step s with
    | inl t =>
      rw [run_goes_on hs]
      have := huse s t hs
      exact ih (by omega)
    | inr r => exact ⟨r, run_returns hs⟩

theorem run_inv {P : σ → Prop} {Q : ρ → Prop} (hgo : ∀ s t, P s → step s = .inl t → P t)
    (hret : ∀ s r, P s → step s = .inr r → Q r) (hs : P s) (h : run step n s = some r) : Q r := by
  induction n generalizing s with
  | zero => cases h
  | succ n ih =>
    cases hstep : step s with
    | inl t =>
      rw [run_goes_on hstep] at h
      exact ih (hgo s t hs hstep) h
    | inr r' =>
      rw [run_returns hstep] at h
      obtain rfl := Option.some.inj h
      exact hret s r' hs hstep

/-- **The rule for a loop**: an invariant, and something that every round uses up. -/
theorem returns {left : σ → Nat} {P : σ → Prop} {Q : ρ → Prop} (huse : ∀ s t, step s = .inl t → left t < left s)
    (hgo : ∀ s t, P s → step s = .inl t → P t) (hret : ∀ s r, P s → step s = .inr r → Q r) (hs : P s) :
    ∃ r, (∀ n, left s < n → run step n s = some r) ∧ Q r := by
  obtain ⟨r, hr⟩ := run_total huse (Nat.lt_succ_self (left s))
  refine ⟨r, fun n hn => ?_, run_inv hgo hret hs hr⟩
  obtain ⟨extra, rfl⟩ := Nat.exists_eq_add_of_le hn
  exact run_more hr extra

end Loop
