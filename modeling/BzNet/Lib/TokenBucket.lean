import Mathlib.Tactic.Linarith
import Mathlib.Tactic.Ring

/-!
# Token buckets with debt

A bucket gains `rate` tokens in each `unit` of time, rounded down at every refill, and may be overdrawn: a request
that it cannot cover waits until the refill would have made up for it.

* `waitFor` : how long a request waits, rounded down; `waitFor_lt` bounds the debt that a bounded wait leaves;
* `OwesUntil` : the bucket is not above zero before a given time; every refill and every request keeps it, and
  `OwesUntil.le_wait` puts the next request no earlier than that time;
* `credited` : what refills after each of several times add, every product in a machine word. It is never more than
  the whole time is worth (`credited_le`), and `credited_within_iff` says when it is less by one at most.
-/

namespace TokenBucket

variable {rate unit : Nat} {tokens tokens' : Int} {cost now later due : Nat}

/-- The time until a refill makes up for what a request lacks. -/
def waitFor (rate unit : Nat) (tokens : Int) (cost : Nat) : Nat :=
  if 0 < (cost : Int) - tokens then ((cost : Int) - tokens).toNat * unit / rate else 0

/-- A refill before `due` does not bring the bucket above zero. -/
def OwesUntil (rate unit : Nat) (tokens : Int) (now due : Nat) : Prop :=
  due ≤ now ∨ (rate : Int) * (due - now) + unit * tokens ≤ 0

theorem waitFor_lt (hrate : 0 < rate) : (unit : Int) * (cost - tokens) < (waitFor rate unit tokens cost + 1) * rate := by
  have hr : (0 : Int) < rate := by omega
  unfold waitFor
  split
  · next hpos =>
    have hfloor := Nat.lt_mul_of_div_lt (Nat.lt_succ_self (((cost : Int) - tokens).toNat * unit / rate)) hrate
    have hcast : ((((cost : Int) - tokens).toNat : Nat) : Int) = cost - tokens := Int.toNat_of_nonneg (Int.le_of_lt hpos)
    generalize ((cost : Int) - tokens).toNat * unit / rate = w at hfloor ⊢
    have hint : ((((cost : Int) - tokens).toNat * unit : Nat) : Int) < (((w + 1) * rate : Nat) : Int) := by
      exact_mod_cast hfloor
    rw [Nat.cast_mul, hcast, Nat.cast_mul] at hint
    push_cast at hint ⊢
    linarith
  · next hneg =>
    have hle : (unit : Int) * (cost - tokens) ≤ 0 := mul_nonpos_of_nonneg_of_nonpos (Int.natCast_nonneg unit) (by omega)
    push_cast
    linarith

/-- What a request overdraws is owed until it is due. -/
theorem owesUntil_wait (rate unit : Nat) (tokens : Int) (cost now : Nat) :
    OwesUntil rate unit (tokens - cost) now (now + waitFor rate unit tokens cost) := by
  unfold waitFor
  split
  · next hpos =>
    right
    have hfloor := Nat.div_mul_le_self (((cost : Int) - tokens).toNat * unit) rate
    have hcast : ((((cost : Int) - tokens).toNat : Nat) : Int) = cost - tokens := Int.toNat_of_nonneg (Int.le_of_lt hpos)
    generalize ((cost : Int) - tokens).toNat * unit / rate = w at hfloor ⊢
    have hint : ((w * rate : Nat) : Int) ≤ ((((cost : Int) - tokens).toNat * unit : Nat) : Int) := by exact_mod_cast hfloor
    rw [Nat.cast_mul, Nat.cast_mul, hcast] at hint
    push_cast
    linarith
  · exact Or.inl (Nat.le_refl now)

theorem OwesUntil.spend (h : OwesUntil rate unit tokens now due) (hle : tokens' ≤ tokens) :
    OwesUntil rate unit tokens' now due := by
  rcases h with h | h
  · exact Or.inl h
  · have hmul : (unit : Int) * tokens' ≤ unit * tokens := mul_le_mul_of_nonneg_left hle (Int.natCast_nonneg unit)
    exact Or.inr (by linarith)

theorem OwesUntil.refill (h : OwesUntil rate unit tokens now due) (hnow : now ≤ later)
    (hadd : (unit : Int) * tokens' ≤ unit * tokens + rate * (later - now)) : OwesUntil rate unit tokens' later due := by
  rcases h with h | h
  · exact Or.inl (Nat.le_trans h hnow)
  · have hsplit : (rate : Int) * (due - later) = rate * (due - now) - rate * (later - now) := by ring
    exact Or.inr (by linarith)

/-- **Requests stay in order**: the next one waits at least until what is owed is worked off. -/
theorem OwesUntil.le_wait (h : OwesUntil rate unit tokens now due) (hrate : 0 < rate) (cost : Nat) :
    due ≤ now + waitFor rate unit tokens cost := by
  rcases h with h | h
  · exact Nat.le_trans h (Nat.le_add_right now _)
  · have hlt := @waitFor_lt rate unit tokens cost hrate
    have hcost : (unit : Int) * (cost - tokens) = unit * cost - unit * tokens := by ring
    have hnonneg : (0 : Int) ≤ unit * cost := by exact_mod_cast Nat.zero_le (unit * cost)
    have hmul : (rate : Int) * (due - now) < rate * (waitFor rate unit tokens cost + 1) := by linarith
    have hdue := lt_of_mul_lt_mul_left hmul (Int.natCast_nonneg rate)
    omega

/-! ## Refills one after the other -/

/-- What refills after each of the times add. -/
def credited (rate unit word : Nat) (times : List Nat) : Nat := (times.map fun e => e * rate % word / unit).sum

/-- The numbers differ by one at most. -/
def WithinOne (a b : Nat) : Prop := a ≤ b + 1 ∧ b ≤ a + 1

instance (a b : Nat) : Decidable (WithinOne a b) := inferInstanceAs (Decidable (_ ∧ _))

theorem sum_div {u : Nat} (hu : 0 < u) (xs : List Nat) :
    xs.sum / u = (xs.map (· / u)).sum + (xs.map (· % u)).sum / u := by
  have hsplit : xs.sum = u * (xs.map (· / u)).sum + (xs.map (· % u)).sum := by
    induction xs with
    | nil => rfl
    | cons x xs ih =>
      have hx := Nat.div_add_mod x u
      simp only [List.sum_cons, List.map_cons, Nat.mul_add]
      omega
  rw [hsplit, Nat.mul_add_div hu]

variable {word : Nat} {times : List Nat}

theorem sum_mod_le (word : Nat) (xs : List Nat) : (xs.map (· % word)).sum ≤ xs.sum := by
  induction xs with
  | nil => exact Nat.le_refl 0
  | cons x xs ih => exact Nat.add_le_add (Nat.mod_le x word) ih

/-- A wrap loses a whole word. -/
theorem sum_mod_add_le {xs : List Nat} {x : Nat} (hx : x ∈ xs) (hwrap : word ≤ x) :
    (xs.map (· % word)).sum + word ≤ xs.sum := by
  induction xs with
  | nil => exact absurd hx List.not_mem_nil
  | cons y xs ih =>
    rw [List.map_cons, List.sum_cons, List.sum_cons]
    rcases List.mem_cons.mp hx with rfl | hx
    · have hrest := sum_mod_le word xs
      have hmod : x % word + word ≤ x := by
        rw [Nat.mod_eq_sub_mod hwrap]
        have := Nat.mod_le (x - word) word
        omega
      omega
    · have hrest := ih hx
      have hmod := Nat.mod_le y word
      omega

theorem credited_eq (rate unit word : Nat) (times : List Nat) :
    credited rate unit word times = (((times.map (· * rate)).map (· % word)).map (· / unit)).sum := by
  rw [List.map_map, List.map_map]
  rfl

theorem sum_map_mul (rate : Nat) (times : List Nat) : (times.map (· * rate)).sum = times.sum * rate := by
  induction times with
  | nil => simp
  | cons e times ih => rw [List.map_cons, List.sum_cons, List.sum_cons, ih, Nat.add_mul]

/-- **Refills together** add no more than the whole time is worth. -/
theorem credited_le (hunit : 0 < unit) : credited rate unit word times ≤ times.sum * rate / unit := by
  rw [credited_eq, ← sum_map_mul]
  calc (((times.map (· * rate)).map (· % word)).map (· / unit)).sum
      ≤ ((times.map (· * rate)).map (· % word)).sum / unit := by
        rw [sum_div hunit]
        exact Nat.le_add_right _ _
    _ ≤ (times.map (· * rate)).sum / unit := Nat.div_le_div_right (sum_mod_le word _)

/-- **Refills together** add what the whole time is worth, give or take one, exactly when no product wraps and the
rounded parts stay below two. -/
theorem credited_within_iff (hunit : 0 < unit) (hword : 2 * unit ≤ word) :
    WithinOne (credited rate unit word times) (times.sum * rate / unit) ↔
      (∀ e ∈ times, e * rate < word) ∧ (times.map fun e => e * rate % unit).sum < 2 * unit := by
  have hle := @credited_le rate unit word times hunit
  have hparts : (times.map fun e => e * rate % unit) = (times.map (· * rate)).map (· % unit) := by
    rw [List.map_map]
    rfl
  have hbelow : (∀ e ∈ times, e * rate < word) → (times.map (· * rate)).map (· % word) = times.map (· * rate) := by
    intro h
    rw [List.map_map]
    exact List.map_congr_left fun e he => Nat.mod_eq_of_lt (h e he)
  rw [hparts, ← sum_map_mul, credited_eq]
  rw [credited_eq, ← sum_map_mul] at hle
  constructor
  · rintro ⟨-, hnear⟩
    have hfits : ∀ e ∈ times, e * rate < word := by
      by_contra hwrap
      push Not at hwrap
      obtain ⟨e, he, hwrap⟩ := hwrap
      have hmem : e * rate ∈ times.map (· * rate) := List.mem_map_of_mem he
      have hlost := sum_mod_add_le hmem hwrap
      have htwo : 2 ≤ word / unit := (Nat.le_div_iff_mul_le hunit).mpr hword
      have hpart : (((times.map (· * rate)).map (· % word)).map (· / unit)).sum ≤
          ((times.map (· * rate)).map (· % word)).sum / unit := by
        rw [sum_div hunit]
        exact Nat.le_add_right _ _
      have hdiv : (((times.map (· * rate)).map (· % word)).sum + word) / unit ≤ (times.map (· * rate)).sum / unit :=
        Nat.div_le_div_right hlost
      have hadd := @Nat.div_add_div_le_add_div ((times.map (· * rate)).map (· % word)).sum word unit
      omega
    refine ⟨hfits, ?_⟩
    rw [hbelow hfits, sum_div hunit] at hnear
    exact (Nat.div_lt_iff_lt_mul hunit).mp (by omega)
  · rintro ⟨hfits, hsmall⟩
    have hdiv := (Nat.div_lt_iff_lt_mul hunit).mpr hsmall
    rw [hbelow hfits] at hle ⊢
    refine ⟨by omega, ?_⟩
    rw [sum_div hunit]
    omega

end TokenBucket
