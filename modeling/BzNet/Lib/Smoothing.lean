import Mathlib.Algebra.Order.Ring.Nat
import Mathlib.Tactic.Ring

/-!
# Smoothing in integers

An estimate moved towards each value by one part in `m + 1`, rounded down.

* `le_smooth`, `smooth_le` : it stays between what it was and the value;
* `Settled` : a value repeated does not move it any more, which is so from `m` below the value up to the value;
* `settled_repeated` : repeated often enough every value is settled on, from above and from below.
-/

namespace Smoothing

variable {m s r : Nat}

def smooth (m s r : Nat) : Nat := (m * s + r) / (m + 1)

/-- The estimate `s` is as close to `r` as rounding lets it come. -/
def Settled (m s r : Nat) : Prop := s ≤ r ∧ r ≤ s + m

/-- How far from settled; one side or the other is `0`. -/
def gap (m s r : Nat) : Nat := (s - r) + (r - (s + m))

theorem gap_eq_zero : gap m s r = 0 ↔ Settled m s r := by
  unfold gap Settled
  omega

theorem le_smooth {lo : Nat} (hs : lo ≤ s) (hr : lo ≤ r) : lo ≤ smooth m s r := by
  rw [smooth, Nat.le_div_iff_mul_le (Nat.succ_pos m)]
  calc lo * (m + 1) = m * lo + lo := by ring
    _ ≤ m * s + r := Nat.add_le_add (Nat.mul_le_mul_left m hs) hr

theorem smooth_le {hi : Nat} (hs : s ≤ hi) (hr : r ≤ hi) : smooth m s r ≤ hi := by
  apply Nat.div_le_of_le_mul
  calc m * s + r ≤ m * hi + hi := Nat.add_le_add (Nat.mul_le_mul_left m hs) hr
    _ = (m + 1) * hi := by ring

theorem smooth_lt (h : r < s) : smooth m s r < s := by
  apply Nat.div_lt_of_lt_mul
  calc m * s + r < m * s + s := Nat.add_lt_add_left h _
    _ = (m + 1) * s := by ring

theorem lt_smooth (h : s + m < r) : s < smooth m s r := by
  rw [smooth, ← Nat.succ_le_iff, Nat.le_div_iff_mul_le (Nat.succ_pos m)]
  calc (s + 1) * (m + 1) = m * s + (s + m + 1) := by ring
    _ ≤ m * s + r := Nat.add_le_add_left h _

theorem Settled.smooth_eq (h : Settled m s r) : smooth m s r = s := by
  obtain ⟨hle, hclose⟩ := h
  apply Nat.div_eq_of_lt_le
  · calc s * (m + 1) = m * s + s := by ring
      _ ≤ m * s + r := Nat.add_le_add_left hle _
  · calc m * s + r < m * s + (s + m + 1) := Nat.add_lt_add_left (Nat.lt_succ_of_le hclose) _
      _ = (s + 1) * (m + 1) := by ring

theorem gap_smooth_lt (h : ¬ Settled m s r) : gap m (smooth m s r) r < gap m s r := by
  by_cases habove : r < s
  · have hlow : r ≤ smooth m s r := le_smooth (Nat.le_of_lt habove) (Nat.le_refl r)
    have hdown := @smooth_lt m s r habove
    unfold gap
    omega
  · have hfar : s + m < r := by
      unfold Settled at h
      omega
    have hhigh : smooth m s r ≤ r := smooth_le (by omega) (Nat.le_refl r)
    have hup := @lt_smooth m s r hfar
    unfold gap
    omega

/-- **A value repeated** is settled on, after at most as many times as it is away. -/
theorem settled_repeated {n : Nat} (hn : gap m s r ≤ n) : Settled m ((List.replicate n r).foldl (smooth m) s) r := by
  induction n generalizing s with
  | zero => exact gap_eq_zero.mp (Nat.le_zero.mp hn)
  | succ n ih =>
    rw [List.replicate_succ, List.foldl_cons]
    apply ih
    by_cases h : Settled m s r
    · rw [h.smooth_eq, gap_eq_zero.mpr h]
      exact Nat.zero_le n
    · have hlt := gap_smooth_lt h
      omega

end Smoothing
