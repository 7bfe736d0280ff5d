import Mathlib.Data.BitVec
import Mathlib.Data.List.Chain
import Mathlib.Tactic.Ring

/-!
# Serial-number arithmetic

Counters and clocks of a fixed width `w`, compared by their wrapped difference.

* `cmp a b` : the signed reading of `a - b`; positive when `a` is ahead of `b` by less than half
  the circle. It is not a linear order on the whole circle, but it is one on any arc shorter than
  half of it (`cmp_of_arc`);
* `elapsed now t` : the unsigned reading of `now - t`, the time since `t` on a clock that has
  wrapped at most once;
* `chain_getLast?`, `elapsed_of_mem_chain` : runs of successors.
-/

namespace Serial

variable {w : Nat}

/-- How far `a` is ahead of `b`: negative when it is behind. -/
def cmp (a b : BitVec w) : Int := (a - b).toInt

/-- The wrapped time from `t` to `now`. -/
def elapsed (now t : BitVec w) : Nat := (now - t).toNat

/-! ## `elapsed` -/

theorem elapsed_of_le {now t : BitVec w} (h : t ≤ now) : elapsed now t = now.toNat - t.toNat := by
  have h' := BitVec.le_def.mp h
  rw [elapsed, BitVec.toNat_sub_of_le h]

theorem elapsed_lt (now t : BitVec w) : elapsed now t < 2 ^ w := (now - t).isLt

@[simp] theorem elapsed_self (t : BitVec w) : elapsed t t = 0 := by simp [elapsed]

theorem le_of_elapsed_lt {now t : BitVec w} {d : Nat} (h : elapsed now t < d) (hd : d ≤ now.toNat) :
    t ≤ now := by
  rw [elapsed, BitVec.toNat_sub] at h
  rw [BitVec.le_def]
  have ht := t.isLt
  have hn := now.isLt
  by_contra hlt
  rw [Nat.mod_eq_of_lt (by omega)] at h
  omega

/-! ## `cmp` -/

theorem cmp_eq (a b : BitVec w) :
    cmp a b = if 2 * elapsed a b < 2 ^ w then (elapsed a b : Int) else (elapsed a b : Int) - 2 ^ w := by
  rw [cmp, BitVec.toInt_eq_toNat_cond, elapsed]
  norm_cast

@[simp] theorem cmp_self (a : BitVec w) : cmp a a = 0 := by simp [cmp]

theorem cmp_pos_iff (a b : BitVec w) :
    0 < cmp a b ↔ 0 < elapsed a b ∧ 2 * elapsed a b < 2 ^ w := by
  have h := elapsed_lt a b
  rw [cmp_eq]
  split
  · omega
  · have : (elapsed a b : Int) < 2 ^ w := by exact_mod_cast h
    omega

theorem cmp_nonneg_iff (a b : BitVec w) : 0 ≤ cmp a b ↔ 2 * elapsed a b < 2 ^ w := by
  have h := elapsed_lt a b
  rw [cmp_eq]
  split
  · omega
  · have : (elapsed a b : Int) < 2 ^ w := by exact_mod_cast h
    omega

theorem elapsed_eq_zero_iff (a b : BitVec w) : elapsed a b = 0 ↔ a = b := by
  constructor
  · intro h
    have h0 : a - b = 0#w := BitVec.eq_of_toNat_eq (by simpa [elapsed] using h)
    calc a = (a - b) + b := by ring
      _ = b := by rw [h0]; simp
  · rintro rfl
    exact elapsed_self a

/-- The distance between two points of an arc, from their distances to its start. -/
theorem elapsed_of_base {base a b : BitVec w} (h : elapsed b base ≤ elapsed a base) :
    elapsed a b = elapsed a base - elapsed b base := by
  have hsub : a - b = (a - base) - (b - base) := by ring
  rw [elapsed, hsub, BitVec.toNat_sub_of_le (BitVec.le_def.mpr h)]
  rfl

theorem elapsed_swap {a b : BitVec w} (h : a ≠ b) : elapsed a b + elapsed b a = 2 ^ w := by
  have hsub : b - a = -(a - b) := by ring
  have hpos : elapsed a b ≠ 0 := fun h0 => h ((elapsed_eq_zero_iff a b).mp h0)
  have hlt := elapsed_lt a b
  have hneg : elapsed b a = 2 ^ w - elapsed a b := by
    rw [elapsed, hsub, BitVec.toNat_neg]
    exact Nat.mod_eq_of_lt (by have : (a - b).toNat = elapsed a b := rfl; omega)
  omega

/-- On an arc shorter than half the circle `cmp` compares the distances from its start. -/
theorem cmp_of_arc {base a b : BitVec w} (ha : 2 * elapsed a base < 2 ^ w)
    (hb : 2 * elapsed b base < 2 ^ w) : cmp a b = (elapsed a base : Int) - (elapsed b base : Int) := by
  rcases Nat.le_total (elapsed b base) (elapsed a base) with h | h
  · have he := elapsed_of_base h
    rw [cmp_eq, if_pos (by omega), he]
    omega
  · rcases Nat.eq_or_lt_of_le h with heq | hlt
    · have he := @elapsed_of_base w base a b (by omega)
      have : a = b := (elapsed_eq_zero_iff a b).mp (by omega)
      subst this
      simp
    · have he := elapsed_of_base h
      have hne : a ≠ b := by rintro rfl; omega
      have hsw := elapsed_swap hne
      have hsw' : (elapsed a b : Int) + elapsed b a = 2 ^ w := by exact_mod_cast hsw
      rw [cmp_eq, if_neg (by omega)]
      omega

/-! ## Runs of successors -/

theorem elapsed_add_ofNat {q : BitVec w} {j : Nat} (hj : j < 2 ^ w) : elapsed (q + BitVec.ofNat w j) q = j := by
  have hsub : q + BitVec.ofNat w j - q = BitVec.ofNat w j := add_sub_cancel_left q _
  rw [elapsed, hsub, BitVec.toNat_ofNat, Nat.mod_eq_of_lt hj]

theorem chain_getLast? {q : BitVec w} {l : List (BitVec w)} (h : List.IsChain (fun a b => b = a + 1#w) (q :: l)) :
    (q :: l).getLast? = some (q + BitVec.ofNat w l.length) := by
  induction l generalizing q with
  | nil => simp
  | cons a l ih =>
    obtain ⟨rfl, hl⟩ := List.isChain_cons_cons.mp h
    rw [List.getLast?_cons_cons, ih hl, List.length_cons, add_assoc, ← BitVec.ofNat_add, Nat.add_comm 1]

theorem elapsed_of_mem_chain {q a : BitVec w} {l : List (BitVec w)}
    (h : List.IsChain (fun a b => b = a + 1#w) (q :: l)) (hlen : l.length < 2 ^ w) (ha : a ∈ q :: l) :
    elapsed a q ≤ l.length := by
  obtain ⟨l₁, l₂, hsplit⟩ := List.append_of_mem ha
  cases l₁ with
  | nil =>
    obtain ⟨rfl, -⟩ := List.cons.inj hsplit
    simp
  | cons b l₁ =>
    rw [List.cons_append] at hsplit
    obtain ⟨rfl, rfl⟩ := List.cons.inj hsplit
    have hfront : List.IsChain (fun a b => b = a + 1#w) (q :: (l₁ ++ [a])) := by
      have hall : q :: (l₁ ++ a :: l₂) = (q :: (l₁ ++ [a])) ++ l₂ := by simp
      rw [hall] at h
      exact h.left_of_append
    have hlast := chain_getLast? hfront
    rw [← List.cons_append, List.getLast?_concat, Option.some_inj] at hlast
    simp only [List.length_append, List.length_cons, List.length_nil] at hlast hlen ⊢
    rw [hlast, elapsed_add_ofNat (by omega)]
    omega

end Serial
