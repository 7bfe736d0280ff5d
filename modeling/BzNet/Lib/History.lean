import BzNet.Lib.Run
import BzNet.Lib.Serial
import Mathlib.Algebra.BigOperators.Intervals

/-!
# What a bounded state remembers of a history

* `EqualRun xs a k` : the maximal run of equal elements that position `k` is in, up to `k`, starts at `a`.
  It is unique, an equal element extends it and another one starts afresh;
* `Stamped` : a machine that counts the answers of one kind and keeps the time of the last of them.
  `Stamped.ready_iff` : what it tests before the next one is that every one before lies long enough back;
* `Spaced` : times between which at least given gaps lie. `Spaced.count` : how many of them a bound leaves room for.
-/

section EqualRun
variable {α : Type}

/-- Position `k` is in a run of equal elements that starts at `a` and could not start earlier. -/
structure EqualRun (xs : List α) (a k : Nat) : Prop where
  le : a ≤ k
  lt : k < xs.length
  same : ∀ j, a ≤ j → j ≤ k → xs[j]? = xs[k]?
  maximal : a ≠ 0 → xs[a - 1]? ≠ xs[a]?

theorem EqualRun.unique {xs : List α} {a b k : Nat} (ha : EqualRun xs a k) (hb : EqualRun xs b k) : a = b := by
  have key : ∀ {a b : Nat}, EqualRun xs a k → EqualRun xs b k → ¬ a < b := by
    intro a b ha hb hlt
    have hkb := hb.le
    refine hb.maximal (by omega) ?_
    rw [ha.same (b - 1) (by omega) (by omega), ha.same b (by omega) hkb]
  have h1 := key ha hb
  have h2 := key hb ha
  omega

theorem EqualRun.zero {xs : List α} (h : 0 < xs.length) : EqualRun xs 0 0 where
  le := Nat.le_refl 0
  lt := h
  same := fun j _ hj => by rw [Nat.le_zero.mp hj]
  maximal := fun h0 => absurd rfl h0

theorem EqualRun.extend {xs : List α} {a k : Nat} (h : EqualRun xs a k) (hlt : k + 1 < xs.length)
    (heq : xs[k + 1]? = xs[k]?) : EqualRun xs a (k + 1) where
  le := Nat.le_succ_of_le h.le
  lt := hlt
  same := by
    intro j h1 h2
    rcases Nat.le_succ_iff.mp h2 with hle | rfl
    · rw [heq, h.same j h1 hle]
    · rfl
  maximal := h.maximal

theorem EqualRun.fresh {xs : List α} {k : Nat} (hlt : k + 1 < xs.length) (hne : xs[k + 1]? ≠ xs[k]?) :
    EqualRun xs (k + 1) (k + 1) where
  le := Nat.le_refl _
  lt := hlt
  same := fun j h1 h2 => by rw [Nat.le_antisymm h2 h1]
  maximal := fun _ h => hne h.symm

end EqualRun

section Spaced
variable {gap : Nat → Nat} {ts : List Nat}

/-- The time after number `k` comes at least `gap k` later. -/
def Spaced (gap : Nat → Nat) (ts : List Nat) : Prop :=
  ∀ k t t', ts[k]? = some t → ts[k + 1]? = some t' → t + gap k ≤ t'

theorem spaced_singleton (t : Nat) : Spaced gap [t] := by
  intro k a b _ hb
  simp at hb

theorem Spaced.concat (h : Spaced gap ts) {t t' : Nat} (hlast : ts.getLast? = some t)
    (hle : t + gap (ts.length - 1) ≤ t') : Spaced gap (ts ++ [t']) := by
  intro k a b ha hb
  obtain ⟨hk, -⟩ := List.getElem?_eq_some_iff.mp hb
  rw [List.length_append, List.length_singleton] at hk
  rw [List.getElem?_append_left (by omega)] at ha
  by_cases hend : k + 1 < ts.length
  · rw [List.getElem?_append_left hend] at hb
    exact h k a b ha hb
  · obtain rfl : k = ts.length - 1 := by omega
    rw [List.getElem?_append_right (by omega), show ts.length - 1 + 1 - ts.length = 0 by omega] at hb
    rw [List.getLast?_eq_getElem?, ha] at hlast
    rw [Option.some.inj hlast, ← Option.some.inj hb]
    exact hle

theorem Spaced.sum_le (h : Spaced gap ts) {i n t t' : Nat} (ht : ts[i]? = some t) (ht' : ts[i + n]? = some t') :
    t + ∑ j ∈ Finset.range n, gap (i + j) ≤ t' := by
  induction n generalizing t' with
  | zero =>
    rw [Nat.add_zero, ht] at ht'
    rw [Finset.sum_range_zero, Nat.add_zero, Option.some.inj ht']
  | succ n ih =>
    have hlt : i + n < ts.length := by
      have := (List.getElem?_eq_some_iff.mp ht').1
      omega
    have hmid := List.getElem?_eq_getElem hlt
    have hstep := h (i + n) _ _ hmid ht'
    have hsum := ih hmid
    rw [Finset.sum_range_succ]
    omega

/-- **Counting.** Where more than `n` of the times are at most `b`, the first `n` gaps fit below `b`. -/
theorem Spaced.count (h : Spaced gap ts) {t₀ n b : Nat} (h0 : ts[0]? = some t₀)
    (hn : n < (ts.filter fun t => decide (t ≤ b)).length) : t₀ + ∑ j ∈ Finset.range n, gap j ≤ b := by
  have hlen : n < ts.length := Nat.lt_of_lt_of_le hn (List.length_filter_le _ _)
  have htn := List.getElem?_eq_getElem hlen
  have hsum := h.sum_le h0 (n := n) (by rw [Nat.zero_add]; exact htn)
  simp only [Nat.zero_add] at hsum
  by_contra hover
  have hdrop : (ts.drop n).filter (fun t => decide (t ≤ b)) = [] := by
    rw [List.filter_eq_nil_iff]
    intro t ht
    obtain ⟨k, hk⟩ := List.mem_iff_getElem?.mp ht
    rw [List.getElem?_drop] at hk
    have := h.sum_le htn hk
    simp only [decide_eq_true_iff]
    omega
  rw [← List.take_append_drop n ts, List.filter_append, hdrop, List.append_nil] at hn
  have := List.length_filter_le (fun t => decide (t ≤ b)) (ts.take n)
  rw [List.length_take] at this
  omega

end Spaced

namespace Machine

open Serial (elapsed)

variable {σ ι ο : Type} {w : Nat} {step : σ → ι → σ × ο} {count : σ → Nat} {stamp : σ → BitVec w}
  {mark : ο} {time : ι → BitVec w}

/-- The answers `mark` are counted and the time of the last one is kept. -/
structure Stamped (step : σ → ι → σ × ο) (count : σ → Nat) (stamp : σ → BitVec w) (mark : ο)
    (time : ι → BitVec w) : Prop where
  marked : ∀ s x, (step s x).2 = mark → count (step s x).1 = count s + 1 ∧ stamp (step s x).1 = time x
  kept : ∀ s x, (step s x).2 ≠ mark → count (step s x).1 = count s ∧ stamp (step s x).1 = stamp s

/-- Every answer `mark` before position `k` lies `d` or more before `now`. -/
def Rested (ms : List (BitVec w)) (ys : List ο) (mark : ο) (d : Nat) (k : Nat) (now : BitVec w) : Prop :=
  ∀ j t, j < k → ys[j]? = some mark → ms[j]? = some t → t.toNat + d ≤ now.toNat

section
variable {s : σ} {xs : List ι}

theorem Stamped.last (h : Stamped step count stamp mark time) (h0 : count s = 0) {k : Nat} (hk : k ≤ xs.length) :
    (count (stateAt step s xs k) = 0 ∧ ∀ j, j < k → (outputs step s xs)[j]? ≠ some mark) ∨
      (count (stateAt step s xs k) ≠ 0 ∧ ∃ j, j < k ∧ (outputs step s xs)[j]? = some mark ∧
        (xs.map time)[j]? = some (stamp (stateAt step s xs k)) ∧
        ∀ l, j < l → l < k → (outputs step s xs)[l]? ≠ some mark) := by
  induction k with
  | zero => exact Or.inl ⟨by simpa using h0, fun j hj => absurd hj (Nat.not_lt_zero j)⟩
  | succ k ih =>
    have hx := List.getElem?_eq_getElem (show k < xs.length by omega)
    have hy := outputs_getElem? step s hx
    rw [stateAt_succ _ _ hx]
    by_cases hm : (step (stateAt step s xs k) (xs[k])).2 = mark
    · obtain ⟨hc, hs⟩ := h.marked _ _ hm
      refine Or.inr ⟨by omega, k, Nat.lt_succ_self k, by rw [hy, hm], ?_, fun l h1 h2 => by omega⟩
      rw [hs, List.getElem?_map, hx]
      rfl
    · obtain ⟨hc, hs⟩ := h.kept _ _ hm
      have hk : (outputs step s xs)[k]? ≠ some mark := by
        rw [hy]
        exact fun heq => hm (Option.some.inj heq)
      rw [hc, hs]
      rcases ih (by omega) with ⟨h1, hno⟩ | ⟨h1, j, hj, hmj, htj, hno⟩
      · refine Or.inl ⟨h1, fun j hj => ?_⟩
        rcases Nat.lt_succ_iff_lt_or_eq.mp hj with hj | rfl
        · exact hno j hj
        · exact hk
      · refine Or.inr ⟨h1, j, by omega, hmj, htj, fun l h2 h3 => ?_⟩
        rcases Nat.lt_succ_iff_lt_or_eq.mp h3 with h3 | rfl
        · exact hno l h2 h3
        · exact hk

/-- On a clock that never goes back, the test against the stamp is a test against every earlier `mark`. -/
theorem Stamped.ready_iff (h : Stamped step count stamp mark time) (h0 : count s = 0)
    (hmono : (xs.map time).Pairwise (· ≤ ·)) {k : Nat} {x : ι} (hx : xs[k]? = some x) (d : Nat) :
    (count (stateAt step s xs k) = 0 ∨ d ≤ elapsed (time x) (stamp (stateAt step s xs k))) ↔
      Rested (xs.map time) (outputs step s xs) mark d k (time x) := by
  have hk : k < xs.length := (List.getElem?_eq_some_iff.mp hx).1
  have hle : ∀ {i j : Nat} {ti tj : BitVec w}, i < j → (xs.map time)[i]? = some ti →
      (xs.map time)[j]? = some tj → ti ≤ tj := by
    intro i j ti tj hij hi hj
    obtain ⟨hi', rfl⟩ := List.getElem?_eq_some_iff.mp hi
    obtain ⟨hj', rfl⟩ := List.getElem?_eq_some_iff.mp hj
    exact List.pairwise_iff_getElem.mp hmono i j hi' hj' hij
  have hnow : (xs.map time)[k]? = some (time x) := by rw [List.getElem?_map, hx]; rfl
  rcases h.last h0 (Nat.le_of_lt hk) with ⟨hc, hno⟩ | ⟨hc, j, hj, hmj, htj, hno⟩
  · exact iff_of_true (Or.inl hc) fun j t hj hmj _ => absurd hmj (hno j hj)
  · have hjk := hle hj htj hnow
    have hjk' := BitVec.le_def.mp hjk
    rw [Serial.elapsed_of_le hjk]
    constructor
    · intro hready i t hi hmi hti
      have hd := hready.resolve_left hc
      have hij : t ≤ stamp (stateAt step s xs k) := by
        rcases Nat.lt_trichotomy i j with hlt | rfl | hlt
        · exact hle hlt hti htj
        · rw [htj, Option.some.injEq] at hti
          exact hti ▸ BitVec.le_refl _
        · exact absurd hmi (hno i hlt hi)
      have := BitVec.le_def.mp hij
      omega
    · intro hrest
      have := hrest j _ hj hmj htj
      exact Or.inr (by omega)

end

end Machine
