import Mathlib.Algebra.BigOperators.Group.Finset.Basic
import Mathlib.Data.List.Basic
import Mathlib.Data.List.Perm.Basic
import Mathlib.Logic.Function.Basic
import Mathlib.Order.Defs.LinearOrder
import Mathlib.Tactic.Abel

/-!
# Arrays of slots

A fixed array of `n` slots, each in use or free, searched front to back.

* `held` : the entries in use, and what writing one slot (`held_fill`, `held_free`) or freeing several
  (`held_freeWhere`) does to them, up to their order;
* `sum_update` : a quantity summed over the array, after one entry is overwritten;
* `scan_some` : the first slot that a scan accepts;
* `pick_lt`, `best` : one pass that keeps the best candidate so far; `best_some`, `best_none` and, when the
  comparison is the one of a measure, `best_le` and `best_iff`: it is the first of the least ones.
-/

namespace Slots

variable {α : Type} {inUse : α → Bool} {n : Nat} {t : Nat → α}

def held (inUse : α → Bool) (n : Nat) (t : Nat → α) : List α := ((List.range n).map t).filter inUse

theorem mem_held {a : α} : a ∈ held inUse n t ↔ ∃ i, i < n ∧ t i = a ∧ inUse a = true := by
  simp only [held, List.mem_filter, List.mem_map, List.mem_range]
  constructor
  · rintro ⟨⟨i, hi, rfl⟩, hu⟩
    exact ⟨i, hi, rfl, hu⟩
  · rintro ⟨i, hi, rfl, hu⟩
    exact ⟨⟨i, hi, rfl⟩, hu⟩

theorem mem_held_of {i : Nat} (hi : i < n) (hu : inUse (t i) = true) : t i ∈ held inUse n t :=
  mem_held.mpr ⟨i, hi, rfl, hu⟩

theorem mem_held_map {β : Type} {f : α → β} {b : β} :
    b ∈ (held inUse n t).map f ↔ ∃ i, i < n ∧ inUse (t i) = true ∧ f (t i) = b := by
  rw [List.mem_map]
  constructor
  · rintro ⟨a, ha, rfl⟩
    obtain ⟨i, hi, rfl, hu⟩ := mem_held.mp ha
    exact ⟨i, hi, hu, rfl⟩
  · rintro ⟨i, hi, hu, rfl⟩
    exact ⟨t i, mem_held_of hi hu, rfl⟩

theorem held_split (inUse : α → Bool) (t : Nat → α) {i : Nat} (hi : i < n) :
    ∃ rest, List.Perm (held inUse n t) ((if inUse (t i) then [t i] else []) ++ rest) ∧
      ∀ a, List.Perm (held inUse n (Function.update t i a)) ((if inUse a then [a] else []) ++ rest) := by
  have hperm := List.perm_cons_erase (List.mem_range.mpr hi)
  have hrest : ∀ a, ((List.range n).erase i).map (Function.update t i a) = ((List.range n).erase i).map t := by
    intro a
    apply List.map_congr_left
    intro j hj
    have hne : j ≠ i := by
      rintro rfl
      exact (List.Nodup.not_mem_erase List.nodup_range) hj
    exact Function.update_of_ne hne a t
  refine ⟨(((List.range n).erase i).map t).filter inUse, ?_, fun a => ?_⟩
  · have h := (hperm.map t).filter inUse
    rw [List.map_cons, List.filter_cons] at h
    refine h.trans (List.Perm.of_eq ?_)
    split <;> simp
  · have h := (hperm.map (Function.update t i a)).filter inUse
    rw [List.map_cons, hrest a, Function.update_self, List.filter_cons] at h
    refine h.trans (List.Perm.of_eq ?_)
    split <;> simp

theorem held_fill {i : Nat} {a : α} (hi : i < n) (hfree : inUse (t i) = false) (ha : inUse a = true) :
    List.Perm (held inUse n (Function.update t i a)) (a :: held inUse n t) := by
  obtain ⟨rest, h1, h2⟩ := held_split inUse t hi
  have h2 := h2 a
  rw [hfree] at h1
  rw [ha] at h2
  exact h2.trans (h1.symm.cons a)

theorem held_free {i : Nat} {a : α} (hi : i < n) (hused : inUse (t i) = true) (ha : inUse a = false) :
    List.Perm (held inUse n t) (t i :: held inUse n (Function.update t i a)) := by
  obtain ⟨rest, h1, h2⟩ := held_split inUse t hi
  have h2 := h2 a
  rw [hused] at h1
  rw [ha] at h2
  exact h1.trans (h2.symm.cons (t i))

/-- Freeing the slots in use with a property removes their entries and keeps the others in place. -/
theorem held_freeWhere {p : α → Bool} {t' : Nat → α} (hfree : ∀ i, i < n → p (t i) = true → inUse (t' i) = false)
    (hkeep : ∀ i, i < n → inUse (t i) = true → p (t i) = false → t' i = t i)
    (hidle : ∀ i, i < n → inUse (t i) = false → inUse (t' i) = false) :
    held inUse n t' = (held inUse n t).filter (fun a => !p a) := by
  induction n with
  | zero => rfl
  | succ n ih =>
    have ih := ih (fun i hi => hfree i (by omega)) (fun i hi => hkeep i (by omega)) fun i hi => hidle i (by omega)
    simp only [held, List.range_succ, List.map_append, List.filter_append, List.map_singleton] at ih ⊢
    rw [ih]
    congr 1
    cases hu : inUse (t n) with
    | false => simp [hu, hidle n (by omega) hu]
    | true =>
      cases hp : p (t n) with
      | true => simp [hu, hp, hfree n (by omega) hp]
      | false => simp [hu, hp, hkeep n (by omega) hu hp]

theorem sum_update {M : Type} [AddCommMonoid M] (f : α → M) (t : Nat → α) {i : Nat} (hi : i < n) (a : α) :
    (∑ j ∈ Finset.range n, f (Function.update t i a j)) + f (t i) = (∑ j ∈ Finset.range n, f (t j)) + f a := by
  have hmem := Finset.mem_range.mpr hi
  have hrest : ∑ j ∈ (Finset.range n).erase i, f (Function.update t i a j) = ∑ j ∈ (Finset.range n).erase i, f (t j) :=
    Finset.sum_congr rfl fun j hj => by rw [Function.update_of_ne (Finset.ne_of_mem_erase hj)]
  rw [← Finset.add_sum_erase _ _ hmem, ← Finset.add_sum_erase _ (fun j => f (t j)) hmem, hrest, Function.update_self]
  abel

/-! ## The first slot accepted -/

/-- A scan front to back stops at the first slot it accepts. -/
theorem scan_some {β : Type} {f : Nat → Option β} {b : β} (h : (List.range n).findSome? f = some b) :
    ∃ k, k < n ∧ f k = some b ∧ ∀ m, m < k → f m = none := by
  obtain ⟨before, k, behind, hrange, hk, hbefore⟩ := List.findSome?_eq_some_iff.mp h
  have hget : (List.range n)[before.length]? = some k := by rw [hrange]; simp
  obtain ⟨hlt, hlen⟩ := List.getElem?_eq_some_iff.mp hget
  rw [List.getElem_range] at hlen
  subst hlen
  rw [List.length_range] at hlt
  refine ⟨before.length, hlt, hk, fun m hm => hbefore m ?_⟩
  have hat : before[m]? = some m := by
    rw [← List.getElem?_append_left hm, ← hrange]
    exact List.getElem?_range (Nat.lt_trans hm hlt)
  exact List.mem_of_getElem? hat

/-! ## One pass for the best candidate -/

theorem pick_lt (better : Nat → Nat → Prop) [∀ i j, Decidable (better i j)] (hn : 0 < n) :
    (List.range n).foldl (fun o i => if better i o then i else o) 0 < n := by
  have hpass : ∀ (l : List Nat) (o : Nat), o < n → (∀ i ∈ l, i < n) →
      l.foldl (fun o i => if better i o then i else o) o < n := by
    intro l
    induction l with
    | nil => exact fun o ho _ => ho
    | cons i l ih =>
      intro o ho hl
      refine ih _ ?_ fun j hj => hl j (List.mem_cons_of_mem _ hj)
      change (if better i o then i else o) < n
      split
      · exact hl i List.mem_cons_self
      · exact ho
  exact hpass _ 0 hn fun i hi => List.mem_range.mp hi

/-- The candidate that no later candidate was found better than. -/
def best (n : Nat) (cand : Nat → Bool) (better : Nat → Nat → Bool) : Option Nat :=
  (List.range n).foldl (fun b i =>
    if cand i then
      match b with
      | none => some i
      | some j => if better i j then some i else some j
    else b) none

variable {cand : Nat → Bool} {better : Nat → Nat → Bool}

theorem best_succ : best (n + 1) cand better =
    if cand n then
      match best n cand better with
      | none => some n
      | some j => if better n j then some n else some j
    else best n cand better := by
  rw [best, List.range_succ, List.foldl_append]
  rfl

theorem best_congr {cand' : Nat → Bool} (h : ∀ i, i < n → cand i = cand' i) :
    best n cand better = best n cand' better := by
  induction n with
  | zero => rfl
  | succ n ih => rw [best_succ, best_succ, ih fun i hi => h i (by omega), h n (Nat.lt_succ_self n)]

theorem best_some {i : Nat} (h : best n cand better = some i) : i < n ∧ cand i = true := by
  induction n with
  | zero => cases h
  | succ n ih =>
    rw [best_succ] at h
    split at h
    · next hc =>
      split at h
      · rw [← Option.some.inj h]
        exact ⟨Nat.lt_succ_self n, hc⟩
      · next j hj =>
        split at h
        · rw [← Option.some.inj h]
          exact ⟨Nat.lt_succ_self n, hc⟩
        · have := ih (hj.trans h)
          exact ⟨by omega, this.2⟩
    · have := ih h
      exact ⟨by omega, this.2⟩

theorem best_none : best n cand better = none ↔ ∀ i, i < n → cand i = false := by
  induction n with
  | zero => simp [best]
  | succ n ih =>
    rw [best_succ]
    cases hc : cand n with
    | false =>
      simp only [Bool.false_eq_true, if_false, ih]
      constructor
      · intro h i hi
        rcases Nat.lt_succ_iff_lt_or_eq.mp hi with hlt | rfl
        · exact h i hlt
        · exact hc
      · exact fun h i hi => h i (by omega)
    | true =>
      have hno : ¬ ∀ i, i < n + 1 → cand i = false := fun h => by
        have := h n (Nat.lt_succ_self n)
        rw [hc] at this
        cases this
      simp only [if_true, iff_false_intro hno, iff_false]
      split
      · exact Option.some_ne_none n
      · split <;> exact Option.some_ne_none _

/-- The best candidate by a comparison that is the one of the measure `f` is least in `f`. -/
theorem best_le {β : Type} [LinearOrder β] {f : Nat → β}
    (hlt : ∀ i j, i < n → j < n → cand i = true → cand j = true → better i j = true → f i ≤ f j)
    (hge : ∀ i j, i < n → j < n → cand i = true → cand j = true → better i j = false → f j ≤ f i)
    {i : Nat} (h : best n cand better = some i) : ∀ j, j < n → cand j = true → f i ≤ f j := by
  induction n generalizing i with
  | zero => cases h
  | succ n ih =>
    have ih : ∀ {i}, best n cand better = some i → ∀ j, j < n → cand j = true → f i ≤ f j :=
      ih (fun i j hi hj => hlt i j (by omega) (by omega)) fun i j hi hj => hge i j (by omega) (by omega)
    rw [best_succ] at h
    intro k hk hck
    rcases Nat.lt_succ_iff_lt_or_eq.mp hk with hkn | rfl
    · split at h
      · next hc =>
        split at h
        · next hnone => exact absurd hck (by rw [best_none.mp hnone k hkn]; exact Bool.false_ne_true)
        · next j hj =>
          have hjn := best_some hj
          split at h
          · next hb =>
            rw [← Option.some.inj h]
            exact le_trans (hlt n j (by omega) (by omega) hc hjn.2 hb) (ih hj k hkn hck)
          · exact ih (hj.trans h) k hkn hck
      · exact ih h k hkn hck
    · rw [if_pos hck] at h
      split at h
      · rw [← Option.some.inj h]
      · next j hj =>
        have hjn := best_some hj
        split at h
        · rw [← Option.some.inj h]
        · next hb =>
          rw [← Option.some.inj h]
          exact hge k j (by omega) (by omega) hck hjn.2 (by simpa using hb)

/-- The first of the candidates that are least in a measure. -/
structure FirstLeast {β : Type} [LinearOrder β] (n : Nat) (cand : Nat → Bool) (f : Nat → β) (i : Nat) : Prop where
  lt : i < n
  mem : cand i = true
  least : ∀ j, j < n → cand j = true → f i ≤ f j
  leftmost : ∀ j, j < i → cand j = true → f i < f j

section FirstLeast
variable {β : Type} [LinearOrder β] {f : Nat → β}

theorem FirstLeast.unique {i j : Nat} (h : FirstLeast n cand f i) (h' : FirstLeast n cand f j) : i = j := by
  rcases Nat.lt_trichotomy i j with hlt | heq | hlt
  · exact absurd (h'.leftmost i hlt h.mem) (not_lt.mpr (h.least j h'.lt h'.mem))
  · exact heq
  · exact absurd (h.leftmost j hlt h'.mem) (not_lt.mpr (h'.least i h.lt h.mem))

/-- Only a better candidate takes the place of one found before. -/
theorem best_leftmost (hbetter : ∀ i j, better i j = true ↔ f i < f j) {i : Nat} (h : best n cand better = some i) :
    ∀ j, j < i → cand j = true → f i < f j := by
  induction n with
  | zero => cases h
  | succ n ih =>
    rw [best_succ] at h
    split at h
    · split at h
      · next hnone =>
        obtain rfl : n = i := Option.some.inj h
        intro j hj hcand
        rw [best_none.mp hnone j hj] at hcand
        cases hcand
      · next k hk =>
        split at h
        · next hbest =>
          obtain rfl : n = i := Option.some.inj h
          intro j hj hcand
          have hle : f k ≤ f j := best_le (fun a b _ _ _ _ hb => le_of_lt ((hbetter a b).mp hb))
            (fun a b _ _ _ _ hb => not_lt.mp fun hlt => by rw [(hbetter a b).mpr hlt] at hb; cases hb) hk j hj hcand
          exact lt_of_lt_of_le ((hbetter n k).mp hbest) hle
        · exact ih (hk.trans h)
    · exact ih h

/-- **The pass ends at the first of the least candidates.** -/
theorem best_iff (hbetter : ∀ i j, better i j = true ↔ f i < f j) {i : Nat} :
    best n cand better = some i ↔ FirstLeast n cand f i := by
  have hfirst : ∀ {k}, best n cand better = some k → FirstLeast n cand f k := by
    intro k hk
    obtain ⟨hlt, hcand⟩ := best_some hk
    refine ⟨hlt, hcand, ?_, best_leftmost hbetter hk⟩
    exact best_le (fun a b _ _ _ _ hb => le_of_lt ((hbetter a b).mp hb))
      (fun a b _ _ _ _ hb => not_lt.mp fun hlt => by rw [(hbetter a b).mpr hlt] at hb; cases hb) hk
  refine ⟨hfirst, fun h => ?_⟩
  cases hb : best n cand better with
  | none =>
    have := best_none.mp hb i h.lt
    rw [h.mem] at this
    cases this
  | some k => rw [(hfirst hb).unique h]

end FirstLeast

end Slots
