import Mathlib.Data.List.Induction
import Mathlib.Order.Bounds.Basic
import Mathlib.Order.Lattice

/-!
# Extremes kept while values come in

A running minimum and a running maximum, as programs keep them: one comparison for each value.

* `keepMin`, `keepMax` : from a start that no value is beyond (`isLeast_keepMin`, `isGreatest_keepMax`);
* `markedMin` : a minimum whose start is a mark for "none yet". Where the mark is itself a value, what follows it is
  all that the minimum remembers: `isLeast_markedMin_iff` says when it is the minimum all the same.
-/

namespace Extremes

variable {α : Type} [LinearOrder α]

def keepMin (m a : α) : α := if a < m then a else m

def keepMax (m a : α) : α := if m < a then a else m

/-- `mark` stands for no value yet. -/
def markedMin (mark m a : α) : α := if m = mark ∨ a < m then a else m

theorem isLeast_step {l : List α} {m a : α} (h : IsLeast {b | b ∈ l} m) :
    IsLeast {b | b ∈ l ++ [a]} (keepMin m a) := by
  unfold keepMin
  split
  · next hlt =>
    refine ⟨List.mem_append_right l (List.mem_singleton_self a), fun b hb => ?_⟩
    rcases List.mem_append.mp hb with hb | hb
    · exact le_trans (le_of_lt hlt) (h.2 hb)
    · rw [List.mem_singleton.mp hb]
  · next hle =>
    refine ⟨List.mem_append_left _ h.1, fun b hb => ?_⟩
    rcases List.mem_append.mp hb with hb | hb
    · exact h.2 hb
    · rw [List.mem_singleton.mp hb]
      exact not_lt.mp hle

theorem isLeast_singleton (a : α) : IsLeast {b | b ∈ [a]} a :=
  ⟨List.mem_singleton_self a, fun _ hb => ge_of_eq (List.mem_singleton.mp hb)⟩

/-- **The running minimum**, from a start above every value. -/
theorem isLeast_keepMin {top : α} {l : List α} (hne : l ≠ []) (htop : ∀ a ∈ l, a ≤ top) :
    IsLeast {b | b ∈ l} (l.foldl keepMin top) := by
  induction l using List.reverseRecOn with
  | nil => exact absurd rfl hne
  | append_singleton l a ih =>
    rw [List.foldl_append, List.foldl_cons, List.foldl_nil]
    cases l with
    | nil =>
      have hfirst : keepMin top a = a := by
        unfold keepMin
        split
        · rfl
        · next hle => exact le_antisymm (not_lt.mp hle) (htop a (List.mem_singleton_self a))
      rw [List.foldl_nil, hfirst]
      exact isLeast_singleton a
    | cons b l => exact isLeast_step (ih (List.cons_ne_nil b l) fun x hx => htop x (List.mem_append_left _ hx))

/-- **The running maximum**, from a start below every value. -/
theorem isGreatest_keepMax {bot : α} {l : List α} (hne : l ≠ []) (hbot : ∀ a ∈ l, bot ≤ a) :
    IsGreatest {b | b ∈ l} (l.foldl keepMax bot) := by
  have hdual : @IsLeast αᵒᵈ _ {b | b ∈ l} (l.foldl (@keepMin αᵒᵈ _) bot) := @isLeast_keepMin αᵒᵈ _ bot l hne hbot
  exact hdual

section Marked
variable {mark : α} {l : List α}

/-- Past the first value the marked minimum shows the mark only right after it came in. -/
theorem markedMin_eq_mark_iff (hbot : ∀ a, mark ≤ a) :
    l.foldl (markedMin mark) mark = mark ↔ l = [] ∨ l.getLast? = some mark := by
  cases l using List.reverseRecOn with
  | nil => simp
  | append_singleton l a =>
    rw [List.foldl_append, List.foldl_cons, List.foldl_nil, List.getLast?_concat, Option.some.injEq]
    generalize l.foldl (markedMin mark) mark = m
    have hlast : markedMin mark m a = mark ↔ a = mark := by
      unfold markedMin
      split
      · rfl
      · next h =>
        obtain ⟨hm, ha⟩ := not_or.mp h
        have hne : a ≠ mark := fun heq => ha (heq ▸ lt_of_le_of_ne (hbot m) (Ne.symm hm))
        exact iff_of_false hm hne
    rw [hlast]
    simp

theorem isLeast_markedMin (hbot : ∀ a, mark ≤ a) (hne : l ≠ []) (hmark : mark ∉ l) :
    IsLeast {b | b ∈ l} (l.foldl (markedMin mark) mark) := by
  induction l using List.reverseRecOn with
  | nil => exact absurd rfl hne
  | append_singleton l a ih =>
    have hl : mark ∉ l := fun h => hmark (List.mem_append_left _ h)
    rw [List.foldl_append, List.foldl_cons, List.foldl_nil]
    by_cases hnil : l = []
    · subst hnil
      rw [List.foldl_nil, markedMin, if_pos (Or.inl rfl)]
      exact isLeast_singleton a
    · have hm : l.foldl (markedMin mark) mark ≠ mark := by
        intro h
        rcases (markedMin_eq_mark_iff hbot).mp h with h | h
        · exact hnil h
        · exact hl (List.mem_of_getLast? h)
      have hleast := ih hnil hl
      generalize l.foldl (markedMin mark) mark = m at hm hleast ⊢
      have hstep : markedMin mark m a = keepMin m a := by simp only [markedMin, keepMin, hm, false_or]
      rw [hstep]
      exact isLeast_step hleast

/-- **The marked minimum** is the minimum exactly when no value is the mark, or the last one is. -/
theorem isLeast_markedMin_iff (hbot : ∀ a, mark ≤ a) (hne : l ≠ []) :
    IsLeast {b | b ∈ l} (l.foldl (markedMin mark) mark) ↔ (mark ∈ l → l.getLast? = some mark) := by
  constructor
  · intro h hmem
    have heq : l.foldl (markedMin mark) mark = mark := le_antisymm (h.2 hmem) (hbot _)
    exact ((markedMin_eq_mark_iff hbot).mp heq).resolve_left hne
  · intro h
    by_cases hmem : mark ∈ l
    · rw [(markedMin_eq_mark_iff hbot).mpr (Or.inr (h hmem))]
      exact ⟨hmem, fun a _ => hbot a⟩
    · exact isLeast_markedMin hbot hne hmem

end Marked

end Extremes
