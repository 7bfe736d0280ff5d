import Mathlib.Data.List.Basic
import Mathlib.Data.List.Infix

/-!
# Frames that begin with a marker

A stream of frames, each of which begins with the same pattern, and a reader who tells the frames apart by that
pattern.

* `Occurs` : the pattern at a position, `firstAt` its first position from a given one on;
* `Unbordered` : no end of the pattern is a beginning of it, so that it cannot occur across the beginning of a frame
  (`occurs_boundary`);
* `firstAt_second` : the second occurrence in a stream is the second frame exactly when the first frame holds the
  pattern nowhere else;
* `hits` : all positions of the pattern, in their order, `hits_one_iff` : there is exactly one.
-/

namespace Marker

variable {α : Type}

def Occurs (pat l : List α) (i : Nat) : Prop := pat <+: l.drop i

instance [DecidableEq α] (pat l : List α) (i : Nat) : Decidable (Occurs pat l i) :=
  inferInstanceAs (Decidable (pat <+: l.drop i))

/-- No end of the pattern, other than the whole, is a beginning of it. -/
def Unbordered (pat : List α) : Prop := ∀ k, 0 < k → k < pat.length → ¬ pat.drop k <+: pat

variable {pat : List α}

theorem occurs_append {f : List α} {i : Nat} (h : Occurs pat f i) (hi : i ≤ f.length) (g : List α) :
    Occurs pat (f ++ g) i := by
  rw [Occurs, List.drop_append_of_le_length hi]
  exact h.trans (List.prefix_append _ _)

/-- **No occurrence reaches into the next frame.** -/
theorem occurs_boundary (hpat : Unbordered pat) {f g : List α} (hg : pat <+: g) {i : Nat} (hi : i < f.length)
    (h : Occurs pat (f ++ g) i) : Occurs pat f i := by
  rw [Occurs, List.drop_append_of_le_length (Nat.le_of_lt hi)] at h
  by_cases hin : pat.length ≤ (f.drop i).length
  · exact List.prefix_of_prefix_length_le h (List.prefix_append _ _) hin
  · -- what reaches over the end of the frame is an end of the pattern where the next frame has its beginning
    have hk : 0 < (f.drop i).length := by
      rw [List.length_drop]
      omega
    have hover : pat.drop (f.drop i).length <+: g := by
      have hdrop := h.drop (f.drop i).length
      rwa [List.drop_left] at hdrop
    refine absurd (List.prefix_of_prefix_length_le hover hg ?_) (hpat _ hk (Nat.lt_of_not_le hin))
    rw [List.length_drop]
    exact Nat.sub_le _ _

section First
variable [DecidableEq α]

def firstAt (pat l : List α) (start : Nat) : Option Nat :=
  (List.range (l.length + 1)).find? fun i => start ≤ i && decide (Occurs pat l i)

theorem firstAt_eq_some {l : List α} {start i : Nat} (hi : i ≤ l.length) :
    firstAt pat l start = some i ↔ start ≤ i ∧ Occurs pat l i ∧ ∀ j, start ≤ j → j < i → ¬ Occurs pat l j := by
  rw [firstAt, List.find?_range_eq_some]
  simp only [Bool.and_eq_true, decide_eq_true_eq, List.mem_range, Bool.not_eq_true', Bool.and_eq_false_iff,
    decide_eq_false_iff_not]
  constructor
  · rintro ⟨⟨hs, ho⟩, -, hno⟩
    exact ⟨hs, ho, fun j hj hlt => (hno j hlt).resolve_left (not_not_intro hj)⟩
  · rintro ⟨hs, ho, hno⟩
    refine ⟨⟨hs, ho⟩, by omega, fun j hlt => ?_⟩
    by_cases hj : start ≤ j
    · exact Or.inr (hno j hj hlt)
    · exact Or.inl hj

theorem firstAt_zero {l : List α} (h : pat <+: l) : firstAt pat l 0 = some 0 :=
  (firstAt_eq_some (Nat.zero_le _)).mpr ⟨Nat.le_refl 0, h, fun _ _ hlt => absurd hlt (Nat.not_lt_zero _)⟩

/-- **The second frame is found** exactly when the first one holds the pattern nowhere behind `start`. -/
theorem firstAt_second (hpat : Unbordered pat) {f g : List α} (hg : pat <+: g) {start : Nat}
    (hstart : start ≤ f.length) :
    firstAt pat (f ++ g) start = some f.length ↔ ∀ i, start ≤ i → i < f.length → ¬ Occurs pat f i := by
  have hle : f.length ≤ (f ++ g).length := by
    rw [List.length_append]
    exact Nat.le_add_right _ _
  rw [firstAt_eq_some hle]
  constructor
  · rintro ⟨-, -, hno⟩ i hi hlt ho
    exact hno i hi hlt (occurs_append ho (Nat.le_of_lt hlt) g)
  · intro hno
    refine ⟨hstart, ?_, fun i hi hlt ho => hno i hi hlt (occurs_boundary hpat hg hlt ho)⟩
    rwa [Occurs, List.drop_left]

end First

/-! ## All occurrences -/

section Hits
variable [DecidableEq α]

def hits (pat l : List α) : List Nat := (List.range l.length).filter fun i => decide (Occurs pat l i)

theorem mem_hits (hpat : pat ≠ []) {l : List α} {i : Nat} : i ∈ hits pat l ↔ Occurs pat l i := by
  rw [hits, List.mem_filter, List.mem_range, decide_eq_true_iff]
  refine ⟨And.right, fun h => ⟨?_, h⟩⟩
  by_contra hi
  rw [Occurs, List.drop_of_length_le (Nat.le_of_not_lt hi), List.prefix_nil] at h
  exact hpat h

theorem hits_sorted (pat l : List α) : (hits pat l).Pairwise (· < ·) := List.pairwise_lt_range.filter _

theorem hits_cons (pat : List α) (b : α) (l : List α) :
    hits pat (b :: l) = (if pat <+: b :: l then [0] else []) ++ (hits pat l).map (· + 1) := by
  have htail : (((List.range l.length).map Nat.succ).filter fun i => decide (Occurs pat (b :: l) i)) =
      (hits pat l).map (· + 1) := by
    rw [List.filter_map]
    rfl
  rw [hits, List.length_cons, List.range_succ_eq_map, List.filter_cons, htail]
  by_cases h : pat <+: b :: l
  · have hocc : Occurs pat (b :: l) 0 := h
    rw [if_pos h, if_pos (decide_eq_true hocc)]
    rfl
  · have hocc : ¬ Occurs pat (b :: l) 0 := h
    rw [if_neg h, if_neg fun hd => hocc (of_decide_eq_true hd)]
    rfl

theorem hits_short {l : List α} (h : l.length < pat.length) : hits pat l = [] := by
  rw [hits, List.filter_eq_nil_iff]
  intro i _ hocc
  have hle := (of_decide_eq_true hocc : Occurs pat l i).length_le
  rw [List.length_drop] at hle
  omega

/-- **Exactly one** occurrence. -/
theorem hits_one_iff (hpat : pat ≠ []) (l : List α) : (hits pat l).length = 1 ↔ ∃! i, Occurs pat l i := by
  rw [List.length_eq_one_iff]
  constructor
  · rintro ⟨i, hi⟩
    have hmem : ∀ j, Occurs pat l j ↔ j = i := fun j => by rw [← mem_hits hpat, hi, List.mem_singleton]
    exact ⟨i, (hmem i).mpr rfl, fun j hj => (hmem j).mp hj⟩
  · rintro ⟨i, hi, honly⟩
    have hnodup : (hits pat l).Nodup := (hits_sorted pat l).imp Nat.ne_of_lt
    refine ⟨i, List.perm_singleton.mp ((List.perm_ext_iff_of_nodup hnodup (List.pairwise_singleton _ i)).mpr fun j => ?_)⟩
    rw [mem_hits hpat, List.mem_singleton]
    exact ⟨honly j, fun hj => hj ▸ hi⟩

end Hits

end Marker
