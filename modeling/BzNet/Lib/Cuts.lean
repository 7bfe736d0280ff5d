import Mathlib.Data.List.Basic

/-!
# A list cut at marks

Some elements of a list are marks that begin a segment, others end one.

* `firstIn` : the first position in a range whose element has a property, `firstOr` the same or the end of the range;
* `firstOr_or` : looking for either of two properties at once is looking for the one up to the first of the other;
* `marks` : the positions of the marks with what each says, in order (`mem_marks`, `marks_pairwise`, `marks_next`,
  `getLast?_marks`);
* `cut` : where the segment of a mark ends, at the first end or mark behind it. Segments are in order (`cut_pairwise`)
  and hold one mark each (`cut_mark`).
-/

namespace Cuts

variable {α β : Type}

/-! ## The first element with a property -/

def Holds (p : α → Bool) (l : List α) (j : Nat) : Prop := l[j]?.any p = true

instance (p : α → Bool) (l : List α) (j : Nat) : Decidable (Holds p l j) :=
  inferInstanceAs (Decidable (l[j]?.any p = true))

/-- The first position from `start` on and before `limit` whose element has the property. -/
def firstIn (p : α → Bool) (l : List α) (start limit : Nat) : Option Nat :=
  (List.range' start (limit - start)).find? fun j => l[j]?.any p

def firstOr (p : α → Bool) (l : List α) (start limit : Nat) : Nat := (firstIn p l start limit).getD limit

section First
variable {p q : α → Bool} {l : List α} {start limit : Nat}

theorem Holds.lt {j : Nat} (h : Holds p l j) : j < l.length := by
  by_contra hlt
  rw [Holds, List.getElem?_eq_none (Nat.le_of_not_lt hlt)] at h
  cases h

theorem holds_or {j : Nat} : Holds (fun x => p x || q x) l j ↔ Holds p l j ∨ Holds q l j := by
  unfold Holds
  cases l[j]? with
  | none => simp
  | some x => simp

theorem firstIn_eq_some {j : Nat} : firstIn p l start limit = some j ↔
    start ≤ j ∧ j < limit ∧ Holds p l j ∧ ∀ i, start ≤ i → i < j → ¬ Holds p l i := by
  rw [firstIn, List.find?_range'_eq_some, List.mem_range'_1]
  simp only [Holds, Bool.not_eq_true', Bool.not_eq_true]
  constructor
  · rintro ⟨hp, hin, hno⟩
    exact ⟨hin.1, by omega, hp, hno⟩
  · rintro ⟨hs, hlt, hp, hno⟩
    exact ⟨hp, ⟨hs, by omega⟩, hno⟩

theorem firstIn_eq_none : firstIn p l start limit = none ↔ ∀ j, start ≤ j → j < limit → ¬ Holds p l j := by
  rw [firstIn, List.find?_range'_eq_none]
  simp only [Holds, Bool.not_eq_true', Bool.not_eq_true]
  constructor
  · intro h j hs hlt
    exact h j hs (by omega)
  · intro h j hs hlt
    exact h j hs (by omega)

theorem firstOr_eq (h : start ≤ limit) {s : Nat} : firstOr p l start limit = s ↔
    start ≤ s ∧ s ≤ limit ∧ (s < limit → Holds p l s) ∧ ∀ j, start ≤ j → j < s → ¬ Holds p l j := by
  rw [firstOr]
  cases hf : firstIn p l start limit with
  | none =>
    rw [firstIn_eq_none] at hf
    rw [Option.getD_none]
    constructor
    · rintro rfl
      exact ⟨h, Nat.le_refl _, fun hlt => absurd hlt (Nat.lt_irrefl _), hf⟩
    · rintro ⟨hs, hle, hhold, -⟩
      by_contra hne
      have hlt : s < limit := Nat.lt_of_le_of_ne hle fun he => hne he.symm
      exact hf s hs hlt (hhold hlt)
  | some i =>
    obtain ⟨hi, hlt, hhold, hno⟩ := firstIn_eq_some.mp hf
    rw [Option.getD_some]
    constructor
    · rintro rfl
      exact ⟨hi, Nat.le_of_lt hlt, fun _ => hhold, hno⟩
    · rintro ⟨hs, hle, hhold', hno'⟩
      by_contra hne
      rcases Nat.lt_or_gt_of_ne hne with hlt' | hgt
      · exact hno' i hi hlt' hhold
      · exact hno s hs hgt (hhold' (by omega))

theorem firstOr_spec (h : start ≤ limit) : start ≤ firstOr p l start limit ∧ firstOr p l start limit ≤ limit ∧
    (firstOr p l start limit < limit → Holds p l (firstOr p l start limit)) ∧
    ∀ j, start ≤ j → j < firstOr p l start limit → ¬ Holds p l j :=
  (firstOr_eq h).mp rfl

/-- **Two searches in one.** -/
theorem firstOr_or (h : start ≤ limit) :
    firstOr p l start (firstOr q l start limit) = firstOr (fun x => p x || q x) l start limit := by
  obtain ⟨hs, hle, hq, hnoq⟩ := firstOr_spec (p := q) (l := l) h
  obtain ⟨hs', hle', hpq, hno⟩ := firstOr_spec (p := fun x => p x || q x) (l := l) h
  generalize firstOr (fun x => p x || q x) l start limit = s at *
  have hbound : s ≤ firstOr q l start limit := by
    by_contra hlt
    exact hno _ hs (by omega) (holds_or.mpr (Or.inr (hq (by omega))))
  rw [firstOr_eq hs]
  refine ⟨hs', hbound, ?_, fun j hj hlt hp => hno j hj hlt (holds_or.mpr (Or.inl hp))⟩
  intro hlt
  exact (holds_or.mp (hpq (by omega))).resolve_right (hnoq s hs' hlt)

end First

/-! ## Marks -/

/-- The positions whose elements are marks, with what each mark says. -/
def marks (m : α → Option β) (l : List α) : List (Nat × β) := l.zipIdx.filterMap fun x => (m x.1).map fun b => (x.2, b)

def isMark (m : α → Option β) (x : α) : Bool := (m x).isSome

section Marks
variable {m : α → Option β} {l : List α} {x y : Nat × β}

theorem mem_marks : x ∈ marks m l ↔ l[x.1]?.bind m = some x.2 := by
  rw [marks, List.mem_filterMap]
  constructor
  · rintro ⟨⟨a, i⟩, hmem, hm⟩
    obtain ⟨b, hb, rfl⟩ := Option.map_eq_some_iff.mp hm
    rw [List.mk_mem_zipIdx_iff_getElem?.mp hmem]
    exact hb
  · intro h
    obtain ⟨a, ha, hm⟩ := Option.bind_eq_some_iff.mp h
    exact ⟨(a, x.1), List.mk_mem_zipIdx_iff_getElem?.mpr ha, by rw [hm]; rfl⟩

theorem holds_isMark {j : Nat} : Holds (isMark m) l j ↔ ∃ b, (j, b) ∈ marks m l := by
  simp only [Holds, mem_marks]
  cases l[j]? with
  | none => simp
  | some a => exact Option.isSome_iff_exists

theorem holds_of_mem (h : x ∈ marks m l) : Holds (isMark m) l x.1 := holds_isMark.mpr ⟨x.2, h⟩

theorem marks_pairwise (m : α → Option β) (l : List α) : (marks m l).Pairwise fun x y => x.1 < y.1 := by
  rw [marks, List.pairwise_filterMap]
  have hidx : l.zipIdx.Pairwise fun a b => a.2 < b.2 := by
    rw [← List.pairwise_map, List.zipIdx_map_snd]
    exact List.pairwise_lt_range'
  refine hidx.imp ?_
  intro a b hlt x hx y hy
  obtain ⟨_, -, rfl⟩ := Option.map_eq_some_iff.mp hx
  obtain ⟨_, -, rfl⟩ := Option.map_eq_some_iff.mp hy
  exact hlt

/-- **The next mark** in the row is the next one in the list. -/
theorem marks_next {k : Nat} (hx : (marks m l)[k]? = some x) :
    ((marks m l)[k + 1]?).elim l.length (fun y => y.1) = firstOr (isMark m) l (x.1 + 1) l.length := by
  obtain ⟨hk, hxk⟩ := List.getElem?_eq_some_iff.mp hx
  have hlt := List.pairwise_iff_getElem.mp (marks_pairwise m l)
  have hmem : x ∈ marks m l := List.mem_of_getElem? hx
  symm
  rw [firstOr_eq (holds_of_mem hmem).lt]
  have hbehind : ∀ j, x.1 < j → Holds (isMark m) l j →
      ∃ i, ∃ hi : i < (marks m l).length, k < i ∧ ((marks m l)[i]).1 = j := by
    intro j hj hhold
    obtain ⟨b, hb⟩ := holds_isMark.mp hhold
    obtain ⟨i, hi, hib⟩ := List.getElem_of_mem hb
    refine ⟨i, hi, ?_, by rw [hib]⟩
    by_contra hle
    rcases Nat.lt_or_eq_of_le (Nat.le_of_not_lt hle) with hik | rfl
    · have := hlt i k hi hk hik
      rw [hib, hxk] at this
      omega
    · rw [hib] at hxk
      rw [← hxk] at hj
      exact Nat.lt_irrefl _ hj
  by_cases hnext : k + 1 < (marks m l).length
  · rw [List.getElem?_eq_getElem hnext, Option.elim_some]
    have hy := hlt k (k + 1) hk hnext (Nat.lt_succ_self k)
    have hhold : Holds (isMark m) l ((marks m l)[k + 1]).1 := holds_of_mem (List.getElem_mem hnext)
    rw [hxk] at hy
    refine ⟨hy, Nat.le_of_lt hhold.lt, fun _ => hhold, ?_⟩
    intro j hj hjlt hhj
    obtain ⟨i, hi, hki, rfl⟩ := hbehind j hj hhj
    rcases Nat.lt_or_eq_of_le (Nat.succ_le_of_lt hki) with hki | rfl
    · have := hlt (k + 1) i hnext hi hki
      omega
    · exact Nat.lt_irrefl _ hjlt
  · rw [List.getElem?_eq_none (Nat.le_of_not_lt hnext), Option.elim_none]
    refine ⟨(holds_of_mem hmem).lt, Nat.le_refl _, fun h => absurd h (Nat.lt_irrefl _), ?_⟩
    intro j hj _ hhj
    obtain ⟨i, hi, hki, rfl⟩ := hbehind j hj hhj
    omega

theorem getLast?_marks (h : x ∈ marks m l) :
    (marks m l).getLast? = some x ↔ ∀ j, x.1 < j → ¬ Holds (isMark m) l j := by
  have hlt := marks_pairwise m l
  constructor
  · intro hlast j hj hhold
    obtain ⟨init, hinit⟩ := List.getLast?_eq_some_iff.mp hlast
    obtain ⟨b, hb⟩ := holds_isMark.mp hhold
    rw [hinit] at hlt hb
    rcases List.mem_append.mp hb with hin | hself
    · have hback := (List.pairwise_append.mp hlt).2.2 _ hin x List.mem_cons_self
      omega
    · rw [← List.mem_singleton.mp hself] at hj
      exact Nat.lt_irrefl _ hj
  · intro hno
    obtain ⟨init, y, hinit⟩ := (List.eq_nil_or_concat' (marks m l)).resolve_left (List.ne_nil_of_mem h)
    have hy : y ∈ marks m l := hinit ▸ List.mem_append_right init List.mem_cons_self
    rw [hinit] at hlt
    rw [hinit] at h
    rcases List.mem_append.mp h with hin | hself
    · exact absurd (holds_of_mem hy) (hno _ ((List.pairwise_append.mp hlt).2.2 x hin y List.mem_cons_self))
    · rw [hinit, List.mem_singleton.mp hself, List.getLast?_concat]

end Marks

/-! ## Segments -/

/-- Where the segment of a mark ends: at the first end or mark behind it. -/
def cut (p : α → Bool) (m : α → Option β) (l : List α) (x : Nat × β) : Nat :=
  firstOr (fun a => p a || isMark m a) l (x.1 + 1) l.length

section Segments
variable {p : α → Bool} {m : α → Option β} {l : List α} {x : Nat × β}

theorem lt_cut (h : x ∈ marks m l) : x.1 < cut p m l x := (firstOr_spec (holds_of_mem h).lt).1

theorem cut_le (h : x ∈ marks m l) : cut p m l x ≤ l.length := (firstOr_spec (holds_of_mem h).lt).2.1

/-- **The end of a segment**, looked for up to the next mark only. -/
theorem firstOr_next {k : Nat} (hx : (marks m l)[k]? = some x) :
    firstOr p l (x.1 + 1) (((marks m l)[k + 1]?).elim l.length fun y => y.1) = cut p m l x := by
  rw [marks_next hx, firstOr_or (holds_of_mem (List.mem_of_getElem? hx)).lt, cut]

/-- **A segment holds one mark**, its own. -/
theorem cut_mark (h : x ∈ marks m l) {j : Nat} (hle : x.1 ≤ j) (hlt : j < cut p m l x) :
    Holds (isMark m) l j ↔ j = x.1 := by
  constructor
  · intro hj
    by_contra hne
    exact (firstOr_spec (holds_of_mem h).lt).2.2.2 j (by omega) hlt (holds_or.mpr (Or.inr hj))
  · rintro rfl
    exact holds_of_mem h

/-- **The segments are in order** and none reaches into the next. -/
theorem cut_pairwise (p : α → Bool) (m : α → Option β) (l : List α) :
    (marks m l).Pairwise fun x y => cut p m l x ≤ y.1 := by
  refine (marks_pairwise m l).imp_of_mem ?_
  intro x y hx hy hlt
  by_contra hgt
  exact absurd ((cut_mark hx (Nat.le_of_lt hlt) (Nat.lt_of_not_le hgt)).mp (holds_of_mem hy)) (Nat.ne_of_gt hlt)

end Segments

end Cuts
