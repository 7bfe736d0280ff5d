import Mathlib.Data.List.Basic
import Mathlib.Data.List.DropRight
import Mathlib.Logic.Function.Basic

/-!
# Bounded rings

A ring is an array of `cap` cells with the position of its oldest entry and the number of entries;
its well-formedness is part of the type. `toList` reads it from the oldest entry on, and every
operation is an operation on that list:

* `push` appends, over the oldest entry when the ring is full (`toList_push`), so a run of pushes leaves the
  last `cap` entries (`toList_foldl_push`);
* `dropFirst` removes from the front, `clear` everything, `set` overwrites one entry in place;
* `keep` drops the entries without a property and closes the gaps in place (`toList_keep`);
* `Marked` says that a mark in the cells tells the entries from the rest, which every operation can keep up;
* `map` reads every cell through a function, which all of these respect (`map_push`, `map_keep`);
* `find?` is the index of the first entry with a property (`find?_some`, `find?_none`).
-/

/-- An array of `cap` cells of which `used`, from `head` on, hold entries. -/
structure RingBuffer (α : Type) (cap : Nat) where
  cells : Fin cap → α
  head : Nat
  used : Nat
  head_lt : head < cap
  used_le : used ≤ cap

namespace RingBuffer

variable {α : Type} {cap : Nat}

theorem cap_pos (r : RingBuffer α cap) : 0 < cap := Nat.lt_of_le_of_lt (Nat.zero_le _) r.head_lt

/-- The cell of entry number `i`, counted from the oldest. -/
def idx (r : RingBuffer α cap) (i : Nat) : Fin cap := ⟨(r.head + i) % cap, Nat.mod_lt _ r.cap_pos⟩

def get (r : RingBuffer α cap) (i : Nat) : α := r.cells (r.idx i)

/-- The entries, oldest first. -/
def toList (r : RingBuffer α cap) : List α := (List.range r.used).map r.get

/-- A ring with no entries; the cells hold `a`. -/
def empty (a : α) (h : 0 < cap) : RingBuffer α cap := ⟨fun _ => a, 0, 0, h, Nat.zero_le _⟩

def clear (r : RingBuffer α cap) : RingBuffer α cap :=
  { r with head := 0, used := 0, head_lt := r.cap_pos, used_le := Nat.zero_le _ }

def set (r : RingBuffer α cap) (i : Nat) (a : α) : RingBuffer α cap :=
  { r with cells := Function.update r.cells (r.idx i) a }

/-- Append an entry; on a full ring it takes the place of the oldest. -/
def push (r : RingBuffer α cap) (a : α) : RingBuffer α cap :=
  if h : r.used < cap then
    { r with cells := Function.update r.cells (r.idx r.used) a, used := r.used + 1, used_le := h }
  else
    { r with
      cells := Function.update r.cells (r.idx 0) a
      head := (r.head + 1) % cap
      head_lt := Nat.mod_lt _ r.cap_pos }

def dropFirst (r : RingBuffer α cap) (n : Nat) : RingBuffer α cap :=
  { r with
    head := (r.head + n) % cap
    used := r.used - n
    head_lt := Nat.mod_lt _ r.cap_pos
    used_le := Nat.le_trans (Nat.sub_le _ _) r.used_le }

def find? (r : RingBuffer α cap) (p : α → Bool) : Option Nat := (List.range r.used).find? (fun i => p (r.get i))

/-! ## Reading -/

@[simp] theorem length_toList (r : RingBuffer α cap) : r.toList.length = r.used := by simp [toList]

theorem getElem_toList (r : RingBuffer α cap) {i : Nat} (h : i < r.toList.length) : r.toList[i] = r.get i := by
  simp [toList]

theorem getElem?_toList (r : RingBuffer α cap) {i : Nat} (h : i < r.used) : r.toList[i]? = some (r.get i) := by
  simp [toList, h]

theorem mem_toList {r : RingBuffer α cap} {a : α} : a ∈ r.toList ↔ ∃ i, i < r.used ∧ r.get i = a := by
  simp [toList]

@[simp] theorem toList_empty (a : α) (h : 0 < cap) : (empty a h : RingBuffer α cap).toList = [] := rfl

@[simp] theorem toList_clear (r : RingBuffer α cap) : r.clear.toList = [] := rfl

theorem idx_inj (r : RingBuffer α cap) {i j : Nat} (hi : i < cap) (hj : j < cap) (h : r.idx i = r.idx j) : i = j := by
  have h' : (r.head + i) % cap = (r.head + j) % cap := Fin.val_eq_of_eq h
  have hmod := r.head_lt
  rcases Nat.lt_or_ge (r.head + i) cap with h1 | h1 <;> rcases Nat.lt_or_ge (r.head + j) cap with h2 | h2
  · rw [Nat.mod_eq_of_lt h1, Nat.mod_eq_of_lt h2] at h'
    omega
  · rw [Nat.mod_eq_of_lt h1, Nat.mod_eq_sub_mod h2, Nat.mod_eq_of_lt (by omega)] at h'
    omega
  · rw [Nat.mod_eq_of_lt h2, Nat.mod_eq_sub_mod h1, Nat.mod_eq_of_lt (by omega)] at h'
    omega
  · rw [Nat.mod_eq_sub_mod h1, Nat.mod_eq_sub_mod h2, Nat.mod_eq_of_lt (by omega),
      Nat.mod_eq_of_lt (by omega)] at h'
    omega

theorem find?_some {r : RingBuffer α cap} {p : α → Bool} {i : Nat} (h : r.find? p = some i) :
    i < r.used ∧ p (r.get i) = true := by
  obtain ⟨hp, hmem, -⟩ := List.find?_range_eq_some.mp h
  exact ⟨List.mem_range.mp hmem, hp⟩

theorem find?_none {r : RingBuffer α cap} {p : α → Bool} (h : r.find? p = none) {a : α} (ha : a ∈ r.toList) :
    p a = false := by
  obtain ⟨i, hi, rfl⟩ := mem_toList.mp ha
  have := List.find?_eq_none.mp h i (List.mem_range.mpr hi)
  simpa using this

theorem find?_toList (r : RingBuffer α cap) (p : α → Bool) : r.toList.find? p = (r.find? p).map r.get := by
  rw [toList, find?, List.find?_map]
  rfl

/-! ## Writing -/

theorem get_set (r : RingBuffer α cap) {i j : Nat} (a : α) (hi : i < cap) (hj : j < cap) :
    (r.set i a).get j = if j = i then a else r.get j := by
  change Function.update r.cells (r.idx i) a (r.idx j) = _
  by_cases h : j = i
  · subst h
    rw [Function.update_self, if_pos rfl]
  · rw [Function.update_of_ne (fun he => h (r.idx_inj hj hi he)), if_neg h]
    rfl

theorem toList_set (r : RingBuffer α cap) {i : Nat} (a : α) (hi : i < r.used) :
    (r.set i a).toList = r.toList.set i a := by
  have hcap := r.used_le
  apply List.ext_getElem
  · simp [toList, set]
  · intro j h1 h2
    have hj : j < r.used := by simpa using h2
    rw [getElem_toList, List.getElem_set, getElem_toList, get_set r a (by omega) (by omega)]
    simp only [eq_comm]

theorem get_push_room (r : RingBuffer α cap) (a : α) (h : r.used < cap) {j : Nat} (hj : j < cap) :
    (r.push a).get j = if j = r.used then a else r.get j := by
  rw [push, dif_pos h]
  exact get_set r a h hj

theorem used_push_room (r : RingBuffer α cap) (a : α) (h : r.used < cap) : (r.push a).used = r.used + 1 := by
  rw [push, dif_pos h]

theorem toList_push_room (r : RingBuffer α cap) (a : α) (h : r.used < cap) : (r.push a).toList = r.toList ++ [a] := by
  rw [toList, used_push_room r a h, List.range_succ, List.map_append, List.map_singleton, get_push_room r a h h,
    if_pos rfl]
  congr 1
  apply List.map_congr_left
  intro j hj
  have := List.mem_range.mp hj
  rw [get_push_room r a h (by omega), if_neg (by omega)]

/-- On a full ring every entry moves up by one, into the cell behind it. -/
theorem idx_push_full (r : RingBuffer α cap) (a : α) (h : ¬ r.used < cap) (j : Nat) :
    (r.push a).idx j = r.idx (j + 1) := by
  rw [push, dif_neg h]
  apply Fin.ext
  change ((r.head + 1) % cap + j) % cap = (r.head + (j + 1)) % cap
  rw [Nat.mod_add_mod]
  congr 1
  omega

theorem idx_add_cap (r : RingBuffer α cap) (i : Nat) : r.idx (i + cap) = r.idx i := by
  apply Fin.ext
  change (r.head + (i + cap)) % cap = (r.head + i) % cap
  rw [← Nat.add_assoc, Nat.add_mod_right]

theorem toList_push_full (r : RingBuffer α cap) (a : α) (h : ¬ r.used < cap) :
    (r.push a).toList = r.toList.tail ++ [a] := by
  have hcap := r.used_le
  have hpos := r.cap_pos
  have hfull : r.used = cap := by omega
  have hcells : (r.push a).cells = Function.update r.cells (r.idx 0) a := by rw [push, dif_neg h]
  have hu : (r.push a).used = cap := by rw [push, dif_neg h]; exact hfull
  apply List.ext_getElem
  · simp [hu, hfull]
    omega
  · intro j h1 h2
    have hj : j < cap := by simpa [hu] using h1
    rw [getElem_toList, get, idx_push_full r a h, hcells]
    by_cases hlast : j + 1 = cap
    · -- the cell of the last entry is the one the oldest entry held
      have hwrap : r.idx (j + 1) = r.idx 0 := by
        rw [hlast]
        simpa using r.idx_add_cap 0
      rw [hwrap, Function.update_self, List.getElem_append_right (by simp [hfull]; omega)]
      simp
    · have hne : r.idx (j + 1) ≠ r.idx 0 := fun he => by
        have := r.idx_inj (show j + 1 < cap by omega) hpos he
        omega
      rw [Function.update_of_ne hne, List.getElem_append_left (by simp [hfull]; omega),
        List.getElem_tail, getElem_toList]
      rfl

theorem toList_push (r : RingBuffer α cap) (a : α) :
    (r.push a).toList = (if r.used < cap then r.toList else r.toList.tail) ++ [a] := by
  split
  · next h => exact toList_push_room r a h
  · next h => exact toList_push_full r a h

/-- A push appends and keeps the latest `cap`. -/
theorem toList_push_rtake (r : RingBuffer α cap) (a : α) : (r.push a).toList = (r.toList ++ [a]).rtake cap := by
  have hused := r.used_le
  have hlen : (r.toList ++ [a]).length = r.used + 1 := by rw [List.length_append, length_toList, List.length_singleton]
  rw [toList_push, List.rtake, hlen]
  by_cases h : r.used < cap
  · rw [if_pos h, Nat.sub_eq_zero_of_le h, List.drop_zero]
  · have hone : r.used + 1 - cap = 1 := by omega
    have hne : r.toList ≠ [] := by
      apply List.ne_nil_of_length_pos
      rw [length_toList]
      have := r.cap_pos
      omega
    rw [if_neg h, hone, List.drop_one, List.tail_append_of_ne_nil hne]

/-- **A run of pushes** leaves the last `cap` of everything that ever was in the ring. -/
theorem toList_foldl_push (r : RingBuffer α cap) (l : List α) :
    (l.foldl push r).toList = (r.toList ++ l).drop (r.used + l.length - cap) := by
  induction l generalizing r with
  | nil =>
    have := r.used_le
    rw [List.foldl_nil, List.append_nil, List.length_nil, Nat.add_zero, Nat.sub_eq_zero_of_le this, List.drop_zero]
  | cons a l ih =>
    have hused : (r.push a).used = if r.used < cap then r.used + 1 else r.used := by
      rw [push]
      split <;> rfl
    have hle := r.used_le
    rw [List.foldl_cons, ih, hused, toList_push, List.length_cons]
    split
    · rw [List.append_assoc, List.singleton_append]
      congr 1
      omega
    · next h =>
      have hpos := r.cap_pos
      have hlen := r.length_toList
      cases hl : r.toList with
      | nil =>
        rw [hl, List.length_nil] at hlen
        omega
      | cons x xs =>
        have hdrop : r.used + (l.length + 1) - cap = (r.used + l.length - cap) + 1 := by omega
        rw [hdrop, List.tail_cons, List.cons_append, List.drop_succ_cons, List.append_assoc, List.singleton_append]

theorem get_dropFirst (r : RingBuffer α cap) (n i : Nat) : (r.dropFirst n).get i = r.get (n + i) := by
  change r.cells _ = r.cells _
  congr 1
  apply Fin.ext
  change ((r.head + n) % cap + i) % cap = (r.head + (n + i)) % cap
  rw [Nat.mod_add_mod, Nat.add_assoc]

theorem toList_dropFirst (r : RingBuffer α cap) (n : Nat) : (r.dropFirst n).toList = r.toList.drop n := by
  apply List.ext_getElem
  · simp [dropFirst]
  · intro j h1 h2
    rw [getElem_toList, List.getElem_drop, getElem_toList, get_dropFirst]

theorem toList_eq_nil {r : RingBuffer α cap} : r.toList = [] ↔ r.used = 0 := by
  rw [← List.length_eq_zero_iff, length_toList]

theorem toList_eq_cons {r : RingBuffer α cap} (h : r.used ≠ 0) : r.toList = r.get 0 :: (r.dropFirst 1).toList := by
  have hhead := r.getElem?_toList (Nat.pos_of_ne_zero h)
  rw [r.toList_dropFirst 1]
  cases hl : r.toList with
  | nil => simp [hl] at hhead
  | cons a l =>
    rw [hl, List.getElem?_cons_zero, Option.some.injEq] at hhead
    rw [hhead, List.drop_succ_cons, List.drop_zero]

/-! ## Compaction -/

/-- One turn of the compaction: entry `i` moves up to place `kept`, or is passed over. -/
def keepTurn (p : α → Bool) (r : RingBuffer α cap) (kept i : Nat) : RingBuffer α cap × Nat :=
  if p (r.get i) then (if kept ≠ i then r.set kept (r.get i) else r, kept + 1) else (r, kept)

/-- The first `n` turns. -/
def keepLoop (p : α → Bool) (r : RingBuffer α cap) : Nat → RingBuffer α cap × Nat
  | 0 => (r, 0)
  | n + 1 => keepTurn p (keepLoop p r n).1 (keepLoop p r n).2 n

/-- After `n` turns the entries kept among the first `n` stand in front, and the others are untouched. -/
structure Compacted (p : α → Bool) (r : RingBuffer α cap) (n : Nat) (s : RingBuffer α cap × Nat) : Prop where
  le : s.2 ≤ n
  front : (List.range s.2).map s.1.get = (r.toList.take n).filter p
  rest : ∀ j, n ≤ j → j < r.used → s.1.get j = r.get j

theorem keepLoop_compacted (p : α → Bool) (r : RingBuffer α cap) {n : Nat} (hn : n ≤ r.used) :
    Compacted p r n (keepLoop p r n) := by
  have hcap := r.used_le
  induction n with
  | zero => exact ⟨Nat.le_refl 0, rfl, fun j _ _ => rfl⟩
  | succ n ih =>
    have h := ih (by omega)
    have hle := h.le
    have hget : (keepLoop p r n).1.get n = r.get n := h.rest n (Nat.le_refl n) (by omega)
    have htake : r.toList.take (n + 1) = r.toList.take n ++ [r.get n] := by
      rw [List.take_add_one, getElem?_toList r (by omega)]
      rfl
    rw [keepLoop, keepTurn, hget]
    by_cases hp : p (r.get n) = true
    · rw [if_pos hp]
      have hset : ∀ j, j < cap → (if (keepLoop p r n).2 ≠ n then (keepLoop p r n).1.set (keepLoop p r n).2 (r.get n)
          else (keepLoop p r n).1).get j =
          if j = (keepLoop p r n).2 then r.get n else (keepLoop p r n).1.get j := by
        intro j hj
        split
        · exact get_set _ _ (by omega) hj
        · next heq =>
          push Not at heq
          split
          · next hjn => rw [hjn, heq, hget]
          · rfl
      refine ⟨by simp only; omega, ?_, fun j h1 h2 => ?_⟩
      · rw [htake, List.filter_append, ← h.front, List.filter_cons_of_pos hp, List.filter_nil, List.range_succ,
          List.map_append, List.map_singleton]
        simp only
        rw [hset _ (by omega), if_pos rfl]
        congr 1
        apply List.map_congr_left
        intro j hj
        have := List.mem_range.mp hj
        rw [hset j (by omega), if_neg (by omega)]
      · simp only
        rw [hset j (by omega), if_neg (by omega), h.rest j (by omega) h2]
    · rw [if_neg hp]
      refine ⟨by simp only; omega, ?_, fun j h1 h2 => h.rest j (by omega) h2⟩
      rw [htake, List.filter_append, List.filter_cons_of_neg hp, List.filter_nil, List.append_nil]
      exact h.front

/-- Drop the entries without property `p`; the others close up, in place and in order. -/
def keep (r : RingBuffer α cap) (p : α → Bool) : RingBuffer α cap :=
  let s := keepLoop p r r.used
  { s.1 with
    used := s.2
    used_le := Nat.le_trans (keepLoop_compacted p r (Nat.le_refl _)).le r.used_le }

theorem toList_keep (r : RingBuffer α cap) (p : α → Bool) : (r.keep p).toList = r.toList.filter p := by
  have h := (keepLoop_compacted p r (Nat.le_refl r.used)).front
  rw [← length_toList, List.take_length, length_toList] at h
  exact h

/-! ## Marked cells -/

theorem exists_idx (r : RingBuffer α cap) (k : Fin cap) : ∃ i, i < cap ∧ r.idx i = k := by
  have hhead := r.head_lt
  have hk := k.isLt
  by_cases h : r.head ≤ k.val
  · refine ⟨k.val - r.head, by omega, Fin.ext ?_⟩
    change (r.head + (k.val - r.head)) % cap = k.val
    rw [Nat.add_sub_cancel' h, Nat.mod_eq_of_lt hk]
  · refine ⟨k.val + cap - r.head, by omega, Fin.ext ?_⟩
    change (r.head + (k.val + cap - r.head)) % cap = k.val
    rw [Nat.add_sub_cancel' (by omega), Nat.add_mod_right, Nat.mod_eq_of_lt hk]

/-- The cells marked by `m` are those of the entries. -/
def Marked (m : α → Bool) (r : RingBuffer α cap) : Prop :=
  ∀ k, m (r.cells k) = true ↔ ∃ i, i < r.used ∧ r.idx i = k

theorem marked_iff {m : α → Bool} {r : RingBuffer α cap} :
    Marked m r ↔ ∀ j, j < cap → (m (r.get j) = true ↔ j < r.used) := by
  have hcap := r.used_le
  constructor
  · intro h j hj
    refine (h (r.idx j)).trans ⟨?_, fun hlt => ⟨j, hlt, rfl⟩⟩
    rintro ⟨i, hi, heq⟩
    rwa [← r.idx_inj (by omega) hj heq]
  · intro h k
    obtain ⟨j, hj, rfl⟩ := r.exists_idx k
    refine (h j hj).trans ⟨fun hlt => ⟨j, hlt, rfl⟩, ?_⟩
    rintro ⟨i, hi, heq⟩
    rwa [← r.idx_inj (by omega) hj heq]

section Marked
variable {m : α → Bool} {r : RingBuffer α cap} {a : α}

theorem marked_empty (h : 0 < cap) (ha : m a = false) : Marked m (empty a h) := by
  rw [marked_iff]
  intro j _
  change m a = true ↔ j < 0
  simp [ha]

theorem marked_set (hm : Marked m r) {i : Nat} (hi : i < r.used) (ha : m a = true) : Marked m (r.set i a) := by
  have hcap := r.used_le
  rw [marked_iff] at hm ⊢
  intro j hj
  rw [get_set r a (by omega) hj]
  by_cases hji : j = i
  · rw [if_pos hji, hji]
    exact iff_of_true ha hi
  · rw [if_neg hji]
    exact hm j hj

theorem marked_push_room (hm : Marked m r) (h : r.used < cap) (ha : m a = true) : Marked m (r.push a) := by
  rw [marked_iff] at hm ⊢
  intro j hj
  rw [get_push_room r a h hj, used_push_room r a h]
  by_cases hju : j = r.used
  · rw [if_pos hju]
    exact iff_of_true ha (by omega)
  · rw [if_neg hju, hm j hj]
    omega

/-- On a full ring the new entry takes the cell of the oldest, mark and all. -/
theorem marked_push_full (hm : Marked m r) (h : r.used = cap) (ha : m a = true) :
    Marked m ((r.dropFirst 1).push a) := by
  have hpos := r.cap_pos
  have hused : (r.dropFirst 1).used = cap - 1 := congrArg (· - 1) h
  have hroom : (r.dropFirst 1).used < cap := by omega
  rw [marked_iff] at hm ⊢
  intro j hj
  rw [get_push_room _ a hroom hj, used_push_room _ a hroom, hused]
  by_cases hju : j = cap - 1
  · rw [if_pos hju]
    exact iff_of_true ha (by omega)
  · rw [if_neg hju, get_dropFirst]
    exact iff_of_true ((hm (1 + j) (by omega)).mpr (by omega)) (by omega)

/-- Unmarking entries in front and then dropping them keeps the marks in step. -/
theorem marked_dropFirst {s : RingBuffer α cap} {n : Nat} (hm : Marked m r) (hn : n ≤ r.used) (hused : s.used = r.used)
    (hfront : ∀ j, j < n → m (s.get j) = false) (hrest : ∀ j, n ≤ j → j < cap → s.get j = r.get j) :
    Marked m (s.dropFirst n) := by
  have hcap := r.used_le
  rw [marked_iff] at hm ⊢
  intro j hj
  have hu : (s.dropFirst n).used = r.used - n := by rw [← hused]; rfl
  rw [get_dropFirst, hu]
  by_cases hwrap : n + j < cap
  · rw [hrest _ (by omega) hwrap, hm _ hwrap]
    omega
  · have hback : s.get (n + j) = s.get (n + j - cap) := by
      rw [get, get, ← s.idx_add_cap (n + j - cap), Nat.sub_add_cancel (by omega)]
    rw [hback, hfront _ (by omega)]
    exact iff_of_false (by decide) (by omega)

end Marked

/-! ## Images -/

section Map
variable {β : Type} (f : α → β) (r : RingBuffer α cap)

/-- Every cell read through `f`. -/
def map : RingBuffer β cap := ⟨f ∘ r.cells, r.head, r.used, r.head_lt, r.used_le⟩

@[simp] theorem map_used : (r.map f).used = r.used := rfl

@[simp] theorem map_get (i : Nat) : (r.map f).get i = f (r.get i) := rfl

theorem toList_map : (r.map f).toList = r.toList.map f := by
  simp [toList]

theorem map_set (i : Nat) (a : α) : (r.set i a).map f = (r.map f).set i (f a) := by
  simp only [map, set, Function.comp_update]
  rfl

theorem map_push (a : α) : (r.push a).map f = (r.map f).push (f a) := by
  unfold push
  by_cases h : r.used < cap
  · rw [dif_pos h, dif_pos (show (r.map f).used < cap from h)]
    simp only [map, Function.comp_update]
    rfl
  · rw [dif_neg h, dif_neg (show ¬ (r.map f).used < cap from h)]
    simp only [map, Function.comp_update]
    rfl

theorem map_keepLoop (p : β → Bool) (n : Nat) :
    keepLoop p (r.map f) n = (((keepLoop (fun a => p (f a)) r n).1).map f, (keepLoop (fun a => p (f a)) r n).2) := by
  induction n with
  | zero => rfl
  | succ n ih =>
    rw [keepLoop, keepLoop, ih]
    unfold keepTurn
    rw [map_get]
    split
    · split
      · rw [map_set]
      · rfl
    · rfl

end Map

theorem map_keep {β : Type} (f : α → β) (r : RingBuffer α cap) (p : β → Bool) :
    (r.keep fun a => p (f a)).map f = (r.map f).keep p := by
  have hloop := map_keepLoop f r p r.used
  have hring := congrArg Prod.fst hloop
  have hkept := congrArg Prod.snd hloop
  unfold keep map
  congr 1
  · exact (congrArg RingBuffer.cells hring).symm
  · exact (congrArg RingBuffer.head hring).symm
  · exact hkept.symm

end RingBuffer
