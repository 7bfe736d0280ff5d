import BzNet.Lib.Slots
import Mathlib.Data.Finset.Card
import Mathlib.Data.List.Basic
import Mathlib.Logic.Function.Basic

/-!
# Tables of keyed records

A fixed array of `n` records, each under a key or free, searched front to back. A key that is not in
the table takes the first free record; when there is none, the least recently used record is the
candidate to lose its place.

* `lookup` reads the table as a partial map, and `Distinct` is what makes it one;
* `locate` is the search, `claim` finds or creates the record of a key, `modify` rewrites it in place,
  `purge` frees it;
* `claim_lookup`, `lookup_put_*`, `lookup_modify_*`, `lookup_purge_*` : the map after each operation;
* `rewriteAll` : every record rewritten in place, and so the map (`lookup_rewriteAll`);
* `Occupied` : some record is in use, which a claim keeps up in any table of two records;
* `Access` : what one call does to a table, and `lookup_apply_self`, `lookup_apply_of_ne` what it does to
  the map;
* `view`, `OthersAfter` : the table as a map with room for `n` keys, and `Access.view_apply` an access as one to it;
* `Access.apply_keeps` : a property of every record, whatever its key;
* `lookup_apply_of_room` : while the keys in use fit the table, no call reaches another key's record.
-/

/-- A record that lives in such a table: its key, the time it was last used, and the records the
table itself writes. -/
class KeyedRecord (α : Type) (K : outParam Type) (T : outParam Type) where
  key : α → K
  lastUse : α → T
  touch : T → α → α
  fresh : K → T → α
  /-- The record of no key. -/
  vacant : α
  key_touch : ∀ t a, key (touch t a) = key a
  key_fresh : ∀ k t, key (fresh k t) = k

namespace LruTable

open KeyedRecord

variable {α K T : Type} [KeyedRecord α K T] [DecidableEq K]
variable {n : Nat} {t : Nat → α} {k : K}

def freeKey (α : Type) {K T : Type} [KeyedRecord α K T] : K := key (vacant : α)

/-- The first of the `n` records under key `k`. -/
def find? (n : Nat) (t : Nat → α) (k : K) : Option Nat := (List.range n).find? (fun i => key (t i) = k)

def oldest [LT T] [DecidableLT T] (n : Nat) (t : Nat → α) : Nat :=
  (List.range n).foldl (fun o i => if lastUse (t i) < lastUse (t o) then i else o) 0

/-- Where a key goes. -/
inductive Place where
  | found (i : Nat)
  | free (i : Nat)
  | full (oldest : Nat)

def locate [LT T] [DecidableLT T] (n : Nat) (t : Nat → α) (k : K) : Place :=
  match find? n t k with
  | some i => .found i
  | none =>
    match find? n t (freeKey α) with
    | some i => .free i
    | none => .full (oldest n t)

/-- The record found or created for a key. -/
structure Claimed (α : Type) where
  table : Nat → α
  index : Nat
  evicted : Bool

/-- Find the record of `k` or create it; with no room the least recently used record is evicted. -/
def claim [LT T] [DecidableLT T] (n : Nat) (t : Nat → α) (k : K) (now : T) : Claimed α :=
  match locate n t k with
  | .found i => ⟨Function.update t i (touch now (t i)), i, false⟩
  | .free i => ⟨Function.update t i (fresh k now), i, false⟩
  | .full i => ⟨Function.update t i (fresh k now), i, true⟩

/-- The record a claimed key has, from the one it had. -/
def renew (r : Option α) (k : K) (now : T) : α :=
  match r with
  | some r => touch now r
  | none => fresh k now

/-- Free the record of `k`, when it has one. -/
def purge (n : Nat) (t : Nat → α) (k : K) : Nat → α :=
  match find? n t k with
  | some i => Function.update t i vacant
  | none => t

def modify (n : Nat) (t : Nat → α) (k : K) (f : α → α) : Nat → α :=
  match find? n t k with
  | some i => Function.update t i (f (t i))
  | none => t

def lookup (n : Nat) (t : Nat → α) (k : K) : Option α := (find? n t k).map t

/-- No key other than the free one has two records. -/
def Distinct (n : Nat) (t : Nat → α) : Prop :=
  ∀ i j, i < n → j < n → key (t i) = key (t j) → key (t i) ≠ freeKey α → i = j

/-! ## The search -/

theorem find?_some {i : Nat} (h : find? n t k = some i) : i < n ∧ key (t i) = k := by
  obtain ⟨hp, hmem, -⟩ := List.find?_range_eq_some.mp h
  exact ⟨List.mem_range.mp hmem, by simpa using hp⟩

theorem find?_eq_none : find? n t k = none ↔ ∀ i, i < n → key (t i) ≠ k := by
  simp [find?]

theorem find?_of_key (hd : Distinct n t) {i : Nat} (hi : i < n) (hk : key (t i) = k)
    (hne : k ≠ freeKey α) : find? n t k = some i := by
  cases h : find? n t k with
  | none => exact absurd hk (find?_eq_none.mp h i hi)
  | some j =>
    obtain ⟨hj, hkj⟩ := find?_some h
    rw [hd j i hj hi (hkj.trans hk.symm) (hkj ▸ hne)]

theorem lookup_eq_none : lookup n t k = none ↔ ∀ i, i < n → key (t i) ≠ k := by
  rw [lookup, Option.map_eq_none_iff, find?_eq_none]

theorem lookup_eq_some (hd : Distinct n t) (hne : k ≠ freeKey α) {r : α} :
    lookup n t k = some r ↔ ∃ i, i < n ∧ t i = r ∧ key r = k := by
  constructor
  · intro h
    obtain ⟨i, hi, rfl⟩ := Option.map_eq_some_iff.mp h
    exact ⟨i, (find?_some hi).1, rfl, (find?_some hi).2⟩
  · rintro ⟨i, hi, rfl, hk⟩
    rw [lookup, find?_of_key hd hi hk hne]
    rfl

theorem key_of_lookup {r : α} (h : lookup n t k = some r) : key r = k := by
  obtain ⟨i, hi, rfl⟩ := Option.map_eq_some_iff.mp h
  exact (find?_some hi).2

/-! ## Overwriting one record -/

section Put
variable {i : Nat} {r : α}

omit [DecidableEq K] in
theorem distinct_put (hd : Distinct n t)
    (h : key r ≠ freeKey α → ∀ j, j < n → j ≠ i → key (t j) ≠ key r) :
    Distinct n (Function.update t i r) := by
  intro a b ha hb hab hne
  by_cases hai : a = i <;> by_cases hbi : b = i
  · rw [hai, hbi]
  · subst hai
    rw [Function.update_self, Function.update_of_ne hbi] at hab
    rw [Function.update_self] at hne
    exact absurd hab.symm (h hne b hb hbi)
  · subst hbi
    rw [Function.update_self, Function.update_of_ne hai] at hab
    rw [Function.update_of_ne hai, hab] at hne
    exact absurd hab (h hne a ha hai)
  · rw [Function.update_of_ne hai, Function.update_of_ne hbi] at hab
    rw [Function.update_of_ne hai] at hne
    exact hd a b ha hb hab hne

omit [DecidableEq K] in
theorem distinct_put_same (hd : Distinct n t) (hi : i < n) (hr : key r = key (t i)) :
    Distinct n (Function.update t i r) :=
  distinct_put hd fun hne j hj hji he => hji (hd j i hj hi (he.trans hr) (by rw [he]; exact hne))

theorem lookup_put_self (hd : Distinct n (Function.update t i r)) (hi : i < n) (hk : key r = k)
    (hne : k ≠ freeKey α) : lookup n (Function.update t i r) k = some r :=
  (lookup_eq_some hd hne).mpr ⟨i, hi, Function.update_self i r t, hk⟩

/-- The search only looks at the keys. -/
theorem find?_put_same (hr : key r = key (t i)) : find? n (Function.update t i r) k = find? n t k := by
  have hkey : ∀ j, key (Function.update t i r j) = key (t j) := by
    intro j
    by_cases hj : j = i
    · subst hj
      rw [Function.update_self, hr]
    · rw [Function.update_of_ne hj]
  simp only [find?, hkey]

theorem lookup_put_of_ne (hr : key r ≠ k) (hi : key (t i) ≠ k) :
    lookup n (Function.update t i r) k = lookup n t k := by
  have hkey : ∀ j, (key (Function.update t i r j) = k) = (key (t j) = k) := by
    intro j
    by_cases hj : j = i
    · subst hj
      rw [Function.update_self]
      simp [hr, hi]
    · rw [Function.update_of_ne hj]
  have hfind : find? n (Function.update t i r) k = find? n t k := by
    simp only [find?, hkey]
  rw [lookup, lookup, hfind]
  cases h : find? n t k with
  | none => rfl
  | some j =>
    have hj : j ≠ i := by
      rintro rfl
      exact hi (find?_some h).2
    simp [Function.update_of_ne hj]

theorem lookup_put_gone (hd : Distinct n t) (hi : i < n) (hk : key (t i) = k) (hne : k ≠ freeKey α)
    (hr : key r ≠ k) : lookup n (Function.update t i r) k = none := by
  rw [lookup_eq_none]
  intro j hj
  by_cases hji : j = i
  · subst hji
    rwa [Function.update_self]
  · rw [Function.update_of_ne hji]
    exact fun he => hji (hd j i hj hi (he.trans hk.symm) (he ▸ hne))

end Put

/-! ## `purge` -/

theorem purge_distinct (hd : Distinct n t) : Distinct n (purge n t k) := by
  unfold purge
  split
  · exact distinct_put hd fun h => absurd rfl h
  · exact hd

theorem purge_first {i : Nat} (hi : i < n) (hk : key (t i) = k) (hfirst : ∀ j, j < i → key (t j) ≠ k) :
    purge n t k = Function.update t i vacant := by
  have hfind : find? n t k = some i := by
    rw [find?, List.find?_range_eq_some]
    exact ⟨by simpa using hk, List.mem_range.mpr hi, fun j hj => by simpa using hfirst j hj⟩
  rw [purge, hfind]

theorem lookup_purge_self (hd : Distinct n t) (hne : k ≠ freeKey α) : lookup n (purge n t k) k = none := by
  unfold purge
  split
  · next i h => exact lookup_put_gone hd (find?_some h).1 (find?_some h).2 hne (Ne.symm hne)
  · next h => rw [lookup, h]; rfl

theorem lookup_purge_of_ne {k' : K} (hne : k' ≠ freeKey α) (hkk : k' ≠ k) :
    lookup n (purge n t k) k' = lookup n t k' := by
  unfold purge
  split
  · next i h => exact lookup_put_of_ne (Ne.symm hne) (by rw [(find?_some h).2]; exact Ne.symm hkk)
  · rfl

/-! ## `modify` -/

section Modify
variable {f : α → α}

theorem modify_distinct (hd : Distinct n t) (hf : ∀ r, key (f r) = key r) : Distinct n (modify n t k f) := by
  unfold modify
  split
  · next i h => exact distinct_put_same hd (find?_some h).1 (hf (t i))
  · exact hd

theorem lookup_modify_self (hd : Distinct n t) (hne : k ≠ freeKey α) (hf : ∀ r, key (f r) = key r) :
    lookup n (modify n t k f) k = (lookup n t k).map f := by
  cases h : find? n t k with
  | none => simp [modify, lookup, h]
  | some i =>
    have hi := find?_some h
    have hput := lookup_put_self (distinct_put_same hd hi.1 (hf (t i))) hi.1 ((hf (t i)).trans hi.2) hne
    have hold : lookup n t k = some (t i) := by simp [lookup, h]
    simpa [modify, h, hold] using hput

theorem lookup_modify_of_ne (hf : ∀ r, key (f r) = key r) {k' : K} (hkk : k' ≠ k) :
    lookup n (modify n t k f) k' = lookup n t k' := by
  unfold modify
  split
  · next i h =>
    have hi : key (t i) ≠ k' := by
      rw [(find?_some h).2]
      exact Ne.symm hkk
    exact lookup_put_of_ne (by rwa [hf]) hi
  · rfl

end Modify

/-! ## `claim` -/

section Claim
variable [LT T] [DecidableLT T] {now : T}

omit [DecidableEq K] in
theorem oldest_lt (hn : 0 < n) : oldest n t < n :=
  Slots.pick_lt (fun i o => lastUse (t i) < lastUse (t o)) hn

theorem claim_index_lt (hn : 0 < n) : (claim n t k now).index < n := by
  unfold claim locate
  cases h : find? n t k with
  | some i => exact (find?_some h).1
  | none =>
    cases h' : find? n t (freeKey α) with
    | some i => exact (find?_some h').1
    | none => exact oldest_lt hn

theorem claim_distinct (hd : Distinct n t) : Distinct n (claim n t k now).table := by
  unfold claim locate
  cases h : find? n t k with
  | some i => exact distinct_put_same hd (find?_some h).1 (key_touch now (t i))
  | none =>
    have hfresh : ∀ i, Distinct n (Function.update t i (fresh k now)) := by
      intro i
      refine distinct_put hd fun _ j hj _ => ?_
      rw [key_fresh]
      exact find?_eq_none.mp h j hj
    cases find?  n t (freeKey α) with
    | some i => exact hfresh i
    | none => exact hfresh _

theorem claim_record : (claim n t k now).table (claim n t k now).index = renew (lookup n t k) k now := by
  unfold claim locate lookup
  cases h : find? n t k with
  | some i => simp [renew]
  | none => cases find? n t (freeKey α) <;> simp [renew]

omit [DecidableEq K] [LT T] [DecidableLT T] in
theorem key_renew {r : Option α} (h : ∀ a, r = some a → key a = k) : key (renew r k now) = k := by
  cases r with
  | some a => exact (key_touch now a).trans (h a rfl)
  | none => exact key_fresh k now

theorem claim_record_key : key ((claim n t k now).table (claim n t k now).index) = k := by
  rw [claim_record]
  exact key_renew fun _ h => key_of_lookup h

theorem lookup_claim_put (hd : Distinct n t) (hn : 0 < n) (hne : k ≠ freeKey α) {r : α} (hr : key r = k) :
    lookup n (Function.update (claim n t k now).table (claim n t k now).index r) k = some r :=
  lookup_put_self (distinct_put_same (claim_distinct hd) (claim_index_lt hn) (hr.trans claim_record_key.symm))
    (claim_index_lt hn) hr hne

theorem lookup_claim_put_of_ne {r : α} (hr : key r = k) {k' : K} (hkk : k' ≠ k) :
    lookup n (Function.update (claim n t k now).table (claim n t k now).index r) k' =
      lookup n (claim n t k now).table k' :=
  lookup_put_of_ne (by rw [hr]; exact Ne.symm hkk) (by rw [claim_record_key]; exact Ne.symm hkk)

/-- **The map after `claim`**: other keys keep their record, unless it was the one evicted. -/
theorem claim_lookup (hd : Distinct n t) (hn : 0 < n) {k' : K} (hne : k' ≠ freeKey α) (hkk : k' ≠ k) :
    lookup n (claim n t k now).table k' = lookup n t k' ∨
      ((claim n t k now).evicted = true ∧ lookup n (claim n t k now).table k' = none) := by
  have hfk : key (fresh k now : α) ≠ k' := by
    rw [key_fresh]
    exact Ne.symm hkk
  unfold claim locate
  cases h : find? n t k with
  | some i =>
    left
    have hki : key (t i) ≠ k' := by
      rw [(find?_some h).2]
      exact Ne.symm hkk
    exact lookup_put_of_ne (by rwa [key_touch]) hki
  | none =>
    cases h' : find? n t (freeKey α) with
    | some i =>
      left
      exact lookup_put_of_ne hfk (by rw [(find?_some h').2]; exact Ne.symm hne)
    | none =>
      by_cases hold : key (t (oldest n t)) = k'
      · right
        exact ⟨rfl, lookup_put_gone hd (oldest_lt hn) hold hne hfk⟩
      · left
        exact lookup_put_of_ne hfk hold

/-- An eviction means that every record was taken, by other keys. -/
theorem keys_of_evicted (h : (claim n t k now).evicted = true) :
    ∀ i, i < n → key (t i) ≠ k ∧ key (t i) ≠ freeKey α := by
  unfold claim locate at h
  cases h1 : find? n t k with
  | some i => simp [h1] at h
  | none =>
    cases h2 : find? n t (freeKey α) with
    | some i => simp [h1, h2] at h
    | none => exact fun i hi => ⟨find?_eq_none.mp h1 i hi, find?_eq_none.mp h2 i hi⟩

end Claim

/-! ## One access to a table -/

/-- What a call about key `k` does to a table: nothing, rewrite the record of `k`, creating it first
(`claim`) or only where there is one (`modify`), or free it. -/
inductive Access (α : Type) (K T : Type) where
  | idle (k : K)
  | claim (k : K) (now : T) (f : α → α)
  | modify (k : K) (f : α → α)
  | purge (k : K)

namespace Access

def key : Access α K T → K
  | .idle k => k
  | .claim k _ _ => k
  | .modify k _ => k
  | .purge k => k

/-- The rewriting keeps the key. -/
def Lawful : Access α K T → Prop
  | .claim _ _ f => ∀ r, KeyedRecord.key (f r) = KeyedRecord.key r
  | .modify _ f => ∀ r, KeyedRecord.key (f r) = KeyedRecord.key r
  | _ => True

/-- The record of the key, from the one before. -/
def onRecord (r : Option α) : Access α K T → Option α
  | .idle _ => r
  | .claim k now f => some (f (renew r k now))
  | .modify _ f => r.map f
  | .purge _ => none

section
variable [LT T] [DecidableLT T]

def apply (n : Nat) (t : Nat → α) : Access α K T → Nat → α
  | .idle _ => t
  | .claim k now f =>
    let r := LruTable.claim n t k now
    Function.update r.table r.index (f (r.table r.index))
  | .modify k f => LruTable.modify n t k f
  | .purge k => LruTable.purge n t k

variable {a : Access α K T}

theorem key_claimed {now : T} {f : α → α} (ha : (claim k now f : Access α K T).Lawful) :
    KeyedRecord.key (f ((LruTable.claim n t k now).table (LruTable.claim n t k now).index)) = k :=
  (ha _).trans claim_record_key

theorem lookup_apply_claim {now : T} {f : α → α} (ha : (claim k now f : Access α K T).Lawful) {k' : K}
    (hk : k' ≠ k) : lookup n ((claim k now f : Access α K T).apply n t) k' =
      lookup n (LruTable.claim n t k now).table k' :=
  lookup_claim_put_of_ne (key_claimed ha) hk

theorem apply_distinct (ha : a.Lawful) (hd : Distinct n t) (hn : 0 < n) : Distinct n (a.apply n t) := by
  cases a with
  | idle k => exact hd
  | claim k now f => exact distinct_put_same (claim_distinct hd) (claim_index_lt hn) (ha _)
  | modify k f => exact modify_distinct hd ha
  | purge k => exact purge_distinct hd

theorem lookup_apply_self (ha : a.Lawful) (hd : Distinct n t) (hn : 0 < n) (hne : a.key ≠ freeKey α) :
    lookup n (a.apply n t) a.key = onRecord (lookup n t a.key) a := by
  cases a with
  | idle k => rfl
  | claim k now f =>
    change _ = some (f (renew (lookup n t k) k now))
    rw [← claim_record (n := n)]
    exact lookup_claim_put hd hn hne (key_claimed ha)
  | modify k f => exact lookup_modify_self hd hne ha
  | purge k => exact lookup_purge_self hd hne

/-- The other keys keep their record, or it is evicted to make room. -/
theorem lookup_apply_of_ne (ha : a.Lawful) (hd : Distinct n t) (hn : 0 < n) (hne : k ≠ freeKey α)
    (hk : k ≠ a.key) : lookup n (a.apply n t) k = lookup n t k ∨ lookup n (a.apply n t) k = none := by
  cases a with
  | idle k' => exact Or.inl rfl
  | claim k' now f =>
    rw [lookup_apply_claim ha hk]
    exact (claim_lookup hd hn hne hk).imp_right And.right
  | modify k' f => exact Or.inl (lookup_modify_of_ne ha hk)
  | purge k' => exact Or.inl (lookup_purge_of_ne hne hk)

end

end Access

/-! ## Rewriting every record -/

def rewriteAll (n : Nat) (t : Nat → α) (f : α → α) : Nat → α := fun i => if i < n then f (t i) else t i

section Rewrite
variable {f : α → α}

omit [DecidableEq K] in
theorem key_rewriteAll (hf : ∀ r, key (f r) = key r) (i : Nat) : key (rewriteAll n t f i) = key (t i) := by
  unfold rewriteAll
  split
  · exact hf (t i)
  · rfl

omit [DecidableEq K] in
theorem rewriteAll_distinct (hf : ∀ r, key (f r) = key r) (hd : Distinct n t) : Distinct n (rewriteAll n t f) := by
  intro i j hi hj
  rw [key_rewriteAll hf, key_rewriteAll hf]
  exact hd i j hi hj

theorem lookup_rewriteAll (hf : ∀ r, key (f r) = key r) : lookup n (rewriteAll n t f) k = (lookup n t k).map f := by
  have hfind : find? n (rewriteAll n t f) k = find? n t k := by
    unfold find?
    congr 1
    funext i
    rw [key_rewriteAll hf]
  rw [lookup, lookup, hfind, Option.map_map]
  cases h : find? n t k with
  | none => rfl
  | some i => exact congrArg some (if_pos (find?_some h).1)

end Rewrite

/-! ## Occupied tables -/

def Occupied (n : Nat) (t : Nat → α) : Prop := ∃ i, i < n ∧ key (t i) ≠ freeKey α

theorem occupied_iff_lookup : Occupied n t ↔ ∃ k, k ≠ freeKey α ∧ lookup n t k ≠ none := by
  constructor
  · rintro ⟨i, hi, hne⟩
    exact ⟨key (t i), hne, fun h => lookup_eq_none.mp h i hi rfl⟩
  · rintro ⟨k, hne, hk⟩
    by_contra hno
    exact hk (lookup_eq_none.mpr fun i hi he => hno ⟨i, hi, he ▸ hne⟩)

section Occupied
variable [LT T] [DecidableLT T] {now : T}

theorem claim_table_of_ne {j : Nat} (hj : j ≠ (claim n t k now).index) : (claim n t k now).table j = t j := by
  unfold claim at hj ⊢
  cases h : locate n t k <;> simp only [h] at hj ⊢ <;> exact Function.update_of_ne hj _ _

theorem claim_free {i : Nat} (hi : i < n) (hfree : key (t i) = freeKey α) :
    key (t (claim n t (freeKey α) now).index) = freeKey α := by
  unfold claim locate
  cases h : find? n t (freeKey α) with
  | some j => exact (find?_some h).2
  | none => exact absurd hfree (find?_eq_none.mp h i hi)

/-- **A claim leaves a table occupied.** Where it evicts for the free key, the other records are in use. -/
theorem Access.apply_claim_occupied {f : α → α} (ha : (Access.claim k now f : Access α K T).Lawful) (hn : 2 ≤ n)
    (h : k ≠ freeKey α ∨ Occupied n t) : Occupied n ((Access.claim k now f : Access α K T).apply n t) := by
  have hlt : (LruTable.claim n t k now).index < n := claim_index_lt (by omega)
  by_cases hk : k = freeKey α
  · subst hk
    obtain ⟨i, hi, hne⟩ := h.resolve_left fun hne => hne rfl
    have hother : ∃ j, j < n ∧ j ≠ (LruTable.claim n t (freeKey α) now).index ∧ KeyedRecord.key (t j) ≠ freeKey α := by
      by_cases hfree : KeyedRecord.key (t (LruTable.claim n t (freeKey α) now).index) = freeKey α
      · exact ⟨i, hi, fun he => hne (he ▸ hfree), hne⟩
      · have hall : ∀ j, j < n → KeyedRecord.key (t j) ≠ freeKey α := fun j hj hj' => hfree (claim_free hj hj')
        by_cases h0 : (LruTable.claim n t (freeKey α) now).index = 0
        · exact ⟨1, by omega, by omega, hall 1 (by omega)⟩
        · exact ⟨0, by omega, Ne.symm h0, hall 0 (by omega)⟩
    obtain ⟨j, hj, hji, hjne⟩ := hother
    refine ⟨j, hj, ?_⟩
    rw [Access.apply, Function.update_of_ne hji, claim_table_of_ne hji]
    exact hjne
  · refine ⟨_, hlt, ?_⟩
    rw [Access.apply, Function.update_self, key_claimed ha]
    exact hk

theorem Access.occupied_of_claim_free {f : α → α}
    (ha : (Access.claim (freeKey α) now f : Access α K T).Lawful)
    (h : Occupied n ((Access.claim (freeKey α) now f : Access α K T).apply n t)) : Occupied n t := by
  obtain ⟨i, hi, hne⟩ := h
  by_cases hidx : i = (LruTable.claim n t (freeKey α) now).index
  · subst hidx
    rw [Access.apply, Function.update_self, key_claimed ha] at hne
    exact absurd rfl hne
  · rw [Access.apply, Function.update_of_ne hidx, claim_table_of_ne hidx] at hne
    exact ⟨i, hi, hne⟩

end Occupied

/-! ## The table as a bounded map -/

/-- Exactly `n` keys have a value. -/
def Full {β : Type} (n : Nat) (m : K → Option β) : Prop := ∃ S : Finset K, S.card = n ∧ ∀ k, k ∈ S ↔ m k ≠ none

/-- The other keys of a map with room for `n`, through a step about `k` from `m` to `m'`: they keep their values, except
that a value made for `k` in a full map takes the place of one of the oldest. -/
inductive OthersAfter {β : Type} (n : Nat) (age : β → Nat) (m : K → Option β) (k : K) (m' : K → Option β) : Prop
  | kept (room : m k = none → m' k ≠ none → ¬ Full n m) (same : ∀ j, j ≠ k → m' j = m j)
  | evicted (new : m k = none) (made : m' k ≠ none) (full : Full n m) {v : K} {b : β} (held : m v = some b)
      (least : ∀ j c, m j = some c → age b ≤ age c) (gone : m' v = none) (same : ∀ j, j ≠ k → j ≠ v → m' j = m j)

/-- The records of the keys other than the free one. -/
def view (n : Nat) (t : Nat → α) (k : K) : Option α := if k = freeKey α then none else lookup n t k

section View

theorem view_free : view n t (freeKey α) = none := if_pos rfl

theorem view_of_ne (hne : k ≠ freeKey α) : view n t k = lookup n t k := if_neg hne

theorem ne_free_of_view {r : α} (h : view n t k = some r) : k ≠ freeKey α := by
  rintro rfl
  rw [view_free] at h
  cases h

theorem view_record (hd : Distinct n t) {i : Nat} (hi : i < n) (hne : key (t i) ≠ freeKey α) :
    view n t (key (t i)) = some (t i) := by
  rw [view_of_ne hne, lookup_eq_some hd hne]
  exact ⟨i, hi, rfl, rfl⟩

theorem exists_of_view {r : α} (h : view n t k = some r) : ∃ i, i < n ∧ t i = r ∧ key r = k := by
  rw [view_of_ne (ne_free_of_view h)] at h
  obtain ⟨i, hi, rfl⟩ := Option.map_eq_some_iff.mp h
  exact ⟨i, (find?_some hi).1, rfl, (find?_some hi).2⟩

theorem full_view_iff (hd : Distinct n t) : Full n (view n t) ↔ ∀ i, i < n → key (t i) ≠ freeKey α := by
  have hmem : ∀ k, k ∈ ((Finset.range n).filter fun i => key (t i) ≠ freeKey α).image (fun i => key (t i)) ↔
      view n t k ≠ none := by
    intro k
    rw [Finset.mem_image]
    constructor
    · rintro ⟨i, hi, rfl⟩
      obtain ⟨hi, hne⟩ := Finset.mem_filter.mp hi
      rw [view_record hd (Finset.mem_range.mp hi) hne]
      exact Option.some_ne_none _
    · intro h
      obtain ⟨r, hr⟩ := Option.ne_none_iff_exists'.mp h
      obtain ⟨i, hi, rfl, rfl⟩ := exists_of_view hr
      exact ⟨i, Finset.mem_filter.mpr ⟨Finset.mem_range.mpr hi, ne_free_of_view hr⟩, rfl⟩
  have hcard : (((Finset.range n).filter fun i => key (t i) ≠ freeKey α).image (fun i => key (t i))).card =
      ((Finset.range n).filter fun i => key (t i) ≠ freeKey α).card := by
    apply Finset.card_image_of_injOn
    intro i hi j hj hij
    obtain ⟨hi, hne⟩ := Finset.mem_filter.mp hi
    exact hd i j (Finset.mem_range.mp hi) (Finset.mem_range.mp (Finset.mem_filter.mp hj).1) hij hne
  constructor
  · rintro ⟨S, hS, hiff⟩ i hi hfree
    have hsame : S = ((Finset.range n).filter fun i => key (t i) ≠ freeKey α).image (fun i => key (t i)) := by
      ext k
      rw [hiff, hmem]
    have hlt : ((Finset.range n).filter fun i => key (t i) ≠ freeKey α).card < (Finset.range n).card := by
      apply Finset.card_lt_card
      rw [Finset.filter_ssubset]
      exact ⟨i, Finset.mem_range.mpr hi, not_not_intro hfree⟩
    rw [Finset.card_range] at hlt
    rw [hsame, hcard] at hS
    omega
  · intro hall
    refine ⟨_, ?_, hmem⟩
    rw [hcard, Finset.filter_true_of_mem fun i hi => hall i (Finset.mem_range.mp hi), Finset.card_range]

variable [LT T] [DecidableLT T] (age : T → Nat)

omit [DecidableEq K] in
/-- The record to lose its place is a least recently used one. -/
theorem oldest_le (hage : ∀ a b : T, a < b ↔ age a < age b) {i : Nat} (hi : i < n) :
    age (lastUse (t (oldest n t))) ≤ age (lastUse (t i)) := by
  unfold oldest
  induction n with
  | zero => exact absurd hi (Nat.not_lt_zero i)
  | succ n ih =>
    rw [List.range_succ, List.foldl_append, List.foldl_cons, List.foldl_nil]
    rcases Nat.lt_succ_iff_lt_or_eq.mp hi with hlt | rfl
    · split
      · next h => exact Nat.le_trans (Nat.le_of_lt ((hage _ _).mp h)) (ih hlt)
      · exact ih hlt
    · split
      · exact Nat.le_refl _
      · next h => exact Nat.le_of_not_lt fun hlt => h ((hage _ _).mpr hlt)

theorem view_claim_room {now : T} (hroom : lookup n t k ≠ none ∨ ∃ i, i < n ∧ key (t i) = freeKey α) {j : K}
    (hj : j ≠ k) : view n (claim n t k now).table j = view n t j := by
  by_cases hjf : j = freeKey α
  · rw [hjf, view_free, view_free]
  rw [view_of_ne hjf, view_of_ne hjf]
  unfold claim locate
  cases h : find? n t k with
  | some i =>
    have hij : key (t i) ≠ j := fun he => hj (he.symm.trans (find?_some h).2)
    exact lookup_put_of_ne (by rwa [key_touch]) hij
  | none =>
    have hfresh : key (fresh k now : α) ≠ j := by
      rw [key_fresh]
      exact Ne.symm hj
    cases h' : find? n t (freeKey α) with
    | some i =>
      refine lookup_put_of_ne hfresh ?_
      rw [(find?_some h').2]
      exact Ne.symm hjf
    | none =>
      rcases hroom with hk | ⟨i, hi, hfree⟩
      · rw [lookup, h] at hk
        exact absurd rfl hk
      · exact absurd hfree (find?_eq_none.mp h' i hi)

/-- A claim of a new key in a table with no free record takes the place of the oldest record. -/
theorem view_claim_full (hd : Distinct n t) (hn : 0 < n) (now : T) (hnew : lookup n t k = none)
    (hfull : ∀ i, i < n → key (t i) ≠ freeKey α) :
    view n (claim n t k now).table (key (t (oldest n t))) = none ∧
      ∀ j, j ≠ k → j ≠ key (t (oldest n t)) → view n (claim n t k now).table j = view n t j := by
  have h : find? n t k = none := Option.map_eq_none_iff.mp hnew
  have h' : find? n t (freeKey α) = none := find?_eq_none.mpr hfull
  have hold : oldest n t < n := oldest_lt hn
  have hnk : k ≠ key (t (oldest n t)) := Ne.symm (find?_eq_none.mp h _ hold)
  have htable : (claim n t k now).table = Function.update t (oldest n t) (fresh k now) := by
    simp only [claim, locate, h, h']
  rw [htable]
  constructor
  · rw [view_of_ne (hfull _ hold)]
    refine lookup_put_gone hd hold rfl (hfull _ hold) ?_
    rwa [key_fresh]
  · intro j hj hjv
    by_cases hjf : j = freeKey α
    · rw [hjf, view_free, view_free]
    · rw [view_of_ne hjf, view_of_ne hjf]
      refine lookup_put_of_ne ?_ (Ne.symm hjv)
      rw [key_fresh]
      exact Ne.symm hj

/-- **An access is one to a bounded map.** The key accessed goes through `onRecord`, and the others keep their records
or make room. -/
theorem Access.view_apply {a : Access α K T} (ha : a.Lawful) (hd : Distinct n t) (hn : 0 < n) (hne : a.key ≠ freeKey α)
    (hage : ∀ s t : T, s < t ↔ age s < age t) :
    view n (a.apply n t) a.key = a.onRecord (view n t a.key) ∧
      OthersAfter n (age ∘ lastUse) (view n t) a.key (view n (a.apply n t)) := by
  have hself : view n (a.apply n t) a.key = a.onRecord (view n t a.key) := by
    rw [view_of_ne hne, view_of_ne hne]
    exact lookup_apply_self ha hd hn hne
  refine ⟨hself, ?_⟩
  have hkeep : ∀ t', (∀ j, j ≠ freeKey α → j ≠ a.key → lookup n t' j = lookup n t j) →
      ∀ j, j ≠ a.key → view n t' j = view n t j := by
    intro t' hlookup j hj
    by_cases hjf : j = freeKey α
    · rw [hjf, view_free, view_free]
    · rw [view_of_ne hjf, view_of_ne hjf]
      exact hlookup j hjf hj
  cases a with
  | idle k => exact .kept (fun hnone hsome => absurd hnone hsome) fun _ _ => rfl
  | modify k f =>
    refine .kept (fun hnone hsome => ?_) (hkeep _ fun j _ hj => lookup_modify_of_ne ha hj)
    rw [hself, hnone] at hsome
    exact absurd rfl hsome
  | purge k =>
    refine .kept (fun _ hsome => ?_) (hkeep _ fun j hjf hj => lookup_purge_of_ne hjf hj)
    rw [hself] at hsome
    exact absurd rfl hsome
  | claim k now f =>
    have hk : k ≠ freeKey α := hne
    have happly : ∀ j, j ≠ k → view n ((Access.claim k now f : Access α K T).apply n t) j =
        view n (LruTable.claim n t k now).table j := by
      intro j hj
      by_cases hjf : j = freeKey α
      · rw [hjf, view_free, view_free]
      · rw [view_of_ne hjf, view_of_ne hjf]
        exact lookup_apply_claim ha hj
    have hmade : view n ((Access.claim k now f : Access α K T).apply n t) k ≠ none := by
      rw [show view n _ k = _ from hself]
      exact Option.some_ne_none _
    by_cases hroom : lookup n t k ≠ none ∨ ∃ i, i < n ∧ KeyedRecord.key (t i) = freeKey α
    · refine .kept (fun hnone _ hfull => ?_) fun j hj => (happly j hj).trans (view_claim_room hroom hj)
      rcases hroom with hsome | ⟨i, hi, hfree⟩
      · exact hsome ((view_of_ne hk).symm.trans hnone)
      · exact (full_view_iff hd).mp hfull i hi hfree
    · rw [not_or, not_not] at hroom
      obtain ⟨hnew, hno⟩ := hroom
      have hfull : ∀ i, i < n → KeyedRecord.key (t i) ≠ freeKey α := fun i hi hfree => hno ⟨i, hi, hfree⟩
      obtain ⟨hgone, hsame⟩ := view_claim_full hd hn now hnew hfull
      have hold : oldest n t < n := oldest_lt hn
      have hvk : KeyedRecord.key (t (oldest n t)) ≠ k := fun he => lookup_eq_none.mp hnew _ hold he
      refine .evicted ((view_of_ne hk).trans hnew) hmade ((full_view_iff hd).mpr hfull)
        (view_record hd hold (hfull _ hold)) ?_ ((happly _ hvk).trans hgone)
        fun j hj hjv => (happly j hj).trans (hsame j hj hjv)
      intro j r hr
      obtain ⟨i, hi, rfl, -⟩ := exists_of_view hr
      exact oldest_le age hage hi

end View

omit [DecidableEq K] in
/-- The same step of what the map's values stand for. -/
theorem OthersAfter.map {β γ : Type} {ageB : β → Nat} {ageC : γ → Nat} {m m' : K → Option β}
    (h : OthersAfter n ageB m k m') (f : β → γ) (hage : ∀ b, ageC (f b) = ageB b) :
    OthersAfter n ageC (fun j => (m j).map f) k fun j => (m' j).map f := by
  have hfull : Full n (fun j => (m j).map f) ↔ Full n m := by
    simp only [Full, ne_eq, Option.map_eq_none_iff]
  cases h with
  | kept room same =>
    refine .kept (fun hnone hsome => ?_) fun j hj => congrArg (Option.map f) (same j hj)
    rw [hfull]
    exact room (Option.map_eq_none_iff.mp hnone) fun h => hsome (Option.map_eq_none_iff.mpr h)
  | evicted new made full held least gone same =>
    refine .evicted (Option.map_eq_none_iff.mpr new) (fun h => made (Option.map_eq_none_iff.mp h)) (hfull.mpr full)
      (congrArg (Option.map f) held) ?_ (Option.map_eq_none_iff.mpr gone)
      fun j hj hjv => congrArg (Option.map f) (same j hj hjv)
    intro j c hc
    obtain ⟨b, hb, rfl⟩ := Option.map_eq_some_iff.mp hc
    rw [hage, hage]
    exact least j b hb

/-! ## Properties of every record -/

/-- Where the records in place have property `P`, so has the one the call writes. -/
def Access.Keeps (P : α → Prop) : Access α K T → Prop
  | .claim k now f => ∀ r : Option α, (∀ q, r = some q → P q) → P (f (renew r k now))
  | .modify _ f => ∀ q, P q → P (f q)
  | _ => True

/-- A property of the vacant record that every call keeps is one of all the records. -/
theorem Access.apply_keeps [LT T] [DecidableLT T] {P : α → Prop} {a : Access α K T} (hvacant : P (vacant : α))
    (ha : a.Keeps P) (h : ∀ i, P (t i)) (i : Nat) : P (a.apply n t i) := by
  have hput : ∀ {r : α} (j : Nat), P r → P (Function.update t j r i) := by
    intro r j hr
    by_cases hij : i = j
    · subst hij
      rwa [Function.update_self]
    · rw [Function.update_of_ne hij]
      exact h i
  cases a with
  | idle k => exact h i
  | claim k now f =>
    rw [Access.apply]
    by_cases hij : i = (LruTable.claim n t k now).index
    · rw [hij, Function.update_self, claim_record]
      refine ha _ fun q hq => ?_
      obtain ⟨j, -, rfl⟩ := Option.map_eq_some_iff.mp hq
      exact h j
    · rw [Function.update_of_ne hij, claim_table_of_ne hij]
      exact h i
  | modify k f =>
    simp only [apply, LruTable.modify]
    cases find? n t k with
    | some j => exact hput j (ha _ (h j))
    | none => exact h i
  | purge k =>
    simp only [apply, LruTable.purge]
    cases find? n t k with
    | some j => exact hput j hvacant
    | none => exact h i

/-! ## Room for everybody -/

/-- The keys in use are among `S`. -/
def KeysIn (n : Nat) (t : Nat → α) (S : Finset K) : Prop :=
  ∀ i, i < n → key (t i) ≠ freeKey α → key (t i) ∈ S

section Room
variable [LT T] [DecidableLT T] {S : Finset K}

omit [DecidableEq K] [LT T] [DecidableLT T] in
theorem keysIn_put {i : Nat} {r : α} (hS : KeysIn n t S) (hr : key r ≠ freeKey α → key r ∈ S) :
    KeysIn n (Function.update t i r) S := by
  intro j hj hne
  by_cases hji : j = i
  · subst hji
    rw [Function.update_self] at hne ⊢
    exact hr hne
  · rw [Function.update_of_ne hji] at hne ⊢
    exact hS j hj hne

theorem claim_keysIn {now : T} (hS : KeysIn n t S) (hk : k ∈ S) : KeysIn n (claim n t k now).table S := by
  unfold claim locate
  cases h : find? n t k with
  | some i =>
    refine keysIn_put hS fun _ => ?_
    rw [key_touch, (find?_some h).2]
    exact hk
  | none =>
    have hfresh : ∀ i, KeysIn n (Function.update t i (fresh k now)) S :=
      fun i => keysIn_put hS fun _ => by rwa [key_fresh]
    cases find? n t (freeKey α) with
    | some i => exact hfresh i
    | none => exact hfresh _

theorem Access.apply_keysIn {a : Access α K T} (ha : a.Lawful) (hS : KeysIn n t S) (hk : a.key ∈ S) :
    KeysIn n (a.apply n t) S := by
  cases a with
  | idle k => exact hS
  | claim k now f =>
    refine keysIn_put (claim_keysIn hS hk) fun _ => ?_
    rw [key_claimed ha]
    exact hk
  | modify k f =>
    simp only [apply, LruTable.modify]
    split
    · next i h =>
      refine keysIn_put hS fun _ => ?_
      rw [ha, (find?_some h).2]
      exact hk
    · exact hS
  | purge k =>
    simp only [apply, LruTable.purge]
    split
    · exact keysIn_put hS fun h => absurd rfl h
    · exact hS

omit [LT T] [DecidableLT T] in
/-- While the keys in use, `k` among them, are at most `n`, the table is not full of other keys. -/
theorem exists_room (hd : Distinct n t) (hk : k ∈ S) (hcard : S.card ≤ n) (hS : KeysIn n t S) :
    ∃ i, i < n ∧ (key (t i) = k ∨ key (t i) = freeKey α) := by
  by_contra hno
  have hkeys : ∀ i, i < n → key (t i) ≠ k ∧ key (t i) ≠ freeKey α := fun i hi =>
    ⟨fun h => hno ⟨i, hi, Or.inl h⟩, fun h => hno ⟨i, hi, Or.inr h⟩⟩
  have hmaps : ∀ i ∈ Finset.range n, key (t i) ∈ S.erase k := by
    intro i hi
    have := hkeys i (Finset.mem_range.mp hi)
    exact Finset.mem_erase.mpr ⟨this.1, hS i (Finset.mem_range.mp hi) this.2⟩
  have hinj : Set.InjOn (fun i => key (t i)) (Finset.range n) := by
    intro i hi j hj hij
    rw [Finset.mem_coe, Finset.mem_range] at hi hj
    exact hd i j hi hj hij (hkeys i hi).2
  have hle := Finset.card_le_card_of_injOn _ hmaps hinj
  have hpos := Finset.card_pos.mpr ⟨k, hk⟩
  rw [Finset.card_range, Finset.card_erase_of_mem hk] at hle
  omega

theorem claim_of_room {now : T} (hd : Distinct n t) (hk : k ∈ S) (hcard : S.card ≤ n) (hS : KeysIn n t S) :
    (claim n t k now).evicted = false := by
  by_contra hev
  have hkeys := keys_of_evicted (by simpa using hev)
  obtain ⟨i, hi, h | h⟩ := exists_room hd hk hcard hS
  · exact (hkeys i hi).1 h
  · exact (hkeys i hi).2 h

/-- **No interference.** With room for the keys in use, an access leaves every other record alone. -/
theorem Access.lookup_apply_of_room {a : Access α K T} (ha : a.Lawful) (hd : Distinct n t) (hn : 0 < n)
    (hk : a.key ∈ S) (hcard : S.card ≤ n) (hS : KeysIn n t S) {k' : K} (hne : k' ≠ freeKey α)
    (hkk : k' ≠ a.key) : lookup n (a.apply n t) k' = lookup n t k' := by
  cases a with
  | claim k now f =>
    rw [lookup_apply_claim ha hkk]
    rcases claim_lookup hd hn hne hkk with h | ⟨hev, -⟩
    · exact h
    · rw [claim_of_room hd hk hcard hS] at hev
      exact absurd hev Bool.false_ne_true
  | idle k => rfl
  | modify k f => exact lookup_modify_of_ne ha hkk
  | purge k => exact lookup_purge_of_ne hne hkk

end Room

end LruTable
