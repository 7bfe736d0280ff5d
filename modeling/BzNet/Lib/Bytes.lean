import Mathlib.Algebra.BigOperators.Group.List.Basic
import Mathlib.Data.BitVec
import Mathlib.Data.List.Basic
import Mathlib.Tactic.Ring

/-!
# Packed little-endian structures

* `le`, `leValue` : a number as a fixed number of bytes, lowest first, and back (`leValue_le`);
* `pack`, `unpack` : the fields of a packed structure one after the other, each of its own width
  (`unpack_pack`);
* `drop_flatten` : a file of equal records, entered at a record boundary.
-/

namespace Bytes

/-- The lowest `k` bytes of `v`, lowest first. -/
def le : Nat → Nat → List (BitVec 8)
  | 0, _ => []
  | k + 1, v => BitVec.ofNat 8 v :: le k (v / 256)

def leValue : List (BitVec 8) → Nat
  | [] => 0
  | b :: bs => b.toNat + 256 * leValue bs

@[simp] theorem length_le (k v : Nat) : (le k v).length = k := by
  induction k generalizing v with
  | zero => rfl
  | succ k ih => rw [le, List.length_cons, ih]

theorem leValue_le {k v : Nat} (h : v < 256 ^ k) : leValue (le k v) = v := by
  induction k generalizing v with
  | zero =>
    have h0 : v = 0 := by simpa using h
    rw [h0]
    rfl
  | succ k ih =>
    have hdiv : v / 256 < 256 ^ k := by
      rw [Nat.div_lt_iff_lt_mul (by omega)]
      rwa [pow_succ] at h
    rw [le, leValue, ih hdiv, BitVec.toNat_ofNat]
    omega

/-! ## Structures -/

def pack (fields : List (Nat × Nat)) : List (BitVec 8) := fields.flatMap fun f => le f.1 f.2

/-- The values of fields of these widths. -/
def unpack : List Nat → List (BitVec 8) → List Nat
  | [], _ => []
  | w :: ws, bs => leValue (bs.take w) :: unpack ws (bs.drop w)

@[simp] theorem length_pack (fields : List (Nat × Nat)) : (pack fields).length = (fields.map Prod.fst).sum := by
  simp [pack, List.length_flatMap]

/-- **A structure reads back**, whatever follows it, when every value fits its field. -/
theorem unpack_pack {fields : List (Nat × Nat)} (h : ∀ f ∈ fields, f.2 < 256 ^ f.1) (rest : List (BitVec 8)) :
    unpack (fields.map Prod.fst) (pack fields ++ rest) = fields.map Prod.snd := by
  induction fields with
  | nil => rfl
  | cons f fields ih =>
    have hf := h f List.mem_cons_self
    have hlen := length_le f.1 f.2
    rw [List.map_cons, unpack, pack, List.flatMap_cons, List.append_assoc, List.take_left' hlen, List.drop_left' hlen,
      leValue_le hf, List.map_cons]
    congr 1
    exact ih fun g hg => h g (List.mem_cons_of_mem _ hg)

/-! ## Equal records -/

section Records
variable {α : Type} {n : Nat} {bs : List (List α)}

theorem length_flatten_of_equal (h : ∀ b ∈ bs, b.length = n) : bs.flatten.length = bs.length * n := by
  induction bs with
  | nil => simp
  | cons b bs ih =>
    rw [List.flatten_cons, List.length_append, h b List.mem_cons_self, ih fun c hc => h c (List.mem_cons_of_mem _ hc),
      List.length_cons, Nat.succ_mul, Nat.add_comm]

theorem drop_flatten (h : ∀ b ∈ bs, b.length = n) (k : Nat) : bs.flatten.drop (k * n) = (bs.drop k).flatten := by
  induction k generalizing bs with
  | zero => simp
  | succ k ih =>
    cases bs with
    | nil => simp
    | cons b bs =>
      have hb := h b List.mem_cons_self
      rw [List.flatten_cons, List.drop_succ_cons, ← ih fun c hc => h c (List.mem_cons_of_mem _ hc), Nat.succ_mul,
        Nat.add_comm, ← List.drop_drop, List.drop_left' hb]

end Records

end Bytes
