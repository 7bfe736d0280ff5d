import Mathlib.Data.List.Basic
import Mathlib.Data.List.Induction
import Mathlib.Logic.Function.Basic

/-!
# Stores to a memory

A memory is a function from addresses to values, and a list of stores is done in its order.

* `store` : the memory after the stores, `store_mem` what it has where something was stored;
* `Consistent` : no address is given two different values, and `reads_iff`: exactly then everything stored is read back;
* `copy_eq_store` : a copy of consecutive cells as stores.
-/

namespace Stores

variable {A V : Type} [DecidableEq A]

def store (m : A → V) (ws : List (A × V)) : A → V := ws.foldl (fun m w => Function.update m w.1 w.2) m

@[simp] theorem store_nil (m : A → V) : store m [] = m := rfl

theorem store_append (m : A → V) (ws ws' : List (A × V)) : store m (ws ++ ws') = store (store m ws) ws' :=
  List.foldl_append

theorem store_concat (m : A → V) (ws : List (A × V)) (w : A × V) :
    store m (ws ++ [w]) = Function.update (store m ws) w.1 w.2 := store_append m ws [w]

omit [DecidableEq A] in
/-- No address is given two different values. -/
def Consistent (ws : List (A × V)) : Prop := ∀ w ∈ ws, ∀ w' ∈ ws, w.1 = w'.1 → w.2 = w'.2

theorem store_mem {m : A → V} {ws : List (A × V)} (h : Consistent ws) {w : A × V} (hw : w ∈ ws) :
    store m ws w.1 = w.2 := by
  induction ws using List.reverseRecOn with
  | nil => exact absurd hw List.not_mem_nil
  | append_singleton ws x ih =>
    rw [store_concat]
    by_cases hx : w.1 = x.1
    · rw [hx, Function.update_self]
      exact (h w hw x (List.mem_append_right _ (List.mem_singleton_self x)) hx).symm
    · rw [Function.update_of_ne hx]
      have hin : w ∈ ws := by
        rcases List.mem_append.mp hw with hin | hin
        · exact hin
        · exact absurd (congrArg Prod.fst (List.mem_singleton.mp hin)) hx
      exact ih (fun v hv v' hv' => h v (List.mem_append_left _ hv) v' (List.mem_append_left _ hv')) hin

/-- **Everything stored is read back** exactly when the stores are consistent. -/
theorem reads_iff (m : A → V) (ws : List (A × V)) :
    (ws.map Prod.fst).map (store m ws) = ws.map Prod.snd ↔ Consistent ws := by
  rw [List.map_map]
  constructor
  · intro h w hw w' hw' hsame
    have hread := List.map_inj_left.mp h
    have hwr : store m ws w.1 = w.2 := hread w hw
    have hwr' : store m ws w'.1 = w'.2 := hread w' hw'
    rw [← hwr, ← hwr', hsame]
  · intro h
    exact List.map_inj_left.mpr fun w hw => store_mem h hw

omit [DecidableEq A] in

/-- The memory after `n` cells were copied to `dst` and on. -/
def copy (m : Nat → V) (dst : Nat) (src : Nat → V) (n : Nat) : Nat → V :=
  fun a => if dst ≤ a ∧ a < dst + n then src (a - dst) else m a

theorem copy_eq_store (m : Nat → V) (dst : Nat) (src : Nat → V) (n : Nat) :
    copy m dst src n = store m ((List.range n).map fun i => (dst + i, src i)) := by
  induction n with
  | zero =>
    funext a
    exact if_neg fun h => by omega
  | succ n ih =>
    rw [List.range_succ, List.map_append, List.map_singleton, store_concat, ← ih]
    funext a
    by_cases ha : a = dst + n
    · subst ha
      rw [Function.update_self, copy, if_pos (by omega), Nat.add_sub_cancel_left]
    · rw [Function.update_of_ne ha, copy, copy]
      by_cases hin : dst ≤ a ∧ a < dst + n
      · rw [if_pos hin, if_pos (by omega)]
      · rw [if_neg hin, if_neg (by omega)]

end Stores
