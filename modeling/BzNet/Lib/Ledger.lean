import BzNet.Lib.Run
import Mathlib.Algebra.BigOperators.Group.Finset.Basic
import Mathlib.Algebra.Order.Group.Nat
import Mathlib.Data.Fintype.Basic

/-!
# Ledgers

What a machine has in stock, against what its inputs bring in and take out.

* `stock_update`, `le_stock` : a stock kept in several places, after one of them changes, and what one of them has;
* `foldlM_stock` : when no step leaves more in stock than there was, with what its input brings and without what it
  takes, no run does.
-/

namespace Ledger

section Places
variable {κ α : Type} [Fintype κ] [DecidableEq κ]

theorem stock_update (w : κ → α → Nat) (f : κ → α) (k : κ) (a : α) :
    ∑ x, w x (Function.update f k a x) + w k (f k) = ∑ x, w x (f x) + w k a := by
  have hrest : ∑ x ∈ Finset.univ.erase k, w x (Function.update f k a x) = ∑ x ∈ Finset.univ.erase k, w x (f x) :=
    Finset.sum_congr rfl fun x hx => by rw [Function.update_of_ne (Finset.ne_of_mem_erase hx)]
  rw [← Finset.add_sum_erase _ _ (Finset.mem_univ k), ← Finset.add_sum_erase _ (fun x => w x (f x)) (Finset.mem_univ k),
    hrest, Function.update_self]
  omega

theorem le_stock (w : κ → α → Nat) (f : κ → α) (k : κ) : w k (f k) ≤ ∑ x, w x (f x) := by
  rw [← Finset.add_sum_erase _ _ (Finset.mem_univ k)]
  exact Nat.le_add_right _ _

end Places

section Runs
variable {σ ι β : Type} {step : σ → ι → Option σ} {Inv : σ → Prop} {Good : ι → Prop} {stock : σ → Nat}
  {takes brings : ι → List β} {worth : β → Bool}

/-- **The ledger of a run.** -/
theorem foldlM_stock (hstep : ∀ s x t, Inv s → Good x → step s x = some t →
      Inv t ∧ (takes x).countP worth + stock t ≤ stock s + (brings x).countP worth)
    {s t : σ} (hs : Inv s) {xs : List ι} (hxs : ∀ x ∈ xs, Good x) (hrun : xs.foldlM step s = some t) :
    (xs.flatMap takes).countP worth + stock t ≤ stock s + (xs.flatMap brings).countP worth := by
  induction xs generalizing s with
  | nil =>
    obtain rfl : s = t := Option.some.inj hrun
    exact (Nat.zero_add _).le
  | cons x xs ih =>
    obtain ⟨u, hu, hrest⟩ := Machine.foldlM_cons_iff.mp hrun
    obtain ⟨hinv, hle⟩ := hstep s x u hs (hxs x List.mem_cons_self) hu
    have hrun := ih hinv (fun y hy => hxs y (List.mem_cons_of_mem _ hy)) hrest
    rw [List.flatMap_cons, List.flatMap_cons, List.countP_append, List.countP_append]
    omega

end Runs

end Ledger
