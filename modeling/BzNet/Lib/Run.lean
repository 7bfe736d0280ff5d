import Mathlib.Data.List.Basic
import Mathlib.Data.List.Induction
import Mathlib.Data.Nat.Init

/-!
# Runs of a deterministic machine

A machine is a step function `step : σ → ι → σ × ο`. `final` folds it over a list of inputs,
`outputs` collects what it answers, `stateAt k` is the state just before input `k`.

* `final_inv` : a property every step keeps holds of every reachable state;
* `stateAt_keeps` : the same between two positions of one run, for steps that keep it there;
* `exists_last` : a property that held at first and does not now has a last position where it held;
* `final_calls` : a component of the state that is only reached through calls of another machine has been
  run through them;
* `foldlM_cons_iff`, `foldlM_concat_iff`, `foldlM_inv` : a run of a machine whose actions are not always possible,
  taken apart at either end, and its invariant rule, over the actions so far;
* `StatesMeet`, `StepsMeet`, `statesMeet_iff` : a property that holds all along the runs of such a machine exactly
  when every action meets a condition;
* `simulates`, `follows` : the rules for a machine that refines another one, or a relation;
* `outputs_component`, `outputs_restrict` : a component of the state that only some of the inputs reach is a
  machine of its own, run on those inputs, which the others do not interfere with.
-/

namespace Machine

variable {σ ι ο : Type}

def final (step : σ → ι → σ × ο) (s : σ) (xs : List ι) : σ :=
  xs.foldl (fun s x => (step s x).1) s

/-- The answers to the inputs `xs`, in order. -/
def outputs (step : σ → ι → σ × ο) : σ → List ι → List ο
  | _, [] => []
  | s, x :: xs => (step s x).2 :: outputs step (step s x).1 xs

/-- The state just before input number `k`. -/
def stateAt (step : σ → ι → σ × ο) (s : σ) (xs : List ι) (k : Nat) : σ :=
  final step s (xs.take k)

section
variable (step : σ → ι → σ × ο) (s : σ)

@[simp] theorem final_nil : final step s [] = s := rfl

@[simp] theorem final_cons (x : ι) (xs : List ι) :
    final step s (x :: xs) = final step (step s x).1 xs := rfl

theorem final_append (xs ys : List ι) :
    final step s (xs ++ ys) = final step (final step s xs) ys := by
  simp [final, List.foldl_append]

@[simp] theorem final_concat (xs : List ι) (x : ι) :
    final step s (xs ++ [x]) = (step (final step s xs) x).1 := by
  rw [final_append, final_cons, final_nil]

theorem outputs_concat (xs : List ι) (x : ι) :
    outputs step s (xs ++ [x]) = outputs step s xs ++ [(step (final step s xs) x).2] := by
  induction xs generalizing s with
  | nil => rfl
  | cons y ys ih => simp [outputs, ih]

@[simp] theorem length_outputs (xs : List ι) : (outputs step s xs).length = xs.length := by
  induction xs generalizing s with
  | nil => rfl
  | cons x xs ih => simp [outputs, ih]

/-! ## Positions of a run -/

@[simp] theorem stateAt_zero (xs : List ι) : stateAt step s xs 0 = s := by
  simp [stateAt]

@[simp] theorem stateAt_length (xs : List ι) : stateAt step s xs xs.length = final step s xs := by
  simp [stateAt]

theorem stateAt_succ {xs : List ι} {k : Nat} {x : ι} (h : xs[k]? = some x) :
    stateAt step s xs (k + 1) = (step (stateAt step s xs k) x).1 := by
  rw [stateAt, List.take_add_one, h]
  exact final_concat step s _ x

theorem outputs_getElem? {xs : List ι} {k : Nat} {x : ι} (h : xs[k]? = some x) :
    (outputs step s xs)[k]? = some (step (stateAt step s xs k) x).2 := by
  induction xs generalizing s k with
  | nil => simp at h
  | cons y ys ih =>
    cases k with
    | zero =>
      simp only [List.getElem?_cons_zero, Option.some.injEq] at h
      simp [outputs, h]
    | succ k =>
      rw [List.getElem?_cons_succ] at h
      rw [outputs, List.getElem?_cons_succ, ih (step s y).1 h]
      simp [stateAt]

theorem exists_input {xs : List ι} {k : Nat} {o : ο} (h : (outputs step s xs)[k]? = some o) :
    ∃ x, xs[k]? = some x ∧ (step (stateAt step s xs k) x).2 = o := by
  have hk : k < xs.length := by
    have := (List.getElem?_eq_some_iff.mp h).1
    simpa using this
  have hx := List.getElem?_eq_getElem hk
  refine ⟨_, hx, ?_⟩
  rw [outputs_getElem? step s hx] at h
  exact Option.some.inj h

/-! ## Induction along a run -/

variable {step s}

/-- **The invariant rule.** -/
theorem final_inv {P : σ → Prop} (h0 : P s) (hstep : ∀ s x, P s → P (step s x).1) (xs : List ι) :
    P (final step s xs) := by
  induction xs generalizing s with
  | nil => exact h0
  | cons x xs ih => exact ih (hstep s x h0)

theorem stateAt_inv {P : σ → Prop} (h0 : P s) (hstep : ∀ s x, P s → P (step s x).1) (xs : List ι)
    (k : Nat) : P (stateAt step s xs k) :=
  final_inv h0 hstep _

/-- A property kept by every step from position `i` up to `j` still holds at `j`. -/
theorem stateAt_keeps {P : σ → Prop} {xs : List ι} {i j : Nat} (hij : i ≤ j) (hj : j ≤ xs.length)
    (hi : P (stateAt step s xs i))
    (hstep : ∀ k x, i ≤ k → k < j → xs[k]? = some x → P (stateAt step s xs k) →
      P (step (stateAt step s xs k) x).1) :
    P (stateAt step s xs j) := by
  induction j, hij using Nat.le_induction with
  | base => exact hi
  | succ j hij ih =>
    have hx := List.getElem?_eq_getElem (show j < xs.length by omega)
    rw [stateAt_succ step s hx]
    refine hstep j _ hij (by omega) hx (ih (by omega) ?_)
    intro k x hk hkj
    exact hstep k x hk (by omega)

end

/-! ## Machines whose actions are not always possible -/

theorem foldlM_cons_iff {step : σ → ι → Option σ} {s s' : σ} {x : ι} {xs : List ι} :
    (x :: xs).foldlM step s = some s' ↔ ∃ t, step s x = some t ∧ xs.foldlM step t = some s' := by
  rw [List.foldlM_cons]
  exact Option.bind_eq_some_iff

theorem foldlM_concat_iff {step : σ → ι → Option σ} {s s' : σ} {x : ι} {xs : List ι} :
    (xs ++ [x]).foldlM step s = some s' ↔ ∃ t, xs.foldlM step s = some t ∧ step t x = some s' := by
  rw [List.foldlM_append]
  refine Option.bind_eq_some_iff.trans (exists_congr fun t => and_congr_right fun _ => ?_)
  rw [List.foldlM_cons]
  exact Eq.congr_left (bind_pure _)

/-- A relation between the actions so far and the state, kept by every possible action, holds after a run. -/
theorem foldlM_inv {step : σ → ι → Option σ} {P : List ι → σ → Prop} {s : σ} (h0 : P [] s)
    (hstep : ∀ xs s x s', P xs s → step s x = some s' → P (xs ++ [x]) s') {xs : List ι} {s' : σ}
    (h : xs.foldlM step s = some s') : P xs s' := by
  induction xs using List.reverseRecOn generalizing s' with
  | nil =>
    obtain rfl : s = s' := Option.some.inj h
    exact h0
  | append_singleton xs x ih =>
    obtain ⟨t, ht, hx⟩ := foldlM_concat_iff.mp h
    exact hstep xs t x s' (ih ht) hx

section Along
variable (step : σ → ι → Option σ)

/-- A property of every state of a run, the first included; a run ends where an action is not possible. -/
def StatesMeet (P : σ → Prop) : σ → List ι → Prop
  | s, [] => P s
  | s, x :: xs => P s ∧ ∀ s', step s x = some s' → StatesMeet P s' xs

/-- A condition on every action of a run and the state before it. -/
def StepsMeet (C : σ → ι → Prop) : σ → List ι → Prop
  | _, [] => True
  | s, x :: xs => ∀ s', step s x = some s' → C s x ∧ StepsMeet C s' xs

variable {step} {P Inv : σ → Prop} {C : σ → ι → Prop}

/-- Whether the steps of a run meet a condition can be computed. -/
instance decidableStepsMeet [∀ s x, Decidable (C s x)] : (s : σ) → (xs : List ι) → Decidable (StepsMeet step C s xs)
  | _, [] => isTrue trivial
  | s, x :: xs =>
    match h : step s x with
    | none => isTrue fun s' hs => by
        rw [h] at hs
        cases hs
    | some t =>
      have := decidableStepsMeet t xs
      decidable_of_iff (C s x ∧ StepsMeet step C t xs)
        ⟨fun hmeet s' hs => Option.some.inj (h.symm.trans hs) ▸ hmeet, fun hmeet => hmeet t h⟩

/-- **Exactness along runs.** Where one action keeps the property exactly when it meets the condition, and then
also keeps the invariant that this rests on, the property holds all along a run exactly when every action of it
meets the condition. -/
theorem statesMeet_iff (hstep : ∀ {s x s'}, Inv s → P s → step s x = some s' → (P s' ↔ C s x) ∧ (C s x → Inv s'))
    {s : σ} (hI : Inv s) (hP : P s) (xs : List ι) : StatesMeet step P s xs ↔ StepsMeet step C s xs := by
  induction xs generalizing s with
  | nil => exact ⟨fun _ => trivial, fun _ => hP⟩
  | cons x xs ih =>
    constructor
    · rintro ⟨-, hrest⟩ s' hs
      obtain ⟨hiff, hkeep⟩ := hstep hI hP hs
      have hP' : P s' := by
        cases xs with
        | nil => exact hrest s' hs
        | cons y ys => exact (hrest s' hs).1
      have hC := hiff.mp hP'
      exact ⟨hC, (ih (hkeep hC) hP').mp (hrest s' hs)⟩
    · intro h
      refine ⟨hP, fun s' hs => ?_⟩
      obtain ⟨hC, hrest⟩ := h s' hs
      obtain ⟨hiff, hkeep⟩ := hstep hI hP hs
      exact (ih (hkeep hC) (hiff.mpr hC)).mpr hrest

theorem StatesMeet.last {s s' : σ} {xs : List ι} (h : StatesMeet step P s xs) (hrun : xs.foldlM step s = some s') :
    P s' := by
  induction xs generalizing s with
  | nil =>
    obtain rfl : s = s' := Option.some.inj hrun
    exact h
  | cons x xs ih =>
    obtain ⟨t, ht, hrest⟩ := foldlM_cons_iff.mp hrun
    exact ih (h.2 t ht) hrest

end Along

/-! ## Positions -/

theorem exists_last {P : Nat → Prop} {n : Nat} (h0 : P 0) (hn : ¬ P n) :
    ∃ b, b < n ∧ P b ∧ ∀ k, b < k → k ≤ n → ¬ P k := by
  induction n with
  | zero => exact absurd h0 hn
  | succ n ih =>
    by_cases h : P n
    · refine ⟨n, Nat.lt_succ_self n, h, fun k h1 h2 => ?_⟩
      obtain rfl : k = n + 1 := by omega
      exact hn
    · obtain ⟨b, hb, hPb, hlast⟩ := ih h
      refine ⟨b, by omega, hPb, fun k h1 h2 => ?_⟩
      rcases Nat.le_succ_iff.mp h2 with hle | rfl
      · exact hlast k h1 hle
      · exact hn

/-! ## One component of a run -/

section Component
variable {τ : Type} {step : σ → ι → σ × ο} {part : τ → ι → τ × ο} {proj : σ → τ} {mine : ι → Bool}

/-- The answers to the inputs singled out by `mine`. -/
def answersTo (mine : ι → Bool) (xs : List ι) (ys : List ο) : List ο :=
  ((xs.zip ys).filter (fun p => mine p.1)).map Prod.snd

/-- **Projection.** When the inputs singled out by `mine` move a component of the state as the machine
`part` does, and the others leave it alone, the answers to them are those of `part` run on them. -/
theorem outputs_component {Inv : σ → Prop} {Good : ι → Prop}
    (hinv : ∀ s x, Inv s → Good x → Inv (step s x).1)
    (hmine : ∀ s x, Inv s → Good x → mine x = true →
      proj (step s x).1 = (part (proj s) x).1 ∧ (step s x).2 = (part (proj s) x).2)
    (hother : ∀ s x, Inv s → Good x → mine x = false → proj (step s x).1 = proj s)
    {s : σ} (h0 : Inv s) {xs : List ι} (hxs : ∀ x ∈ xs, Good x) :
    answersTo mine xs (outputs step s xs) = outputs part (proj s) (xs.filter mine) := by
  induction xs generalizing s with
  | nil => rfl
  | cons x xs ih =>
    have hx := hxs x List.mem_cons_self
    have ih := ih (hinv s x h0 hx) fun y hy => hxs y (List.mem_cons_of_mem _ hy)
    cases hm : mine x with
    | true =>
      obtain ⟨hproj, hout⟩ := hmine s x h0 hx hm
      rw [List.filter_cons_of_pos hm, outputs, outputs, ← hproj, ← ih, ← hout]
      simp [answersTo, hm]
    | false =>
      rw [List.filter_cons_of_neg (by simp [hm]), outputs, ← hother s x h0 hx hm, ← ih]
      simp [answersTo, hm]

theorem answersTo_all {xs : List ι} {ys : List ο} (h : ∀ x ∈ xs, mine x = true) (hlen : ys.length ≤ xs.length) :
    answersTo mine xs ys = ys := by
  have hall : ∀ p ∈ xs.zip ys, mine p.1 = true := fun p hp => h p.1 (List.of_mem_zip hp).1
  rw [answersTo, List.filter_eq_self.mpr hall, List.map_snd_zip hlen]

/-- **Noninterference.** In that case the answers to the inputs singled out are the same in the run without the
others. -/
theorem outputs_restrict {Inv : σ → Prop} {Good : ι → Prop}
    (hinv : ∀ s x, Inv s → Good x → Inv (step s x).1)
    (hmine : ∀ s x, Inv s → Good x → mine x = true →
      proj (step s x).1 = (part (proj s) x).1 ∧ (step s x).2 = (part (proj s) x).2)
    (hother : ∀ s x, Inv s → Good x → mine x = false → proj (step s x).1 = proj s)
    {s : σ} (h0 : Inv s) {xs : List ι} (hxs : ∀ x ∈ xs, Good x) :
    answersTo mine xs (outputs step s xs) = outputs step s (xs.filter mine) := by
  have hall : ∀ x ∈ xs.filter mine, mine x = true := fun x hx => (List.mem_filter.mp hx).2
  have hgood : ∀ x ∈ xs.filter mine, Good x := fun x hx => hxs x (List.mem_of_mem_filter hx)
  have halone := outputs_component hinv hmine hother h0 hgood
  rw [List.filter_eq_self.mpr hall, answersTo_all hall (by simp)] at halone
  rw [halone, outputs_component hinv hmine hother h0 hxs]

end Component

/-! ## Simulation -/

section Simulation
variable {τ : Type} {step : σ → ι → σ × ο} {spec : τ → ι → τ × ο} {abs : σ → τ} {Inv : σ → Prop} {Good : ι → Prop}

/-- **Simulation.** A machine whose every step is the one of `spec` on what `abs` sees of its state runs and answers
as `spec` does. -/
theorem simulates (hinv : ∀ s x, Inv s → Good x → Inv (step s x).1)
    (hstep : ∀ s x, Inv s → Good x → abs (step s x).1 = (spec (abs s) x).1 ∧ (step s x).2 = (spec (abs s) x).2)
    {s : σ} (h0 : Inv s) {xs : List ι} (hxs : ∀ x ∈ xs, Good x) :
    abs (final step s xs) = final spec (abs s) xs ∧ outputs step s xs = outputs spec (abs s) xs := by
  induction xs generalizing s with
  | nil => exact ⟨rfl, rfl⟩
  | cons x xs ih =>
    have hx := hxs x List.mem_cons_self
    obtain ⟨habs, hout⟩ := hstep s x h0 hx
    obtain ⟨hfinal, houts⟩ := ih (hinv s x h0 hx) fun y hy => hxs y (List.mem_cons_of_mem _ hy)
    rw [final_cons, final_cons, outputs, outputs, ← habs, ← hout, hfinal, houts]
    exact ⟨rfl, rfl⟩

/-- A run of a machine given by the steps it may take. -/
inductive Follows (spec : τ → ι → τ → ο → Prop) : τ → List ι → List ο → τ → Prop
  | nil (a : τ) : Follows spec a [] [] a
  | cons {a b c : τ} {x : ι} {y : ο} {xs : List ι} {ys : List ο} (h : spec a x b y) (hs : Follows spec b xs ys c) :
      Follows spec a (x :: xs) (y :: ys) c

/-- **Simulation of a relation.** A machine whose every step is one that `spec` allows, on what `abs` sees of its state,
runs and answers as `spec` allows. -/
theorem follows {spec : τ → ι → τ → ο → Prop} (hinv : ∀ s x, Inv s → Good x → Inv (step s x).1)
    (hstep : ∀ s x, Inv s → Good x → spec (abs s) x (abs (step s x).1) (step s x).2)
    {s : σ} (h0 : Inv s) {xs : List ι} (hxs : ∀ x ∈ xs, Good x) :
    Follows spec (abs s) xs (outputs step s xs) (abs (final step s xs)) := by
  induction xs generalizing s with
  | nil => exact Follows.nil (abs s)
  | cons x xs ih =>
    have hx := hxs x List.mem_cons_self
    exact Follows.cons (hstep s x h0 hx) (ih (hinv s x h0 hx) fun y hy => hxs y (List.mem_cons_of_mem _ hy))

end Simulation

/-! ## Calls into another machine -/

section Calls
variable {τ κ π : Type} {step : σ → ι → σ × ο} {sub : τ → κ → τ × π} {proj : σ → τ} {calls : σ → ι → List κ}

/-- The calls made over a run, where an input `x` makes the calls `calls s x` in state `s`. -/
def callsOf (step : σ → ι → σ × ο) (calls : σ → ι → List κ) : σ → List ι → List κ
  | _, [] => []
  | s, x :: xs => calls s x ++ callsOf step calls (step s x).1 xs

/-- **Delegation.** A component that every step moves by calls of the machine `sub` has been run through all
of them. -/
theorem final_calls (h : ∀ s x, proj (step s x).1 = final sub (proj s) (calls s x)) (s : σ) (xs : List ι) :
    proj (final step s xs) = final sub (proj s) (callsOf step calls s xs) := by
  induction xs generalizing s with
  | nil => rfl
  | cons x xs ih => rw [final_cons, ih, h, callsOf, final_append]

theorem outputs_append (sub : τ → κ → τ × π) (t : τ) (ks ls : List κ) :
    outputs sub t (ks ++ ls) = outputs sub t ks ++ outputs sub (final sub t ks) ls := by
  induction ks generalizing t with
  | nil => rfl
  | cons k ks ih => rw [List.cons_append, outputs, outputs, ih, final_cons, List.cons_append]

theorem outputs_calls {β : Type} {p : π → List β} {q : ο → List β}
    (h : ∀ s x, proj (step s x).1 = final sub (proj s) (calls s x))
    (hout : ∀ s x, (outputs sub (proj s) (calls s x)).flatMap p = q (step s x).2) (s : σ) (xs : List ι) :
    (outputs sub (proj s) (callsOf step calls s xs)).flatMap p = (outputs step s xs).flatMap q := by
  induction xs generalizing s with
  | nil => rfl
  | cons x xs ih =>
    rw [callsOf, outputs_append, List.flatMap_append, hout, ← h, ih, outputs, List.flatMap_cons]

end Calls

end Machine
