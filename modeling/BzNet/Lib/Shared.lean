import Mathlib.Data.List.Basic
import Mathlib.Data.List.Induction
import Mathlib.Logic.Function.Basic

/-!
# A memory shared by several parties

Parties that load and store words of one memory, one access at a time and in any order. What happened is the list of
their accesses.

* `after` : the memory after the accesses, `Coherent` : every load has found what was there;
* `after_confined` : a word is as one party alone would have left it, or another party has put its value there;
* `LastAccess.holds` : a word still has the value that a party has last seen or put there, or another party has stored to
  it since;
* `Guarded` : a party stores only in answer to a load, and `Guarded.replaces` : what such a store replaces is the value
  loaded, or a store of another party in between is lost.
-/

namespace Shared

/-- One access: a load that has found `value`, or a store of `value`. -/
structure Access (ι A V : Type) where
  who : ι
  store : Bool
  addr : A
  value : V
deriving DecidableEq

variable {ι A V : Type} [DecidableEq A]

/-- The memory after one access. -/
def Access.apply (m : A → V) (x : Access ι A V) : A → V := if x.store then Function.update m x.addr x.value else m

/-- The memory after the accesses, in their order. -/
def after (m : A → V) (tr : List (Access ι A V)) : A → V := tr.foldl Access.apply m

/-- Every load has found what was there. -/
def Coherent (m : A → V) (tr : List (Access ι A V)) : Prop :=
  ∀ pre x post, tr = pre ++ x :: post → x.store = false → after m pre x.addr = x.value

omit [DecidableEq A] in
def Access.StoresTo (x : Access ι A V) (a : A) : Prop := x.store = true ∧ x.addr = a

variable {m : A → V} {tr pre post : List (Access ι A V)} {x : Access ι A V} {a : A}

@[simp] theorem after_nil (m : A → V) : after m ([] : List (Access ι A V)) = m := rfl

theorem after_append (m : A → V) (tr tr' : List (Access ι A V)) : after m (tr ++ tr') = after (after m tr) tr' :=
  List.foldl_append

theorem after_concat (m : A → V) (tr : List (Access ι A V)) (x : Access ι A V) :
    after m (tr ++ [x]) = x.apply (after m tr) := after_append m tr [x]

theorem apply_self (m : A → V) (h : x.StoresTo a) : x.apply m a = x.value := by
  obtain ⟨hstore, rfl⟩ := h
  rw [Access.apply, if_pos hstore, Function.update_self]

theorem apply_other (m : A → V) (h : ¬ x.StoresTo a) : x.apply m a = m a := by
  rw [Access.apply]
  split
  · next hstore => exact Function.update_of_ne (fun ha => h ⟨hstore, ha.symm⟩) _ _
  · rfl

theorem after_keeps (m : A → V) (h : ∀ x ∈ tr, ¬ x.StoresTo a) : after m tr a = m a := by
  induction tr using List.reverseRecOn with
  | nil => rfl
  | append_singleton tr x ih =>
    rw [after_concat, apply_other _ (h x (List.mem_append_right _ (List.mem_singleton_self x)))]
    exact ih fun y hy => h y (List.mem_append_left _ hy)

theorem coherent_nil (m : A → V) : Coherent m ([] : List (Access ι A V)) := fun pre x post h _ => by
  cases pre with
  | nil => cases h
  | cons y pre => cases h

/-- **One more access.** -/
theorem Coherent.concat (h : Coherent m tr) (hx : x.store = false → after m tr x.addr = x.value) :
    Coherent m (tr ++ [x]) := by
  intro pre y post heq hload
  rcases List.eq_nil_or_concat post with rfl | ⟨post, z, rfl⟩
  · obtain ⟨rfl, hxy⟩ := List.append_inj' heq rfl
    obtain rfl := (List.cons.inj hxy).1
    exact hx hload
  · have hsplit : tr ++ [x] = (pre ++ y :: post) ++ [z] := by
      rw [heq, List.append_assoc, List.cons_append, List.concat_eq_append]
    exact h pre y post (List.append_inj' hsplit rfl).1 hload

/-- **Whose value it is.** A word is as the stores of one party alone would have left it, or some other party has
stored the value it has. -/
theorem after_confined [DecidableEq ι] (m : A → V) (tr : List (Access ι A V)) (who : ι) (a : A) :
    after m tr a = after m (tr.filter fun x => x.who = who) a ∨
      ∃ x ∈ tr, x.who ≠ who ∧ x.StoresTo a ∧ after m tr a = x.value := by
  induction tr using List.reverseRecOn with
  | nil => exact Or.inl rfl
  | append_singleton tr x ih =>
    rw [after_concat, List.filter_append]
    by_cases hx : x.StoresTo a
    · rw [apply_self _ hx]
      by_cases hwho : x.who = who
      · refine Or.inl ?_
        rw [List.filter_cons_of_pos (by simpa using hwho), List.filter_nil, after_concat, apply_self _ hx]
      · exact Or.inr ⟨x, List.mem_append_right _ (List.mem_singleton_self x), hwho, hx, rfl⟩
    · rw [apply_other _ hx]
      refine ih.imp (fun hsame => ?_) ?_
      · rw [hsame]
        by_cases hwho : x.who = who
        · rw [List.filter_cons_of_pos (by simpa using hwho), List.filter_nil, after_concat, apply_other _ hx]
        · rw [List.filter_cons_of_neg (by simpa using hwho), List.filter_nil, List.append_nil]
      · rintro ⟨y, hy, hrest⟩
        exact ⟨y, List.mem_append_left _ hy, hrest⟩

omit [DecidableEq A] in
/-- `x` is the last access of its party to its word. -/
structure LastAccess (tr pre : List (Access ι A V)) (x : Access ι A V) (post : List (Access ι A V)) : Prop where
  split : tr = pre ++ x :: post
  last : ∀ y ∈ post, y.who = x.who → y.addr ≠ x.addr

/-- **What a party has last seen or put there is there still**, or another party has stored to the word since. -/
theorem LastAccess.holds (h : LastAccess tr pre x post) (hcoh : Coherent m tr) :
    after m tr x.addr = x.value ∨ ∃ y ∈ post, y.who ≠ x.who ∧ y.StoresTo x.addr := by
  by_cases hother : ∃ y ∈ post, y.StoresTo x.addr
  · obtain ⟨y, hy, hstores⟩ := hother
    exact Or.inr ⟨y, hy, fun hwho => h.last y hy hwho hstores.2, hstores⟩
  · refine Or.inl ?_
    rw [h.split, after_append]
    show after (x.apply (after m pre)) post x.addr = x.value
    rw [after_keeps _ fun y hy hstores => hother ⟨y, hy, hstores⟩]
    cases hx : x.store with
    | true => exact apply_self _ ⟨hx, rfl⟩
    | false =>
      rw [apply_other _ fun hstores => Bool.false_ne_true (hx.symm.trans hstores.1)]
      exact hcoh pre x post h.split hx

theorem Coherent.of_append {more : List (Access ι A V)} (h : Coherent m (tr ++ more)) : Coherent m tr := by
  intro pre y post heq hload
  refine h pre y (post ++ more) ?_ hload
  rw [heq, List.append_assoc, List.cons_append]

/-! ## Loads and their answers -/

section Parties
variable [DecidableEq ι] {who : ι}

def firstBy (who : ι) (a : A) (tr : List (Access ι A V)) : Option (Access ι A V) :=
  tr.find? fun x => x.who = who ∧ x.addr = a

/-- The last access of a party to a word. -/
def lastBy (who : ι) (a : A) (tr : List (Access ι A V)) : Option (Access ι A V) :=
  tr.reverse.find? fun x => x.who = who ∧ x.addr = a

theorem lastBy_concat (who : ι) (a : A) (tr : List (Access ι A V)) (x : Access ι A V) :
    lastBy who a (tr ++ [x]) = if x.who = who ∧ x.addr = a then some x else lastBy who a tr := by
  rw [lastBy, List.reverse_append, List.reverse_singleton, List.singleton_append, List.find?_cons]
  by_cases hx : x.who = who ∧ x.addr = a
  · rw [if_pos hx, decide_eq_true hx]
  · rw [if_neg hx, decide_eq_false hx]
    rfl

theorem lastAccess_of_lastBy (h : lastBy who a tr = some x) :
    x.who = who ∧ x.addr = a ∧ ∃ pre post, LastAccess tr pre x post := by
  rw [lastBy, List.find?_eq_some_iff_append] at h
  obtain ⟨hx, post, pre, hsplit, hlast⟩ := h
  obtain ⟨rfl, rfl⟩ := of_decide_eq_true hx
  refine ⟨rfl, rfl, pre.reverse, post.reverse, ?_, fun y hy hwho haddr => ?_⟩
  · rw [← List.reverse_reverse tr, hsplit, List.reverse_append, List.reverse_cons, List.append_assoc,
      List.singleton_append]
  · have hno := hlast y (List.mem_reverse.mp hy)
    rw [Bool.not_eq_true', decide_eq_false_iff_not] at hno
    exact hno ⟨hwho, haddr⟩

theorem firstBy_filter (who : ι) (a : A) (tr : List (Access ι A V)) :
    firstBy who a (tr.filter fun x => x.who = who) = firstBy who a tr := by
  rw [firstBy, firstBy, List.find?_filter]
  congr 1
  funext x
  simp only [Bool.decide_and, decide_eq_true_eq, Bool.and_eq_true, and_self_left]

theorem lastBy_filter (who : ι) (a : A) (tr : List (Access ι A V)) :
    lastBy who a (tr.filter fun x => x.who = who) = lastBy who a tr := by
  rw [lastBy, lastBy, ← List.filter_reverse]
  exact firstBy_filter who a tr.reverse

theorem firstBy_eq_head? (who : ι) (a : A) (tr : List (Access ι A V)) :
    firstBy who a tr = (tr.filter fun x => x.who = who ∧ x.addr = a).head? := List.head?_filter.symm

theorem lastBy_eq_getLast? (who : ι) (a : A) (tr : List (Access ι A V)) :
    lastBy who a tr = (tr.filter fun x => x.who = who ∧ x.addr = a).getLast? := List.getLast?_filter.symm

/-- Every store of the party is the answer to a load that is its last access to the word, and `P` holds of the store and
the value loaded. -/
def Guarded (who : ι) (P : Access ι A V → V → Prop) (tr : List (Access ι A V)) : Prop :=
  ∀ pre x post, tr = pre ++ x :: post → x.who = who → x.store = true →
    ∃ v, lastBy who x.addr pre = some ⟨who, false, x.addr, v⟩ ∧ P x v

variable {P : Access ι A V → V → Prop}

theorem guarded_nil : Guarded who P ([] : List (Access ι A V)) := fun pre x post h _ _ => by
  cases pre with
  | nil => cases h
  | cons y pre => cases h

theorem Guarded.concat (h : Guarded who P tr)
    (hx : x.who = who → x.store = true → ∃ v, lastBy who x.addr tr = some ⟨who, false, x.addr, v⟩ ∧ P x v) :
    Guarded who P (tr ++ [x]) := by
  intro pre y post heq hwho hstore
  rcases List.eq_nil_or_concat post with rfl | ⟨post, z, rfl⟩
  · obtain ⟨rfl, hxy⟩ := List.append_inj' heq rfl
    obtain rfl := (List.cons.inj hxy).1
    exact hx hwho hstore
  · have hsplit : tr ++ [x] = (pre ++ y :: post) ++ [z] := by
      rw [heq, List.append_assoc, List.cons_append, List.concat_eq_append]
    exact h pre y post (List.append_inj' hsplit rfl).1 hwho hstore

/-- **What a store replaces** is the value that the party has loaded, its last access to the word, or another party has
stored to the word between the load and the store. -/
theorem Guarded.replaces (h : Guarded who P tr) (hcoh : Coherent m tr) (hsplit : tr = pre ++ x :: post) (hwho : x.who = who)
    (hstore : x.store = true) :
    ∃ v before between, P x v ∧ LastAccess pre before ⟨who, false, x.addr, v⟩ between ∧
      (after m pre x.addr = v ∨ ∃ y ∈ between, y.who ≠ who ∧ y.StoresTo x.addr) := by
  obtain ⟨v, hlast, hv⟩ := h pre x post hsplit hwho hstore
  obtain ⟨-, -, before, between, haccess⟩ := lastAccess_of_lastBy hlast
  have hcoh' : Coherent m pre := by
    rw [hsplit] at hcoh
    exact hcoh.of_append
  exact ⟨v, before, between, hv, haccess, haccess.holds hcoh'⟩

end Parties

end Shared
