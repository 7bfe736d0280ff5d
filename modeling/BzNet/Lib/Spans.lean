import Mathlib.Data.List.Basic

/-!
# Spans of time, one behind the other

Something that covers a window is looked for among things with spans, and the first one that the window touches is
taken.

* `touches` : the two have a moment in common, the ends included; `shared` : for how long they overlap;
* `InOrder` : each span ends before the later ones begin, so that one at most has the window inside (`inside_unique`);
* `firstLongest` : the first touched span has as much of the window left as any later one (`longest_iff`);
* `firstTouched_inside` : the first touched span is then the one with the window inside, if there is one, and otherwise
  exactly when no earlier span ends where the window begins (`firstTouched_inside_iff`).
-/

namespace Spans

variable {σ : Type}

def touches (w s : Nat × Nat) : Bool := w.1 ≤ s.2 && s.1 ≤ w.2

def shared (w s : Nat × Nat) : Nat := min s.2 w.2 - max s.1 w.1

def Inside (w s : Nat × Nat) : Prop := s.1 ≤ w.1 ∧ w.2 ≤ s.2

/-- Each ends before the later ones begin. -/
def InOrder (span : σ → Nat × Nat) (l : List σ) : Prop := l.Pairwise fun s t => (span s).2 ≤ (span t).1

def firstTouched (span : σ → Nat × Nat) (w : Nat × Nat) (l : List σ) : Option σ := l.find? fun s => touches w (span s)

/-- The window ends within the first span it touches, or what that span has left of it is as long as any later span. -/
def firstLongest (span : σ → Nat × Nat) (w : Nat × Nat) : List σ → Bool
  | [] => true
  | f :: post =>
    if touches w (span f) then
      w.2 ≤ (span f).2 || post.all fun t => min (span t).2 w.2 - (span t).1 ≤ (span f).2 - max (span f).1 w.1
    else firstLongest span w post

/-! ## Two spans -/

section Two
variable {w s t : Nat × Nat}

theorem touches_iff : touches w s = true ↔ w.1 ≤ s.2 ∧ s.1 ≤ w.2 := by
  rw [touches, Bool.and_eq_true, decide_eq_true_eq, decide_eq_true_eq]

theorem shared_of_not_touches (h : touches w s = false) : shared w s = 0 := by
  rw [← Bool.not_eq_true, touches_iff] at h
  rw [shared]
  omega

/-- A later span shares no more, in terms of where the spans begin and end. -/
theorem shared_le_iff (hs : touches w s = true) (hlater : s.2 ≤ t.1) :
    shared w t ≤ shared w s ↔ w.2 ≤ s.2 ∨ min t.2 w.2 - t.1 ≤ s.2 - max s.1 w.1 := by
  rw [touches_iff] at hs
  rw [shared, shared]
  omega

theorem Inside.touches (h : Inside w s) (hw : w.1 < w.2) : touches w s = true := by
  obtain ⟨hs, he⟩ := h
  rw [touches_iff]
  omega

theorem Inside.shared (h : Inside w s) : shared w s = w.2 - w.1 := by
  rw [Spans.shared, Nat.min_eq_right h.2, Nat.max_eq_right h.1]

theorem inside_of_shared (hw : w.1 < w.2) (h : w.2 - w.1 ≤ shared w s) : Inside w s := by
  rw [shared] at h
  constructor <;> omega

end Two

/-! ## A row of spans -/

section Row
variable {span : σ → Nat × Nat} {w : Nat × Nat} {l : List σ} {s t : σ}

theorem firstTouched_cons (h : touches w (span s) = true) : firstTouched span w (s :: l) = some s :=
  List.find?_cons_of_pos h

theorem firstTouched_skip (h : touches w (span s) = false) : firstTouched span w (s :: l) = firstTouched span w l :=
  List.find?_cons_of_neg (by simp [h])

theorem firstTouched_eq_none : firstTouched span w l = none ↔ ∀ s ∈ l, touches w (span s) = false := by
  simp only [firstTouched, List.find?_eq_none, Bool.not_eq_true]

/-- **One span at most** has a window of some length inside. -/
theorem inside_unique (h : InOrder span l) (hw : w.1 < w.2) (hs : s ∈ l) (ht : t ∈ l) (his : Inside w (span s))
    (hit : Inside w (span t)) : s = t := by
  have hpair : l.Pairwise fun s t => Inside w (span s) → Inside w (span t) → s = t := by
    refine List.Pairwise.imp ?_ h
    intro s t hle his hit
    have hend := his.2
    have hstart := hit.1
    omega
  have hflip : l.Pairwise fun s t => Inside w (span t) → Inside w (span s) → t = s :=
    hpair.imp fun heq hit his => (heq his hit).symm
  exact hpair.forall_of_forall_of_flip (fun _ _ _ _ => rfl) hflip hs ht his hit

/-- **The first touched span shares the most** exactly under `firstLongest`. -/
theorem longest_iff (h : InOrder span l) :
    (∀ f, firstTouched span w l = some f → ∀ t ∈ l, shared w (span t) ≤ shared w (span f)) ↔
      firstLongest span w l = true := by
  induction l with
  | nil => exact iff_of_true (fun _ _ t ht => absurd ht List.not_mem_nil) rfl
  | cons f post ih =>
    obtain ⟨hlater, hpost⟩ := List.pairwise_cons.mp h
    cases hf : touches w (span f) with
    | true =>
      rw [firstLongest, hf, if_pos rfl, firstTouched_cons hf, Bool.or_eq_true, decide_eq_true_eq, List.all_eq_true]
      have hiff : ∀ t ∈ post, shared w (span t) ≤ shared w (span f) ↔
          w.2 ≤ (span f).2 ∨ min (span t).2 w.2 - (span t).1 ≤ (span f).2 - max (span f).1 w.1 :=
        fun t ht => shared_le_iff hf (hlater t ht)
      constructor
      · intro hlong
        by_cases hend : w.2 ≤ (span f).2
        · exact Or.inl hend
        · refine Or.inr fun t ht => decide_eq_true ?_
          exact ((hiff t ht).mp (hlong f rfl t (List.mem_cons_of_mem f ht))).resolve_left hend
      · rintro hcond g hg t ht
        rw [Option.some.injEq] at hg
        subst hg
        rcases List.mem_cons.mp ht with rfl | ht
        · exact Nat.le_refl _
        · exact (hiff t ht).mpr (hcond.imp_right fun hall => of_decide_eq_true (hall t ht))
    | false =>
      rw [firstLongest, hf, if_neg Bool.false_ne_true, firstTouched_skip hf, ← ih hpost]
      have hzero : shared w (span f) = 0 := shared_of_not_touches hf
      constructor
      · exact fun hlong g hg t ht => hlong g hg t (List.mem_cons_of_mem f ht)
      · intro hlong g hg t ht
        rcases List.mem_cons.mp ht with rfl | ht
        · rw [hzero]
          exact Nat.zero_le _
        · exact hlong g hg t ht

/-- **The span with the window inside is found** when the first touched one shares the most. -/
theorem firstTouched_inside (h : InOrder span l) (hw : w.1 < w.2) (hlong : firstLongest span w l = true) (hs : s ∈ l)
    (hin : Inside w (span s)) : firstTouched span w l = some s := by
  cases hf : firstTouched span w l with
  | none =>
    have hno := firstTouched_eq_none.mp hf s hs
    rw [hin.touches hw] at hno
    cases hno
  | some f =>
    have hshare := (longest_iff h).mpr hlong f hf s hs
    rw [hin.shared] at hshare
    rw [inside_unique h hw (List.mem_of_find?_eq_some hf) hs (inside_of_shared hw hshare) hin]

/-- **When the span with the window inside is found**: no earlier one ends where the window begins. -/
theorem firstTouched_inside_iff {pre post : List σ} (h : InOrder span (pre ++ s :: post)) (hw : w.1 < w.2)
    (hin : Inside w (span s)) : firstTouched span w (pre ++ s :: post) = some s ↔
      ∀ e ∈ pre, (span e).2 = w.1 → w.2 < (span e).1 := by
  have hbefore : ∀ e ∈ pre, (span e).2 ≤ (span s).1 :=
    fun e he => (List.pairwise_append.mp h).2.2 e he s List.mem_cons_self
  have hs : s ∉ pre := by
    intro hs
    have hself := hbefore s hs
    obtain ⟨hstart, hend⟩ := hin
    omega
  have htouch : ∀ e ∈ pre, touches w (span e) = false ↔ ((span e).2 = w.1 → w.2 < (span e).1) := by
    intro e he
    have hle := hbefore e he
    have hstart := hin.1
    rw [← Bool.not_eq_true, touches_iff]
    omega
  constructor
  · intro hf e he
    rw [← htouch e he, ← Bool.not_eq_true]
    intro hte
    rw [firstTouched, List.find?_append, Option.or_eq_some_iff] at hf
    rcases hf with hpre | ⟨hnone, -⟩
    · exact hs (List.mem_of_find?_eq_some hpre)
    · exact List.find?_eq_none.mp hnone e he hte
  · intro hno
    have hnone : firstTouched span w pre = none := by
      rw [firstTouched_eq_none]
      intro e he
      rw [htouch e he]
      exact hno e he
    rw [firstTouched] at hnone ⊢
    rw [List.find?_append, hnone, Option.none_or]
    exact firstTouched_cons (hin.touches hw)

end Row

end Spans
