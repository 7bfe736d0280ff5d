import Mathlib.Algebra.Order.Group.Multiset
import Mathlib.Algebra.Order.Group.Nat
import Mathlib.Data.List.Range
import Mathlib.Data.Multiset.UnionInter

/-!
# Jitter buffers

A buffer that puts a stream back in order: packets arrive with their place in the stream, and a poll may hand over
one that is held.

* `Picks` : what a poll may hand over: before the first delivery the least place held, then the place behind the
  cursor, or, while that one is not held, a packet that was held for `hold`;
* `Run` : a run over arrivals and polls, with what it hands over;
* `run_ascends` : what is displaced by less than `hold` is handed over in ascending order, whatever is lost;
* `run_restores` : where in addition nothing is lost, what is handed over is the stream, without a gap;
* `prompt_iff`, `gapless_iff` : both conditions can be decided.
-/

namespace Jitter

/-- Where the last delivery was, and the packets held: the place of each and when it arrived. -/
structure Buffer where
  cursor : Option Nat
  held : Multiset (Nat × Nat)

inductive Event where
  | arrive (place time : Nat)
  | poll (now : Nat)

def arrivals (es : List Event) : List Nat :=
  es.filterMap fun e => match e with
    | .arrive n _ => some n
    | .poll _ => none

/-- The buffer may hand over place `n`, which it holds since `t`. -/
inductive Picks (hold : Nat) (b : Buffer) (now n t : Nat) : Prop where
  | first : b.cursor = none → (∀ p ∈ b.held, n ≤ p.1) → Picks hold b now n t
  | next (c : Nat) : b.cursor = some c → n = c + 1 → Picks hold b now n t
  | aged (c : Nat) : b.cursor = some c → (∀ p ∈ b.held, p.1 ≠ c + 1) → hold ≤ now - t → Picks hold b now n t

/-- A run. An arrival behind the cursor, or at a place that is held, is passed on; a delivery forgets what it
overtakes. -/
inductive Run (hold : Nat) : List Event → Buffer → List Nat → Prop where
  | start : Run hold [] ⟨none, 0⟩ []
  | keep {es b out} (n t : Nat) : Run hold es b out → (∀ c ∈ b.cursor, c < n) → (∀ p ∈ b.held, p.1 ≠ n) →
      Run hold (es ++ [.arrive n t]) { b with held := (n, t) ::ₘ b.held } out
  | pass {es b out} (n t : Nat) : Run hold es b out → (∃ c ∈ b.cursor, n ≤ c) ∨ (∃ p ∈ b.held, p.1 = n) →
      Run hold (es ++ [.arrive n t]) b (out ++ [n])
  | idle {es b out} (now : Nat) : Run hold es b out → Run hold (es ++ [.poll now]) b out
  | take {es b out} (now n t : Nat) : Run hold es b out → (n, t) ∈ b.held → Picks hold b now n t →
      Run hold (es ++ [.poll now]) ⟨some n, b.held.filter (n < ·.1)⟩ (out ++ [n])

section Lists
variable {es fs : List Event} {n t now : Nat}

@[simp] theorem arrivals_nil : arrivals [] = [] := rfl

@[simp] theorem arrivals_append (es fs : List Event) : arrivals (es ++ fs) = arrivals es ++ arrivals fs :=
  List.filterMap_append

@[simp] theorem arrivals_arrive (n t : Nat) (es : List Event) : arrivals (.arrive n t :: es) = n :: arrivals es := rfl

@[simp] theorem arrivals_poll (now : Nat) (es : List Event) : arrivals (.poll now :: es) = arrivals es := rfl

theorem mem_arrivals : n ∈ arrivals es ↔ ∃ t, .arrive n t ∈ es := by
  rw [arrivals, List.mem_filterMap]
  constructor
  · intro h
    obtain ⟨e, he, hn⟩ := h
    cases e with
    | arrive m t =>
      obtain rfl := Option.some.inj hn
      exact ⟨t, he⟩
    | poll now => cases hn
  · intro h
    obtain ⟨t, ht⟩ := h
    exact ⟨_, ht, rfl⟩

end Lists

/-! ## What every run keeps -/

section Runs
variable {hold : Nat} {es fs : List Event} {b : Buffer} {out : List Nat}

theorem Run.held (h : Run hold es b out) : ∀ p ∈ b.held, .arrive p.1 p.2 ∈ es ∧ ∀ c ∈ b.cursor, c < p.1 := by
  induction h with
  | start => exact fun p hp => absurd hp (Multiset.notMem_zero p)
  | keep n t _ hahead _ ih =>
    intro p hp
    rcases Multiset.mem_cons.mp hp with rfl | hp
    · exact ⟨by simp, hahead⟩
    · exact ⟨List.mem_append_left _ (ih p hp).1, (ih p hp).2⟩
  | pass n t _ _ ih => exact fun p hp => ⟨List.mem_append_left _ (ih p hp).1, (ih p hp).2⟩
  | idle now _ ih => exact fun p hp => ⟨List.mem_append_left _ (ih p hp).1, (ih p hp).2⟩
  | take now n t _ _ _ ih =>
    intro p hp
    obtain ⟨hp, hlt⟩ := Multiset.mem_filter.mp hp
    refine ⟨List.mem_append_left _ (ih p hp).1, fun c hc => ?_⟩
    obtain rfl := Option.some.inj hc
    exact hlt

theorem Run.pick_ahead (h : Run hold es b out) {n t : Nat} (hn : (n, t) ∈ b.held) : ∀ c ∈ b.cursor, c < n :=
  (h.held _ hn).2

/-! ## Displaced packets -/

/-- No place arrives twice, no poll comes between the first arrival and that of place 0, and what arrives behind a
place that is ahead of it does so within `hold`. -/
structure Prompt (hold : Nat) (es : List Event) : Prop where
  nodup : (arrivals es).Nodup
  first : ∀ es₁ now es₂, es = es₁ ++ .poll now :: es₂ → arrivals es₁ ≠ [] → 0 ∈ arrivals es₁
  within : ∀ es₁ n t es₂ now es₃, es = es₁ ++ .arrive n t :: (es₂ ++ .poll now :: es₃) →
    ∀ m ∈ arrivals es₃, m < n → now - t < hold

theorem Prompt.not_held (h : Prompt hold (es ++ .arrive n t :: fs)) (hrun : Run hold es b out) : ∀ p ∈ b.held, p.1 ≠ n := by
  intro p hp heq
  have hnodup := h.nodup
  rw [arrivals_append, arrivals_arrive] at hnodup
  have hmem := mem_arrivals.mpr ⟨p.2, (hrun.held p hp).1⟩
  exact (List.nodup_append.mp hnodup).2.2 _ hmem n List.mem_cons_self heq

/-- What is handed over so far ascends and is not ahead of the cursor, and what is still to arrive is. -/
structure Ascends (es fs : List Event) (b : Buffer) (out : List Nat) : Prop where
  ascends : out.Pairwise (· < ·)
  below : ∀ m ∈ out, ∃ c ∈ b.cursor, m ≤ c
  ahead : ∀ c ∈ b.cursor, ∀ m ∈ arrivals fs, c < m
  fresh : b.cursor = none → ∀ m ∈ arrivals es, ∃ p ∈ b.held, p.1 = m

/-- A delivery ahead of the cursor, and behind whatever is still to arrive. -/
theorem Ascends.deliver {now n : Nat} (h : Ascends es (.poll now :: fs) b out) (hn : ∀ c ∈ b.cursor, c < n)
    (hfs : ∀ m ∈ arrivals fs, n < m) :
    Ascends (es ++ [.poll now]) fs ⟨some n, b.held.filter (n < ·.1)⟩ (out ++ [n]) where
  ascends := by
    refine List.pairwise_append.mpr ⟨h.ascends, List.pairwise_singleton _ _, fun m hm k hk => ?_⟩
    obtain ⟨c, hc, hle⟩ := h.below m hm
    rw [List.mem_singleton.mp hk]
    exact Nat.lt_of_le_of_lt hle (hn c hc)
  below := by
    intro m hm
    refine ⟨n, rfl, ?_⟩
    rcases List.mem_append.mp hm with hm | hm
    · obtain ⟨c, hc, hle⟩ := h.below m hm
      exact hle.trans (Nat.le_of_lt (hn c hc))
    · exact Nat.le_of_eq (List.mem_singleton.mp hm)
  ahead := by
    intro c hc
    obtain rfl := Option.some.inj hc
    exact hfs
  fresh hnone := by cases hnone

/-- **What is picked is behind whatever is still to arrive.** -/
theorem Ascends.pick_behind {now n t : Nat} (h : Ascends es (.poll now :: fs) b out) (hrun : Run hold es b out)
    (hprompt : Prompt hold (es ++ .poll now :: fs)) (hn : (n, t) ∈ b.held) (hpick : Picks hold b now n t) :
    ∀ m ∈ arrivals fs, n < m := by
  intro m hm
  have hnodup := hprompt.nodup
  rw [arrivals_append, arrivals_poll] at hnodup
  have harrived : .arrive n t ∈ es := (hrun.held _ hn).1
  have hne : m ≠ n := fun heq =>
    (List.nodup_append.mp hnodup).2.2 n (mem_arrivals.mpr ⟨t, harrived⟩) m hm heq.symm
  cases hpick with
  | first hnone hleast =>
    have hzero := hprompt.first es now fs rfl (List.ne_nil_of_mem (mem_arrivals.mpr ⟨t, harrived⟩))
    obtain ⟨p, hp, hp0⟩ := h.fresh hnone 0 hzero
    have hle := hleast p hp
    omega
  | next c hc hnext =>
    have hlt := h.ahead c hc m hm
    omega
  | aged c hc hno hold =>
    by_contra hbehind
    obtain ⟨es₁, es₂, rfl⟩ := List.append_of_mem harrived
    have hsoon := hprompt.within es₁ n t es₂ now fs (by simp) m hm (by omega)
    omega

theorem Run.ascends (h : Run hold es b out) : ∀ fs, Prompt hold (es ++ fs) → Ascends es fs b out := by
  induction h with
  | start =>
    intro fs _
    exact ⟨List.Pairwise.nil, nofun, nofun, fun _ m hm => absurd hm List.not_mem_nil⟩
  | keep n t _ hahead hnew ih =>
    intro fs hprompt
    rw [List.append_assoc] at hprompt
    have hasc := ih _ hprompt
    refine ⟨hasc.ascends, hasc.below, fun c hc m hm => hasc.ahead c hc m (List.mem_cons_of_mem _ hm), fun hnone m hm => ?_⟩
    rw [arrivals_append, List.mem_append] at hm
    rcases hm with hm | hm
    · obtain ⟨p, hp, heq⟩ := hasc.fresh hnone m hm
      exact ⟨p, Multiset.mem_cons_of_mem hp, heq⟩
    · exact ⟨(n, t), Multiset.mem_cons_self _ _, (List.mem_singleton.mp hm).symm⟩
  | pass n t hrun hwhy ih =>
    intro fs hprompt
    rw [List.append_assoc] at hprompt
    have hasc := ih _ hprompt
    rcases hwhy with ⟨c, hc, hle⟩ | ⟨p, hp, heq⟩
    · have hlt := hasc.ahead c hc n List.mem_cons_self
      omega
    · exact absurd heq (Prompt.not_held hprompt hrun p hp)
  | idle now _ ih =>
    intro fs hprompt
    rw [List.append_assoc] at hprompt
    have hasc := ih _ hprompt
    exact ⟨hasc.ascends, hasc.below, hasc.ahead, fun hnone m hm => hasc.fresh hnone m (by simpa using hm)⟩
  | take now n t hrun hn hpick ih =>
    intro fs hprompt
    rw [List.append_assoc] at hprompt
    have hasc := ih _ hprompt
    exact hasc.deliver (hrun.pick_ahead hn) (hasc.pick_behind hrun hprompt hn hpick)

/-- **What is displaced by less than the hold time is handed over in ascending order**, whatever is lost. -/
theorem run_ascends (h : Run hold es b out) (hprompt : Prompt hold es) : out.Pairwise (· < ·) := by
  have hrun := h.ascends []
  rw [List.append_nil] at hrun
  exact (hrun hprompt).ascends

/-! ## Streams without a gap -/

/-- No place arrives twice, no poll comes between the first arrival and that of place 0, and every place behind one
that arrives has arrived before it, or does so within `hold`. -/
structure Gapless (hold : Nat) (es : List Event) : Prop where
  nodup : (arrivals es).Nodup
  first : ∀ es₁ now es₂, es = es₁ ++ .poll now :: es₂ → arrivals es₁ ≠ [] → 0 ∈ arrivals es₁
  within : ∀ es₁ n t es₂ now es₃, es = es₁ ++ .arrive n t :: (es₂ ++ .poll now :: es₃) → ∀ m < n,
    m ∈ arrivals es₁ ∨ m ∈ arrivals es₂ ∨ now - t < hold

/-- What is handed over so far is the stream up to the cursor, and all the rest that has arrived is held. -/
structure Restores (es : List Event) (b : Buffer) (out : List Nat) : Prop where
  order : out = List.range out.length
  cursor : b.cursor = if out = [] then none else some (out.length - 1)
  all : (out : Multiset Nat) + b.held.map Prod.fst = arrivals es

theorem Gapless.prompt (h : Gapless hold es) : Prompt hold es where
  nodup := h.nodup
  first := h.first
  within es₁ n t es₂ now es₃ heq m hm hlt := by
    have hnodup := h.nodup
    rw [heq, arrivals_append, arrivals_arrive, arrivals_append, arrivals_poll] at hnodup
    obtain ⟨-, hrest, hdisj⟩ := List.nodup_append.mp hnodup
    rcases h.within es₁ n t es₂ now es₃ heq m hlt with hbefore | hbetween | hsoon
    · exact absurd rfl (hdisj m hbefore m (List.mem_cons_of_mem _ (List.mem_append_right _ hm)))
    · exact absurd rfl ((List.nodup_append.mp (List.nodup_cons.mp hrest).2).2.2 m hbetween m hm)
    · exact hsoon

/-- Apart from the next place whatever is held is behind it in the stream. -/
theorem Restores.held_cons (h : Restores es b out) (hnodup : (arrivals es).Nodup) {t : Nat}
    (hn : (out.length, t) ∈ b.held) : b.held = (out.length, t) ::ₘ b.held.filter (out.length < ·.1) := by
  obtain ⟨rest, hheld⟩ := Multiset.exists_cons_of_mem hn
  have hall := h.all
  rw [hheld, Multiset.map_cons] at hall
  have hnd : ((out : Multiset Nat) + out.length ::ₘ rest.map Prod.fst).Nodup := by
    rw [hall]
    exact Multiset.coe_nodup.mpr hnodup
  obtain ⟨-, hrest, hdisj⟩ := Multiset.nodup_add.mp hnd
  have hlater : ∀ p ∈ rest, out.length < p.1 := by
    intro p hp
    have hmem : p.1 ∈ rest.map Prod.fst := Multiset.mem_map_of_mem _ hp
    have hne : p.1 ≠ out.length := fun heq => (Multiset.nodup_cons.mp hrest).1 (heq ▸ hmem)
    have hout : p.1 ∉ out := fun hin =>
      Multiset.disjoint_left.mp hdisj (Multiset.mem_coe.mpr hin) (Multiset.mem_cons_of_mem hmem)
    rw [h.order, List.mem_range] at hout
    omega
  rw [hheld, Multiset.filter_cons_of_neg _ (by simp), Multiset.filter_eq_self.mpr hlater]

theorem Restores.deliver {now t : Nat} (h : Restores es b out) (hnodup : (arrivals es).Nodup)
    (hn : (out.length, t) ∈ b.held) :
    Restores (es ++ [.poll now]) ⟨some out.length, b.held.filter (out.length < ·.1)⟩ (out ++ [out.length]) where
  order := by
    rw [List.length_append, List.length_singleton, List.range_succ, ← h.order]
  cursor := by simp
  all := by
    have hall := h.all
    rw [h.held_cons hnodup hn, Multiset.map_cons] at hall
    rw [arrivals_append, arrivals_poll, arrivals_nil, List.append_nil, ← hall, ← Multiset.coe_add, Multiset.coe_singleton,
      ← Multiset.singleton_add, ← add_assoc]

/-- **What is picked is the next place.** -/
theorem Restores.pick_next {now n t : Nat} (h : Restores es b out) (hrun : Run hold es b out)
    (hgap : Gapless hold (es ++ .poll now :: fs)) (hn : (n, t) ∈ b.held) (hpick : Picks hold b now n t) :
    n = out.length := by
  have harrived : .arrive n t ∈ es := (hrun.held _ hn).1
  have hmem : ∀ m ∈ arrivals es, m < out.length ∨ ∃ p ∈ b.held, p.1 = m := by
    intro m hm
    rw [← Multiset.mem_coe, ← h.all, Multiset.mem_add, Multiset.mem_coe, Multiset.mem_map, h.order, List.mem_range] at hm
    exact hm
  have hcursor : ∀ c, b.cursor = some c → out.length = c + 1 := by
    intro c hc
    have hcur := h.cursor
    split at hcur
    · rw [hc] at hcur
      cases hcur
    · next hne =>
      have hpos := List.length_pos_iff.mpr hne
      rw [hc] at hcur
      have := Option.some.inj hcur
      omega
  cases hpick with
  | first hnone hleast =>
    have hnil : out.length = 0 := by
      have hcur := h.cursor
      split at hcur
      · next hnil => rw [hnil, List.length_nil]
      · rw [hnone] at hcur
        cases hcur
    have hzero := hgap.first es now fs rfl (List.ne_nil_of_mem (mem_arrivals.mpr ⟨t, harrived⟩))
    rcases hmem 0 hzero with hlt | ⟨p, hp, hp0⟩
    · omega
    · have hle := hleast p hp
      omega
  | next c hc hnext => rw [hcursor c hc, hnext]
  | aged c hc hno haged =>
    have hlen := hcursor c hc
    have hahead := hrun.pick_ahead hn c hc
    have hne := hno _ hn
    -- everything behind the packet would have arrived, and the next place with it
    obtain ⟨es₁, es₂, rfl⟩ := List.append_of_mem harrived
    have hnext : c + 1 ∈ arrivals (es₁ ++ .arrive n t :: es₂) := by
      rw [arrivals_append, arrivals_arrive]
      rcases hgap.within es₁ n t es₂ now fs (by simp) (c + 1) (by omega) with hbefore | hbetween | hsoon
      · exact List.mem_append_left _ hbefore
      · exact List.mem_append_right _ (List.mem_cons_of_mem _ hbetween)
      · omega
    rcases hmem _ hnext with hlt | ⟨p, hp, heq⟩
    · omega
    · exact absurd heq (hno p hp)

theorem Run.restores (h : Run hold es b out) : ∀ fs, Gapless hold (es ++ fs) → Restores es b out := by
  induction h with
  | start => exact fun fs _ => ⟨rfl, rfl, rfl⟩
  | keep n t _ _ _ ih =>
    intro fs hgap
    rw [List.append_assoc] at hgap
    have hres := ih _ hgap
    refine ⟨hres.order, hres.cursor, ?_⟩
    rw [arrivals_append, arrivals_arrive, arrivals_nil, ← Multiset.coe_add, ← hres.all, Multiset.map_cons,
      Multiset.coe_singleton, ← Multiset.singleton_add, add_comm ({_} : Multiset Nat), add_assoc]
  | pass n t hrun hwhy ih =>
    intro fs hgap
    rw [List.append_assoc] at hgap
    have hasc := hrun.ascends _ hgap.prompt
    rcases hwhy with ⟨c, hc, hle⟩ | ⟨p, hp, heq⟩
    · have hlt := hasc.ahead c hc n List.mem_cons_self
      omega
    · exact absurd heq (Prompt.not_held hgap.prompt hrun p hp)
  | idle now _ ih =>
    intro fs hgap
    rw [List.append_assoc] at hgap
    have hres := ih _ hgap
    exact ⟨hres.order, hres.cursor, by rw [hres.all]; simp⟩
  | take now n t hrun hn hpick ih =>
    intro fs hgap
    rw [List.append_assoc] at hgap
    have hres := ih _ hgap
    obtain rfl := hres.pick_next hrun hgap hn hpick
    have hnodup := hgap.nodup
    rw [arrivals_append] at hnodup
    exact hres.deliver hnodup.of_append_left hn

/-- **Where nothing is lost, what is handed over is the stream from place 0 on**, without a gap, and the rest of what
has arrived is held. -/
theorem run_restores (h : Run hold es b out) (hgap : Gapless hold es) :
    out = List.range out.length ∧ (out : Multiset Nat) + b.held.map Prod.fst = arrivals es := by
  have hrun := h.restores []
  rw [List.append_nil] at hrun
  exact ⟨(hrun hgap).order, (hrun hgap).all⟩

end Runs

/-! ## Deciding the conditions -/

/-- `P` holds wherever `es`, which comes after `pre`, is split at an element. -/
def EverySplit {α : Type} (P : List α → α → List α → Prop) : List α → List α → Prop
  | _, [] => True
  | pre, e :: es => P pre e es ∧ EverySplit P (pre ++ [e]) es

section Splits
variable {α : Type} {P : List α → α → List α → Prop} {hold : Nat}

theorem everySplit_iff (pre es : List α) :
    EverySplit P pre es ↔ ∀ es₁ e es₂, es = es₁ ++ e :: es₂ → P (pre ++ es₁) e es₂ := by
  induction es generalizing pre with
  | nil => exact ⟨fun _ es₁ e es₂ h => by simp at h, fun _ => trivial⟩
  | cons e es ih =>
    rw [EverySplit, ih]
    constructor
    · rintro ⟨hhead, hrest⟩ es₁ e' es₂ h
      cases es₁ with
      | nil =>
        obtain ⟨rfl, rfl⟩ := List.cons.inj h
        rwa [List.append_nil]
      | cons x es₁ =>
        obtain ⟨rfl, htail⟩ := List.cons.inj h
        have hsplit := hrest es₁ e' es₂ htail
        rwa [List.append_assoc] at hsplit
    · intro h
      refine ⟨?_, fun es₁ e' es₂ heq => ?_⟩
      · have hhead := h [] e es rfl
        rwa [List.append_nil] at hhead
      · rw [List.append_assoc]
        exact h (e :: es₁) e' es₂ (congrArg (e :: ·) heq)

instance everySplitDecidable [∀ pre e es, Decidable (P pre e es)] : ∀ pre es, Decidable (EverySplit P pre es)
  | _, [] => instDecidableTrue
  | pre, e :: es =>
    have := everySplitDecidable (pre ++ [e]) es
    inferInstanceAs (Decidable (_ ∧ _))

/-- A condition on what is before a poll. -/
def Event.OnPoll (P : Nat → Prop) : Event → Prop
  | .arrive _ _ => True
  | .poll now => P now

/-- A condition on an arrival. -/
def Event.OnArrive (P : Nat → Nat → Prop) : Event → Prop
  | .arrive n t => P n t
  | .poll _ => True

instance (P : Nat → Prop) [DecidablePred P] : ∀ e : Event, Decidable (e.OnPoll P)
  | .arrive _ _ => instDecidableTrue
  | .poll now => inferInstanceAs (Decidable (P now))

instance (P : Nat → Nat → Prop) [∀ n t, Decidable (P n t)] : ∀ e : Event, Decidable (e.OnArrive P)
  | .arrive n t => inferInstanceAs (Decidable (P n t))
  | .poll _ => instDecidableTrue

theorem onPoll_iff {P : List Event → Nat → List Event → Prop} (es : List Event) :
    EverySplit (fun es₁ e es₂ => e.OnPoll fun now => P es₁ now es₂) [] es ↔
      ∀ es₁ now es₂, es = es₁ ++ .poll now :: es₂ → P es₁ now es₂ := by
  rw [everySplit_iff]
  constructor
  · exact fun h es₁ now es₂ heq => h es₁ (.poll now) es₂ heq
  · intro h es₁ e es₂ heq
    cases e with
    | arrive n t => trivial
    | poll now => exact h es₁ now es₂ heq

theorem onArrive_iff {P : List Event → Nat → Nat → List Event → Prop} (es : List Event) :
    EverySplit (fun es₁ e es₂ => e.OnArrive fun n t => P es₁ n t es₂) [] es ↔
      ∀ es₁ n t es₂, es = es₁ ++ .arrive n t :: es₂ → P es₁ n t es₂ := by
  rw [everySplit_iff]
  constructor
  · exact fun h es₁ n t es₂ heq => h es₁ (.arrive n t) es₂ heq
  · intro h es₁ e es₂ heq
    cases e with
    | arrive n t => exact h es₁ n t es₂ heq
    | poll now => trivial

/-- No poll comes between the first arrival and that of place 0. -/
def BaseFirst (es : List Event) : Prop :=
  EverySplit (fun es₁ e _ => e.OnPoll fun _ => arrivals es₁ ≠ [] → 0 ∈ arrivals es₁) [] es

instance (es : List Event) : Decidable (BaseFirst es) := inferInstanceAs (Decidable (EverySplit _ _ _))

/-- Of what comes behind the arrival of place `n` at `t`, nothing that precedes it comes once that was held for `hold`. -/
def NoneLate (hold n t : Nat) (es : List Event) : Prop :=
  EverySplit (fun _ e es₃ => e.OnPoll fun now => ∀ m ∈ arrivals es₃, m < n → now - t < hold) [] es

instance (hold n t : Nat) (es : List Event) : Decidable (NoneLate hold n t es) :=
  inferInstanceAs (Decidable (EverySplit _ _ _))

/-- All that precedes place `n`, which arrives at `t` between `es₁` and `es`, is there once that was held for `hold`. -/
def AllThere (hold n t : Nat) (es₁ es : List Event) : Prop :=
  EverySplit (fun es₂ e _ => e.OnPoll fun now =>
    ∀ m ∈ List.range n, m ∈ arrivals es₁ ∨ m ∈ arrivals es₂ ∨ now - t < hold) [] es

instance (hold n t : Nat) (es₁ es : List Event) : Decidable (AllThere hold n t es₁ es) :=
  inferInstanceAs (Decidable (EverySplit _ _ _))

theorem prompt_iff {es : List Event} : Prompt hold es ↔ (arrivals es).Nodup ∧ BaseFirst es ∧
    EverySplit (fun _ e es₂ => e.OnArrive fun n t => NoneLate hold n t es₂) [] es := by
  simp only [BaseFirst, NoneLate, onPoll_iff, onArrive_iff]
  constructor
  · intro h
    exact ⟨h.nodup, h.first, fun es₁ n t rest heq es₂ now es₃ hrest => h.within es₁ n t es₂ now es₃ (hrest ▸ heq)⟩
  · rintro ⟨hnodup, hfirst, hwithin⟩
    exact ⟨hnodup, hfirst, fun es₁ n t es₂ now es₃ heq => hwithin es₁ n t _ heq es₂ now es₃ rfl⟩

theorem gapless_iff {es : List Event} : Gapless hold es ↔ (arrivals es).Nodup ∧ BaseFirst es ∧
    EverySplit (fun es₁ e es₂ => e.OnArrive fun n t => AllThere hold n t es₁ es₂) [] es := by
  simp only [BaseFirst, AllThere, onPoll_iff, onArrive_iff, List.mem_range]
  constructor
  · intro h
    exact ⟨h.nodup, h.first, fun es₁ n t rest heq es₂ now es₃ hrest => h.within es₁ n t es₂ now es₃ (hrest ▸ heq)⟩
  · rintro ⟨hnodup, hfirst, hwithin⟩
    exact ⟨hnodup, hfirst, fun es₁ n t es₂ now es₃ heq => hwithin es₁ n t _ heq es₂ now es₃ rfl⟩

instance (es : List Event) : Decidable (Prompt hold es) := decidable_of_iff _ prompt_iff.symm

instance (es : List Event) : Decidable (Gapless hold es) := decidable_of_iff _ gapless_iff.symm

end Splits

end Jitter
