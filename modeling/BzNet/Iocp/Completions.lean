import BzNet.Iocp.Core
import BzNet.Reorder.HoldWindow
import Mathlib.Data.Multiset.AddSub

/-!
# What becomes of a completion

The completions that the hooked call takes off the port, against those it returns to the game.

* `WindowsBounded` : no hold window exceeds the ceiling, so whatever has waited that long is ready;
* `RoundStep` : everything one round of the loop can do, with `iocpRound_step`; what follows is read off it;
* `RoundDrops`, `IocpTidyRun` : the rounds that throw a packet away, and the runs without them in which the
  watchdog does not trip;
* `Books` : dequeued and held before is returned, held after, or lost, and what is lost only untidily.
-/

namespace BzNet

variable {cfg : ReorderCfg} {c : ReorderCtx} {s : IocpState}

/-! ## Windows -/

/-- No hold window exceeds the ceiling of the configuration. -/
structure WindowsBounded (cfg : ReorderCfg) (c : ReorderCtx) : Prop where
  cfg_eq : c.cfg = cfg
  win : ∀ i, (c.tbl i).winMs ≤ cfg.winMaxMs

theorem reorderInit_bounded (cfg : ReorderCfg) : WindowsBounded cfg (reorderInit cfg) := ⟨rfl, fun _ => Nat.zero_le _⟩

theorem WindowsBounded.put (h : WindowsBounded cfg c) (i : Nat) {pb : PeerBuf} (hpb : pb.winMs ≤ cfg.winMaxMs)
    (st : ReorderStats) : WindowsBounded cfg { c with tbl := Function.update c.tbl i pb, stats := st } where
  cfg_eq := h.cfg_eq
  win j := by
    by_cases hji : j = i
    · subst hji
      simp only [Function.update_self]
      exact hpb
    · simp only [Function.update_of_ne hji]
      exact h.win j

theorem WindowsBounded.getPeer (h : WindowsBounded cfg c) {a : SockAddr} {now : U64} {c' : ReorderCtx} {i : Nat}
    (hget : reorderGetPeer c a now = some (c', i)) : WindowsBounded cfg c' := by
  unfold reorderGetPeer at hget
  have hfresh : (reorderFresh c.cfg (reorderKey a) now).winMs ≤ cfg.winMaxMs :=
    h.cfg_eq ▸ (reorderFresh_windowOk c.cfg (reorderKey a) now).ceiling
  dsimp only at hget
  split at hget
  · cases hget
    have htouch : (KeyedRecord.touch now (c.tbl i) : PeerBuf).winMs ≤ cfg.winMaxMs := h.win i
    exact h.put i htouch c.stats
  · cases hget
    exact h.put i hfresh c.stats
  · split at hget
    · cases hget
    · cases hget
      exact h.put i hfresh _

theorem WindowsBounded.note (h : WindowsBounded cfg c) (i : Nat) (seq : U32) (ts now : U64) (kind : DeliverKind) :
    WindowsBounded cfg (iocpNote c i seq ts now kind) := by
  refine h.put i ?_ _
  rw [(reorderNoteDelivery_sameWindow _ _ _ _).winMs]
  exact h.win i

theorem WindowsBounded.peer (h : WindowsBounded cfg c) (src : SockAddr) (now : U64) :
    WindowsBounded cfg (iocpPeer c src now).1 := by
  unfold iocpPeer
  split
  · exact h
  · next hget => exact h.getPeer hget

theorem WindowsBounded.holdWindow (h : WindowsBounded cfg c) (src : SockAddr) (now : U64) :
    iocpHoldWindow (iocpPeer c src now).1.cfg (iocpPeer c src now).2 ≤ cfg.winMaxMs := by
  have hcap : ∀ w : U32, w ≤ cfg.winMaxMs →
      (if cfg.maxHoldMs ≠ 0 ∧ w > cfg.maxHoldMs then cfg.maxHoldMs else w) ≤ cfg.winMaxMs := by
    intro w hw
    split
    · next hlt => exact Nat.le_of_lt (Nat.lt_of_lt_of_le hlt.2 hw)
    · exact hw
  rw [(h.peer src now).cfg_eq]
  unfold iocpPeer
  cases hget : reorderGetPeer c src now with
  | none => exact hcap _ cfg.win_le
  | some p => exact hcap _ ((h.getPeer hget).win p.2)

/-! ## The table of held completions -/

/-- What is held back from the game. -/
def heldOf (s : IocpState) : Multiset Completion :=
  ↑((Slots.held IocpHeld.used kIocpHoldCap s.held).map IocpHeld.completion)

def HeldAt (s : IocpState) (i : Nat) : Prop := i < kIocpHoldCap ∧ (s.held i).used = true

theorem heldOf_init (reorder : Bool) (cfg : ReorderCfg) : heldOf (iocpInit reorder cfg) = 0 := rfl

theorem card_heldOf_le (s : IocpState) : Multiset.card (heldOf s) ≤ kIocpHoldCap := by
  unfold heldOf Slots.held
  rw [Multiset.coe_card, List.length_map]
  refine (List.length_filter_le _ _).trans ?_
  simp

theorem HeldAt.mem {i : Nat} (h : HeldAt s i) : (s.held i).completion ∈ heldOf s := by
  unfold heldOf
  rw [Multiset.mem_coe]
  exact List.mem_map_of_mem (Slots.mem_held_of h.1 h.2)

theorem heldOf_eq_zero : heldOf s = 0 ↔ ∀ i, ¬ HeldAt s i := by
  constructor
  · intro h0 i hi
    have hmem := hi.mem
    rw [h0] at hmem
    exact absurd hmem (Multiset.notMem_zero _)
  · intro hno
    refine Multiset.eq_zero_of_forall_notMem fun a ha => ?_
    unfold heldOf at ha
    rw [Multiset.mem_coe, List.mem_map] at ha
    obtain ⟨h, hh, -⟩ := ha
    obtain ⟨i, hi, rfl, hu⟩ := Slots.mem_held.mp hh
    exact hno i ⟨hi, hu⟩

theorem heldOf_free {t : IocpState} {i : Nat} (hi : HeldAt s i)
    (ht : t.held = Function.update s.held i { s.held i with used := false }) :
    heldOf s = (s.held i).completion ::ₘ heldOf t := by
  unfold heldOf
  rw [ht, Multiset.cons_coe, ← List.map_cons]
  exact Multiset.coe_eq_coe.mpr ((Slots.held_free hi.1 hi.2 rfl).map _)

theorem heldOf_fill {t : IocpState} {i : Nat} {h : IocpHeld} (hi : i < kIocpHoldCap) (hfree : (s.held i).used = false)
    (hu : h.used = true) (ht : t.held = Function.update s.held i h) : heldOf t = h.completion ::ₘ heldOf s := by
  unfold heldOf
  rw [ht, Multiset.cons_coe, ← List.map_cons]
  exact Multiset.coe_eq_coe.mpr ((Slots.held_fill hi hfree hu).map _)

theorem heldOf_congr {t : IocpState} (ht : t.held = s.held) : heldOf t = heldOf s := by
  unfold heldOf
  rw [ht]

/-! ## What the pieces of a round do -/

/-- What every piece of a round leaves alone. -/
structure RoundFrame (cfg : ReorderCfg) (s t : IocpState) : Prop where
  reorder : t.reorder = s.reorder
  disabled : t.disabled = s.disabled
  rx : WindowsBounded cfg t.rx

/-- The completion at place `i` has waited as long as any window can be. -/
def Ripe (cfg : ReorderCfg) (s : IocpState) (now : U64) (i : Nat) : Prop :=
  cfg.winMaxMs.toNat ≤ (now - (s.held i).ts).toNat

theorem iocpScan_free {held : Nat → IocpHeld} {i : Nat} (hu : (held i).used = false) (now : U64) (is : List Nat)
    (oldest : Option Nat) : iocpScan held now (i :: is) c oldest = iocpScan held now is c oldest := by
  rw [iocpScan]
  simp only [hu, Bool.not_false, if_true]

theorem iocpScan_used {held : Nat → IocpHeld} {i : Nat} (hu : (held i).used = true) (now : U64) (is : List Nat)
    (oldest : Option Nat) : iocpScan held now (i :: is) c oldest =
      let p := iocpPeer c (held i).src now
      if reorderIsSuccessor p.2 (held i).seq then (p.1, some (i, .inOrder))
      else iocpScan held now is p.1 (if (iocpHoldWindow p.1.cfg p.2).toNat ≤ (now - (held i).ts).toNat ∧
        (oldest.all fun o => decide ((held i).ts < (held o).ts)) = true then some i else oldest) := by
  rw [iocpScan]
  simp only [hu, Bool.not_true, Bool.false_eq_true, if_false]

/-- The scan picks a completion of the table, and passes none that is ripe. -/
theorem iocpScan_spec {held : Nat → IocpHeld} {now : U64} {P : Nat → Prop} {is : List Nat}
    (h : WindowsBounded cfg c) {oldest : Option Nat} (hold : ∀ o ∈ oldest, P o)
    (his : ∀ i ∈ is, (held i).used = true → P i) :
    WindowsBounded cfg (iocpScan held now is c oldest).1 ∧
      (∀ p ∈ (iocpScan held now is c oldest).2, P p.1) ∧
      ((iocpScan held now is c oldest).2 = none → oldest = none ∧
        ∀ i ∈ is, (held i).used = true → (now - (held i).ts).toNat < cfg.winMaxMs.toNat) := by
  induction is generalizing c oldest with
  | nil =>
    refine ⟨h, ?_, ?_⟩
    · intro p hp
      obtain ⟨o, ho, rfl⟩ := Option.map_eq_some_iff.mp hp
      exact hold o ho
    · intro hnone
      exact ⟨Option.map_eq_none_iff.mp hnone, fun i hi => absurd hi List.not_mem_nil⟩
  | cons i is ih =>
    have his' : ∀ j ∈ is, (held j).used = true → P j := fun j hj => his j (List.mem_cons_of_mem _ hj)
    cases hu : (held i).used with
    | false =>
      rw [iocpScan_free hu]
      obtain ⟨hb, hp, hn⟩ := ih h hold his'
      refine ⟨hb, hp, fun hnone => ⟨(hn hnone).1, ?_⟩⟩
      intro j hj hju
      rcases List.mem_cons.mp hj with rfl | hj
      · rw [hu] at hju
        cases hju
      · exact (hn hnone).2 j hj hju
    | true =>
      have hP := his i List.mem_cons_self hu
      have hb := h.peer (held i).src now
      have hle := h.holdWindow (held i).src now
      rw [iocpScan_used hu]
      dsimp only
      generalize iocpPeer c (held i).src now = p at hb hle ⊢
      split
      · refine ⟨hb, ?_, fun hnone => absurd hnone (Option.some_ne_none _)⟩
        rintro _ ⟨⟩
        exact hP
      · have hold' : ∀ o ∈ (if (iocpHoldWindow p.1.cfg p.2).toNat ≤ (now - (held i).ts).toNat ∧
            (oldest.all fun o => decide ((held i).ts < (held o).ts)) = true then some i else oldest), P o := by
          intro o ho
          split at ho
          · cases ho
            exact hP
          · exact hold o ho
        obtain ⟨hb', hp', hn'⟩ := ih hb hold' his'
        refine ⟨hb', hp', fun hnone => ?_⟩
        obtain ⟨hkeep, hrest⟩ := hn' hnone
        have hsplit : oldest = none ∧ (now - (held i).ts).toNat < cfg.winMaxMs.toNat := by
          split at hkeep
          · cases hkeep
          · next hno =>
            subst hkeep
            refine ⟨rfl, ?_⟩
            simp only [Option.all_none, and_true, Nat.not_le] at hno
            exact Nat.lt_of_lt_of_le hno hle
        refine ⟨hsplit.1, fun j hj hju => ?_⟩
        rcases List.mem_cons.mp hj with rfl | hj
        · exact hsplit.2
        · exact hrest j hj hju

theorem iocpPickReady_spec (h : WindowsBounded cfg s.rx) (now : U64) :
    WindowsBounded cfg (iocpPickReady s now).1 ∧ (∀ p ∈ (iocpPickReady s now).2, HeldAt s p.1) ∧
      ((iocpPickReady s now).2 = none → ∀ i, HeldAt s i → ¬ Ripe cfg s now i) := by
  have hspec := @iocpScan_spec cfg s.rx s.held now (HeldAt s) (List.range kIocpHoldCap) h none
    (fun o ho => by cases ho) fun i hi hu => ⟨List.mem_range.mp hi, hu⟩
  refine ⟨hspec.1, hspec.2.1, fun hnone i hi => ?_⟩
  exact Nat.not_le.mpr ((hspec.2.2 hnone).2 i (List.mem_range.mpr hi.1) hi.2)

/-- Handing a held completion back frees its place and no other. -/
theorem iocpRelease_spec (h : WindowsBounded cfg s.rx) (i : Nat) (now : U64) (kind : DeliverKind) :
    RoundFrame cfg s (iocpRelease s i now kind).1 ∧ (iocpRelease s i now kind).2 = (s.held i).completion ∧
      (iocpRelease s i now kind).1.held = Function.update s.held i { s.held i with used := false } := by
  refine ⟨⟨rfl, rfl, ?_⟩, rfl, rfl⟩
  unfold iocpRelease
  dsimp only
  split
  · exact h
  · next hget => exact (h.getPeer hget).note _ _ _ _ kind

/-- What becomes of a successful completion: it is passed on and the table stays as it is, or it goes into a
free place. -/
inductive ArriveEnd (cfg : ReorderCfg) (s : IocpState) (d : Completion) : IocpState × Bool → Prop
  | pass (t : IocpState) : RoundFrame cfg s t → t.held = s.held → ArriveEnd cfg s d (t, false)
  | defer (t : IocpState) (k : Nat) (h : IocpHeld) : RoundFrame cfg s t → k < kIocpHoldCap →
      (s.held k).used = false → h.used = true → h.completion = d → t.held = Function.update s.held k h →
      ArriveEnd cfg s d (t, true)

theorem iocpArrive_step (h : WindowsBounded cfg s.rx) {a : PortAnswer} (hok : a.completion.ok = true) (now : U64) :
    ArriveEnd cfg s a.completion (iocpArrive s a now) := by
  unfold iocpArrive
  split
  · exact .pass s ⟨rfl, rfl, h⟩ rfl
  · next r _ =>
    split
    · exact .pass _ ⟨rfl, rfl, h⟩ rfl
    · dsimp only
      split
      · exact .pass _ ⟨rfl, rfl, h⟩ rfl
      · next c i hget =>
        have hb : WindowsBounded cfg c := h.getPeer hget
        split
        · exact .pass _ ⟨rfl, rfl, hb.note i _ now now _⟩ rfl
        · split
          · exact .pass _ ⟨rfl, rfl, ⟨hb.cfg_eq, hb.win⟩⟩ rfl
          · have hadapt : WindowsBounded cfg { c with
                tbl := Function.update c.tbl i
                  (reorderAdaptOnArrival c.cfg (c.tbl i) (reorderSeqFromPayload a.data) now) } := by
              refine hb.put i ?_ c.stats
              rw [hb.cfg_eq]
              exact reorderAdaptOnArrival_winMs (hb.win i) _ now
            split
            · exact .pass _ ⟨rfl, rfl, hadapt.note i _ now now .forced⟩ rfl
            · next k hfind =>
              have hfree : (s.held k).used = false := by
                show ((s.forget r).held k).used = false
                simpa using List.find?_some hfind
              refine .defer _ k _ ⟨rfl, rfl, hadapt⟩ (List.mem_range.mp (List.mem_of_find?_eq_some hfind)) hfree rfl ?_ rfl
              show (⟨true, a.completion.bytes, a.completion.key, a.completion.ov⟩ : Completion) = a.completion
              rw [← hok]

/-! ## One round -/

/-- The round throws a packet away: with nothing ready the port hands out a success that carries no overlapped,
and something held goes out in its place. -/
def RoundDrops (s : IocpState) (r : IocpRound) : Prop :=
  (iocpPickReady s r.nowMs).2 = none ∧ r.answer.completion.ok = true ∧ r.answer.completion.ov = 0 ∧
    iocpPickOldest s ≠ none

/-- **A round, by cases**: something held is ready; the port has nothing or a packet without an overlapped, and
the oldest held goes out; what the port answers is passed on; or it is deferred. -/
inductive RoundStep (cfg : ReorderCfg) (s : IocpState) (r : IocpRound) : RoundEnd → Prop
  | ready (i : Nat) (t : IocpState) : RoundFrame cfg s t → HeldAt s i →
      t.held = Function.update s.held i { s.held i with used := false } → ¬ RoundDrops s r →
      RoundStep cfg s r (.returns t ⟨[], some (s.held i).completion⟩)
  | oldest (i : Nat) (t : IocpState) : RoundFrame cfg s t → HeldAt s i →
      t.held = Function.update s.held i { s.held i with used := false } →
      (RoundDrops s r ↔ r.answer.dequeued ≠ none) → (∀ j, HeldAt s j → ¬ Ripe cfg s r.nowMs j) →
      RoundStep cfg s r (.returns t ⟨r.answer.dequeued.toList, some (s.held i).completion⟩)
  | pass (t : IocpState) : RoundFrame cfg s t → t.held = s.held → ¬ RoundDrops s r →
      (∀ j, HeldAt s j → ¬ Ripe cfg s r.nowMs j) →
      RoundStep cfg s r (.returns t ⟨r.answer.dequeued.toList, r.answer.dequeued⟩)
  | defer (k : Nat) (h : IocpHeld) (t : IocpState) : RoundFrame cfg s t → k < kIocpHoldCap →
      (s.held k).used = false → h.used = true → h.completion = r.answer.completion →
      t.held = Function.update s.held k h → ¬ RoundDrops s r → (∀ j, HeldAt s j → ¬ Ripe cfg s r.nowMs j) →
      RoundStep cfg s r (.defers t r.answer.completion)

theorem dequeued_of_ov {a : PortAnswer} (h : a.completion.ov ≠ 0) : a.dequeued = some a.completion := by
  unfold PortAnswer.dequeued
  exact if_pos (Or.inr h)

theorem iocpRound_step (h : WindowsBounded cfg s.rx) (r : IocpRound) : RoundStep cfg s r (iocpRound s r) := by
  obtain ⟨hrx, hpick, hnone⟩ := iocpPickReady_spec h r.nowMs
  unfold iocpRound
  dsimp only
  split
  · next i kind hready =>
    have hrel := iocpRelease_spec (s := { s with rx := (iocpPickReady s r.nowMs).1 }) hrx i r.nowMs kind
    have hno : ¬ RoundDrops s r := fun hd => by
      rw [hd.1] at hready
      cases hready
    rw [hrel.2.1]
    refine .ready i _ ?_ (hpick _ hready) ?_ hno
    · split <;> exact ⟨hrel.1.reorder, hrel.1.disabled, hrel.1.rx⟩
    · split <;> exact hrel.2.2
  · next hready =>
    have hunripe := hnone hready
    split
    · next hov =>
      split
      · next i hold =>
        have hold : iocpPickOldest s = some i := hold
        have hrel := iocpRelease_spec (s := { s with rx := (iocpPickReady s r.nowMs).1 }) hrx i r.afterMs .forced
        rw [hrel.2.1]
        refine .oldest i _ ⟨hrel.1.reorder, hrel.1.disabled, hrel.1.rx⟩ ?_ hrel.2.2 ?_ hunripe
        · exact Slots.best_some hold
        · unfold RoundDrops PortAnswer.dequeued
          simp [hready, hov, hold]
      · next hold =>
        have hold : iocpPickOldest s = none := hold
        exact .pass _ ⟨rfl, rfl, hrx⟩ rfl (fun hd => hd.2.2.2 hold) hunripe
    · next hov =>
      have hno : ¬ RoundDrops s r := fun hd => hov hd.2.2.1
      have hpass : ∀ t, RoundFrame cfg s t → t.held = s.held →
          RoundStep cfg s r (.returns t ⟨[r.answer.completion], some r.answer.completion⟩) := by
        intro t hf ht
        have h := RoundStep.pass t hf ht hno hunripe
        rwa [dequeued_of_ov hov] at h
      split
      · refine hpass _ ?_ ?_
        · split <;> exact ⟨rfl, rfl, hrx⟩
        · split <;> rfl
      · next hok =>
        have hok : r.answer.completion.ok = true := by simpa using hok
        have harr := iocpArrive_step (s := { s with rx := (iocpPickReady s r.nowMs).1 }) hrx hok r.afterMs
        generalize iocpArrive { s with rx := (iocpPickReady s r.nowMs).1 } r.answer r.afterMs = e at harr ⊢
        cases harr with
        | pass t hf ht =>
          exact hpass t ⟨hf.reorder, hf.disabled, hf.rx⟩ ht
        | defer t k hh hf hk hfree hu hc ht =>
          exact .defer k hh t ⟨hf.reorder, hf.disabled, hf.rx⟩ hk hfree hu hc ht hno hunripe

/-! ## Tidy runs -/

/-- From round `k` on no round throws a packet away, and after no deferral is the clock past the watchdog. -/
def IocpTidyLoop (c : IocpCall) (budget : U32) : Nat → Nat → IocpState → Prop
  | 0, _, _ => True
  | fuel + 1, k, s => ¬ RoundDrops s (c.rounds k) ∧
    match iocpRound s (c.rounds k) with
    | .returns _ _ => True
    | .defers t _ => ¬ iocpOverrun c budget (c.rounds k) ∧ IocpTidyLoop c budget fuel (k + 1) t

def IocpTidyOp (s : IocpState) : IocpOp → Prop
  | .track _ _ => True
  | .call c => s.reorder = true → s.disabled = false → IocpTidyLoop c (iocpBudget s c.timeout) (kIocpHoldCap + 1) 0 s

def IocpTidyRun : IocpState → List IocpOp → Prop
  | _, [] => True
  | s, op :: ops => IocpTidyOp s op ∧ IocpTidyRun (iocpStep s op).1 ops

/-! ## The books -/

/-- What came in between `s` and `t` went out or is held. Losses and the watchdog's latch come from what is not
tidy, and only from that. -/
def Books (s t : IocpState) (dequeued returned : Multiset Completion) (tidy : Prop) : Prop :=
  ∃ lost, dequeued + heldOf s = returned + heldOf t + lost ∧ (tidy → lost = 0 ∧ t.disabled = s.disabled) ∧
    (¬ tidy → lost ≠ 0 ∨ t.disabled = true)

theorem Books.refl (s : IocpState) : Books s s 0 0 True :=
  ⟨0, by simp, fun _ => ⟨rfl, rfl⟩, fun h => absurd trivial h⟩

/-- Two stretches in a row; the latch stays where it is. -/
theorem Books.trans {s t u : IocpState} {d d' r r' : Multiset Completion} {p q : Prop} (h : Books s t d r p)
    (h' : Books t u d' r' q) (hlatch : t.disabled = true → u.disabled = true) :
    Books s u (d + d') (r + r') (p ∧ q) := by
  obtain ⟨lost, hbal, htidy, huntidy⟩ := h
  obtain ⟨lost', hbal', htidy', huntidy'⟩ := h'
  refine ⟨lost + lost', ?_, ?_, ?_⟩
  · calc d + d' + heldOf s = d' + (d + heldOf s) := by abel
      _ = d' + (r + heldOf t + lost) := by rw [hbal]
      _ = r + lost + (d' + heldOf t) := by abel
      _ = r + lost + (r' + heldOf u + lost') := by rw [hbal']
      _ = r + r' + heldOf u + (lost + lost') := by abel
  · rintro ⟨hp, hq⟩
    rw [(htidy hp).1, (htidy' hq).1]
    exact ⟨rfl, (htidy' hq).2.trans (htidy hp).2⟩
  · intro hpq
    by_cases hp : p
    · rcases huntidy' (fun hq => hpq ⟨hp, hq⟩) with hlost | hdis
      · exact Or.inl fun h0 => hlost (Multiset.le_zero.mp (h0 ▸ Multiset.le_add_left lost' lost))
      · exact Or.inr hdis
    · rcases huntidy hp with hlost | hdis
      · exact Or.inl fun h0 => hlost (Multiset.le_zero.mp (h0 ▸ Multiset.le_add_right lost lost'))
      · exact Or.inr (hlatch hdis)

theorem RoundStep.books {r : IocpRound} {t : IocpState} {o : IocpOut} (h : RoundStep cfg s r (.returns t o)) :
    RoundFrame cfg s t ∧ Books s t ↑o.dequeued ↑o.returned.toList (¬ RoundDrops s r) := by
  cases h with
  | ready i t hf hi ht hno =>
    refine ⟨hf, 0, ?_, fun _ => ⟨rfl, hf.disabled⟩, fun h => absurd hno h⟩
    rw [heldOf_free hi ht]
    simp
  | oldest i t hf hi ht hdrop _ =>
    refine ⟨hf, ↑r.answer.dequeued.toList, ?_, fun hno => ⟨?_, hf.disabled⟩, fun h => Or.inl ?_⟩
    · rw [heldOf_free hi ht]
      simp only [Option.toList_some, Multiset.coe_singleton, Multiset.singleton_add]
      rw [add_comm]
    · have hnone : r.answer.dequeued = none := by
        by_contra hsome
        exact hno (hdrop.mpr hsome)
      rw [hnone]
      rfl
    · obtain ⟨d, hd⟩ := Option.ne_none_iff_exists'.mp (hdrop.mp (not_not.mp h))
      rw [hd]
      exact Multiset.singleton_ne_zero d
  | pass t hf ht hno _ =>
    refine ⟨hf, 0, ?_, fun _ => ⟨rfl, hf.disabled⟩, fun h => absurd hno h⟩
    rw [heldOf_congr ht, add_zero]

theorem RoundStep.deferred {r : IocpRound} {t : IocpState} {d : Completion} (h : RoundStep cfg s r (.defers t d)) :
    RoundFrame cfg s t ∧ heldOf t = d ::ₘ heldOf s ∧ ¬ RoundDrops s r := by
  cases h with
  | defer k hh t hf hk hfree hu hc ht hno _ =>
    refine ⟨hf, ?_, hno⟩
    rw [← hc]
    exact heldOf_fill hk hfree hu ht

/-- **The loop returns**, and its books are right. -/
theorem iocpLoop_returns (call : IocpCall) (budget : U32) {fuel : Nat} (k : Nat) (h : WindowsBounded cfg s.rx)
    (hfuel : kIocpHoldCap < Multiset.card (heldOf s) + fuel) :
    ∃ t o, iocpLoop call budget fuel k s = some (t, o) ∧ t.reorder = s.reorder ∧ WindowsBounded cfg t.rx ∧
      Books s t ↑o.dequeued ↑o.returned.toList (IocpTidyLoop call budget fuel k s) ∧
      (s.disabled = true → t.disabled = true) ∧ (t.disabled = true → s.disabled = true ∨ heldOf t ≠ 0) := by
  induction fuel generalizing k s with
  | zero =>
    have hle := card_heldOf_le s
    omega
  | succ fuel ih =>
    have hround := iocpRound_step h (call.rounds k)
    simp only [iocpLoop, IocpTidyLoop]
    generalize iocpRound s (call.rounds k) = e at hround ⊢
    cases e with
    | returns t o =>
      obtain ⟨hf, hbooks⟩ := hround.books
      refine ⟨t, o, rfl, hf.reorder, hf.rx, ?_, fun hd => hf.disabled.trans hd, fun hd => Or.inl (hf.disabled ▸ hd)⟩
      simpa using hbooks
    | defers t d =>
      obtain ⟨hf, hheld, hno⟩ := hround.deferred
      dsimp only
      split
      · next hover =>
        -- the watchdog trips: what the loop has deferred stays held
        refine ⟨_, _, rfl, hf.reorder, hf.rx, ⟨0, ?_, fun hp => absurd hover hp.2.1, fun _ => Or.inr rfl⟩,
          fun _ => rfl, fun _ => Or.inr ?_⟩
        · show (↑(d :: call.last.dequeued.toList) : Multiset Completion) + heldOf s =
            ↑call.last.dequeued.toList + heldOf t + 0
          rw [hheld, ← Multiset.cons_coe, Multiset.cons_add, Multiset.add_cons, add_zero]
        · show heldOf t ≠ 0
          rw [hheld]
          exact Multiset.cons_ne_zero
      · next hover =>
        have hcard : Multiset.card (heldOf t) = Multiset.card (heldOf s) + 1 := by rw [hheld, Multiset.card_cons]
        obtain ⟨u, o, hloop, hreorder, hrx, hbooks, hlatch, hdis⟩ := ih (k + 1) hf.rx (by omega)
        rw [hloop]
        have hfirst : Books s t {d} 0 (¬ RoundDrops s (call.rounds k)) := by
          refine ⟨0, ?_, fun _ => ⟨rfl, hf.disabled⟩, fun h => absurd hno h⟩
          rw [hheld, Multiset.singleton_add, zero_add, add_zero]
        refine ⟨u, _, rfl, hreorder.trans hf.reorder, hrx, ?_, fun hd => hlatch (hf.disabled.trans hd), fun hd => ?_⟩
        · have hboth := hfirst.trans hbooks hlatch
          rw [zero_add, Multiset.singleton_add, Multiset.cons_coe] at hboth
          simpa [hover] using hboth
        · rcases hdis hd with hd | hd
          · exact Or.inl (hf.disabled ▸ hd)
          · exact Or.inr hd

/-! ## A run -/

/-- What holds at every point of a run: a path that is off holds nothing, and one that was disabled has left
something behind. -/
structure IocpInv (cfg : ReorderCfg) (s : IocpState) : Prop where
  rx : WindowsBounded cfg s.rx
  off : s.reorder = false → heldOf s = 0
  left : s.disabled = true → heldOf s ≠ 0

theorem iocpInit_inv (reorder : Bool) (cfg : ReorderCfg) : IocpInv cfg (iocpInit reorder cfg) where
  rx := reorderInit_bounded cfg
  off _ := rfl
  left h := Bool.noConfusion h

theorem iocpCall_bypass {call : IocpCall} (h : s.reorder = false ∨ s.disabled = true) :
    iocpCall s call = (s, ⟨call.last.dequeued.toList, call.last.dequeued⟩) := by
  unfold iocpCall
  rcases h with h | h <;> simp [h]

theorem iocpTrackRecv_frame (s : IocpState) (r : IocpRecv) (buffers : Nat) :
    let t := iocpTrackRecv s r buffers
    t.held = s.held ∧ t.rx = s.rx ∧ t.reorder = s.reorder ∧ t.disabled = s.disabled := by
  intro t
  unfold t iocpTrackRecv
  split <;> exact ⟨rfl, rfl, rfl, rfl⟩

theorem iocpStep_books (h : IocpInv cfg s) (op : IocpOp) :
    IocpInv cfg (iocpStep s op).1 ∧ (s.disabled = true → (iocpStep s op).1.disabled = true) ∧
      Books s (iocpStep s op).1 ↑(iocpStep s op).2.dequeued ↑(iocpStep s op).2.returned.toList (IocpTidyOp s op) := by
  cases op with
  | track r buffers =>
    obtain ⟨hheld, hrx, hreorder, hdisabled⟩ := iocpTrackRecv_frame s r buffers
    have hof := heldOf_congr hheld
    refine ⟨⟨hrx ▸ h.rx, fun ho => hof.trans (h.off (hreorder ▸ ho)), fun hd => ?_⟩, fun hd => hdisabled.trans hd,
      0, ?_, fun _ => ⟨rfl, hdisabled⟩, fun hno => absurd trivial hno⟩
    · exact fun h0 => h.left (hdisabled ▸ hd) (hof ▸ h0)
    · show (0 : Multiset Completion) + heldOf s = 0 + heldOf (iocpTrackRecv s r buffers) + 0
      rw [hof, add_zero]
  | call c =>
    simp only [iocpStep]
    by_cases hoff : s.reorder = false ∨ s.disabled = true
    · rw [iocpCall_bypass hoff]
      refine ⟨h, id, 0, (add_zero _).symm, fun _ => ⟨rfl, rfl⟩, fun hno => absurd ?_ hno⟩
      intro hr hd
      rcases hoff with ho | ho
      · exact absurd (ho.symm.trans hr) Bool.false_ne_true
      · exact absurd (hd.symm.trans ho) Bool.false_ne_true
    · rw [not_or, Bool.not_eq_false, Bool.not_eq_true] at hoff
      obtain ⟨hr, hd⟩ := hoff
      obtain ⟨t, o, hloop, hreorder, hrx, hbooks, hlatch, hdis⟩ := iocpLoop_returns c (iocpBudget s c.timeout) 0 h.rx
        (Nat.lt_of_lt_of_le (Nat.lt_succ_self kIocpHoldCap) (Nat.le_add_left _ (Multiset.card (heldOf s))))
      have hcall : iocpCall s c = (t, o) := by
        unfold iocpCall
        rw [if_neg (by simp [hr, hd]), hloop]
        rfl
      rw [hcall]
      refine ⟨⟨hrx, fun ho => ?_, fun htd => ?_⟩, hlatch, ?_⟩
      · exact absurd (ho.symm.trans (hreorder.trans hr)) Bool.false_ne_true
      · exact (hdis htd).resolve_left (by simp [hd])
      · simpa only [IocpTidyOp, hr, hd, forall_const] using hbooks

/-- What the calls of a run take off the port. -/
def dequeuedOf (s : IocpState) (ops : List IocpOp) : List Completion :=
  (Machine.outputs iocpStep s ops).flatMap IocpOut.dequeued

def returnedOf (s : IocpState) (ops : List IocpOp) : List Completion :=
  (Machine.outputs iocpStep s ops).flatMap fun o => o.returned.toList

theorem run_books (h : IocpInv cfg s) (ops : List IocpOp) :
    IocpInv cfg (Machine.final iocpStep s ops) ∧
      (s.disabled = true → (Machine.final iocpStep s ops).disabled = true) ∧
      Books s (Machine.final iocpStep s ops) ↑(dequeuedOf s ops) ↑(returnedOf s ops) (IocpTidyRun s ops) := by
  induction ops generalizing s with
  | nil => exact ⟨h, id, Books.refl s⟩
  | cons op ops ih =>
    obtain ⟨hinv, hlatch, hbooks⟩ := iocpStep_books h op
    obtain ⟨hinv', hlatch', hbooks'⟩ := ih hinv
    refine ⟨hinv', fun hd => hlatch' (hlatch hd), ?_⟩
    have hboth := hbooks.trans hbooks' hlatch'
    rw [Multiset.coe_add, Multiset.coe_add] at hboth
    exact hboth

/-! ## Whether what is held comes out -/

def IocpOp.isCall : IocpOp → Bool
  | .track _ _ => false
  | .call _ => true

/-- Whatever is held comes out in `kIocpHoldCap` calls of the game made once its longest window is over. -/
def Settles (s : IocpState) : Prop :=
  ∀ i, HeldAt s i → ∀ ops : List IocpOp,
    (∀ c, IocpOp.call c ∈ ops → Ripe s.rx.cfg s (c.rounds 0).nowMs i) → kIocpHoldCap ≤ ops.countP IocpOp.isCall →
      (s.held i).completion ∈ returnedOf s ops

/-- A call made when something held is ripe hands one of the held completions over. -/
theorem iocpCall_ripe (h : WindowsBounded cfg s.rx) (hr : s.reorder = true) (hd : s.disabled = false) {c : IocpCall}
    {i : Nat} (hi : HeldAt s i) (hripe : Ripe cfg s (c.rounds 0).nowMs i) :
    ∃ j t, HeldAt s j ∧ iocpCall s c = (t, ⟨[], some (s.held j).completion⟩) ∧ RoundFrame cfg s t ∧
      t.held = Function.update s.held j { s.held j with used := false } := by
  have hcall : iocpCall s c = (iocpLoop c (iocpBudget s c.timeout) (kIocpHoldCap + 1) 0 s).getD (s, ⟨[], none⟩) := by
    unfold iocpCall
    exact if_neg (by simp [hr, hd])
  have hround := iocpRound_step h (c.rounds 0)
  rw [hcall, iocpLoop]
  generalize iocpRound s (c.rounds 0) = e at hround ⊢
  cases hround with
  | ready j t hf hj ht _ => exact ⟨j, t, hj, rfl, hf, ht⟩
  | oldest j t hf hj ht _ hno => exact absurd hripe (hno i hi)
  | pass t hf ht _ hno => exact absurd hripe (hno i hi)
  | defer k hh t hf hk hfree hu hc ht _ hno => exact absurd hripe (hno i hi)

theorem enabled_returns {i : Nat} {ops : List IocpOp} (h : WindowsBounded cfg s.rx) (hr : s.reorder = true)
    (hd : s.disabled = false) (hi : HeldAt s i) (hripe : ∀ c, IocpOp.call c ∈ ops → Ripe cfg s (c.rounds 0).nowMs i)
    (hcalls : Multiset.card (heldOf s) ≤ ops.countP IocpOp.isCall) : (s.held i).completion ∈ returnedOf s ops := by
  induction ops generalizing s with
  | nil =>
    have hpos : 0 < Multiset.card (heldOf s) := Multiset.card_pos_iff_exists_mem.mpr ⟨_, hi.mem⟩
    exact absurd hcalls (by simpa using hpos.ne')
  | cons op ops ih =>
    have htail : ∀ c, IocpOp.call c ∈ ops → Ripe cfg s (c.rounds 0).nowMs i :=
      fun c hc => hripe c (List.mem_cons_of_mem _ hc)
    cases op with
    | track r buffers =>
      obtain ⟨hheld, hrx, hreorder, hdisabled⟩ := iocpTrackRecv_frame s r buffers
      have hrest := ih (s := iocpTrackRecv s r buffers) (hrx ▸ h) (hreorder.trans hr) (hdisabled.trans hd)
        (by unfold HeldAt; rwa [hheld]) (by unfold Ripe; rwa [hheld]) (by
          rw [heldOf_congr hheld]
          simpa [IocpOp.isCall] using hcalls)
      rw [hheld] at hrest
      exact hrest
    | call c =>
      obtain ⟨j, t, hj, hcall, hf, ht⟩ := iocpCall_ripe h hr hd hi (hripe c List.mem_cons_self)
      have hout : returnedOf s (.call c :: ops) = (s.held j).completion :: returnedOf t ops := by
        show _ = [(s.held j).completion] ++ returnedOf t ops
        simp only [returnedOf, Machine.outputs, iocpStep, hcall, List.flatMap_cons, Option.toList_some]
      rw [hout]
      by_cases hij : i = j
      · subst hij
        exact List.mem_cons_self
      · have hkeep : t.held i = s.held i := by rw [ht, Function.update_of_ne hij]
        have hcard : Multiset.card (heldOf s) = Multiset.card (heldOf t) + 1 := by
          rw [heldOf_free hj ht, Multiset.card_cons]
        have hrest := ih (s := t) hf.rx (hf.reorder.trans hr) (hf.disabled.trans hd) (by unfold HeldAt; rwa [hkeep])
          (by unfold Ripe; rwa [hkeep]) (by
            rw [List.countP_cons_of_pos rfl] at hcalls
            omega)
        rw [hkeep] at hrest
        exact List.mem_cons_of_mem _ hrest

theorem enabled_settles (h : IocpInv cfg s) (hd : s.disabled = false) : Settles s := by
  intro i hi ops hripe hcalls
  have hr : s.reorder = true := by
    by_contra hoff
    exact heldOf_eq_zero.mp (h.off (Bool.not_eq_true _ ▸ hoff)) i hi
  rw [h.rx.cfg_eq] at hripe
  exact enabled_returns h.rx hr hd hi hripe ((card_heldOf_le s).trans hcalls)

/-- A call of the game at time `now`, to which the port has nothing to say. -/
def idleCall (now : U64) : IocpCall :=
  let silent : PortAnswer := ⟨⟨false, 0, 0, 0⟩, [], ⟨0, 0, 0⟩⟩
  ⟨0, now, fun _ => ⟨now, silent, now, now⟩, silent⟩

theorem disabled_returns_nothing (hd : s.disabled = true) (now : U64) (n : Nat) :
    returnedOf s (List.replicate n (.call (idleCall now))) = [] := by
  induction n with
  | zero => rfl
  | succ n ih =>
    have hstep : iocpStep s (.call (idleCall now)) = (s, ⟨[], none⟩) := iocpCall_bypass (Or.inr hd)
    rw [List.replicate_succ]
    simp only [returnedOf, Machine.outputs, hstep, List.flatMap_cons, Option.toList_none, List.nil_append]
    exact ih

/-- Once the path is disabled nothing held comes out. -/
theorem disabled_not_settles (hd : s.disabled = true) (hheld : heldOf s ≠ 0) : ¬ Settles s := by
  intro hsettles
  have hex : ∃ i, HeldAt s i := by
    by_contra hno
    exact hheld (heldOf_eq_zero.mpr (not_exists.mp hno))
  obtain ⟨i, hi⟩ := hex
  have hout := hsettles i hi
    (List.replicate kIocpHoldCap (.call (idleCall ((s.held i).ts + s.rx.cfg.winMaxMs.setWidth 64)))) ?_ (by
      rw [List.countP_replicate]
      exact Nat.le_refl _)
  · rw [disabled_returns_nothing hd] at hout
    cases hout
  · intro c hc
    cases List.eq_of_mem_replicate hc
    unfold Ripe idleCall
    dsimp only
    rw [BitVec.add_comm, BitVec.add_sub_cancel, BitVec.toNat_setWidth, Nat.mod_eq_of_lt (by omega)]

/-- **When the game gets every completion back.** What was taken off the port has been returned once or is still
held, and what is held comes out as long as the game keeps calling, exactly when the run is tidy. -/
theorem iocp_exactly_once_iff_tidy (reorder : Bool) (cfg : ReorderCfg) (ops : List IocpOp) :
    ((↑(dequeuedOf (iocpInit reorder cfg) ops) : Multiset Completion) =
        ↑(returnedOf (iocpInit reorder cfg) ops) + heldOf (Machine.final iocpStep (iocpInit reorder cfg) ops) ∧
      Settles (Machine.final iocpStep (iocpInit reorder cfg) ops)) ↔
    IocpTidyRun (iocpInit reorder cfg) ops := by
  obtain ⟨hinv, -, lost, hbal, htidy, huntidy⟩ := run_books (iocpInit_inv reorder cfg) ops
  rw [heldOf_init, add_zero] at hbal
  constructor
  · rintro ⟨heq, hsettles⟩
    by_contra hno
    rcases huntidy hno with hlost | hdis
    · rw [heq] at hbal
      exact hlost (add_eq_left.mp hbal.symm)
    · exact disabled_not_settles hdis (hinv.left hdis) hsettles
  · intro hrun
    obtain ⟨h0, hdis⟩ := htidy hrun
    rw [h0, add_zero] at hbal
    exact ⟨hbal, enabled_settles hinv hdis⟩

/-- The port hands out a packet of `seq` for the receive `ov`. -/
def arrivalAnswer (ov : U64) (seq : U32) : PortAnswer :=
  ⟨⟨true, 18, 0, ov⟩, makePkt false seq 0, ⟨afInet, 0x0100007f, 9000⟩⟩

/-- The game polls with a timeout of 0: the packet after the first one runs ahead, and the clock ticks while it is
put aside. -/
def watchdogRun : List IocpOp :=
  let poll (entered watch : U64) (a : PortAnswer) : IocpOp := .call ⟨0, entered, fun _ => ⟨entered, a, entered, watch⟩,
    ⟨⟨false, 0, 0, 0⟩, [], ⟨0, 0, 0⟩⟩⟩
  [.track ⟨1, true, true⟩ 1, .track ⟨2, true, true⟩ 1, poll 1000 1000 (arrivalAnswer 1 5),
    poll 1000 1001 (arrivalAnswer 2 7)]

/-- The watchdog trips, and the game never gets the packet. -/
theorem iocp_watchdog_strands :
    ¬ ∀ (reorder : Bool) (cfg : ReorderCfg) (ops : List IocpOp),
      (↑(dequeuedOf (iocpInit reorder cfg) ops) : Multiset Completion) =
          ↑(returnedOf (iocpInit reorder cfg) ops) + heldOf (Machine.final iocpStep (iocpInit reorder cfg) ops) ∧
        Settles (Machine.final iocpStep (iocpInit reorder cfg) ops) := by
  intro h
  have hdis : (Machine.final iocpStep (iocpInit true ReorderCfg.default) watchdogRun).disabled = true := by
    decide +kernel
  have hused : ((Machine.final iocpStep (iocpInit true ReorderCfg.default) watchdogRun).held 0).used = true := by
    decide +kernel
  refine disabled_not_settles hdis ?_ (h true ReorderCfg.default watchdogRun).2
  exact fun h0 => heldOf_eq_zero.mp h0 0 ⟨by decide, hused⟩

end BzNet
