import BzNet.Reorder.Order

/-!
# What is ready

* `Due`, `reorderPick_isSome` : the packets that an entry has to hand over now, and that it does;
* `reorder_wouldBlock_honest` : nothing is ready exactly when no live entry has such a packet.
-/

namespace BzNet

open Machine

variable {cfg : ReorderCfg} {pb : PeerBuf} {c : ReorderCtx}

/-! ## What an entry has to hand over -/

/-- How long a packet of this entry is held at most: its window, under the ceiling where there is one. -/
def effectiveWindow (cfg : ReorderCfg) (pb : PeerBuf) : Nat :=
  if cfg.maxHoldMs = 0 then pb.winMs.toNat else min pb.winMs.toNat cfg.maxHoldMs.toNat

def InOrderHeld (cfg : ReorderCfg) (pb : PeerBuf) : Prop :=
  pb.seqInit = true ∧ ∃ s ∈ pb.held cfg, s.seq = seqNext pb.lastSeq

/-- Anything, while there is no cursor. -/
def FirstHeld (cfg : ReorderCfg) (pb : PeerBuf) : Prop := pb.seqInit = false ∧ pb.held cfg ≠ []

def Waited (cfg : ReorderCfg) (pb : PeerBuf) (now : U64) (s : ReorderSlot) : Prop :=
  s.ts ≤ now ∧ effectiveWindow cfg pb ≤ now.toNat - s.ts.toNat

/-- Something has to go out now. -/
def Due (cfg : ReorderCfg) (pb : PeerBuf) (now : U64) : Prop :=
  InOrderHeld cfg pb ∨ FirstHeld cfg pb ∨ ∃ s ∈ pb.held cfg, Waited cfg pb now s

theorem reorderHoldWindow_toNat (cfg : ReorderCfg) (pb : PeerBuf) :
    (reorderHoldWindow cfg pb).toNat = effectiveWindow cfg pb := by
  unfold reorderHoldWindow effectiveWindow
  by_cases h0 : cfg.maxHoldMs = 0
  · rw [if_pos h0, if_neg (fun h => h.1 h0)]
  · rw [if_neg h0]
    split
    · next h => exact (Nat.min_eq_right (Nat.le_of_lt (BitVec.lt_def.mp h.2))).symm
    · next h =>
      have hle : pb.winMs ≤ cfg.maxHoldMs := BitVec.not_lt.mp fun hgt => h ⟨h0, hgt⟩
      exact (Nat.min_eq_left (BitVec.le_def.mp hle)).symm

theorem isAged_iff {now : U64} {i : Nat} :
    pb.isAged cfg now i = true ↔ (pb.slots i).used = true ∧ Waited cfg pb now (pb.slots i) := by
  have hwin : now - (pb.slots i).ts < (reorderHoldWindow cfg pb).setWidth 64 ↔
      Serial.elapsed now (pb.slots i).ts < effectiveWindow cfg pb := by
    rw [BitVec.lt_def, BitVec.toNat_setWidth_of_le (by decide), reorderHoldWindow_toNat]
    rfl
  simp only [PeerBuf.isAged, Bool.and_eq_true, Bool.not_eq_true', decide_eq_false_iff_not, hwin, Waited, and_assoc]
  refine and_congr_right fun _ => ?_
  rw [BitVec.not_lt]
  refine and_congr_right fun hle => ?_
  rw [Serial.elapsed_of_le hle, Nat.not_lt]

/-- **An entry hands something over exactly when something has to go out.** -/
theorem reorderPick_isSome (h : PeerOk cfg pb) (now : U64) :
    (reorderPick cfg pb now).isSome = true ↔ Due cfg pb now := by
  constructor
  · intro hsome
    obtain ⟨⟨i, kind⟩, hpick⟩ := Option.isSome_iff_exists.mp hsome
    obtain ⟨hi, hu, ⟨-, hinit, -⟩ | ⟨-, hinit, hseq⟩ | ⟨-, -, -, haged⟩⟩ := reorderPick_cases hpick
    · exact Or.inr (Or.inl ⟨hinit, List.ne_nil_of_mem (Slots.mem_held_of hi hu)⟩)
    · exact Or.inl ⟨hinit, _, Slots.mem_held_of hi hu, hseq⟩
    · refine Or.inr (Or.inr ⟨_, Slots.mem_held_of hi hu, ?_⟩)
      rcases Option.or_eq_some_iff.mp haged with ha | ⟨-, ha⟩
      · have hc := (Slots.best_some ha).2
        rw [Bool.and_eq_true] at hc
        exact (isAged_iff.mp hc.1).2
      · exact (isAged_iff.mp (Slots.best_some ha).2).2
  · rintro (⟨hinit, s, hs, hseq⟩ | ⟨hinit, hne⟩ | ⟨s, hs, hwaited⟩)
    · obtain ⟨i, hpick, -⟩ := reorderPick_inOrder h hinit hs hseq now
      rw [hpick]
      rfl
    · obtain ⟨s, hs⟩ := List.exists_mem_of_ne_nil _ hne
      obtain ⟨i, hpick, -⟩ := reorderPick_first h hinit hs now
      rw [hpick]
      rfl
    · cases hinit : pb.seqInit with
      | false =>
        obtain ⟨i, hpick, -⟩ := reorderPick_first h hinit hs now
        rw [hpick]
        rfl
      | true =>
        rw [reorderPick, if_neg (h.filled_pos hs), if_neg (by simp [hinit])]
        dsimp only
        split
        · rfl
        · obtain ⟨j, hj, rfl, hu⟩ := Slots.mem_held.mp hs
          cases haged : reorderPickAged cfg pb now with
          | some i => rfl
          | none =>
            have hnone := (Option.or_eq_none_iff.mp haged).2
            have := Slots.best_none.mp hnone j hj
            rw [isAged_iff.mpr ⟨hu, hwaited⟩] at this
            cases this

/-- A live entry that has to hand something over makes the scan find something. -/
theorem reorderNextReady_none (hok : RxOk c) {now : U64} :
    reorderNextReady c now = none ↔ ∀ i, i < c.cfg.peers → (c.tbl i).key ≠ 0 → ¬ Due c.cfg (c.tbl i) now := by
  constructor
  · intro hnone i hi hkey hdue
    obtain ⟨n, hn, hmod⟩ := scan_reaches c.rr hi
    have hscan := List.findSome?_eq_none_iff.mp hnone n (List.mem_range.mpr hn)
    dsimp only at hscan
    rw [hmod, if_neg hkey, Option.map_eq_none_iff] at hscan
    have hsome := (reorderPick_isSome (hok.entries i hi hkey) now).mpr hdue
    rw [hscan] at hsome
    cases hsome
  · intro hno
    by_contra hsome
    obtain ⟨⟨c', i, slot, kind⟩, hready⟩ := Option.ne_none_iff_exists'.mp hsome
    obtain ⟨-, hi, hkey, hpick⟩ := reorderNextReady_eq hready
    refine hno i hi hkey ((reorderPick_isSome (hok.entries i hi hkey) now).mp ?_)
    rw [hpick]
    rfl

/-- **Would-block is honest.** In a reachable state, when nothing is ready no live entry holds the successor of its
cursor or, without a cursor, anything at all, and nothing that is held and has an address has waited as long as the
window of its entry allows. When something of the kind is there, a packet of a live entry is ready. -/
theorem reorder_wouldBlock_honest (cfg : ReorderCfg) (ops : List ReorderOp) (now : U64) :
    let c := final reorderStep (reorderInit cfg) ops
    (reorderNextReady c now = none →
      (∀ i, i < cfg.peers → (c.tbl i).key ≠ 0 → ¬ InOrderHeld cfg (c.tbl i) ∧ ¬ FirstHeld cfg (c.tbl i)) ∧
      ∀ i, i < cfg.peers → ∀ s ∈ (c.tbl i).held cfg, reorderKey s.pkt.src ≠ 0 → s.ts ≤ now →
        now.toNat - s.ts.toNat < effectiveWindow cfg (c.tbl i)) ∧
    ((∃ i, i < cfg.peers ∧ (c.tbl i).key ≠ 0 ∧ Due cfg (c.tbl i) now) →
      ∃ c' i slot kind, reorderNextReady c now = some (c', i, slot, kind) ∧ i < cfg.peers ∧ (c.tbl i).key ≠ 0 ∧
        slot < cfg.depth ∧ ((c.tbl i).slots slot).used = true) := by
  intro c
  obtain ⟨hcfg, hok⟩ : c.cfg = cfg ∧ RxOk c := reorder_reachable_ok cfg ops
  have hnone := @reorderNextReady_none c hok now
  rw [hcfg] at hnone
  constructor
  · intro hblock
    have hno := hnone.mp hblock
    refine ⟨fun i hi hkey => ⟨fun h => hno i hi hkey (Or.inl h), fun h => hno i hi hkey (Or.inr (Or.inl h))⟩, ?_⟩
    intro i hi s hs haddr hts
    have hkey : (c.tbl i).key ≠ 0 := fun h0 => haddr (hok.unused i (hcfg ▸ hi) h0 s (hcfg ▸ hs))
    by_contra hover
    exact hno i hi hkey (Or.inr (Or.inr ⟨s, hs, hts, Nat.not_lt.mp hover⟩))
  · rintro ⟨i, hi, hkey, hdue⟩
    have hsome : reorderNextReady c now ≠ none := fun h => hnone.mp h i hi hkey hdue
    obtain ⟨⟨c', j, slot, kind⟩, hready⟩ := Option.ne_none_iff_exists'.mp hsome
    obtain ⟨-, hj, hjkey, hpick⟩ := reorderNextReady_eq hready
    have hslot := reorderPick_cases hpick
    rw [hcfg] at hj hslot
    exact ⟨c', j, slot, kind, hready, hj, hjkey, hslot.1, hslot.2.1⟩

end BzNet
