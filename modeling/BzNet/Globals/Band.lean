import BzNet.Globals.Core
import BzNet.Lib.Run
import Mathlib.Data.List.Forall2
import Mathlib.Data.List.Nodup

/-!
# Only plausible values are written

The thread that asserts the game's tunables, against a game that rewrites them as it likes between two passes.

* `netGlobalsApply_pointwise` : with distinct addresses a pass treats every entry on its own;
* `ngSettle` : what the first pass makes of an entry, for good (`ngAssert_settled`, `final_settled`);
* `Asserted`, `PassOk` : the entries that are written, and all that a pass does to the memory.
-/

namespace BzNet

variable {g : NetGlobal} {t : List NetGlobal} {m first : Memory}

/-! ## One entry -/

/-- The entry is written: a value is requested of it, and what was found there first was plausible. -/
def Asserted (first : Memory) (g : NetGlobal) : Prop := g.want ≠ 0 ∧ g.lo ≤ first g.va ∧ first g.va ≤ g.hi

instance (first : Memory) (g : NetGlobal) : Decidable (Asserted first g) := inferInstanceAs (Decidable (_ ∧ _ ∧ _))

def NetGlobal.Fresh (g : NetGlobal) : Prop := g.state = .pending ∧ g.changed = false

/-- What the first pass makes of an entry, once the log line is acknowledged. -/
def ngSettle (first : Memory) (g : NetGlobal) : NetGlobal := { (ngAssert g (first g.va)).1 with changed := false }

/-- A pass changes neither what an entry is nor what is requested of it. -/
theorem ngAssert_keeps (g : NetGlobal) (live : U32) :
    (ngAssert g live).1.va = g.va ∧ (ngAssert g live).1.want = g.want := by
  unfold ngAssert
  split
  · exact ⟨rfl, rfl⟩
  · split
    · exact ⟨rfl, rfl⟩
    · split <;> exact ⟨rfl, rfl⟩

theorem ngSettle_va (first : Memory) (g : NetGlobal) : (ngSettle first g).va = g.va := (ngAssert_keeps g _).1

theorem ngAssert_idle (h : g.want = 0 ∨ g.state = .vetoed) (live : U32) : ngAssert g live = (g, none) := if_pos h

theorem ngAssert_applied (hw : g.want ≠ 0) (hs : g.state = .applied) (live : U32) :
    ngAssert g live = (g, if live ≠ g.want then some g.want else none) := by
  unfold ngAssert
  rw [if_neg (not_or.mpr ⟨hw, by simp [hs]⟩), if_neg (by simp [hs]), if_neg (by simp [hs])]

theorem ngAssert_accept (h : g.state = .pending) (ha : Asserted first g) : ngAssert g (first g.va) =
    ({ g with seen := first g.va, state := .applied, changed := true },
      if first g.va ≠ g.want then some g.want else none) := by
  have hin : ¬ (first g.va < g.lo ∨ first g.va > g.hi) :=
    not_or.mpr ⟨BitVec.not_lt.mpr ha.2.1, BitVec.not_lt.mpr ha.2.2⟩
  unfold ngAssert
  rw [if_neg (not_or.mpr ⟨ha.1, by simp [h]⟩), if_neg (fun hv => hin hv.2), if_pos h]

theorem ngAssert_veto (h : g.state = .pending) (hw : g.want ≠ 0) (ha : ¬ Asserted first g) :
    ngAssert g (first g.va) = ({ g with seen := first g.va, state := .vetoed, changed := true }, none) := by
  have hout : first g.va < g.lo ∨ first g.va > g.hi := by
    by_contra hin
    rw [not_or] at hin
    exact ha ⟨hw, BitVec.not_lt.mp hin.1, BitVec.not_lt.mp hin.2⟩
  unfold ngAssert
  rw [if_neg (not_or.mpr ⟨hw, by simp [h]⟩), if_pos ⟨h, hout⟩]

theorem ngAssert_fresh (h : g.state = .pending) : (ngAssert g (first g.va)).2 =
    if Asserted first g ∧ first g.va ≠ g.want then some g.want else none := by
  by_cases ha : Asserted first g
  · rw [ngAssert_accept h ha]
    simp [ha]
  · by_cases hw : g.want = 0
    · rw [ngAssert_idle (Or.inl hw)]
      simp [ha]
    · rw [ngAssert_veto h hw ha]
      simp [ha]

/-- Later the decision stands, whatever is found then, and the entry does not change any more. -/
theorem ngAssert_settled (h : g.state = .pending) (live : U32) : ngAssert (ngSettle first g) live =
    (ngSettle first g, if Asserted first g ∧ live ≠ g.want then some g.want else none) := by
  by_cases ha : Asserted first g
  · have hset : ngSettle first g = { g with seen := first g.va, state := .applied, changed := false } := by
      rw [ngSettle, ngAssert_accept h ha]
    have hwant : (ngSettle first g).want = g.want := (ngAssert_keeps g _).2
    rw [ngAssert_applied (hwant.symm ▸ ha.1) (hset ▸ rfl), hwant]
    simp [ha]
  · have hidle : (ngSettle first g).want = 0 ∨ (ngSettle first g).state = .vetoed := by
      by_cases hw : g.want = 0
      · exact Or.inl ((ngAssert_keeps g _).2.trans hw)
      · rw [ngSettle, ngAssert_veto h hw ha]
        exact Or.inr rfl
    rw [ngAssert_idle hidle, if_neg (fun hc => ha hc.1)]

/-- The value noted for the log is the one found first. -/
theorem ngSettle_seen (h : g.state = .pending) (hw : g.want ≠ 0) : (ngSettle first g).seen = first g.va := by
  by_cases ha : Asserted first g
  · rw [ngSettle, ngAssert_accept h ha]
  · rw [ngSettle, ngAssert_veto h hw ha]

/-! ## A pass -/

/-- What entry `g` writes in a pass that finds `m`. -/
def ngWrites (m : Memory) (g : NetGlobal) : List NgWrite := ((ngAssert g (m g.va)).2.map (NgWrite.mk g.va)).toList

theorem poke_self (m : Memory) (va : U32) (w : Option U32) : m.poke va w va = w.getD (m va) := by
  cases w with
  | none => rfl
  | some v => exact Function.update_self va v m

theorem poke_other (m : Memory) {va a : U32} (h : va ≠ a) (w : Option U32) : m.poke va w a = m a := by
  cases w with
  | none => rfl
  | some v => exact Function.update_of_ne (Ne.symm h) v m

/-- **Pointwise.** With distinct addresses every entry of a pass finds the memory as the pass found it, and
leaves its value there. -/
theorem netGlobalsApply_pointwise (hd : (t.map NetGlobal.va).Nodup) (m : Memory) :
    (netGlobalsApply t m).entries = t.map (fun g => (ngAssert g (m g.va)).1) ∧
      (netGlobalsApply t m).writes = t.flatMap (ngWrites m) ∧
      (∀ g ∈ t, (netGlobalsApply t m).mem g.va = (ngAssert g (m g.va)).2.getD (m g.va)) ∧
      ∀ a, (∀ g ∈ t, g.va ≠ a) → (netGlobalsApply t m).mem a = m a := by
  induction t generalizing m with
  | nil => exact ⟨rfl, rfl, fun _ h => absurd h List.not_mem_nil, fun _ _ => rfl⟩
  | cons g t ih =>
    rw [List.map_cons, List.nodup_cons] at hd
    have hother : ∀ g' ∈ t, g'.va ≠ g.va := fun g' hg' heq => hd.1 (heq ▸ List.mem_map_of_mem hg')
    have hsee : ∀ g' ∈ t, m.poke g.va (ngAssert g (m g.va)).2 g'.va = m g'.va :=
      fun g' hg' => poke_other m (Ne.symm (hother g' hg')) _
    obtain ⟨he, hw, hmem, hfar⟩ := ih hd.2 (m.poke g.va (ngAssert g (m g.va)).2)
    simp only [netGlobalsApply]
    refine ⟨?_, ?_, ?_, ?_⟩
    · rw [he, List.map_cons]
      congr 1
      exact List.map_congr_left fun g' hg' => by rw [hsee g' hg']
    · rw [hw, List.flatMap_cons]
      congr 1
      exact List.flatMap_congr fun g' hg' => by rw [ngWrites, hsee g' hg', ngWrites]
    · intro g' hg'
      rcases List.mem_cons.mp hg' with rfl | hg'
      · rw [hfar _ hother, poke_self]
      · rw [hmem g' hg', hsee g' hg']
    · intro a ha
      rw [hfar a fun g' hg' => ha g' (List.mem_cons_of_mem _ hg'), poke_other m (ha g List.mem_cons_self)]

theorem notable_pos (hg : g ∈ t) (hw : g.want ≠ 0) (hs : g.state = .pending) (m : Memory) :
    0 < (netGlobalsApply t m).notable := by
  induction t generalizing m with
  | nil => cases hg
  | cons g' t ih =>
    rw [netGlobalsApply]
    rcases List.mem_cons.mp hg with rfl | hg
    · have hn : ngNotable g = true := decide_eq_true ⟨hw, hs⟩
      simp only [hn, if_true]
      omega
    · exact Nat.lt_of_lt_of_le (ih hg _) (Nat.le_add_left _ _)

/-! ## A run -/

theorem poll_first (hd : (t.map NetGlobal.va).Nodup) (hf : ∀ g ∈ t, g.Fresh) (first : Memory) :
    (netPatchPoll t first).1 = t.map (ngSettle first) := by
  obtain ⟨he, -, -, -⟩ := netGlobalsApply_pointwise hd first
  unfold netPatchPoll
  dsimp only
  split
  · rw [he, List.map_map]
    rfl
  · next hquiet =>
    rw [he]
    refine List.map_congr_left fun g hg => ?_
    have hw : g.want = 0 := by
      by_contra hw
      exact hquiet (notable_pos hg hw (hf g hg).1 first)
    rw [ngSettle, ngAssert_idle (Or.inl hw)]
    show g = { g with changed := false }
    rw [← (hf g hg).2]

theorem poll_settled (hd : (t.map NetGlobal.va).Nodup) (hf : ∀ g ∈ t, g.Fresh) (first m : Memory) :
    (netPatchPoll (t.map (ngSettle first)) m).1 = t.map (ngSettle first) := by
  have hd' : ((t.map (ngSettle first)).map NetGlobal.va).Nodup := by
    rw [List.map_map]
    rwa [List.map_congr_left fun g _ => show (NetGlobal.va ∘ ngSettle first) g = g.va from ngSettle_va first g]
  obtain ⟨he, -, -, -⟩ := netGlobalsApply_pointwise hd' m
  have hsame : (netGlobalsApply (t.map (ngSettle first)) m).entries = t.map (ngSettle first) := by
    rw [he, List.map_map]
    refine List.map_congr_left fun g hg => ?_
    show (ngAssert (ngSettle first g) _).1 = ngSettle first g
    rw [ngAssert_settled (hf g hg).1]
  unfold netPatchPoll
  dsimp only
  rw [hsame]
  split
  · rw [List.map_map]
    rfl
  · rfl

theorem final_settled (hd : (t.map NetGlobal.va).Nodup) (hf : ∀ g ∈ t, g.Fresh) (first : Memory) (rest : List Memory) :
    Machine.final netPatchPoll t (first :: rest) = t.map (ngSettle first) := by
  rw [Machine.final_cons, poll_first hd hf]
  refine Machine.final_inv (P := fun s => s = t.map (ngSettle first)) rfl (fun s m hs => ?_) rest
  rw [hs]
  exact poll_settled hd hf first m

/-- All that a pass does that finds the memory as `m`, when the first pass found `first`. -/
structure PassOk (t : List NetGlobal) (first m : Memory) (r : NgPass) : Prop where
  written : ∀ w ∈ r.writes, ∃ g ∈ t, Asserted first g ∧ w.va = g.va ∧ w.value = g.want ∧ g.lo ≤ w.value ∧ w.value ≤ g.hi
  untouched : ∀ g ∈ t, ¬ Asserted first g → (∀ w ∈ r.writes, w.va ≠ g.va) ∧ r.mem g.va = m g.va
  holds : ∀ g ∈ t, Asserted first g → r.mem g.va = g.want
  elsewhere : ∀ a, (∀ g ∈ t, g.va ≠ a) → r.mem a = m a

/-- Whatever is requested is plausible. -/
def InBand (t : List NetGlobal) : Prop := ∀ g ∈ t, g.want ≠ 0 → g.lo ≤ g.want ∧ g.want ≤ g.hi

theorem passOk_of (hd : (t.map NetGlobal.va).Nodup) (hb : InBand t) (f : NetGlobal → NetGlobal)
    (hva : ∀ g, (f g).va = g.va)
    (hwrite : ∀ g ∈ t, (ngAssert (f g) (m g.va)).2 =
      if Asserted first g ∧ m g.va ≠ g.want then some g.want else none) :
    PassOk t first m (netGlobalsApply (t.map f) m) := by
  have hd' : ((t.map f).map NetGlobal.va).Nodup := by
    rw [List.map_map]
    rwa [List.map_congr_left fun g _ => show (NetGlobal.va ∘ f) g = g.va from hva g]
  obtain ⟨-, hw, hmem, hfar⟩ := netGlobalsApply_pointwise hd' m
  have hmem' : ∀ g ∈ t, (netGlobalsApply (t.map f) m).mem g.va =
      (if Asserted first g ∧ m g.va ≠ g.want then some g.want else none).getD (m g.va) := by
    intro g hg
    have h := hmem (f g) (List.mem_map_of_mem hg)
    rwa [hva, hwrite g hg] at h
  have hwritten : ∀ w ∈ (netGlobalsApply (t.map f) m).writes, ∃ g ∈ t, Asserted first g ∧ w = ⟨g.va, g.want⟩ := by
    intro w hmemw
    rw [hw] at hmemw
    obtain ⟨g', hg', hin⟩ := List.mem_flatMap.mp hmemw
    obtain ⟨g, hg, rfl⟩ := List.mem_map.mp hg'
    rw [ngWrites, hva, hwrite g hg] at hin
    by_cases hc : Asserted first g ∧ m g.va ≠ g.want
    · rw [if_pos hc] at hin
      exact ⟨g, hg, hc.1, List.mem_singleton.mp hin⟩
    · rw [if_neg hc] at hin
      cases hin
  constructor
  · intro w hmemw
    obtain ⟨g, hg, ha, rfl⟩ := hwritten w hmemw
    exact ⟨g, hg, ha, rfl, rfl, hb g hg ha.1⟩
  · intro g hg hna
    constructor
    · intro w hmemw heq
      obtain ⟨g', hg', ha, rfl⟩ := hwritten w hmemw
      rw [List.inj_on_of_nodup_map hd hg' hg heq] at ha
      exact hna ha
    · rw [hmem' g hg, if_neg (fun hc => hna hc.1)]
      rfl
  · intro g hg ha
    rw [hmem' g hg]
    by_cases hne : m g.va = g.want
    · rw [if_neg (fun hc => hc.2 hne)]
      exact hne
    · rw [if_pos ⟨ha, hne⟩]
      rfl
  · intro a ha
    refine hfar a fun g' hg' => ?_
    obtain ⟨g, hg, rfl⟩ := List.mem_map.mp hg'
    rw [hva]
    exact ha g hg

theorem run_passesOk (hd : (t.map NetGlobal.va).Nodup) (hf : ∀ g ∈ t, g.Fresh) (hb : InBand t) (first : Memory)
    (rest : List Memory) :
    List.Forall₂ (PassOk t first) (first :: rest) (Machine.outputs netPatchPoll t (first :: rest)) := by
  have hlater : List.Forall₂ (PassOk t first) rest (Machine.outputs netPatchPoll (t.map (ngSettle first)) rest) := by
    induction rest with
    | nil => exact .nil
    | cons m rest ih =>
      rw [Machine.outputs, poll_settled hd hf first m]
      refine .cons (passOk_of hd hb (ngSettle first) (ngSettle_va first) fun g hg => ?_) ih
      rw [ngAssert_settled (hf g hg).1]
  rw [Machine.outputs, poll_first hd hf first]
  refine .cons ?_ hlater
  have hpass : PassOk t first first (netGlobalsApply (t.map id) first) :=
    passOk_of hd hb id (fun _ => rfl) fun g hg => ngAssert_fresh (hf g hg).1
  rwa [List.map_id] at hpass

/-! ## The shipped table -/

/-- Every value of the presets passes the gate it will later be read through. -/
theorem presets_inBand (tune relax : Bool) : ∀ i < kNetGlobalCount, ∀ g ∈ netGlobalsDefaults[i]?,
    ngPreset tune relax i ≠ 0 → g.lo ≤ ngPreset tune relax i ∧ ngPreset tune relax i ≤ g.hi := by
  revert tune relax
  decide

theorem configure_inBand (ulongBits : Nat) (env : Environment) :
    InBand (netGlobalsConfigure ulongBits env netGlobalsDefaults) := by
  intro g hg hw
  obtain ⟨i, hi, rfl⟩ := List.mem_mapIdx.mp hg
  have hcount : i < kNetGlobalCount := hi
  have hpreset := presets_inBand (ngDefaultOn env "BZ_NET_TUNE") (ngDefaultOn env "BZ_AUTOKICK_RELAX") i hcount _
    (List.getElem?_eq_getElem hi)
  rw [if_pos hcount] at hw ⊢
  dsimp only at hw ⊢
  unfold ngWant at hw ⊢
  dsimp only at hw ⊢
  split at hw
  · next hbad => rw [if_pos hbad]; exact hpreset hw
  · next hgood =>
    rw [if_neg hgood]
    have hin := (not_and.mp hgood) hw
    rw [not_or] at hin
    exact ⟨BitVec.not_lt.mp hin.1, BitVec.not_lt.mp hin.2⟩

/-- A value outside the band falls back to the preset. -/
example : (netGlobalsConfigure 32 (fun name => if name = "BZ_NET_MAXBANDWIDTH" then some "5" else none)
    netGlobalsDefaults).map (·.want) = [16000, 320000, 100, 50, 450, 0, 60000, 2000, 200, 60000] := by
  decide +kernel

theorem configure_va (ulongBits : Nat) (env : Environment) (t : List NetGlobal) :
    (netGlobalsConfigure ulongBits env t).map NetGlobal.va = t.map NetGlobal.va := by
  refine List.ext_getElem? fun i => ?_
  simp only [netGlobalsConfigure, List.getElem?_map, List.getElem?_mapIdx, Option.map_map]
  congr 1
  funext g
  show (if i < kNetGlobalCount then { g with want := ngWant ulongBits env i g } else g).va = g.va
  split <;> rfl

theorem configure_fresh (ulongBits : Nat) (env : Environment) :
    ∀ g ∈ netGlobalsConfigure ulongBits env netGlobalsDefaults, g.Fresh := by
  have hdefaults : ∀ g ∈ netGlobalsDefaults, g.Fresh := by
    unfold NetGlobal.Fresh
    decide
  intro g hg
  obtain ⟨i, hi, rfl⟩ := List.mem_mapIdx.mp hg
  have hfresh := hdefaults _ (List.getElem_mem hi)
  split
  · exact hfresh
  · exact hfresh

theorem defaults_distinct : (netGlobalsDefaults.map NetGlobal.va).Nodup ∧ ∀ g ∈ netGlobalsDefaults, 4 ∣ g.va.toNat := by
  decide

/-- **The game's tunables stay within their bands.** Whatever the environment requests, and whatever the game
puts anywhere between two passes, every pass writes only entries that have a requested value and held a plausible
one when first seen, writes to them their requested value, which is plausible, leaves them with it, and leaves
everything else alone; and what was first seen is on record. -/
theorem net_globals_in_band (ulongBits : Nat) (env : Environment) (first : Memory) (rest : List Memory) :
    let t := netGlobalsConfigure ulongBits env netGlobalsDefaults
    (t.map NetGlobal.va).Nodup ∧
      List.Forall₂ (PassOk t first) (first :: rest) (Machine.outputs netPatchPoll t (first :: rest)) ∧
      Machine.final netPatchPoll t (first :: rest) = t.map (ngSettle first) ∧
      ∀ g ∈ t, g.want ≠ 0 → (ngSettle first g).seen = first g.va := by
  have hd : ((netGlobalsConfigure ulongBits env netGlobalsDefaults).map NetGlobal.va).Nodup := by
    rw [configure_va]
    exact defaults_distinct.1
  have hf := configure_fresh ulongBits env
  exact ⟨hd, run_passesOk hd hf (configure_inBand ulongBits env) first rest, final_settled hd hf first rest,
    fun g hg hw => ngSettle_seen (hf g hg).1 hw⟩

end BzNet
