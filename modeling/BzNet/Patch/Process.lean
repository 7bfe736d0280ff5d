import BzNet.Patch.Passes
import BzNet.Patch.Polls

/-!
# The patched process

Any order of the steps of the game, the two patch threads and the end of the process.

* `PatchOk`, `patchStep_ok` : what holds after every step;
* `patch_confined` : every word is the game's, or one of the few that the threads may have written;
* `patch_replaces` : which stores of the game a thread can undo;
* `patch_settles` : what the table has come to at the end of a pass;
* `patch_reports` : the last line of the governor's thread is the account of what it did.
-/

namespace BzNet

open Machine (final outputs)
open Shared (Access firstBy lastBy Guarded Coherent LastAccess after)

/-! ## What a move does to the memory -/

section Moves
variable {c : PatchCfg} {main : Option PeImage} {now : U64} {stop : Bool} {m : Memory} {x : PatchAccess}

def GovPhase.active : GovPhase → Bool
  | .polling _ => true
  | .loaded _ _ => true
  | .storing _ => true
  | _ => false

def NetPhase.active : NetPhase → Bool
  | .asleep => false
  | .returned => false
  | _ => true

theorem govMove_access {phase : GovPhase} (h : (govMove c main now stop m phase).2 = some x) :
    x.who = .gov ∧ (x.store = false → m x.addr = x.value) ∧ phase.active = true := by
  cases phase with
  | asleep =>
    rw [govMove] at h
    split at h
    · cases h
    · split at h <;> cases h
  | polling s =>
    rw [govMove] at h
    split at h
    · cases h
    · cases h
      exact ⟨rfl, fun _ => rfl, rfl⟩
  | loaded s live => cases h
  | storing s =>
    cases h
    exact ⟨rfl, fun hload => (Bool.true_eq_false.mp hload).elim, rfl⟩
  | returned s => cases h

theorem netMove_access {phase : NetPhase} (h : (netMove c main stop m phase).2 = some x) :
    x.who = .net ∧ (x.store = false → m x.addr = x.value) ∧ phase.active = true := by
  cases phase with
  | asleep =>
    rw [netMove] at h
    split at h
    · cases h
    · split at h <;> cases h
  | polling t => cases h
  | walking done rest notable =>
    cases rest with
    | nil => cases h
    | cons g rest =>
      rw [netMove] at h
      split at h
      · cases h
      · cases h
        exact ⟨rfl, fun _ => rfl, rfl⟩
  | storing done g rest notable =>
    cases h
    exact ⟨rfl, fun hload => (Bool.true_eq_false.mp hload).elim, rfl⟩
  | returned => cases h

theorem govMove_active {phase : GovPhase} (h : (govMove c main now stop m phase).1.active = true) :
    phase.active = true ∨ c.target = true ∧ c.govStart ≠ 0 ∧ versionConfirmed main = true := by
  cases phase with
  | asleep =>
    rw [govMove] at h
    split at h
    · cases h
    · next hgo =>
      rw [not_or, Bool.not_eq_true', Bool.not_eq_false] at hgo
      split at h
      · next hversion => exact Or.inr ⟨hgo.1, hgo.2, hversion⟩
      · cases h
  | returned s => cases h
  | _ => exact Or.inl rfl

theorem netMove_active {phase : NetPhase} (h : (netMove c main stop m phase).1.active = true) :
    phase.active = true ∨ c.target = true ∧ versionConfirmed main = true := by
  cases phase with
  | asleep =>
    rw [netMove] at h
    split at h
    · cases h
    · next hgo =>
      rw [not_or, Bool.not_eq_true', Bool.not_eq_false] at hgo
      split at h
      · next hversion => exact Or.inr ⟨hgo.1, hversion⟩
      · cases h
  | returned => cases h
  | _ => exact Or.inl rfl

end Moves

/-! ## The invariant -/

/-- One of the threads has found the signature at one position of the game's code, and no other. -/
def Confirmed (acts : List PatchAct) : Prop :=
  ∃ main text, ((∃ now, PatchAct.gov main now ∈ acts) ∨ PatchAct.net main ∈ acts) ∧
    findSection main textName = some text ∧ ∃! i, Marker.Occurs kGovSig text i

def PatchAct.access? : PatchAct → Option PatchAccess
  | .game va value => some ⟨.game, true, va, value⟩
  | _ => none

/-- A store of the governor's thread answers the sentinel. -/
def GovAnswer (c : PatchCfg) (x : PatchAccess) (v : U32) : Prop :=
  x.addr = kGovRateAddr ∧ x.value = c.govStart ∧ v = kGovColdStart

/-- A store of the other thread answers a value that is not the one requested of the entry. -/
def NetAnswer (c : PatchCfg) (x : PatchAccess) (v : U32) : Prop :=
  ∃ g ∈ c.table, g.want ≠ 0 ∧ x.addr = g.va ∧ x.value = g.want ∧ v ≠ g.want

/-- What holds of the process once the steps are done. -/
structure PatchOk (c : PatchCfg) (m : Memory) (acts : List PatchAct) (p : Patch) : Prop where
  mem : p.mem = after m p.trace
  coherent : Coherent m p.trace
  game : p.trace.filter (fun x => x.who = .game) = acts.filterMap PatchAct.access?
  gov : GovOk c (p.trace.filter fun x => x.who = .gov) p.gov
  net : PassesOk c (p.trace.filter fun x => x.who = .net) p.net
  govGuarded : Guarded .gov (GovAnswer c) p.trace
  netGuarded : Guarded .net (NetAnswer c) p.trace
  govGate : p.gov.active = true → c.target = true ∧ c.govStart ≠ 0 ∧ Confirmed acts
  netGate : p.net.active = true → c.target = true ∧ Confirmed acts
  gate : ∀ x ∈ p.trace, x.who ≠ .game → c.target = true ∧ Confirmed acts ∧ (x.who = .gov → c.govStart ≠ 0)

theorem Confirmed.mono {acts more : List PatchAct} (h : Confirmed acts) : Confirmed (acts ++ more) := by
  obtain ⟨main, text, hlook, hrest⟩ := h
  refine ⟨main, text, hlook.imp (fun ⟨now, hmem⟩ => ⟨now, List.mem_append_left _ hmem⟩) (List.mem_append_left _), hrest⟩

theorem confirmed_of {acts : List PatchAct} {main : Option PeImage} (h : versionConfirmed main = true)
    (hlook : (∃ now, PatchAct.gov main now ∈ acts) ∨ PatchAct.net main ∈ acts) : Confirmed acts := by
  obtain ⟨text, hfound, honly⟩ := (versionConfirmed_iff main).mp h
  exact ⟨main, text, hlook, hfound, honly⟩

/-! ## A step -/

theorem filter_access (tr : List PatchAccess) {x : Option PatchAccess} {who : Party} (h : ∀ y ∈ x, y.who = who) (k : Party) :
    (tr ++ x.toList).filter (fun y => y.who = k) =
      tr.filter (fun y => y.who = k) ++ if who = k then x.toList else [] := by
  rw [List.filter_append]
  congr 1
  cases x with
  | none => simp
  | some y =>
    rw [Option.toList_some, List.filter_singleton, h y rfl]
    by_cases hk : who = k
    · rw [if_pos hk, decide_eq_true hk]
      rfl
    · rw [if_neg hk, decide_eq_false hk]
      rfl

section Record
variable {c : PatchCfg} {m : Memory} {p : Patch} {x : Option PatchAccess} {who : Party}

theorem access_mem (h : p.mem = after m p.trace) : (p.access x).mem = after m (p.access x).trace := by
  show after p.mem x.toList = after m (p.trace ++ x.toList)
  rw [Shared.after_append, h]

theorem access_coherent (hmem : p.mem = after m p.trace) (h : Coherent m p.trace)
    (hx : ∀ y ∈ x, y.store = false → p.mem y.addr = y.value) : Coherent m (p.access x).trace := by
  show Coherent m (p.trace ++ x.toList)
  cases x with
  | none => rwa [Option.toList_none, List.append_nil]
  | some y => exact h.concat fun hload => hmem ▸ hx y rfl hload

theorem access_guarded {P : PatchAccess → U32 → Prop} (h : Guarded who P p.trace)
    (hx : ∀ y ∈ x, y.who = who → y.store = true → ∃ v, lastBy who y.addr p.trace = some ⟨who, false, y.addr, v⟩ ∧ P y v) :
    Guarded who P (p.access x).trace := by
  show Guarded who P (p.trace ++ x.toList)
  cases x with
  | none => rwa [Option.toList_none, List.append_nil]
  | some y => exact h.concat (hx y rfl)

/-- A move of the governor's thread that stores comes right after its load of the sentinel. -/
theorem govMove_answers {main : Option PeImage} {now : U64} {stop : Bool} {y : PatchAccess} {tr : List PatchAccess}
    {phase : GovPhase} (h : GovOk c (tr.filter fun x => x.who = .gov) phase)
    (hmove : (govMove c main now stop m phase).2 = some y) (hstore : y.store = true) :
    ∃ v, lastBy .gov y.addr tr = some ⟨.gov, false, y.addr, v⟩ ∧ GovAnswer c y v := by
  cases phase with
  | asleep =>
    rw [govMove] at hmove
    split at hmove
    · cases hmove
    · split at hmove <;> cases hmove
  | polling s =>
    rw [govMove] at hmove
    split at hmove
    · cases hmove
    · cases hmove
      exact (Bool.false_ne_true hstore).elim
  | loaded s live => cases hmove
  | storing s =>
    cases hmove
    obtain ⟨t0, polls, live, now, -, hstores, hmine⟩ := h
    refine ⟨live, ?_, rfl, rfl, (govStep_stores _ _ _).1 hstores⟩
    rw [← Shared.lastBy_filter, hmine, Shared.lastBy_concat, if_pos ⟨rfl, rfl⟩]
  | returned s => cases hmove

/-- A move of the other thread that stores comes right after its load of another value. -/
theorem netMove_answers {main : Option PeImage} {stop : Bool} {y : PatchAccess} {tr : List PatchAccess}
    {phase : NetPhase} (h : PassesOk c (tr.filter fun x => x.who = .net) phase)
    (hmove : (netMove c main stop m phase).2 = some y) (hstore : y.store = true) :
    ∃ v, lastBy .net y.addr tr = some ⟨.net, false, y.addr, v⟩ ∧ NetAnswer c y v := by
  cases phase with
  | asleep =>
    rw [netMove] at hmove
    split at hmove
    · cases hmove
    · split at hmove <;> cases hmove
  | polling t => cases hmove
  | walking done rest notable =>
    cases rest with
    | nil => cases hmove
    | cons g rest =>
      rw [netMove] at hmove
      split at hmove
      · cases hmove
      · cases hmove
        exact (Bool.false_ne_true hstore).elim
  | storing done g rest notable =>
    cases hmove
    obtain ⟨ms, pre, g₀, m', htable, -, rfl, -, hstores, hmine⟩ := h
    obtain ⟨hva, hwant⟩ := ngAssert_keeps g₀ (m' g₀.va)
    obtain ⟨g', hg', hva', hwant'⟩ := mem_final (htable ▸ List.mem_append_right pre List.mem_cons_self : g₀ ∈ _)
    refine ⟨m' g₀.va, ?_, g', hg', ?_, hva.trans hva'.symm, hwant.trans hwant'.symm, ?_⟩
    · rw [← Shared.lastBy_filter, hmine, Shared.lastBy_concat]
      dsimp only
      rw [hva, if_pos ⟨rfl, rfl⟩]
    · rw [hwant']
      exact (not_or.mp (not_idle hstores)).1
    · rw [hwant']
      exact ngAssert_differs hstores
  | returned => cases hmove

end Record

/-- **One step.** -/
theorem patchStep_ok {c : PatchCfg} {m : Memory} {acts : List PatchAct} {p : Patch} (hd : (c.table.map NetGlobal.va).Nodup)
    (h : PatchOk c m acts p) (act : PatchAct) : PatchOk c m (acts ++ [act]) (patchStep c p act) := by
  cases act with
  | game va value =>
    have hwho : ∀ y ∈ (some ⟨.game, true, va, value⟩ : Option PatchAccess), y.who = .game := fun y hy => by
      cases hy
      rfl
    have hpart := filter_access p.trace hwho
    refine ⟨access_mem h.mem, access_coherent h.mem h.coherent ?_, ?_, ?_, ?_, access_guarded h.govGuarded ?_,
      access_guarded h.netGuarded ?_, fun ha => ?_, fun ha => ?_, ?_⟩
    · intro y hy hload
      cases hy
      exact (Bool.true_eq_false.mp hload).elim
    · rw [List.filterMap_append, ← h.game]
      exact hpart .game
    · exact (congrArg (GovOk c · p.gov) ((hpart .gov).trans (List.append_nil _))).mpr h.gov
    · exact (congrArg (PassesOk c · p.net) ((hpart .net).trans (List.append_nil _))).mpr h.net
    · intro y hy hgov
      exact absurd (hgov.symm.trans (hwho y hy)) (by decide)
    · intro y hy hnet
      exact absurd (hnet.symm.trans (hwho y hy)) (by decide)
    · obtain ⟨h1, h2, h3⟩ := h.govGate ha
      exact ⟨h1, h2, h3.mono⟩
    · exact (h.netGate ha).imp_right Confirmed.mono
    · intro x hx hother
      rcases List.mem_append.mp hx with hx | hx
      · obtain ⟨h1, h2, h3⟩ := h.gate x hx hother
        exact ⟨h1, h2.mono, h3⟩
      · exact absurd (hwho x (Option.mem_toList.mp hx)) hother
  | gov main now =>
    have hacc : ∀ y, (govMove c main now p.govStop p.mem p.gov).2 = some y → _ := fun y hy => govMove_access hy
    have hpart := filter_access p.trace fun y hy => (hacc y hy).1
    have hgate : (govMove c main now p.govStop p.mem p.gov).1.active = true →
        c.target = true ∧ c.govStart ≠ 0 ∧ Confirmed (acts ++ [.gov main now]) := fun ha => by
      rcases govMove_active ha with hold | ⟨htarget, hstart, hversion⟩
      · obtain ⟨h1, h2, h3⟩ := h.govGate hold
        exact ⟨h1, h2, h3.mono⟩
      · exact ⟨htarget, hstart, confirmed_of hversion (Or.inl ⟨now, List.mem_append_right _ (List.mem_singleton_self _)⟩)⟩
    refine ⟨access_mem h.mem, access_coherent h.mem h.coherent fun y hy => (hacc y hy).2.1, ?_, ?_, ?_,
      access_guarded h.govGuarded fun y hy _ => govMove_answers h.gov hy, access_guarded h.netGuarded ?_, hgate,
      fun ha => (h.netGate ha).imp_right Confirmed.mono, ?_⟩
    · rw [List.filterMap_append, ← h.game]
      exact hpart .game
    · exact (congrArg (GovOk c · _) (hpart .gov)).mpr (govMove_ok h.gov main now p.govStop p.mem)
    · exact (congrArg (PassesOk c · p.net) ((hpart .net).trans (List.append_nil _))).mpr h.net
    · intro y hy hnet
      exact absurd (hnet.symm.trans (hacc y hy).1) (by decide)
    · intro x hx hother
      rcases List.mem_append.mp hx with hx | hx
      · obtain ⟨h1, h2, h3⟩ := h.gate x hx hother
        exact ⟨h1, h2.mono, h3⟩
      · obtain ⟨h1, h2, h3⟩ := h.govGate (hacc x (Option.mem_toList.mp hx)).2.2
        exact ⟨h1, h3.mono, fun _ => h2⟩
  | net main =>
    have hacc : ∀ y, (netMove c main p.netStop p.mem p.net).2 = some y → _ := fun y hy => netMove_access hy
    have hpart := filter_access p.trace fun y hy => (hacc y hy).1
    have hgate : (netMove c main p.netStop p.mem p.net).1.active = true →
        c.target = true ∧ Confirmed (acts ++ [.net main]) := fun ha => by
      rcases netMove_active ha with hold | ⟨htarget, hversion⟩
      · exact (h.netGate hold).imp_right Confirmed.mono
      · exact ⟨htarget, confirmed_of hversion (Or.inr (List.mem_append_right _ (List.mem_singleton_self _)))⟩
    refine ⟨access_mem h.mem, access_coherent h.mem h.coherent fun y hy => (hacc y hy).2.1, ?_, ?_, ?_,
      access_guarded h.govGuarded ?_, access_guarded h.netGuarded fun y hy _ => netMove_answers h.net hy,
      fun ha => ?_, hgate, ?_⟩
    · rw [List.filterMap_append, ← h.game]
      exact hpart .game
    · exact (congrArg (GovOk c · p.gov) ((hpart .gov).trans (List.append_nil _))).mpr h.gov
    · exact (congrArg (PassesOk c · _) (hpart .net)).mpr (netMove_ok hd h.net main p.netStop p.mem)
    · intro y hy hgov
      exact absurd (hgov.symm.trans (hacc y hy).1) (by decide)
    · obtain ⟨h1, h2, h3⟩ := h.govGate ha
      exact ⟨h1, h2, h3.mono⟩
    · intro x hx hother
      rcases List.mem_append.mp hx with hx | hx
      · obtain ⟨h1, h2, h3⟩ := h.gate x hx hother
        exact ⟨h1, h2.mono, h3⟩
      · obtain ⟨hnet, -, hactive⟩ := hacc x (Option.mem_toList.mp hx)
        obtain ⟨h1, h2⟩ := h.netGate hactive
        exact ⟨h1, h2.mono, fun hgov => absurd (hgov.symm.trans hnet) (by decide)⟩
  | detach =>
    refine ⟨h.mem, h.coherent, ?_, h.gov, h.net, h.govGuarded, h.netGuarded, fun ha => ?_, fun ha => ?_, ?_⟩
    · rw [List.filterMap_append, ← h.game]
      exact (List.append_nil _).symm
    · obtain ⟨h1, h2, h3⟩ := h.govGate ha
      exact ⟨h1, h2, h3.mono⟩
    · exact (h.netGate ha).imp_right Confirmed.mono
    · intro x hx hother
      obtain ⟨h1, h2, h3⟩ := h.gate x hx hother
      exact ⟨h1, h2.mono, h3⟩

/-- **Any order of steps.** -/
theorem patchRun_ok {c : PatchCfg} (hd : (c.table.map NetGlobal.va).Nodup) (m : Memory) (acts : List PatchAct) :
    PatchOk c m acts (patchRun c m acts) := by
  induction acts using List.reverseRecOn with
  | nil =>
    exact ⟨rfl, Shared.coherent_nil m, rfl, rfl, rfl, Shared.guarded_nil, Shared.guarded_nil,
      fun ha => absurd ha Bool.false_ne_true, fun ha => absurd ha Bool.false_ne_true,
      fun x hx => absurd hx List.not_mem_nil⟩
  | append_singleton acts act ih =>
    rw [patchRun, List.foldl_append]
    exact patchStep_ok hd ih act

/-! ## Results -/

theorem game_after (m : Memory) (acts : List PatchAct) : after m (acts.filterMap PatchAct.access?) = gameMemory m acts := by
  induction acts using List.reverseRecOn with
  | nil => rfl
  | append_singleton acts act ih =>
    rw [List.filterMap_append, Shared.after_append, ih, gameMemory, gameMemory, List.foldl_append]
    cases act <;> rfl

theorem rate_apart : ∀ g ∈ netGlobalsDefaults, g.va ≠ kGovRateAddr := by decide

section Results
variable (target : Bool) (ulongBits : Nat) (env : Environment) (m : Memory) (acts : List PatchAct)

theorem patchCfg_distinct : ((patchCfg target ulongBits env).table.map NetGlobal.va).Nodup := by
  show ((netGlobalsConfigure ulongBits env netGlobalsDefaults).map NetGlobal.va).Nodup
  rw [configure_va]
  exact defaults_distinct.1

theorem patchCfg_apart : ∀ g ∈ (patchCfg target ulongBits env).table, g.va ≠ kGovRateAddr := by
  intro g hg
  have hva : g.va ∈ netGlobalsDefaults.map NetGlobal.va := by
    rw [← configure_va ulongBits env]
    exact List.mem_map_of_mem hg
  obtain ⟨g', hg', heq⟩ := List.mem_map.mp hva
  rw [← heq]
  exact rate_apart g' hg'

/-- The process after the steps, with the settings of the environment. -/
abbrev patched : Patch := patchRun (patchCfg target ulongBits env) m acts

theorem patched_ok : PatchOk (patchCfg target ulongBits env) m acts (patched target ulongBits env m acts) :=
  patchRun_ok (patchCfg_distinct target ulongBits env) m acts

variable {target ulongBits env m acts}

/-- What the governor's thread stores, and what it has loaded before. -/
theorem gov_access {x : PatchAccess} (hx : x ∈ (patched target ulongBits env m acts).trace) (hwho : x.who = .gov)
    (hstore : x.store = true) : GovAnswer (patchCfg target ulongBits env) x kGovColdStart ∧
      ⟨.gov, false, kGovRateAddr, kGovColdStart⟩ ∈ (patched target ulongBits env m acts).trace := by
  obtain ⟨pre, post, hsplit⟩ := List.append_of_mem hx
  obtain ⟨v, hload, haddr, hvalue, rfl⟩ := (patched_ok target ulongBits env m acts).govGuarded pre x post hsplit hwho hstore
  rw [haddr] at hload
  obtain ⟨-, -, before, between, haccess⟩ := Shared.lastAccess_of_lastBy hload
  refine ⟨⟨haddr, hvalue, rfl⟩, ?_⟩
  rw [hsplit, haccess.split]
  exact List.mem_append_left _ (List.mem_append_right _ List.mem_cons_self)

theorem net_access {x : PatchAccess} (hx : x ∈ (patched target ulongBits env m acts).trace) (hwho : x.who = .net) :
    ∃ g ∈ (patchCfg target ulongBits env).table, ∃ v, x.addr = g.va ∧ g.want ≠ 0 ∧
      firstBy .net g.va (patched target ulongBits env m acts).trace = some ⟨.net, false, g.va, v⟩ ∧
      (x.store = true → g.lo ≤ v ∧ v ≤ g.hi ∧ x.value = g.want) := by
  have hmine : x ∈ (patched target ulongBits env m acts).trace.filter fun x => x.who = .net :=
    List.mem_filter.mpr ⟨hx, decide_eq_true hwho⟩
  obtain ⟨g, hg, v, haddr, hw, hfirst, hstore⟩ := (patched_ok target ulongBits env m acts).net.access
    (patchCfg_distinct target ulongBits env) (configure_fresh ulongBits env) hmine
  rw [Shared.firstBy_filter] at hfirst
  exact ⟨g, hg, v, haddr, hw, hfirst, hstore⟩

/-- **The threads touch nothing else.** After any order of the steps of the game and the two threads, these have accessed
the data section only if the code of the game holds the signature at exactly one position; and every word is as the
stores of the game alone would have left it, or a thread has stored its value: the start rate at the address of the send
rate, after a poll loaded the cold-start sentinel there, or the requested value at an entry of the table, where the first
value a pass loaded was plausible and the requested one is too. -/
theorem patch_confined (target : Bool) (ulongBits : Nat) (env : Environment) (m : Memory) (acts : List PatchAct) (a : U32) :
    let c := patchCfg target ulongBits env
    let p := patchRun c m acts
    (∀ x ∈ p.trace, x.who ≠ .game → c.target = true ∧ Confirmed acts) ∧
      (p.mem a = gameMemory m acts a ∨ c.target = true ∧ Confirmed acts ∧
        (a = kGovRateAddr ∧ c.govStart ≠ 0 ∧ p.mem a = c.govStart ∧ ⟨.gov, false, kGovRateAddr, kGovColdStart⟩ ∈ p.trace ∨
          ∃ g ∈ c.table, ∃ v, a = g.va ∧ g.want ≠ 0 ∧ p.mem a = g.want ∧ g.lo ≤ g.want ∧ g.want ≤ g.hi ∧
            firstBy .net g.va p.trace = some ⟨.net, false, g.va, v⟩ ∧ g.lo ≤ v ∧ v ≤ g.hi)) := by
  intro c p
  have hok := patched_ok target ulongBits env m acts
  refine ⟨fun x hx hother => (hok.gate x hx hother).imp_right And.left, ?_⟩
  have hmem : p.mem = after m p.trace := hok.mem
  rw [hmem]
  rcases Shared.after_confined m p.trace .game a with hgame | ⟨x, hx, hother, ⟨hstore, rfl⟩, hvalue⟩
  · refine Or.inl (hgame.trans ?_)
    rw [show p.trace.filter (fun x => x.who = .game) = acts.filterMap PatchAct.access? from hok.game, game_after]
  · obtain ⟨htarget, hconfirmed, hstart⟩ := hok.gate x hx hother
    refine Or.inr ⟨htarget, hconfirmed, ?_⟩
    rw [hvalue]
    cases hwho : x.who with
    | game => exact absurd hwho hother
    | gov =>
      obtain ⟨⟨haddr, hstarted, -⟩, hload⟩ := gov_access hx hwho hstore
      exact Or.inl ⟨haddr, hstart hwho, hstarted, hload⟩
    | net =>
      obtain ⟨g, hg, v, haddr, hw, hfirst, hanswer⟩ := net_access hx hwho
      obtain ⟨hlo, hhi, hwant⟩ := hanswer hstore
      obtain ⟨hwlo, hwhi⟩ := configure_inBand ulongBits env g hg hw
      exact Or.inr ⟨g, hg, v, haddr, hw, hwant, hwlo, hwhi, hfirst, hlo, hhi⟩

end Results

/-- **What a store can undo.** Every store of a thread answers its last access to the word, which was a load, and either
replaces the value it loaded, or the game has stored to the word between the two, and that store is lost. -/
theorem patch_replaces (target : Bool) (ulongBits : Nat) (env : Environment) (m : Memory) (acts : List PatchAct)
    (pre : List PatchAccess) (x : PatchAccess) (post : List PatchAccess)
    (hsplit : (patchRun (patchCfg target ulongBits env) m acts).trace = pre ++ x :: post) (hwho : x.who ≠ .game)
    (hstore : x.store = true) :
    ∃ v before between, LastAccess pre before ⟨x.who, false, x.addr, v⟩ between ∧
      (x.who = .gov ∧ GovAnswer (patchCfg target ulongBits env) x v ∨
        x.who = .net ∧ NetAnswer (patchCfg target ulongBits env) x v) ∧
      (after m pre x.addr = v ∨ ∃ y ∈ between, y.who = .game ∧ y.StoresTo x.addr) := by
  have hok := patched_ok target ulongBits env m acts
  have hgame : ∀ y ∈ pre, y.who ≠ x.who → y.StoresTo x.addr → y.who = .game := by
    intro y hy hne hstores
    have hytr : y ∈ (patched target ulongBits env m acts).trace := hsplit ▸ List.mem_append_left _ hy
    have hxtr : x ∈ (patched target ulongBits env m acts).trace := hsplit ▸ List.mem_append_right pre List.mem_cons_self
    cases hx : x.who with
    | game => exact absurd hx hwho
    | gov =>
      cases hy : y.who with
      | game => rfl
      | gov => exact absurd (hy.trans hx.symm) hne
      | net =>
        obtain ⟨⟨hrate, -, -⟩, -⟩ := gov_access hxtr hx hstore
        obtain ⟨g, hg, v, haddr, -⟩ := net_access hytr hy
        exact absurd (haddr.symm.trans (hstores.2.trans hrate)) (patchCfg_apart target ulongBits env g hg)
    | net =>
      cases hy : y.who with
      | game => rfl
      | net => exact absurd (hy.trans hx.symm) hne
      | gov =>
        obtain ⟨⟨hrate, -, -⟩, -⟩ := gov_access hytr hy hstores.1
        obtain ⟨g, hg, v, haddr, -⟩ := net_access hxtr hx
        exact absurd (haddr.symm.trans (hstores.2.symm.trans hrate)) (patchCfg_apart target ulongBits env g hg)
  have hanswer : ∀ {P : PatchAccess → U32 → Prop}, Guarded x.who P (patched target ulongBits env m acts).trace →
      ∃ v before between, P x v ∧ LastAccess pre before ⟨x.who, false, x.addr, v⟩ between ∧
        (after m pre x.addr = v ∨ ∃ y ∈ between, y.who = .game ∧ y.StoresTo x.addr) := by
    intro P hguard
    obtain ⟨v, before, between, hP, hpre, hreplaced⟩ := hguard.replaces hok.coherent hsplit rfl hstore
    refine ⟨v, before, between, hP, hpre, hreplaced.imp_right fun ⟨y, hy, hne, hstores⟩ => ⟨y, hy, ?_, hstores⟩⟩
    exact hgame y (hpre.split ▸ List.mem_append_right before (List.mem_cons_of_mem _ hy)) hne hstores
  cases hx : x.who with
  | game => exact absurd hx hwho
  | gov =>
    obtain ⟨v, before, between, hP, hpre, hreplaced⟩ := hanswer (hx.symm ▸ hok.govGuarded)
    exact ⟨v, before, between, hx ▸ hpre, Or.inl ⟨rfl, hP⟩, hreplaced⟩
  | net =>
    obtain ⟨v, before, between, hP, hpre, hreplaced⟩ := hanswer (hx.symm ▸ hok.netGuarded)
    exact ⟨v, before, between, hx ▸ hpre, Or.inr ⟨rfl, hP⟩, hreplaced⟩

/-- A main module whose code is the signature. -/
def sampleImage : PeImage := ⟨0x5a4d, 0x4550, [⟨textName ++ [0, 0, 0], kGovSig⟩]⟩

/-- The game stores 5000 after the thread has loaded the sentinel. -/
def overtakenActs : List PatchAct :=
  [.gov (some sampleImage) 0, .gov none 100, .game kGovRateAddr 5000, .gov none 100, .gov none 100]

theorem patch_replaces_overtaken :
    let c := patchCfg true 32 fun _ => none
    let pre : List PatchAccess := [⟨.gov, false, kGovRateAddr, 4000⟩, ⟨.game, true, kGovRateAddr, 5000⟩]
    let x : PatchAccess := ⟨.gov, true, kGovRateAddr, 40000⟩
    (patchRun c (fun _ => 4000) overtakenActs).trace = pre ++ x :: [] ∧ after (fun _ => 4000) pre kGovRateAddr = 5000 ∧
      ∃ v before between, LastAccess pre before ⟨x.who, false, x.addr, v⟩ between ∧
        (x.who = .gov ∧ GovAnswer c x v ∨ x.who = .net ∧ NetAnswer c x v) ∧
        (after (fun _ => 4000) pre x.addr = v ∨ ∃ y ∈ between, y.who = .game ∧ y.StoresTo x.addr) :=
  have hsplit : (patchRun (patchCfg true 32 fun _ => none) (fun _ => 4000) overtakenActs).trace =
      [⟨.gov, false, kGovRateAddr, 4000⟩, ⟨.game, true, kGovRateAddr, 5000⟩] ++ ⟨.gov, true, kGovRateAddr, 40000⟩ :: [] := by
    decide +kernel
  ⟨hsplit, by decide +kernel, patch_replaces true 32 (fun _ => none) (fun _ => 4000) overtakenActs _ _ _ hsplit (by decide)
    rfl⟩

/-- **What the table comes to.** An entry of which a pass first loaded something implausible stays the game's for good.
One that was plausible has the requested value whenever the thread is between two passes, unless the game has stored to
it since the thread last looked. -/
theorem patch_settles (target : Bool) (ulongBits : Nat) (env : Environment) (m : Memory) (acts : List PatchAct)
    (g : NetGlobal) (hg : g ∈ (patchCfg target ulongBits env).table) (v : U32)
    (hfirst : firstBy .net g.va (patchRun (patchCfg target ulongBits env) m acts).trace = some ⟨.net, false, g.va, v⟩) :
    let p := patchRun (patchCfg target ulongBits env) m acts
    ((v < g.lo ∨ g.hi < v) → p.mem g.va = gameMemory m acts g.va) ∧
      (g.lo ≤ v ∧ v ≤ g.hi → ∀ t, p.net = .polling t → p.mem g.va = g.want ∨
        ∃ pre x post, LastAccess p.trace pre x post ∧ x.who = .net ∧ x.addr = g.va ∧ x.value = g.want ∧
          ∃ y ∈ post, y.who = .game ∧ y.StoresTo g.va) := by
  intro p
  have hok := patched_ok target ulongBits env m acts
  have hd := patchCfg_distinct target ulongBits env
  have hf := configure_fresh ulongBits env
  have hmem : p.mem = after m p.trace := hok.mem
  have hgov : ∀ y ∈ p.trace, y.who = .gov → ¬ y.StoresTo g.va := fun y hy hwho hstores => by
    obtain ⟨⟨hrate, -, -⟩, -⟩ := gov_access hy hwho hstores.1
    exact patchCfg_apart target ulongBits env g hg (hstores.2.symm.trans hrate)
  have hnet : ∀ y ∈ p.trace, y.who = .net → y.StoresTo g.va → g.lo ≤ v ∧ v ≤ g.hi := fun y hy hwho hstores => by
    obtain ⟨g', hg', v', haddr, -, hfirst', hanswer⟩ := net_access hy hwho
    obtain rfl : g' = g := List.inj_on_of_nodup_map hd hg' hg (haddr.symm.trans hstores.2)
    obtain rfl : v' = v := congrArg Access.value (Option.some.inj (hfirst'.symm.trans hfirst))
    obtain ⟨hlo, hhi, -⟩ := hanswer hstores.1
    exact ⟨hlo, hhi⟩
  refine ⟨fun hout => ?_, fun ⟨hlo, hhi⟩ t hphase => ?_⟩
  · rw [hmem]
    rcases Shared.after_confined m p.trace .game g.va with hgame | ⟨x, hx, hother, hstores, -⟩
    · rw [hgame, show p.trace.filter (fun x => x.who = .game) = acts.filterMap PatchAct.access? from hok.game, game_after]
    · cases hwho : x.who with
      | game => exact absurd hwho hother
      | gov => exact absurd hstores (hgov x hx hwho)
      | net =>
        obtain ⟨hlo, hhi⟩ := hnet x hx hwho hstores
        rcases hout with hlt | hlt
        · exact absurd hlt (BitVec.not_lt.mpr hlo)
        · exact absurd hlt (BitVec.not_lt.mpr hhi)
  · have hphases : PassesOk (patchCfg target ulongBits env) (p.trace.filter fun x => x.who = .net) p.net := hok.net
    rw [hphase] at hphases
    obtain ⟨ms, -, hmine⟩ := hphases
    rw [← Shared.firstBy_filter, show List.filter _ _ = _ from hmine] at hfirst
    cases ms with
    | nil => cases hfirst
    | cons first rest =>
      have hw : g.want ≠ 0 := by
        have hmem := List.mem_of_find?_eq_some hfirst
        obtain ⟨-, g', hg', haddr, hw, -⟩ := mem_netAccesses hd hf hmem
        rwa [List.inj_on_of_nodup_map hd hg' hg haddr.symm] at hw
      have hseen : first g.va = v := by
        rw [firstBy_netAccesses hd hf hg hw] at hfirst
        exact congrArg Access.value (Option.some.inj hfirst)
      obtain ⟨x, hlast, hvalue⟩ : ∃ x,
          Shared.lastBy .net g.va (netAccesses (patchCfg target ulongBits env).table (first :: rest)) = some x ∧
            x.value = g.want := lastBy_netAccesses hd hf hg ⟨hw, hseen ▸ hlo, hseen ▸ hhi⟩
      rw [← hmine, Shared.lastBy_filter] at hlast
      obtain ⟨hwho, haddr, pre, post, haccess⟩ := Shared.lastAccess_of_lastBy hlast
      have hholds := haccess.holds hok.coherent
      rw [← show p.mem = _ from hmem, haddr, hvalue] at hholds
      refine hholds.imp_right fun ⟨y, hy, hne, hstores⟩ => ⟨pre, x, post, haccess, hwho, haddr, hvalue, y, hy, ?_, hstores⟩
      have hytr : y ∈ p.trace := by
        rw [haccess.split]
        exact List.mem_append_right pre (List.mem_cons_of_mem x hy)
      cases hy' : y.who with
      | game => rfl
      | gov => exact absurd hstores (hgov y hytr hy')
      | net => exact absurd (hy'.trans hwho.symm) hne

/-- One whole pass, which finds 1000 everywhere. -/
def onePass : List PatchAct := List.replicate 22 (.net (some sampleImage))

theorem onePass_entry : 1 < (patchCfg true 32 fun _ => none).table.length := by decide +kernel

theorem patch_settles_onePass :
    let c := patchCfg true 32 fun _ => none
    let p := patchRun c (fun _ => 1000) onePass
    ∃ g ∈ c.table, firstBy .net g.va p.trace = some ⟨.net, false, g.va, 1000⟩ ∧ p.mem g.va = 320000 ∧
      ((1000 < g.lo ∨ g.hi < 1000) → p.mem g.va = gameMemory (fun _ => 1000) onePass g.va) ∧
      (g.lo ≤ 1000 ∧ 1000 ≤ g.hi → ∀ t, p.net = .polling t → p.mem g.va = g.want ∨
        ∃ pre x post, LastAccess p.trace pre x post ∧ x.who = .net ∧ x.addr = g.va ∧ x.value = g.want ∧
          ∃ y ∈ post, y.who = .game ∧ y.StoresTo g.va) :=
  have hfirst : firstBy .net ((patchCfg true 32 fun _ => none).table.get ⟨1, onePass_entry⟩).va
      (patchRun (patchCfg true 32 fun _ => none) (fun _ => 1000) onePass).trace =
        some ⟨.net, false, ((patchCfg true 32 fun _ => none).table.get ⟨1, onePass_entry⟩).va, 1000⟩ := by
    decide +kernel
  ⟨_, List.get_mem _ _, hfirst, by decide +kernel,
    patch_settles true 32 (fun _ => none) (fun _ => 1000) onePass _ (List.get_mem _ _) 1000 hfirst⟩

/-- **The last line of the governor's thread** is right: it has stored as often as it counts bumps and rescues together,
what it saw last is what its last poll loaded, and its peak is the most that a poll loaded. -/
theorem patch_reports (target : Bool) (ulongBits : Nat) (env : Environment) (m : Memory) (acts : List PatchAct)
    (s : GovTraceState) (hreport : (patchRun (patchCfg target ulongBits env) m acts).gov.report? = some s) :
    let mine := (patchRun (patchCfg target ulongBits env) m acts).trace.filter fun x => x.who = .gov
    let loads := (mine.filter fun x => !x.store).map Access.value
    (mine.filter Access.store).length = s.bumps + s.floorRescues ∧ s.lastSeen = loads.getLastD 0 ∧
      s.peak.toNat = (loads.map BitVec.toNat).foldl max 0 := by
  intro mine loads
  have hgov := (patched_ok target ulongBits env m acts).gov
  have hreturned : (patched target ulongBits env m acts).gov = .returned (some s) := by
    cases hphase : (patched target ulongBits env m acts).gov with
    | returned s' => rw [← show s' = some s from (congrArg GovPhase.report? hphase).symm.trans hreport]
    | _ => exact absurd ((congrArg GovPhase.report? hphase).symm.trans hreport) nofun
  rw [hreturned] at hgov
  obtain ⟨t0, polls, ⟨w, rfl⟩, hmine⟩ := hgov
  obtain ⟨hlast, hpeak⟩ := final_seen (patchCfg target ulongBits env).gov t0 polls
  have hloads : loads = polls.map Prod.fst := by
    show List.map _ (List.filter _ mine) = _
    rw [show mine = _ from hmine]
    exact govAccesses_loads _ t0 polls
  refine ⟨?_, ?_, ?_⟩
  · rw [show mine = _ from hmine]
    exact govAccesses_stores _ t0 polls
  · rw [hloads]
    exact hlast
  · rw [hloads, List.map_map]
    exact hpeak

def bumpedActs : List PatchAct := overtakenActs ++ [.detach, .gov none 200]

abbrev bumpedOnce : Patch := patchRun (patchCfg true 32 fun _ => none) (fun _ => 4000) bumpedActs

theorem bumpedOnce_reports : bumpedOnce.gov.report?.isSome := by decide +kernel

theorem patch_reports_overtaken :
    let p := bumpedOnce
    let mine := p.trace.filter fun x => x.who = .gov
    let loads := (mine.filter fun x => !x.store).map Access.value
    ∃ s, p.gov.report? = some s ∧ s.bumps = 1 ∧ (mine.filter Access.store).length = s.bumps + s.floorRescues ∧
      s.lastSeen = loads.getLastD 0 ∧ s.peak.toNat = (loads.map BitVec.toNat).foldl max 0 :=
  ⟨_, (Option.some_get bumpedOnce_reports).symm, by decide +kernel, patch_reports true 32 (fun _ => none) (fun _ => 4000)
    bumpedActs _ (Option.some_get bumpedOnce_reports).symm⟩

end BzNet
