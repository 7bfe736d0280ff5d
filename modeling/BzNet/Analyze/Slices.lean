import BzNet.Lib.Cuts
import BzNet.Lib.Text

/-!
# The matches of a log

`all_match_slices` and `session_slice` of `analyze_drops.py`: where the matches of a BZLogger file begin and end.

* `launches` : the launch lines, each with its position, lobby and map;
* `allMatchSlices`, `sessionSlice` : every match, and the one that a part of the lobby's name picks;
* `matchSlice` : from a launch line to the first match end or launch behind it. Every slice is one
  (`allMatchSlices_eq`), and so is the session's unless a process restart cuts it (`sessionSlice_chosen`);
* `SlicesAgree` : the session is the slice of its launch, and the slices are in order with one launch line each;
* `slices_agree_iff` : **they agree unless the last match has no end line and the process restarts behind it**.
-/

namespace BzNet.Analyze

/-! ## Lines -/

/-- The two groups of a launch line. -/
structure Launch where
  lobby : List Char
  mapname : List Char
deriving DecidableEq

/-- `, Map ([^,\s]+)` at the beginning of a text. -/
def mapGroup (s : List Char) : Option (List Char) :=
  ((s.dropPrefix? ", Map ".toList).map fun r => r.takeWhile fun c => c != ',' && !Text.isSpace c).filter
    fun m => !m.isEmpty

/-- `(.+?), Map ([^,\s]+)` at the beginning of a text: the shortest lobby that a map follows. -/
def launchGroups : List Char → Option Launch
  | [] => none
  | c :: s =>
    if c = '\n' then none
    else ((mapGroup s).map fun m => ⟨[c], m⟩).or ((launchGroups s).map fun g => ⟨c :: g.lobby, g.mapname⟩)

/-- `Launching Network Game (.+?), Map ([^,\s]+)`, anywhere in a line. -/
def LAUNCH_RE (line : List Char) : Option Launch :=
  Text.search (fun s => (s.dropPrefix? "Launching Network Game ".toList).bind launchGroups) line

def START_RE (line : List Char) : Bool := Text.contains "Starting BattleZone 98 Redux".toList line

/-- The player returning to the shell. -/
def MATCH_END_RE (line : List Char) : Bool :=
  Text.contains "SetRunning: was RUN_STARTED, now RUN_WAS_QUIT".toList line

/-! ## Slices -/

/-- The lines from `startIdx` on and before `endIdx`. -/
structure Slice where
  startIdx : Nat
  endIdx : Nat
  lobby : Option (List Char)
  mapname : Option (List Char)
deriving DecidableEq

def launches (lines : List (List Char)) : List (Nat × Launch) := Cuts.marks LAUNCH_RE lines

def allMatchSlices (lines : List (List Char)) : List Slice :=
  (launches lines).mapIdx fun k x =>
    let limit := (launches lines)[k + 1]?.elim lines.length fun y => y.1
    let endIdx := (Cuts.firstIn MATCH_END_RE lines (x.1 + 1) limit).getD limit
    ⟨x.1, endIdx, some x.2.lobby, some x.2.mapname⟩

/-- The last launch whose lobby has the text, or else the last launch; an empty text is no filter. -/
def chosenLaunch (launchSubstr : Option (List Char)) (launches : List (Nat × Launch)) : Option (Nat × Launch) :=
  (launchSubstr.filter fun s => !s.isEmpty).elim launches.getLast? fun s =>
    ((launches.filter fun x => Text.contains s x.2.lobby).getLast?).or launches.getLast?

def sessionSlice (lines : List (List Char)) (launchSubstr : Option (List Char)) : Slice :=
  (chosenLaunch launchSubstr (launches lines)).elim ⟨0, lines.length, none, none⟩ fun x =>
    let found := Cuts.firstIn (fun l => MATCH_END_RE l || Cuts.isMark LAUNCH_RE l) lines (x.1 + 1) lines.length
    let endIdx := found.getD ((Cuts.firstIn START_RE lines (x.1 + 1) lines.length).getD lines.length)
    ⟨x.1, endIdx, some x.2.lobby, some x.2.mapname⟩

/-! ## One launch, one match -/

section Match
variable {lines : List (List Char)} {launchSubstr : Option (List Char)} {x : Nat × Launch}

def matchSlice (lines : List (List Char)) (x : Nat × Launch) : Slice :=
  ⟨x.1, Cuts.cut MATCH_END_RE LAUNCH_RE lines x, some x.2.lobby, some x.2.mapname⟩

theorem allMatchSlices_eq (lines : List (List Char)) :
    allMatchSlices lines = (launches lines).map (matchSlice lines) := by
  apply List.ext_getElem?
  intro k
  rw [allMatchSlices, List.getElem?_mapIdx, List.getElem?_map]
  cases hx : (launches lines)[k]? with
  | none => rfl
  | some x =>
    have hcut := Cuts.firstOr_next (p := MATCH_END_RE) hx
    rw [Cuts.firstOr] at hcut
    simp only [Option.map_some, matchSlice, ← hcut, launches]

/-- Behind the launch there is no match end and no launch, but a process start. -/
def CutByRestart (lines : List (List Char)) (x : Nat × Launch) : Prop :=
  (∀ j, x.1 < j → ¬ Cuts.Holds MATCH_END_RE lines j ∧ ¬ Cuts.Holds (Cuts.isMark LAUNCH_RE) lines j) ∧
    ∃ j, x.1 < j ∧ Cuts.Holds START_RE lines j

/-- **The session is the match of the launch it picked**, unless a process start cuts it. -/
theorem sessionSlice_chosen (h : chosenLaunch launchSubstr (launches lines) = some x) :
    sessionSlice lines launchSubstr = matchSlice lines x ↔ ¬ CutByRestart lines x := by
  rw [sessionSlice, h, Option.elim_some, matchSlice, Cuts.cut, Cuts.firstOr]
  cases hfound : Cuts.firstIn (fun l => MATCH_END_RE l || Cuts.isMark LAUNCH_RE l) lines (x.1 + 1) lines.length with
  | some j =>
    obtain ⟨hlt, -, hhold, -⟩ := Cuts.firstIn_eq_some.mp hfound
    refine iff_of_true rfl fun hcut => ?_
    rcases Cuts.holds_or.mp hhold with hend | hlaunch
    · exact (hcut.1 j hlt).1 hend
    · exact (hcut.1 j hlt).2 hlaunch
  | none =>
    have hnone : ∀ j, x.1 < j → ¬ Cuts.Holds MATCH_END_RE lines j ∧ ¬ Cuts.Holds (Cuts.isMark LAUNCH_RE) lines j := by
      intro j hj
      rw [← not_or, ← Cuts.holds_or]
      exact fun hhold => Cuts.firstIn_eq_none.mp hfound j hj hhold.lt hhold
    cases hstart : Cuts.firstIn START_RE lines (x.1 + 1) lines.length with
    | some j =>
      obtain ⟨hj, hlt, hhold, -⟩ := Cuts.firstIn_eq_some.mp hstart
      refine iff_of_false ?_ (not_not_intro ⟨hnone, j, hj, hhold⟩)
      simpa using Nat.ne_of_lt hlt
    | none =>
      refine iff_of_true rfl ?_
      rintro ⟨-, j, hj, hhold⟩
      exact Cuts.firstIn_eq_none.mp hstart j hj hhold.lt hhold

end Match

/-! ## The launch that is picked -/

/-- Whether the filter picks the last launch: there is none, the last lobby has the text, or no lobby has it. -/
def selectsLast (launchSubstr : Option (List Char)) (launches : List (Nat × Launch)) : Bool :=
  launchSubstr.all fun s => s.isEmpty || launches.getLast?.any (fun x => Text.contains s x.2.lobby) ||
    !launches.any fun x => Text.contains s x.2.lobby

section Chosen
variable {launchSubstr : Option (List Char)} {ls : List (Nat × Launch)} {x : Nat × Launch}

theorem chosenLaunch_mem (h : chosenLaunch launchSubstr ls = some x) : x ∈ ls := by
  rw [chosenLaunch] at h
  cases hf : launchSubstr.filter fun s => !s.isEmpty with
  | none =>
    rw [hf, Option.elim_none] at h
    exact List.mem_of_getLast? h
  | some s =>
    rw [hf, Option.elim_some, Option.or_eq_some_iff] at h
    rcases h with hin | ⟨-, hlast⟩
    · exact List.mem_of_mem_filter (List.mem_of_getLast? hin)
    · exact List.mem_of_getLast? hlast

theorem chosenLaunch_isSome (h : ls ≠ []) : ∃ x, chosenLaunch launchSubstr ls = some x := by
  have hlast : ls.getLast?.isSome := by rwa [List.getLast?_isSome]
  rw [← Option.isSome_iff_exists, chosenLaunch]
  cases launchSubstr.filter fun s => !s.isEmpty with
  | none => exact hlast
  | some s => rw [Option.elim_some, Option.isSome_or, hlast, Bool.or_true]

theorem chosenLaunch_last (hlast : ls.getLast? = some x) :
    chosenLaunch launchSubstr ls = some x ↔ selectsLast launchSubstr ls = true := by
  cases launchSubstr with
  | none => exact iff_of_true hlast rfl
  | some s =>
    cases hs : s.isEmpty with
    | true =>
      rw [chosenLaunch, selectsLast, Option.filter_some_neg (by simp [hs]), Option.elim_none, Option.all_some, hs]
      exact iff_of_true hlast rfl
    | false =>
      rw [chosenLaunch, selectsLast, Option.filter_some_pos (by simp [hs]), Option.elim_some, Option.all_some, hs,
        Bool.false_or, hlast, Option.any_some]
      cases hin : (ls.filter fun x => Text.contains s x.2.lobby).getLast? with
      | none =>
        rw [List.getLast?_eq_none_iff, List.filter_eq_nil_iff] at hin
        refine iff_of_true rfl ?_
        rw [List.any_eq_false.mpr hin, Bool.not_false, Bool.or_true]
      | some y =>
        have hy := List.mem_filter.mp (List.mem_of_getLast? hin)
        rw [List.any_eq_true.mpr ⟨y, hy⟩, Bool.not_true, Bool.or_false, Option.some_or, Option.some.injEq]
        constructor
        · rintro rfl
          exact hy.2
        · intro hx
          obtain ⟨init, rfl⟩ := List.getLast?_eq_some_iff.mp hlast
          rw [List.filter_append, List.filter_singleton, hx, cond_true, List.getLast?_concat, Option.some.injEq] at hin
          exact hin.symm

end Chosen

/-- The filter picks the last launch, no match end stands behind it, and a process start does. -/
structure RestartEndsLog (lines : List (List Char)) (launchSubstr : Option (List Char)) : Prop where
  selected : selectsLast launchSubstr (launches lines) = true
  noEnd : ∀ x ∈ (launches lines).getLast?, ∀ j, x.1 < j → ¬ Cuts.Holds MATCH_END_RE lines j
  restart : ∃ x ∈ (launches lines).getLast?, ∃ j, x.1 < j ∧ Cuts.Holds START_RE lines j

theorem cutByRestart_iff {lines : List (List Char)} {launchSubstr : Option (List Char)} {x : Nat × Launch}
    (h : chosenLaunch launchSubstr (launches lines) = some x) :
    CutByRestart lines x ↔ RestartEndsLog lines launchSubstr := by
  have hmem := chosenLaunch_mem h
  constructor
  · rintro ⟨hnone, hstart⟩
    have hlast : (launches lines).getLast? = some x := (Cuts.getLast?_marks hmem).mpr fun j hj => (hnone j hj).2
    refine ⟨(chosenLaunch_last hlast).mp h, ?_, x, hlast, hstart⟩
    intro y hy j hj
    rw [hlast, Option.mem_some_iff] at hy
    exact (hnone j (hy ▸ hj)).1
  · rintro ⟨hsel, hno, y, hy, hstart⟩
    have hxy : x = y := by
      have hlast := (chosenLaunch_last hy).mpr hsel
      rw [h] at hlast
      exact Option.some.inj hlast
    subst hxy
    exact ⟨fun j hj => ⟨hno x hy j hj, (Cuts.getLast?_marks hmem).mp hy j hj⟩, hstart⟩

/-! ## Agreement -/

/-- What the two functions promise each other. -/
structure SlicesAgree (lines : List (List Char)) (launchSubstr : Option (List Char)) : Prop where
  agree : ∃ (k : Nat) (x : Nat × Launch), chosenLaunch launchSubstr (launches lines) = some x ∧
    (launches lines)[k]? = some x ∧ (allMatchSlices lines)[k]? = some (sessionSlice lines launchSubstr)
  ordered : (allMatchSlices lines).Pairwise fun s t => s.endIdx ≤ t.startIdx
  inside : ∀ s ∈ allMatchSlices lines, s.startIdx < s.endIdx ∧ s.endIdx ≤ lines.length
  launch : ∀ s ∈ allMatchSlices lines, ∀ j, s.startIdx ≤ j → j < s.endIdx →
    (Cuts.Holds (Cuts.isMark LAUNCH_RE) lines j ↔ j = s.startIdx)

theorem allMatchSlices_ordered (lines : List (List Char)) :
    (allMatchSlices lines).Pairwise fun s t => s.endIdx ≤ t.startIdx := by
  rw [allMatchSlices_eq, List.pairwise_map]
  exact Cuts.cut_pairwise MATCH_END_RE LAUNCH_RE lines

theorem mem_allMatchSlices {lines : List (List Char)} {s : Slice} (h : s ∈ allMatchSlices lines) :
    ∃ x ∈ launches lines, s = matchSlice lines x := by
  rw [allMatchSlices_eq, List.mem_map] at h
  obtain ⟨x, hx, rfl⟩ := h
  exact ⟨x, hx, rfl⟩

/-- **The two slicers agree** on every log with a launch, unless the session is the last match, that match has no end
line, and the process restarts behind it. -/
theorem slices_agree_iff (lines : List (List Char)) (launchSubstr : Option (List Char)) (h : launches lines ≠ []) :
    SlicesAgree lines launchSubstr ↔ ¬ RestartEndsLog lines launchSubstr := by
  obtain ⟨x, hx⟩ := @chosenLaunch_isSome launchSubstr _ h
  rw [← cutByRestart_iff hx, ← sessionSlice_chosen hx]
  constructor
  · rintro ⟨⟨k, y, hy, hk, hslice⟩, -, -, -⟩
    rw [hx, Option.some.injEq] at hy
    subst hy
    rw [allMatchSlices_eq, List.getElem?_map, hk, Option.map_some, Option.some.injEq] at hslice
    exact hslice.symm
  · intro hsession
    refine ⟨?_, allMatchSlices_ordered lines, ?_, ?_⟩
    · obtain ⟨k, hk⟩ := List.mem_iff_getElem?.mp (chosenLaunch_mem hx)
      refine ⟨k, x, hx, hk, ?_⟩
      rw [allMatchSlices_eq, List.getElem?_map, hk, Option.map_some, hsession]
    · intro s hs
      obtain ⟨y, hy, rfl⟩ := mem_allMatchSlices hs
      exact ⟨Cuts.lt_cut hy, Cuts.cut_le hy⟩
    · intro s hs j hle hlt
      obtain ⟨y, hy, rfl⟩ := mem_allMatchSlices hs
      exact Cuts.cut_mark hy hle hlt

def endedLog : List (List Char) :=
  ["Launching Network Game duel, Map stars".toList, "SetRunning: was RUN_STARTED, now RUN_WAS_QUIT".toList,
    "Starting BattleZone 98 Redux".toList]

theorem slices_agree_ended : SlicesAgree endedLog none := by
  refine (slices_agree_iff endedLog none (by decide)).mpr ?_
  rintro ⟨-, hno, x, hx, -⟩
  have hlast : (launches endedLog).getLast? = some (0, ⟨"duel".toList, "stars".toList⟩) := by decide
  rw [hlast, Option.mem_some_iff] at hx
  exact hno x (hx ▸ hlast) 1 (hx ▸ Nat.zero_lt_one) (by decide)

def restartedLog : List (List Char) :=
  ["Launching Network Game duel, Map stars".toList, "Starting BattleZone 98 Redux".toList]

theorem slices_agree_restarted : launches restartedLog ≠ [] ∧ ¬ SlicesAgree restartedLog none := by
  refine ⟨by decide, ?_⟩
  rintro ⟨⟨k, x, -, -, hk⟩, -, -, -⟩
  have hsession : sessionSlice restartedLog none = ⟨0, 1, some "duel".toList, some "stars".toList⟩ := by decide
  have hall : allMatchSlices restartedLog = [⟨0, 2, some "duel".toList, some "stars".toList⟩] := by decide
  have hmem := List.mem_of_getElem? hk
  rw [hsession, hall] at hmem
  exact absurd hmem (by decide)

end BzNet.Analyze
