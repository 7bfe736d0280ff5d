import BzNet.Lib.Run
import Mathlib.Data.List.Destutter

/-!
# What the log says at the end of a session

`closesocket` writes the counters of a session to the log, and what it has not written by the time the process exits
`emit_session_stats_at_exit` writes, unless the kind of line has been there before.

* `closeLines`, `exitLines` : the lines of one close (`closeLines_kind`), and of the exit;
* `closes_lines` : the lines of all closes, which are the texts with repeats left out;
* `exitLines_kind` : the exit adds a line of a kind only where no close has written one;
* `session_end` : closes and exit together, and when the Windows proxy loses the line of the round trips.
-/

namespace BzNet

/-- The kinds of lines, each with its counters. -/
inductive StatKind where
  | reorder
  | send
  | dampen
  | rtt
deriving DecidableEq

inductive SessionLine where
  | stats (k : StatKind) (text : String)
  /-- The round trips of one peer. -/
  | peer (text : String)
  /-- The exit writes this before its first line. -/
  | note
  /-- The section was held at the exit, and the line is lost. -/
  | lost (k : StatKind)
deriving DecidableEq

structure SessionLog where
  /-- The `g_…_stats_logged` flags. -/
  logged : StatKind → Bool
  /-- `g_last_pace_line`, `g_last_dampen_line`; no line of theirs is empty. -/
  last : StatKind → Option String
  /-- The oldest first. -/
  lines : List SessionLine

def emptyLog : SessionLog := ⟨fun _ => false, fun _ => none, []⟩

def SessionLog.write (l : SessionLog) (lines : List SessionLine) : SessionLog := { l with lines := l.lines ++ lines }

/-- A line of counters, and the flag that it is there. -/
def SessionLog.writeStats (l : SessionLog) (k : StatKind) (text : String) : SessionLog :=
  { l with logged := Function.update l.logged k true, lines := l.lines ++ [.stats k text] }

def SessionLine.textOf (k : StatKind) : SessionLine → Option String
  | .stats k' text => if k' = k then some text else none
  | .peer _ => none
  | .note => none
  | .lost _ => none

def linesOf (k : StatKind) (lines : List SessionLine) : List String := lines.filterMap (·.textOf k)

/-! ## The closes -/

/-- A close, with the counters as they are written out at that moment. -/
structure CloseCall where
  /-- The socket is the one whose datagrams are reordered. -/
  reorderSock : Bool
  text : StatKind → String
  /-- The peers of the session that the close ends. -/
  peers : List String

/-- A text that was the last of its kind is not written again. -/
def repeated (l : SessionLog) (c : CloseCall) (k : StatKind) : Bool := l.last k = some (c.text k)

def SessionLog.remember (l : SessionLog) (c : CloseCall) (k : StatKind) : SessionLog :=
  if repeated l c k then l else { l with last := Function.update l.last k (some (c.text k)) }

/-- The lines of a close; `stats` is `g_reorder_stats`. -/
def closeLines (stats : Bool) (l : SessionLog) (c : CloseCall) : SessionLog :=
  let l := if c.reorderSock ∧ stats then l.writeStats .reorder (c.text .reorder) else l
  let haveDampen := stats && !repeated l c .dampen
  let havePace := stats && !repeated l c .send
  let l := if stats then (l.remember c .dampen).remember c .send else l
  let l := if havePace then l.writeStats .send (c.text .send) else l
  let l := if haveDampen then l.writeStats .dampen (c.text .dampen) else l
  l.write (c.peers.map .peer)

/-- All closes of a run of the game. -/
def closesLog (stats : Bool) (cs : List CloseCall) : SessionLog := cs.foldl (closeLines stats) emptyLog

/-! ## The exit -/

structure ExitCall where
  text : StatKind → String
  /-- The section that guards the counters can be taken. -/
  free : StatKind → Bool
  /-- `g_rtt.enabled` -/
  rttEnabled : Bool
  peers : List String

/-- The note, if it is the first line. -/
def noteLines (noted : Bool) : List SessionLine := if noted then [] else [.note]

/-- The block of one kind; `notes` is whether it writes the note first. -/
def exitBlock (e : ExitCall) (k : StatKind) (notes : Bool) (peers : List String) (s : SessionLog × Bool) :
    SessionLog × Bool :=
  if s.1.logged k then s
  else
    let l := s.1.write (if notes then noteLines s.2 else [])
    (if e.free k then (l.writeStats k (e.text k)).write (peers.map .peer) else l.write [.lost k], s.2 || notes)

def allLogged (linux : Bool) (e : ExitCall) (l : SessionLog) : Bool :=
  l.logged .reorder && l.logged .send && l.logged .dampen && (!linux || l.logged .rtt || !e.rttEnabled)

/-- `emit_session_stats_at_exit` -/
def exitLines (linux stats : Bool) (e : ExitCall) (l : SessionLog) : SessionLog :=
  if !stats then l
  else if allLogged linux e l then l
  else
    let s := exitBlock e .send true [] (exitBlock e .reorder true [] (l, false))
    let s := if e.rttEnabled then exitBlock e .rtt (!linux) e.peers s else s
    (exitBlock e .dampen true [] s).1

/-! ## Repeats left out -/

section Repeats
variable {α : Type} [DecidableEq α]

theorem destutter'_concat (xs : List α) (a b : α) :
    (xs ++ [b]).destutter' (· ≠ ·) a =
      xs.destutter' (· ≠ ·) a ++ if (a :: xs).getLast? = some b then [] else [b] := by
  induction xs generalizing a with
  | nil =>
    rw [List.nil_append, List.destutter'_singleton, List.destutter'_nil, List.getLast?_singleton]
    by_cases h : a = b
    · rw [if_neg (not_not_intro h), if_pos (congrArg some h)]
      rfl
    · rw [if_pos h, if_neg fun heq => h (Option.some.inj heq)]
      rfl
  | cons x xs ih =>
    rw [List.cons_append, List.getLast?_cons_cons]
    by_cases h : a = x
    · subst h
      rw [List.destutter'_cons_neg _ (not_not_intro rfl), List.destutter'_cons_neg _ (not_not_intro rfl), ih]
    · rw [List.destutter'_cons_pos _ h, List.destutter'_cons_pos _ h, ih]
      rfl

theorem destutter_concat (xs : List α) (b : α) :
    (xs ++ [b]).destutter (· ≠ ·) = xs.destutter (· ≠ ·) ++ if xs.getLast? = some b then [] else [b] := by
  cases xs with
  | nil => rfl
  | cons x xs => exact destutter'_concat xs x b

end Repeats

/-! ## One close -/

section Close
variable {l : SessionLog} {c : CloseCall} {k : StatKind}

@[simp] theorem linesOf_nil (k : StatKind) : linesOf k [] = [] := rfl

@[simp] theorem linesOf_append (k : StatKind) (xs ys : List SessionLine) :
    linesOf k (xs ++ ys) = linesOf k xs ++ linesOf k ys := List.filterMap_append

@[simp] theorem linesOf_cons (k : StatKind) (x : SessionLine) (xs : List SessionLine) :
    linesOf k (x :: xs) = (x.textOf k).toList ++ linesOf k xs := by
  cases h : x.textOf k with
  | none => exact List.filterMap_cons_none h
  | some text => exact List.filterMap_cons_some h

@[simp] theorem linesOf_peers (k : StatKind) (peers : List String) : linesOf k (peers.map .peer) = [] := by
  rw [linesOf, List.filterMap_map]
  exact List.filterMap_eq_nil_iff.mpr fun _ _ => rfl

/-- Which lines of counters a close writes. -/
def CloseCall.writes (l : SessionLog) (c : CloseCall) : StatKind → Bool
  | .reorder => c.reorderSock
  | .rtt => false
  | .send => !repeated l c .send
  | .dampen => !repeated l c .dampen

theorem writeStats_kind (b : Bool) (l : SessionLog) (k k' : StatKind) (text : String) :
    linesOf k (if b then l.writeStats k' text else l).lines = linesOf k l.lines ++ (if b ∧ k' = k then [text] else []) ∧
      (if b then l.writeStats k' text else l).logged k = (l.logged k || b && k' = k) := by
  cases b with
  | false => simp
  | true =>
    by_cases hk : k' = k
    · subst hk
      simp [SessionLog.writeStats, SessionLine.textOf]
    · simp [SessionLog.writeStats, SessionLine.textOf, hk, Ne.symm hk]

theorem writeStats_last (b : Bool) (l : SessionLog) (k : StatKind) (text : String) :
    (if b then l.writeStats k text else l).last = l.last := by
  cases b <;> rfl

theorem repeated_writeStats (b : Bool) (l : SessionLog) (c : CloseCall) (k k' : StatKind) (text : String) :
    repeated (if b then l.writeStats k' text else l) c k = repeated l c k := by
  cases b <;> rfl

theorem remember_lines (l : SessionLog) (c : CloseCall) (k : StatKind) : (l.remember c k).lines = l.lines := by
  unfold SessionLog.remember
  split <;> rfl

theorem remember_logged (l : SessionLog) (c : CloseCall) (k : StatKind) : (l.remember c k).logged = l.logged := by
  unfold SessionLog.remember
  split <;> rfl

theorem remember_self (l : SessionLog) (c : CloseCall) (k : StatKind) : (l.remember c k).last k = some (c.text k) := by
  unfold SessionLog.remember
  split
  · next h => exact of_decide_eq_true h
  · exact Function.update_self ..

theorem remember_other (l : SessionLog) (c : CloseCall) {k k' : StatKind} (hk : k ≠ k') :
    (l.remember c k').last k = l.last k := by
  unfold SessionLog.remember
  split
  · rfl
  · exact Function.update_of_ne hk ..

/-- What a close adds of each kind. -/
theorem closeLines_kind (l : SessionLog) (c : CloseCall) (k : StatKind) :
    linesOf k (closeLines true l c).lines = linesOf k l.lines ++ (if c.writes l k then [c.text k] else []) ∧
      (closeLines true l c).logged k = (l.logged k || c.writes l k) := by
  simp only [closeLines, SessionLog.write, linesOf_append, linesOf_peers, List.append_nil, Bool.true_and, if_true,
    and_true, writeStats_kind, repeated_writeStats, remember_lines, remember_logged]
  cases k <;> cases hr : c.reorderSock <;> simp [CloseCall.writes, hr]

theorem closeLines_last (hk : k = .send ∨ k = .dampen) (l : SessionLog) (c : CloseCall) :
    (closeLines true l c).last k = some (c.text k) := by
  simp only [closeLines, SessionLog.write, if_true, writeStats_last]
  rcases hk with rfl | rfl
  · exact remember_self ..
  · exact (remember_other _ _ (by decide)).trans (remember_self ..)

end Close

/-! ## All closes -/

section Closes
variable {k : StatKind}

theorem closesLog_concat (stats : Bool) (cs : List CloseCall) (c : CloseCall) :
    closesLog stats (cs ++ [c]) = closeLines stats (closesLog stats cs) c := by
  rw [closesLog, List.foldl_append]
  rfl

/-- The lines of the pacer and of the damper are the texts of the closes with repeats left out. -/
theorem closes_lines (hk : k = .send ∨ k = .dampen) (cs : List CloseCall) :
    linesOf k (closesLog true cs).lines = (cs.map (·.text k)).destutter (· ≠ ·) ∧
      (closesLog true cs).last k = (cs.map (·.text k)).getLast? ∧
      (closesLog true cs).logged k = !cs.isEmpty := by
  induction cs using List.reverseRecOn with
  | nil => exact ⟨rfl, rfl, rfl⟩
  | append_singleton cs c ih =>
    obtain ⟨hlines, hlast, hlogged⟩ := ih
    obtain ⟨hlines', hlogged'⟩ := closeLines_kind (closesLog true cs) c k
    have hwrites : c.writes (closesLog true cs) k = !decide ((cs.map (·.text k)).getLast? = some (c.text k)) := by
      rw [← hlast]
      rcases hk with rfl | rfl <;> rfl
    rw [closesLog_concat, hlines', closeLines_last hk, hlogged', hwrites, hlines, hlogged, List.map_append]
    refine ⟨?_, List.getLast?_concat.symm, ?_⟩
    · rw [List.map_singleton, destutter_concat]
      generalize (cs.map (·.text k)).getLast? = last
      by_cases hsame : last = some (c.text k) <;> simp [hsame]
    · cases cs with
      | nil => rfl
      | cons c' cs => rfl

theorem closes_reorder (cs : List CloseCall) :
    linesOf .reorder (closesLog true cs).lines = (cs.filter (·.reorderSock)).map (·.text .reorder) ∧
      (closesLog true cs).logged .reorder = cs.any (·.reorderSock) := by
  induction cs using List.reverseRecOn with
  | nil => exact ⟨rfl, rfl⟩
  | append_singleton cs c ih =>
    obtain ⟨hlines, hlogged⟩ := closeLines_kind (closesLog true cs) c .reorder
    rw [closesLog_concat, hlines, hlogged, ih.1, ih.2, List.filter_append, List.map_append, List.any_append]
    cases hr : c.reorderSock with
    | true => simp [CloseCall.writes, hr]
    | false => simp [CloseCall.writes, hr]

theorem closes_rtt (cs : List CloseCall) :
    linesOf .rtt (closesLog true cs).lines = [] ∧ (closesLog true cs).logged .rtt = false := by
  induction cs using List.reverseRecOn with
  | nil => exact ⟨rfl, rfl⟩
  | append_singleton cs c ih =>
    obtain ⟨hlines, hlogged⟩ := closeLines_kind (closesLog true cs) c .rtt
    rw [closesLog_concat, hlines, hlogged, ih.1, ih.2]
    exact ⟨rfl, rfl⟩

end Closes

/-! ## The exit -/

section Exit
variable {e : ExitCall} {k : StatKind}

@[simp] theorem linesOf_note (k : StatKind) (noted : Bool) : linesOf k (noteLines noted) = [] := by
  cases noted <;> rfl

theorem exitBlock_self (e : ExitCall) (k : StatKind) (notes : Bool) (peers : List String) (s : SessionLog × Bool) :
    linesOf k (exitBlock e k notes peers s).1.lines =
      linesOf k s.1.lines ++ if s.1.logged k = false ∧ e.free k = true then [e.text k] else [] := by
  rw [exitBlock]
  cases hl : s.1.logged k with
  | true => simp
  | false =>
    cases hf : e.free k <;> cases notes <;>
      simp [SessionLog.write, SessionLog.writeStats, SessionLine.textOf]

theorem exitBlock_other (e : ExitCall) {k k' : StatKind} (hk : k' ≠ k) (notes : Bool) (peers : List String)
    (s : SessionLog × Bool) :
    linesOf k (exitBlock e k' notes peers s).1.lines = linesOf k s.1.lines ∧
      (exitBlock e k' notes peers s).1.logged k = s.1.logged k := by
  rw [exitBlock]
  cases hl : s.1.logged k' with
  | true => exact ⟨rfl, rfl⟩
  | false =>
    cases hf : e.free k' <;> cases notes <;>
      simp [SessionLog.write, SessionLog.writeStats, SessionLine.textOf, hk, hk.symm]

/-- What the exit adds of each kind. -/
theorem exitLines_kind (linux : Bool) (e : ExitCall) (l : SessionLog) (k : StatKind) :
    linesOf k (exitLines linux true e l).lines = linesOf k l.lines ++
      if allLogged linux e l = false ∧ l.logged k = false ∧ e.free k = true ∧ (k = .rtt → e.rttEnabled = true) then
        [e.text k]
      else [] := by
  rw [exitLines]
  cases hall : allLogged linux e l with
  | true => simp
  | false =>
    cases he : e.rttEnabled <;> cases k <;> simp [exitBlock_self, exitBlock_other]

/-- **The end of a session in the log.** Take any closes, each at a moment when the counters have some text, and then the
exit of the process. The lines of the pacer are the texts of the closes with repeats left out, and those of the damper;
the exit adds the last text only if there was no close at all. The reorder buffer has a line for each close of its socket,
or one at the exit. The round trips have a line at the exit; but on Windows they have none once the reorder buffer has. -/
theorem session_end (linux : Bool) (cs : List CloseCall) (e : ExitCall) :
    let lines k := linesOf k (exitLines linux true e (closesLog true cs)).lines
    (∀ k, k = .send ∨ k = .dampen → lines k = (cs.map (·.text k)).destutter (· ≠ ·) ++
      if cs = [] ∧ e.free k = true then [e.text k] else []) ∧
    (lines .reorder = (cs.filter (·.reorderSock)).map (·.text .reorder) ++
      if cs.any (·.reorderSock) = false ∧ e.free .reorder = true then [e.text .reorder] else []) ∧
    lines .rtt = if e.rttEnabled = true ∧ e.free .rtt = true ∧ (linux = true ∨ cs.any (·.reorderSock) = false) then
      [e.text .rtt] else [] := by
  intro lines
  have hlines : ∀ k, lines k = _ := fun k => exitLines_kind linux e (closesLog true cs) k
  have hall : allLogged linux e (closesLog true cs) = (cs.any (·.reorderSock) && (!linux || !e.rttEnabled)) := by
    rw [allLogged, (closes_reorder cs).2, (closes_lines (.inl rfl) cs).2.2, (closes_lines (.inr rfl) cs).2.2,
      (closes_rtt cs).2]
    cases cs with
    | nil => rfl
    | cons c cs => simp
  refine ⟨fun k hk => ?_, ?_, ?_⟩
  · rw [hlines, (closes_lines hk cs).1, (closes_lines hk cs).2.2, hall]
    cases cs with
    | nil => rcases hk with rfl | rfl <;> simp
    | cons c cs => simp
  · rw [hlines, (closes_reorder cs).1, (closes_reorder cs).2, hall]
    cases hr : cs.any (·.reorderSock) <;> simp
  · rw [hlines, (closes_rtt cs).1, (closes_rtt cs).2, hall]
    cases hr : cs.any (·.reorderSock) <;> cases linux <;> cases he : e.rttEnabled <;> simp

end Exit

end BzNet
