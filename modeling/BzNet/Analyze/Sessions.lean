import BzNet.Lib.Spans
import BzNet.Lib.Text

/-!
# The proxy sessions of a log

`proxy_log_health` and `match_proxy_session` of `analyze_drops.py`: the sessions of a proxy log, each from the previous
session's end to its own, and the one a match is scored against.

* `framing`, `sendStats` : the stamp in front of a line, the totals in a session's last line;
* `parseTs` : a stamp as a time, in whole seconds; `none` is an exception;
* `proxyLogHealth` : the sessions that sent anything (`proxyLogHealth_eq`), which are in order (`sessions_inOrder`);
* `matchProxySession` : the first session that the match touches (`firstOverlap_eq`);
* `match_scored_iff` : **a match is scored against the session that covers it exactly when** the first stamp is a time
  and the first session touched has as much of the match left as any later one.
-/

namespace BzNet.Analyze

/-! ## Lines -/

/-- `\d{4}-\d\d-\d\d \d\d:\d\d:\d\d\.`, with a zero for each digit. -/
def STAMP : List Char := "0000-00-00 00:00:00.".toList

/-- Whether a text begins like `form`, a zero of which stands for any digit. -/
def hasForm (form s : List Char) : Bool :=
  form.length ≤ s.length && (form.zip s).all fun x => if x.1 = '0' then Text.isDecimal x.2 else x.1 == x.2

/-- `^\[(\d{4}-\d\d-\d\d \d\d:\d\d:\d\d\.\d+)\]\[pid=(\d+)\] `: the stamp, the process, and the rest of the line. -/
def framing (line : List Char) : Option (List Char × List Char × List Char) := do
  let s ← (line.dropPrefix? "[".toList).filter (hasForm STAMP)
  let (fraction, t) ← Text.digitRun (s.drop STAMP.length)
  let t ← t.dropPrefix? "][pid=".toList
  let (pid, t) ← Text.digitRun t
  let t ← t.dropPrefix? "] ".toList
  some (s.take STAMP.length ++ fraction, pid, t)

/-- `session end: send_stats: packets=(\d+) bytes=(\d+)` at the beginning of a text. -/
def sendStats (s : List Char) : Option (Nat × Nat) := do
  let s ← s.dropPrefix? "session end: send_stats: packets=".toList
  let (packets, s) ← Text.digitRun s
  let s ← s.dropPrefix? " bytes=".toList
  let (bytes, _) ← Text.digitRun s
  some (Text.number packets, Text.number bytes)

def PROXY_TS_RE (line : List Char) : Option (List Char) := (framing line).map fun x => x.1

def SEND_STATS_RE (text : List Char) : Option (Nat × Nat) := Text.search sendStats text

/-- The groups of a session's last line. -/
structure SessionEnd where
  ts : List Char
  pid : Nat
  packets : Nat
  bytes : Nat
deriving DecidableEq

def SEND_STATS_LINE_RE (line : List Char) : Option SessionEnd := do
  let (ts, pid, s) ← framing line
  let (packets, bytes) ← sendStats s
  some ⟨ts, Text.number pid, packets, bytes⟩

/-! ## Times -/

/-- Microseconds since the beginning of the year 1. -/
abbrev Datetime := Nat

def isLeap (year : Nat) : Bool := year % 4 == 0 && (year % 100 != 0 || year % 400 == 0)

def daysInMonth (year month : Nat) : Nat :=
  [31, if isLeap year then 29 else 28, 31, 30, 31, 30, 31, 31, 30, 31, 30, 31].getD (month - 1) 0

/-- The days before a date. -/
def daysBefore (year month day : Nat) : Nat :=
  let y := year - 1
  y * 365 + y / 4 - y / 100 + y / 400 +
    (List.range' 1 (month - 1)).foldl (fun days m => days + daysInMonth year m) 0 + (day - 1)

def oneOf (cs : String) (c : Char) : Bool := cs.toList.contains c

/-- The two characters from `i` on as a number, if one of the alternatives of a directive takes them. -/
def field (s : List Char) (i : Nat) (alts : List ((Char → Bool) × (Char → Bool))) : Option Nat :=
  if alts.any fun alt => s[i]?.any alt.1 && s[i + 1]?.any alt.2 then some (Text.number ((s.drop i).take 2)) else none

/-- `strptime(s[:19], '%Y-%m-%d %H:%M:%S')` of a text in the form of a stamp; no others reach it. -/
def parseTs (s : List Char) : Option Datetime := do
  guard (hasForm (STAMP.take 19) s)
  let year := Text.number (s.take 4)
  let month ← field s 5 [(oneOf "1", oneOf "012"), (oneOf "0", oneOf "123456789")]
  let day ← field s 8 [(oneOf "3", oneOf "01"), (oneOf "12", Text.isDecimal), (oneOf "0", oneOf "123456789")]
  let hour ← field s 11 [(oneOf "2", oneOf "0123"), (oneOf "01", Text.isDecimal)]
  let minute ← field s 14 [(oneOf "012345", Text.isDecimal)]
  let second ← field s 17 [(oneOf "012345", Text.isDecimal)]
  guard (1 ≤ year ∧ day ≤ daysInMonth year month)
  some ((((daysBefore year month day * 24 + hour) * 60 + minute) * 60 + second) * 1000000)

/-! ## Sessions -/

structure ProxySession where
  pid : Nat
  start : List Char
  stop : List Char
  packets : Nat
  bytes : Nat
deriving DecidableEq

/-- The sessions with traffic; every session end bounds the next session, an empty one's as well. -/
def sessionsFrom (firstTs : Option (List Char)) : Option (List Char) → List SessionEnd → List ProxySession
  | _, [] => []
  | prevEnd, e :: es =>
    let start := prevEnd.getD (firstTs.getD e.ts)
    if e.packets ≠ 0 ∨ e.bytes ≠ 0 then ⟨e.pid, start, e.ts, e.packets, e.bytes⟩ :: sessionsFrom firstTs (some e.ts) es
    else sessionsFrom firstTs (some e.ts) es

def allSessions (lines : List (List Char)) : List SessionEnd := lines.filterMap SEND_STATS_LINE_RE

/-- The sessions `proxy_log_health` returns. -/
def proxyLogHealth (lines : List (List Char)) : List ProxySession :=
  let text := ['\n'].intercalate lines
  if (SEND_STATS_LINE_RE text).isSome || (SEND_STATS_RE text).isSome then
    sessionsFrom (lines.findSome? PROXY_TS_RE) none (allSessions lines)
  else []

def firstOverlap (w : Datetime × Datetime) : List ProxySession → Option (Option ProxySession)
  | [] => some none
  | s :: rest => do
    let sStart ← parseTs s.start
    let sEnd ← parseTs s.stop
    if w.1 ≤ sEnd ∧ sStart ≤ w.2 then some (some s) else firstOverlap w rest

def matchProxySession (sessions : List ProxySession) (window : Option (Datetime × Datetime)) :
    Option (Option ProxySession) :=
  window.elim (some none) fun w => firstOverlap w sessions

/-! ## The lines of the sessions -/

theorem framing_suffix {line ts pid t : List Char} (h : framing line = some (ts, pid, t)) : t <:+ line := by
  simp only [framing, Option.bind_eq_bind, Option.bind_eq_some_iff, Option.filter_eq_some_iff, Prod.exists,
    Option.some.injEq, Prod.mk.injEq] at h
  obtain ⟨s, ⟨hopen, -⟩, _, t1, hfraction, t2, hmiddle, _, t3, hpid, _, hclose, -, -, rfl⟩ := h
  have hstamp : t1 <:+ s := (Text.digitRun_suffix hfraction).trans (List.drop_suffix _ _)
  have hbehind : t3 <:+ t1 := (Text.digitRun_suffix hpid).trans (Text.dropPrefix?_suffix hmiddle)
  exact (Text.dropPrefix?_suffix hclose).trans (hbehind.trans (hstamp.trans (Text.dropPrefix?_suffix hopen)))

theorem sendStats_append {s : List Char} (h : (sendStats s).isSome) (u : List Char) : (sendStats (s ++ u)).isSome := by
  rw [Option.isSome_iff_exists] at h ⊢
  obtain ⟨totals, h⟩ := h
  simp only [sendStats, Option.bind_eq_bind, Option.bind_eq_some_iff, Text.dropPrefix?_eq_some, Prod.exists] at h ⊢
  obtain ⟨s1, rfl, packets, _, hpackets, s2, rfl, bytes, s3, hbytes, -⟩ := h
  -- the first run of digits ends at the blank, the second may go on behind the text
  have hfirst : Text.digitRun (s1 ++ u) = some (packets, " bytes=".toList ++ (s2 ++ u)) := by
    obtain ⟨hne, hdig, rfl, -⟩ := Text.digitRun_eq_some.mp hpackets
    refine Text.digitRun_eq_some.mpr ⟨hne, hdig, by simp only [List.append_assoc], fun c hc => ?_⟩
    rw [← Option.mem_some_iff.mp hc]
    rfl
  have hsecond : ∃ run, Text.digitRun (s2 ++ u) = some run := by
    obtain ⟨c, hc, hdig⟩ := Text.digitRun_isSome.mp (Option.isSome_iff_exists.mpr ⟨_, hbytes⟩)
    rw [← Option.isSome_iff_exists, Text.digitRun_isSome]
    exact ⟨c, by rw [List.head?_append, Option.mem_def.mp hc]; rfl, hdig⟩
  obtain ⟨⟨bytes', s3'⟩, hbytes'⟩ := hsecond
  exact ⟨_, _, s1 ++ u, List.append_assoc _ _ _, packets, _, hfirst, s2 ++ u, rfl, bytes', s3', hbytes', rfl⟩

/-- **The sessions of a log**: the test on the whole text in front passes whenever a line has something to offer. -/
theorem proxyLogHealth_eq (lines : List (List Char)) :
    proxyLogHealth lines = sessionsFrom (lines.findSome? PROXY_TS_RE) none (allSessions lines) := by
  rw [proxyLogHealth]
  cases hall : allSessions lines with
  | nil => split <;> rfl
  | cons e es =>
    have he : e ∈ allSessions lines := hall ▸ List.mem_cons_self
    obtain ⟨line, hline, hread⟩ := List.mem_filterMap.mp he
    simp only [SEND_STATS_LINE_RE, Option.bind_eq_bind, Option.bind_eq_some_iff, Prod.exists] at hread
    obtain ⟨ts, pid, t, hframe, packets, bytes, htotals, -⟩ := hread
    obtain ⟨a, b, htext⟩ := (framing_suffix hframe).isInfix.trans (Text.infix_intercalate hline ['\n'])
    have hsearch : (SEND_STATS_RE (['\n'].intercalate lines)).isSome := by
      rw [SEND_STATS_RE, Text.search_isSome, ← htext, List.append_assoc]
      exact ⟨t ++ b, List.suffix_append _ _, sendStats_append (by rw [htotals]; rfl) b⟩
    rw [hsearch, Bool.or_true, if_pos rfl]

/-! ## The sessions are in order -/

def time (stamp : List Char) : Datetime := (parseTs stamp).getD 0

def ProxySession.span (s : ProxySession) : Datetime × Datetime := (time s.start, time s.stop)

/-- The stamps of the session ends are times, and none is before an earlier one. -/
structure EndsInOrder (lines : List (List Char)) : Prop where
  times : ∀ e ∈ allSessions lines, (parseTs e.ts).isSome
  sorted : (allSessions lines).Pairwise fun e f => time e.ts ≤ time f.ts

section Sessions
variable {firstTs prev : Option (List Char)} {es : List SessionEnd} {s : ProxySession}

theorem mem_sessionsFrom_cons {e : SessionEnd} (h : s ∈ sessionsFrom firstTs prev (e :: es)) :
    s.start = prev.getD (firstTs.getD e.ts) ∧ s.stop = e.ts ∨ s ∈ sessionsFrom firstTs (some e.ts) es := by
  rw [sessionsFrom] at h
  split at h
  · rcases List.mem_cons.mp h with rfl | hs
    · exact Or.inl ⟨rfl, rfl⟩
    · exact Or.inr hs
  · exact Or.inr h

theorem sessionsFrom_stop (h : s ∈ sessionsFrom firstTs prev es) : ∃ e ∈ es, s.stop = e.ts := by
  induction es generalizing prev with
  | nil => exact absurd h List.not_mem_nil
  | cons e es ih =>
    rcases mem_sessionsFrom_cons h with ⟨-, hstop⟩ | hs
    · exact ⟨e, List.mem_cons_self, hstop⟩
    · obtain ⟨f, hf, hstop⟩ := ih hs
      exact ⟨f, List.mem_cons_of_mem e hf, hstop⟩

theorem sessionsFrom_start {p : List Char} (h : s ∈ sessionsFrom firstTs (some p) es) :
    s.start = p ∨ ∃ e ∈ es, s.start = e.ts := by
  induction es generalizing p with
  | nil => exact absurd h List.not_mem_nil
  | cons e es ih =>
    rcases mem_sessionsFrom_cons h with ⟨hstart, -⟩ | hs
    · exact Or.inl hstart
    · right
      rcases ih hs with he | ⟨f, hf, hstart⟩
      · exact ⟨e, List.mem_cons_self, he⟩
      · exact ⟨f, List.mem_cons_of_mem e hf, hstart⟩

theorem sessionsFrom_tail (h : s ∈ (sessionsFrom firstTs none es).tail) : ∃ e ∈ es, s.start = e.ts := by
  cases es with
  | nil => exact absurd h List.not_mem_nil
  | cons e es =>
    have hrest : s ∈ sessionsFrom firstTs (some e.ts) es := by
      rw [sessionsFrom] at h
      split at h
      · exact h
      · exact List.mem_of_mem_tail h
    rcases sessionsFrom_start hrest with he | ⟨f, hf, hstart⟩
    · exact ⟨e, List.mem_cons_self, he⟩
    · exact ⟨f, List.mem_cons_of_mem e hf, hstart⟩

theorem sessionsFrom_inOrder (h : es.Pairwise fun e f => time e.ts ≤ time f.ts) :
    Spans.InOrder ProxySession.span (sessionsFrom firstTs prev es) := by
  induction es generalizing prev with
  | nil => exact List.Pairwise.nil
  | cons e es ih =>
    obtain ⟨hle, hes⟩ := List.pairwise_cons.mp h
    rw [sessionsFrom]
    split
    · refine List.pairwise_cons.mpr ⟨?_, ih hes⟩
      intro s hs
      rcases sessionsFrom_start hs with hstart | ⟨f, hf, hstart⟩
      · exact Nat.le_of_eq (congrArg time hstart.symm)
      · exact Nat.le_trans (hle f hf) (Nat.le_of_eq (congrArg time hstart.symm))
    · exact ih hes

end Sessions

/-! ## The first session touched -/

section Matching
variable {w : Datetime × Datetime} {sessions : List ProxySession} {s : ProxySession}

/-- **The first session the match touches**, when all stamps are times. -/
theorem firstOverlap_eq (h : ∀ s ∈ sessions, (parseTs s.start).isSome ∧ (parseTs s.stop).isSome) :
    firstOverlap w sessions = some (Spans.firstTouched ProxySession.span w sessions) := by
  induction sessions with
  | nil => rfl
  | cons s rest ih =>
    obtain ⟨hstart, hstop⟩ := h s List.mem_cons_self
    obtain ⟨a, ha⟩ := Option.isSome_iff_exists.mp hstart
    obtain ⟨b, hb⟩ := Option.isSome_iff_exists.mp hstop
    have hspan : s.span = (a, b) := by rw [ProxySession.span, time, time, ha, hb, Option.getD_some, Option.getD_some]
    have htouch : Spans.touches w s.span = true ↔ w.1 ≤ b ∧ a ≤ w.2 := by rw [hspan, Spans.touches_iff]
    simp only [firstOverlap, ha, hb, Option.bind_eq_bind, Option.bind_some]
    by_cases ht : w.1 ≤ b ∧ a ≤ w.2
    · rw [if_pos ht, Spans.firstTouched_cons (htouch.mpr ht)]
    · rw [if_neg ht, Spans.firstTouched_skip (by rwa [← Bool.not_eq_true, htouch])]
      exact ih fun t hmem => h t (List.mem_cons_of_mem s hmem)

/-- A stamp that is no time is an exception. -/
theorem firstOverlap_none (h : s ∈ sessions.head?) (hstart : parseTs s.start = none) :
    firstOverlap w sessions = none := by
  obtain ⟨rest, rfl⟩ := List.head?_eq_some_iff.mp h
  rw [firstOverlap, hstart]
  rfl

/-- The match is scored against the session that covers it, and against none only if it touches none. -/
structure ScoredByCover (sessions : List ProxySession) (w : Datetime × Datetime) : Prop where
  returns : matchProxySession sessions (some w) ≠ none
  inside : ∀ s ∈ sessions, Spans.Inside w s.span → matchProxySession sessions (some w) = some (some s)
  longest : ∀ s, matchProxySession sessions (some w) = some (some s) →
    s ∈ sessions ∧ ∀ t ∈ sessions, Spans.shared w t.span ≤ Spans.shared w s.span
  unmatched : matchProxySession sessions (some w) = some none → ∀ s ∈ sessions, Spans.touches w s.span = false

/-- Over sessions in order, with times for stamps, the first touched one has to be the longest. -/
theorem scoredByCover_iff (htimes : ∀ s ∈ sessions, (parseTs s.start).isSome ∧ (parseTs s.stop).isSome)
    (hord : Spans.InOrder ProxySession.span sessions) (hw : w.1 < w.2) :
    ScoredByCover sessions w ↔ Spans.firstLongest ProxySession.span w sessions = true := by
  have hmatch : matchProxySession sessions (some w) = some (Spans.firstTouched ProxySession.span w sessions) :=
    firstOverlap_eq htimes
  rw [← Spans.longest_iff hord]
  constructor
  · intro hscored f hf
    exact (hscored.longest f (by rw [hmatch, hf])).2
  · intro hlong
    have hfirst := (Spans.longest_iff hord).mp hlong
    refine ⟨by rw [hmatch]; exact Option.some_ne_none _, ?_, ?_, ?_⟩
    · intro s hs hin
      rw [hmatch, Spans.firstTouched_inside hord hw hfirst hs hin]
    · intro s hs
      rw [hmatch, Option.some.injEq] at hs
      exact ⟨List.mem_of_find?_eq_some hs, hlong s hs⟩
    · intro hnone
      rw [hmatch, Option.some.injEq] at hnone
      exact Spans.firstTouched_eq_none.mp hnone

end Matching

/-! ## The sessions of a log -/

section Log
variable {lines : List (List Char)} {w : Datetime × Datetime} {s : ProxySession}

theorem sessions_inOrder (h : EndsInOrder lines) : Spans.InOrder ProxySession.span (proxyLogHealth lines) := by
  rw [proxyLogHealth_eq]
  exact sessionsFrom_inOrder h.sorted

theorem sessions_times (h : EndsInOrder lines)
    (hfirst : ∀ s ∈ (proxyLogHealth lines).head?, (parseTs s.start).isSome) (hs : s ∈ proxyLogHealth lines) :
    (parseTs s.start).isSome ∧ (parseTs s.stop).isSome := by
  rw [proxyLogHealth_eq] at hs hfirst
  constructor
  · cases hl : sessionsFrom (lines.findSome? PROXY_TS_RE) none (allSessions lines) with
    | nil =>
      rw [hl] at hs
      exact absurd hs List.not_mem_nil
    | cons t rest =>
      rw [hl] at hs hfirst
      rcases List.mem_cons.mp hs with rfl | hrest
      · exact hfirst s rfl
      · obtain ⟨e, he, hstart⟩ := sessionsFrom_tail (by rw [hl]; exact hrest)
        rw [hstart]
        exact h.times e he
  · obtain ⟨e, he, hstop⟩ := sessionsFrom_stop hs
    rw [hstop]
    exact h.times e he

/-- **When the session a match lies in is found**: no earlier session ends in the second in which the match begins. -/
theorem match_inside_iff {pre post : List ProxySession} (h : EndsInOrder lines)
    (hfirst : ∀ s ∈ (proxyLogHealth lines).head?, (parseTs s.start).isSome) (hw : w.1 < w.2)
    (hl : proxyLogHealth lines = pre ++ s :: post) (hin : Spans.Inside w s.span) :
    matchProxySession (proxyLogHealth lines) (some w) = some (some s) ↔
      ∀ e ∈ pre, e.span.2 = w.1 → w.2 < e.span.1 := by
  have hord := sessions_inOrder h
  have hmatch : matchProxySession (proxyLogHealth lines) (some w) =
      some (Spans.firstTouched ProxySession.span w (proxyLogHealth lines)) :=
    firstOverlap_eq fun s hs => sessions_times h hfirst hs
  rw [hl] at hord
  rw [hmatch, hl, Option.some.injEq]
  exact Spans.firstTouched_inside_iff hord hw hin

/-- **A match is scored against the session that covers it** exactly when the stamp the first session begins with is a
time, and the first session that the match touches has as much of it left as any later one. -/
theorem match_scored_iff (lines : List (List Char)) (w : Datetime × Datetime) (h : EndsInOrder lines)
    (hw : w.1 < w.2) : ScoredByCover (proxyLogHealth lines) w ↔
      (∀ s ∈ (proxyLogHealth lines).head?, (parseTs s.start).isSome) ∧
        Spans.firstLongest ProxySession.span w (proxyLogHealth lines) = true := by
  by_cases hfirst : ∀ s ∈ (proxyLogHealth lines).head?, (parseTs s.start).isSome
  · rw [scoredByCover_iff (fun s hs => sessions_times h hfirst hs) (sessions_inOrder h) hw]
    exact (and_iff_right hfirst).symm
  · refine iff_of_false ?_ fun hboth => hfirst hboth.1
    intro hscored
    push Not at hfirst
    obtain ⟨s, hs, hstart⟩ := hfirst
    exact hscored.returns (firstOverlap_none hs (by simpa using hstart))

end Log

/-! ## One process and two sessions -/

def twoSessions : List (List Char) :=
  ["[2026-08-03 20:00:00.000][pid=7] proxy build: V4.91".toList,
    "[2026-08-03 20:10:00.000][pid=7] session end: send_stats: packets=10 bytes=1000".toList,
    "[2026-08-03 20:30:00.500][pid=7] session end: send_stats: packets=90 bytes=9000".toList]

def firstSession : ProxySession :=
  ⟨7, "2026-08-03 20:00:00.000".toList, "2026-08-03 20:10:00.000".toList, 10, 1000⟩

def secondSession : ProxySession :=
  ⟨7, "2026-08-03 20:10:00.000".toList, "2026-08-03 20:30:00.500".toList, 90, 9000⟩

theorem allSessions_two : allSessions twoSessions =
    [⟨"2026-08-03 20:10:00.000".toList, 7, 10, 1000⟩, ⟨"2026-08-03 20:30:00.500".toList, 7, 90, 9000⟩] := by
  decide +kernel

theorem endsInOrder_two : EndsInOrder twoSessions where
  times := by
    rw [allSessions_two]
    decide +kernel
  sorted := by
    rw [allSessions_two]
    decide +kernel

theorem proxyLogHealth_two : proxyLogHealth twoSessions = [firstSession, secondSession] := by
  rw [proxyLogHealth_eq, allSessions_two]
  decide +kernel

/-- From some second of 20:10 to 20:29. -/
def tenPast (second : Nat) : Datetime × Datetime :=
  (time "2026-08-03 20:10:00".toList + second * 1000000, time "2026-08-03 20:29:00".toList)

theorem match_scored_second : ScoredByCover (proxyLogHealth twoSessions) (tenPast 1) := by
  refine (match_scored_iff twoSessions (tenPast 1) endsInOrder_two (by decide +kernel)).mpr ?_
  rw [proxyLogHealth_two]
  exact ⟨by decide +kernel, by decide +kernel⟩

/-- The match that begins in the second in which the first session ends is scored against that one. -/
theorem match_scored_boundary : EndsInOrder twoSessions ∧ (tenPast 0).1 < (tenPast 0).2 ∧
    ¬ ScoredByCover (proxyLogHealth twoSessions) (tenPast 0) := by
  refine ⟨endsInOrder_two, by decide +kernel, ?_⟩
  rw [proxyLogHealth_two]
  intro hscored
  have hinside : Spans.Inside (tenPast 0) secondSession.span := ⟨by decide +kernel, by decide +kernel⟩
  have hmatch : matchProxySession [firstSession, secondSession] (some (tenPast 0)) = some (some firstSession) := by
    decide +kernel
  have hsecond := hscored.inside secondSession (by simp) hinside
  rw [hmatch] at hsecond
  exact absurd hsecond (by decide +kernel)

end BzNet.Analyze
