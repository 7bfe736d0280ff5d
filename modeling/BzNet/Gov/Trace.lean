import BzNet.Wire

/-!
# The governor read-back state machine

`shared/gov_trace.h`: the proxy polls the live send-rate global and feeds each read to
`gov_trace_step`, which answers with at most one event. `govTraceStep` is that function; its last
part, the periodic trace and the verify deadline, is `govTraceTail`.

Session counters are natural numbers; values, times and the configured intervals are machine words.
`armed` and `low_seen`, `0` or `1` in the source, are booleans.
-/

namespace BzNet

open Serial (elapsed)

/-- One event per poll. -/
inductive GovEvent where
  | none
  | bumped
  | clamped
  | held
  | trace
  | floorRescue
deriving DecidableEq, Repr

structure GovTraceCfg where
  target : U32
  coldStart : U32
  verifyMs : U32
  traceMs : U32
  clampFloor : U32
  downSlack : U32
  descentBand : U32
  descentMs : U32

structure GovTraceState where
  bumpedAt : U64
  armed : Bool
  lowSeen : Bool
  lastClampMs : U64
  lastTraceMs : U64
  winMin : U32
  winMax : U32
  winSamples : U32
  observed : U32
  sinceBumpMs : U64
  polls : Nat
  prevDistinct : U32
  lastChangeMs : U64
  prevHoldMs : U64
  lastRescueMs : U64
  bumps : Nat
  clamps : Nat
  floorRescues : Nat
  peak : U32
  lastSeen : U32
deriving DecidableEq

def govTraceInit (now : U64) : GovTraceState where
  bumpedAt := 0
  armed := false
  lowSeen := false
  lastClampMs := 0
  lastTraceMs := now
  winMin := 0xffffffff#32
  winMax := 0
  winSamples := 0
  observed := 0
  sinceBumpMs := 0
  polls := 0
  prevDistinct := 0
  lastChangeMs := now
  prevHoldMs := 0
  lastRescueMs := 0
  bumps := 0
  clamps := 0
  floorRescues := 0
  peak := 0
  lastSeen := 0

def kGovColdStartSentinel : U32 := 4000

def govTraceCfgDefaults (target coldStart : U32) : GovTraceCfg where
  target := target
  coldStart := coldStart
  verifyMs := 10000
  traceMs := 15000
  clampFloor := 16000
  downSlack := 500
  descentBand := 2000
  descentMs := 30000

/-! ## One poll -/

/-- The observation is recorded before anything is decided: poll count, the last change of value,
the last value and the peak. -/
def govObserve (s : GovTraceState) (live : U32) (now : U64) : GovTraceState :=
  let s' := { s with polls := s.polls + 1 }
  let s' := if s.polls ≠ 0 ∧ live ≠ s.lastSeen then
      { s' with
        prevDistinct := s.lastSeen
        prevHoldMs := now - s.lastChangeMs
        lastChangeMs := now }
    else s'
  { s' with lastSeen := live, peak := if s.peak < live then live else s.peak }

/-- Was the sentinel walked onto? `s` is the state before the poll, `s'` the one `govObserve`
leaves. -/
def govDescentArrival (c : GovTraceCfg) (s s' : GovTraceState) (live : U32) : Bool :=
  let source := if live ≠ s.lastSeen then s.lastSeen else s'.prevDistinct
  live = c.coldStart ∧ s.polls ≠ 0 ∧ c.coldStart < source ∧ source - c.coldStart ≤ c.descentBand ∧
    s'.prevHoldMs.toNat ≤ c.descentMs.toNat

/-- A read that qualifies as an overwrite of the target. -/
def govLow (c : GovTraceCfg) (live : U32) : Bool :=
  live < c.target ∧ live ≤ c.clampFloor ∧ c.downSlack < c.target - live

/-- The verify deadline and the periodic trace. -/
def govTraceTail (c : GovTraceCfg) (s : GovTraceState) (live : U32) (now : U64) :
    GovTraceState × GovEvent :=
  if s.armed ∧ c.verifyMs.toNat ≤ elapsed now s.bumpedAt then
    let s := { s with armed := false, observed := live, sinceBumpMs := now - s.bumpedAt }
    if s.lowSeen then
      ({ s with clamps := s.clamps + 1, lastClampMs := now, lowSeen := false }, .clamped)
    else
      (s, .held)
  else if c.traceMs ≠ 0 ∧ c.traceMs.toNat ≤ elapsed now s.lastTraceMs then
    ({ s with lastTraceMs := now, observed := live }, .trace)
  else
    (s, .none)

def govTraceStep (c : GovTraceCfg) (s₀ : GovTraceState) (live : U32) (now : U64) :
    GovTraceState × GovEvent :=
  let s := govObserve s₀ live now
  let descentArrival := govDescentArrival c s₀ s live
  if live = c.coldStart ∧ ¬ descentArrival ∧ ¬ s.armed ∧
      (s.bumps = 0 ∨ c.verifyMs.toNat ≤ elapsed now s.bumpedAt) then
    ({ s with bumps := s.bumps + 1, bumpedAt := now, armed := true, observed := live }, .bumped)
  else if descentArrival ∧ ¬ s.armed ∧
      (s.floorRescues = 0 ∨ c.descentMs.toNat ≤ elapsed now s.lastRescueMs) then
    ({ s with floorRescues := s.floorRescues + 1, lastRescueMs := now, observed := live }, .floorRescue)
  else
    let s := { s with
      winMin := if live < s.winMin then live else s.winMin
      winMax := if s.winMax < live then live else s.winMax
      winSamples := s.winSamples + 1 }
    if s.armed ∧ govLow c live then
      if s.lowSeen then
        ({ s with
          armed := false
          clamps := s.clamps + 1
          lastClampMs := now
          observed := live
          sinceBumpMs := now - s.bumpedAt
          lowSeen := false }, .clamped)
      else
        govTraceTail c { s with lowSeen := true } live now
    else
      govTraceTail c { s with lowSeen := false } live now

/-- `gov_trace_window`: minimum, maximum and count since the last trace, then a fresh window. -/
def govTraceWindow (s : GovTraceState) : (U32 × U32 × U32) × GovTraceState :=
  ((if s.winSamples ≠ 0 then s.winMin else 0, s.winMax, s.winSamples),
    { s with winMin := 0xffffffff#32, winMax := 0, winSamples := 0 })

/-- One poll is a value read and the time it was read at. -/
abbrev GovPoll := U32 × U64

/-- The step of the machine that is fed one poll after another. -/
def govStep (c : GovTraceCfg) (s : GovTraceState) (p : GovPoll) : GovTraceState × GovEvent :=
  govTraceStep c s p.1 p.2

end BzNet
