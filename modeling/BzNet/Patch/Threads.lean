import BzNet.Buffer.Settings
import BzNet.Globals.Core
import BzNet.Gov.Trace
import BzNet.Lib.Shared
import BzNet.Patch.Scan

/-!
# The patch threads

`governor_patch_thread` and `net_patch_thread`: two threads that watch words of the game's data section and store to
them, while the game goes on loading and storing as it likes. Aligned 32-bit accesses are atomic, and nothing else is:
between the load of a word and the store that answers it the game may have stored to it.

* `PatchCfg`, `patchCfg` : what the threads are given, from the environment;
* `GovPhase`, `govMove` : the governor's thread, which raises the send rate when it finds the cold-start sentinel;
* `NetPhase`, `netMove` : the thread of the `[Net]` table, one entry of `net_globals_apply` after the other;
* `patchStep` : a move of either thread, a store of the game, or the end of the process.

Every access of the two loops to the data section is on record. The loads of what is there before a loop, which only
go to the log, are left out.
-/

namespace BzNet

open Shared (Access)

def kGovRateAddr : U32 := 0x008e8d14

def kGovColdStart : U32 := kGovColdStartSentinel

def kGovVerifyMsDef : U32 := 10000

def kGovTraceMsDef : U32 := 15000

/-- Who accesses the data section. -/
inductive Party where
  | game
  | gov
  | net
deriving DecidableEq

abbrev PatchAccess := Access Party U32 U32

structure PatchCfg where
  /-- `is_target_main_module`, which the Linux threads ask, and the Windows proxy before it starts them. -/
  target : Bool
  govStart : U32
  verifyMs : U32
  traceMs : U32
  /-- `g_net_tbl` -/
  table : List NetGlobal

/-- What both proxies read from the environment. -/
def patchCfg (target : Bool) (ulongBits : Nat) (env : Environment) : PatchCfg where
  target := target
  govStart := clampU32 (parseEnvU32 ulongBits env "BZ_GOV_START" 40000) 0 200000
  verifyMs := clampU32 (parseEnvU32 ulongBits env "BZ_GOV_VERIFY_MS" kGovVerifyMsDef) 0 120000
  traceMs := clampU32 (parseEnvU32 ulongBits env "BZ_GOV_TRACE_MS" kGovTraceMsDef) 0 600000
  table := netGlobalsConfigure ulongBits env netGlobalsDefaults

def PatchCfg.gov (c : PatchCfg) : GovTraceCfg :=
  { govTraceCfgDefaults c.govStart kGovColdStart with
    verifyMs := c.verifyMs
    traceMs := c.traceMs }

/-! ## The phases of the threads -/

inductive GovPhase where
  | asleep
  | polling (s : GovTraceState)
  /-- The word is loaded and the clock not yet read. -/
  | loaded (s : GovTraceState) (live : U32)
  /-- The answer is a store. -/
  | storing (s : GovTraceState)
  /-- With what the last line reports, if the loop was entered. -/
  | returned (s : Option GovTraceState)

/-- What the last line of the thread reports. -/
def GovPhase.report? : GovPhase → Option GovTraceState
  | .returned s => s
  | _ => none

inductive NetPhase where
  | asleep
  | polling (t : List NetGlobal)
  /-- In a pass: the entries done, those to come, and the notable ones so far. -/
  | walking (done rest : List NetGlobal) (notable : Nat)
  /-- The entry `g` is judged and about to be written. -/
  | storing (done : List NetGlobal) (g : NetGlobal) (rest : List NetGlobal) (notable : Nat)
  | returned

/-! ## The governor's thread -/

def GovEvent.stores : GovEvent → Bool
  | .bumped => true
  | .floorRescue => true
  | _ => false

/-- One poll of the thread: a trace event is reported, which starts a new window. -/
def govRound (c : GovTraceCfg) (s : GovTraceState) (poll : GovPoll) : GovTraceState × GovEvent :=
  let r := govStep c s poll
  (if r.2 = .trace then (govTraceWindow r.1).2 else r.1, r.2)

/-- A move of `governor_patch_thread`, which finds the main module as `main` and the time as `now`: the next phase, and the
access made. -/
def govMove (c : PatchCfg) (main : Option PeImage) (now : U64) (stop : Bool) (m : Memory) :
    GovPhase → GovPhase × Option PatchAccess
  | .asleep =>
    if !c.target ∨ c.govStart = 0 then (.returned none, none)
    else if versionConfirmed main then (.polling (govTraceInit now), none)
    else (.returned none, none)
  | .polling s =>
    if stop then (.returned (some s), none)
    else (.loaded s (m kGovRateAddr), some ⟨.gov, false, kGovRateAddr, m kGovRateAddr⟩)
  | .loaded s live =>
    let r := govRound c.gov s (live, now)
    (if r.2.stores then .storing r.1 else .polling r.1, none)
  | .storing s => (.polling s, some ⟨.gov, true, kGovRateAddr, c.govStart⟩)
  | .returned s => (.returned s, none)

/-! ## The thread of the table -/

/-- A move of `net_patch_thread`, which finds the main module as `main`. -/
def netMove (c : PatchCfg) (main : Option PeImage) (stop : Bool) (m : Memory) : NetPhase → NetPhase × Option PatchAccess
  | .asleep =>
    if !c.target ∨ !netGlobalsAny c.table then (.returned, none)
    else if versionConfirmed main then (.polling c.table, none)
    else (.returned, none)
  | .polling t => (if stop then .returned else .walking [] t 0, none)
  | .walking done [] notable =>
    (.polling (if 0 < notable then done.map ({ · with changed := false }) else done), none)
  | .walking done (g :: rest) notable =>
    if g.want = 0 ∨ g.state = .vetoed then (.walking (done ++ [g]) rest notable, none)
    else
      let r := ngAssert g (m g.va)
      let notable := notable + if ngNotable g then 1 else 0
      (if r.2.isSome then .storing done r.1 rest notable else .walking (done ++ [r.1]) rest notable,
        some ⟨.net, false, g.va, m g.va⟩)
  | .storing done g rest notable => (.walking (done ++ [g]) rest notable, some ⟨.net, true, g.va, g.want⟩)
  | .returned => (.returned, none)

/-! ## The process -/

structure Patch where
  mem : Memory
  gov : GovPhase
  net : NetPhase
  govStop : Bool
  netStop : Bool
  /-- All accesses to the data section. -/
  trace : List PatchAccess

def patchInit (m : Memory) : Patch := ⟨m, .asleep, .asleep, false, false, []⟩

/-- An access, if any, which goes on record. -/
def Patch.access (p : Patch) (x : Option PatchAccess) : Patch :=
  { p with
    mem := Shared.after p.mem x.toList
    trace := p.trace ++ x.toList }

inductive PatchAct where
  /-- The game stores a word. -/
  | game (va value : U32)
  | gov (main : Option PeImage) (now : U64)
  | net (main : Option PeImage)
  /-- `DLL_PROCESS_DETACH` stops the threads. -/
  | detach

def patchStep (c : PatchCfg) (p : Patch) : PatchAct → Patch
  | .game va value => p.access (some ⟨.game, true, va, value⟩)
  | .gov main now =>
    let r := govMove c main now p.govStop p.mem p.gov
    { p with gov := r.1 }.access r.2
  | .net main =>
    let r := netMove c main p.netStop p.mem p.net
    { p with net := r.1 }.access r.2
  | .detach => { p with govStop := true, netStop := true }

/-- The process after any order of its steps. -/
def patchRun (c : PatchCfg) (m : Memory) (acts : List PatchAct) : Patch := acts.foldl (patchStep c) (patchInit m)

/-- The stores of the game alone. -/
def gameMemory (m : Memory) (acts : List PatchAct) : Memory :=
  acts.foldl (fun m act => match act with
    | .game va value => Function.update m va value
    | _ => m) m

end BzNet
