import BzNet.Wire

/-!
# The game's tunables

`shared/net_globals.h`: the game's `[Net]` block, written directly into its data section. Every entry has a
fixed address and a band of plausible values; the value found there first decides whether the entry is ever
written.

* `netGlobalsDefaults`, `kNetTunePreset`, `kAutoKickRelaxPreset` : the table and the two presets;
* `strtoul`, `ngParseEnvU32`, `netGlobalsConfigure` : the values requested, from the environment;
* `ngAssert`, `netGlobalsApply` : one entry of a pass, and a pass;
* `netPatchPoll` : one round of the thread that applies them.

The addresses are distinct and four bytes apart or more, so memory is a function from addresses to 32-bit
words. An environment is a function from names to values; `unsigned long` has 32 bits in the proxies and 64 in
the host tests.
-/

namespace BzNet

inductive NetGlobalState where
  | pending
  | applied
  | vetoed
deriving DecidableEq

structure NetGlobal where
  va : U32
  env : String
  lo : U32
  hi : U32
  /-- `0` leaves the game's value alone. -/
  want : U32
  /-- The value before the first write. -/
  seen : U32
  state : NetGlobalState
  changed : Bool

def NetGlobal.unexamined (va : U32) (env : String) (lo hi : U32) : NetGlobal :=
  ⟨va, env, lo, hi, 0, 0, .pending, false⟩

def netGlobalsDefaults : List NetGlobal :=
  [.unexamined 0x008e8cf4 "BZ_NET_MINBANDWIDTH" 500 100000,
    .unexamined 0x008e8d08 "BZ_NET_MAXBANDWIDTH" 1000 4000000,
    .unexamined 0x008e8cf0 "BZ_NET_UPCOUNT" 1 100000,
    .unexamined 0x008e8d10 "BZ_NET_DOWNCOUNT" 1 100000,
    .unexamined 0x008e8cec "BZ_NET_MAXPING" 50 60000,
    .unexamined 0x008e8cfc "BZ_NET_MAXPINGSLOST" 1 100000,
    .unexamined 0x008e8d0c "BZ_AUTOKICK_START" 1000 600000,
    .unexamined 0x008e8cf8 "BZ_AUTOKICK_PING" 50 60000,
    .unexamined 0x008e8bfc "BZ_AUTOKICK_LOSS" 1 100000,
    .unexamined 0x008e8ce4 "BZ_AUTOKICK_TIME" 1000 600000]

def kNetGlobalCount : Nat := 10

def kNetTunePreset : List U32 := [16000, 320000, 100, 50, 450, 0, 0, 0, 0, 0]

def kAutoKickRelaxPreset : List U32 := [0, 0, 0, 0, 0, 0, 60000, 2000, 200, 60000]

/-! ## The environment -/

/-- `getenv`. -/
abbrev Environment := String → Option String

def ngEnvTruthy (s : String) : Bool :=
  if s = "" then false
  else if s = "1" then true
  else
    let lower := String.ofList ((s.toList.take 15).map Char.toLower)
    lower = "true" ∨ lower = "yes" ∨ lower = "on"

def ngDefaultOn (env : Environment) (name : String) : Bool :=
  match env name with
  | none => true
  | some v => if v = "" then true else ngEnvTruthy v

def isSpace (c : Char) : Bool := c = ' ' ∨ 9 ≤ c.toNat ∧ c.toNat ≤ 13

/-- `strtoul` in base 10: the value, and the rest after the number, which is the whole text when there is no
number. -/
def strtoul (ulongBits : Nat) (s : List Char) : Nat × List Char :=
  let body := s.dropWhile isSpace
  let (negative, body) := match body with
    | '-' :: r => (true, r)
    | '+' :: r => (false, r)
    | r => (false, r)
  let digits := body.takeWhile Char.isDigit
  if digits.isEmpty then (0, s)
  else
    let n := digits.foldl (fun n c => 10 * n + (c.toNat - '0'.toNat)) 0
    let v :=
      if 2 ^ ulongBits ≤ n then 2 ^ ulongBits - 1
      else if negative then (2 ^ ulongBits - n) % 2 ^ ulongBits
      else n
    (v, body.dropWhile Char.isDigit)

def ngParseEnvU32 (ulongBits : Nat) (env : Environment) (name : String) (fallback : U32) : U32 :=
  match env name with
  | none => fallback
  | some v =>
    if v = "" then fallback
    else
      let (parsed, rest) := strtoul ulongBits v.toList
      if rest ≠ [] ∨ 0xffffffff < parsed then fallback else BitVec.ofNat 32 parsed

/-- The preset of entry `i`: where both presets have a value, the second. -/
def ngPreset (tune relax : Bool) (i : Nat) : U32 :=
  if relax ∧ kAutoKickRelaxPreset.getD i 0 ≠ 0 then kAutoKickRelaxPreset.getD i 0
  else if tune then kNetTunePreset.getD i 0
  else 0

/-- The value requested of entry `i`: never one that its band rejects, unless the preset is one. -/
def ngWant (ulongBits : Nat) (env : Environment) (i : Nat) (g : NetGlobal) : U32 :=
  let preset := ngPreset (ngDefaultOn env "BZ_NET_TUNE") (ngDefaultOn env "BZ_AUTOKICK_RELAX") i
  let want := ngParseEnvU32 ulongBits env g.env preset
  if want ≠ 0 ∧ (want < g.lo ∨ want > g.hi) then preset else want

def netGlobalsConfigure (ulongBits : Nat) (env : Environment) (t : List NetGlobal) : List NetGlobal :=
  t.mapIdx fun i g => if i < kNetGlobalCount then { g with want := ngWant ulongBits env i g } else g

/-- True when any entry has something to do. -/
def netGlobalsAny (t : List NetGlobal) : Bool := t.any (·.want ≠ 0)

/-! ## A pass -/

/-- The process's memory: the word at each address. -/
abbrev Memory := U32 → U32

/-- The memory after what an entry writes at its address, if anything. -/
def Memory.poke (m : Memory) (va : U32) : Option U32 → Memory
  | some v => Function.update m va v
  | none => m

structure NgWrite where
  va : U32
  value : U32

/-- One entry of a pass, which finds `live` at its address: the entry and what is written there. -/
def ngAssert (g : NetGlobal) (live : U32) : NetGlobal × Option U32 :=
  if g.want = 0 ∨ g.state = .vetoed then (g, none)
  else if g.state = .pending ∧ (live < g.lo ∨ live > g.hi) then
    ({ g with seen := live, state := .vetoed, changed := true }, none)
  else
    (if g.state = .pending then { g with seen := live, state := .applied, changed := true } else g,
      if live ≠ g.want then some g.want else none)

def ngNotable (g : NetGlobal) : Bool := g.want ≠ 0 ∧ g.state = .pending

structure NgPass where
  entries : List NetGlobal
  mem : Memory
  writes : List NgWrite
  notable : Nat

def netGlobalsApply : List NetGlobal → Memory → NgPass
  | [], m => ⟨[], m, [], 0⟩
  | g :: t, m =>
    let r := ngAssert g (m g.va)
    let rest := netGlobalsApply t (m.poke g.va r.2)
    ⟨r.1 :: rest.entries, rest.mem, (r.2.map (NgWrite.mk g.va)).toList ++ rest.writes,
      (if ngNotable g then 1 else 0) + rest.notable⟩

/-- One round of `net_patch_thread`, which finds the memory as `m`: the pass, and the log lines acknowledged. -/
def netPatchPoll (t : List NetGlobal) (m : Memory) : List NetGlobal × NgPass :=
  let r := netGlobalsApply t m
  (if 0 < r.notable then r.entries.map ({ · with changed := false }) else r.entries, r)

end BzNet
