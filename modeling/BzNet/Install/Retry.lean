import BzNet.Install.Iat

/-!
# The installation that is tried again

`InstallNetcodeHooks` and `HookThread`: the hooks go into the import table of the game by name, and when the two that
matter most are not found the whole is run again, up to 160 times. A comment there calls it idempotent, but nothing
skips a slot that already holds the hook: the second run saves the hook itself as the real function.

* `installNetcodeHooks`, `hookThread` : one run, and the thread;
* `install_specs` : what a run does to every function it finds;
* `install_retry` : the real pointers lead from a hooked slot to what the slot held before if the first run was complete,
  and otherwise never end.
-/

namespace BzNet

def ws2Names : List String := ["WS2_32.dll", "ws2_32.dll"]

def specWSASocketW : HookSpec := ⟨.wsaSocketW, ws2Names, "WSASocketW", 0⟩

def specWSARecvFrom : HookSpec := ⟨.wsaRecvFrom, ws2Names, "WSARecvFrom", 0⟩

/-- The functions patched, in their order. -/
def hookSpecs (iocp : Bool) : List HookSpec :=
  [specWSASocketW, specWSARecvFrom, ⟨.recvfrom, ws2Names, "recvfrom", 17⟩, ⟨.ioctlsocket, ws2Names, "ioctlsocket", 12⟩,
    ⟨.wsaIoctl, ws2Names, "WSAIoctl", 0⟩, ⟨.closesocket, ws2Names, "closesocket", 3⟩,
    ⟨.setsockopt, ws2Names, "setsockopt", 21⟩, ⟨.sendto, ws2Names, "sendto", 20⟩,
    ⟨.wsaSendTo, ws2Names, "WSASendTo", 0⟩] ++
  if iocp then [⟨.getQueuedCompletionStatus, ["KERNEL32.dll", "KERNELBASE.dll"], "GetQueuedCompletionStatus", 0⟩] else []

structure InstallCfg where
  /-- `IsTargetMainModule` -/
  target : Bool
  /-- What `GetProcAddress` finds in `ws2_32.dll`. -/
  exports : HookFn → Option Nat
  /-- `g_iocp_scan || g_iocp_reorder` -/
  iocp : Bool

structure Install where
  table : ImportTable
  /-- The `g_real…` pointers. -/
  real : HookFn → Option Code
  /-- `g_hooks_complete` -/
  complete : Bool

/-- The functions whose pointers each run resolves anew. -/
def resolvedFns : List HookFn :=
  [.wsaSocketW, .setsockopt, .getsockopt, .wsaRecvFrom, .closesocket, .socket, .sendto, .wsaSendTo, .recvfrom, .ioctlsocket,
    .wsaIoctl]

/-- Those without which a run gives up. -/
def requiredFns : List HookFn := [.wsaSocketW, .setsockopt, .getsockopt, .wsaRecvFrom, .closesocket]

/-- One function: what its slot held is the real one from now on. -/
def installHook (s : Install) (h : HookSpec) : Install :=
  match patchFirst h (.hook h.fn) s.table with
  | none => s
  | some (old, table) => { s with table := table, real := Function.update s.real h.fn (some old) }

/-- A run gets as far as the import table. -/
def InstallCfg.resolves (w : InstallCfg) : Bool := w.target ∧ ∀ f ∈ requiredFns, (w.exports f).isSome

/-- The two functions that carry the patch can be patched. -/
def imported (table : ImportTable) : Bool :=
  (slotOf table specWSASocketW).isSome && (slotOf table specWSARecvFrom).isSome

/-- What a run does first: the exports are the real functions. -/
def resolveReals (w : InstallCfg) (s : Install) : Install :=
  { s with real := fun f => if f ∈ resolvedFns then (w.exports f).map .addr else s.real f }

/-- `InstallNetcodeHooks`, as far as its hooks go. -/
def installNetcodeHooks (w : InstallCfg) (s : Install) : Install :=
  if !w.target then s
  else if !w.resolves then resolveReals w s
  else { (hookSpecs w.iocp).foldl installHook (resolveReals w s) with complete := s.complete || imported s.table }

def retryInstall (w : InstallCfg) : Nat → Install → Install
  | 0, s => s
  | n + 1, s => if s.complete then s else retryInstall w n (installNetcodeHooks w s)

def kHookRetries : Nat := 160

/-- `HookThread` -/
def hookThread (w : InstallCfg) (table : ImportTable) : Install :=
  retryInstall w kHookRetries (installNetcodeHooks w ⟨table, fun _ => none, false⟩)

/-! ## One run -/

/-- The specifications are of different functions, and no slot is one of two. -/
def Separate (hs : List HookSpec) : Prop := hs.Pairwise fun h g => h.fn ≠ g.fn ∧ h.Apart g ∧ g.Apart h

instance (hs : List HookSpec) : Decidable (Separate hs) := inferInstanceAs (Decidable (List.Pairwise _ _))

theorem hookSpecs_separate (iocp : Bool) : Separate (hookSpecs iocp) := by
  cases iocp
  · decide
  · decide

theorem installHook_self (s : Install) (h : HookSpec) :
    slotOf (installHook s h).table h = (slotOf s.table h).map (fun _ => .hook h.fn) ∧
      (installHook s h).real h.fn = (slotOf s.table h).or (s.real h.fn) := by
  have hslot := slotOf_eq h (.hook h.fn) s.table
  rw [installHook]
  cases hp : patchFirst h (.hook h.fn) s.table with
  | none =>
    have hnone : slotOf s.table h = none := by rw [hslot, hp]; rfl
    rw [hnone]
    exact ⟨rfl, rfl⟩
  | some r =>
    have hsome : slotOf s.table h = some r.1 := by rw [hslot, hp]; rfl
    rw [hsome]
    exact ⟨slotOf_patched hp, Function.update_self _ _ _⟩

theorem installHook_other (s : Install) {h g : HookSpec} (hfn : h.fn ≠ g.fn) (hap : h.Apart g) :
    slotOf (installHook s h).table g = slotOf s.table g ∧ (installHook s h).real g.fn = s.real g.fn := by
  rw [installHook]
  cases hp : patchFirst h (.hook h.fn) s.table with
  | none => exact ⟨rfl, rfl⟩
  | some r => exact ⟨slotOf_apart hap hp, Function.update_of_ne hfn.symm _ _⟩

/-- **All functions in a row**: each one finds the slots as they were. -/
theorem install_specs {hs : List HookSpec} (hsep : Separate hs) (s : Install) {g : HookSpec} :
    (g ∈ hs → slotOf (hs.foldl installHook s).table g = (slotOf s.table g).map (fun _ => .hook g.fn) ∧
      (hs.foldl installHook s).real g.fn = (slotOf s.table g).or (s.real g.fn)) ∧
    ((∀ h ∈ hs, h.fn ≠ g.fn ∧ h.Apart g) → slotOf (hs.foldl installHook s).table g = slotOf s.table g ∧
      (hs.foldl installHook s).real g.fn = s.real g.fn) := by
  induction hs generalizing s with
  | nil => exact ⟨fun hg => absurd hg List.not_mem_nil, fun _ => ⟨rfl, rfl⟩⟩
  | cons h hs ih =>
    obtain ⟨hhead, htail⟩ := List.pairwise_cons.mp hsep
    obtain ⟨hin, hout⟩ := ih htail (installHook s h)
    rw [List.foldl_cons]
    refine ⟨fun hg => ?_, fun hall => ?_⟩
    · rcases List.mem_cons.mp hg with rfl | hg
      · obtain ⟨hslot, hreal⟩ := hout fun h' hh' => ⟨((hhead h' hh').1).symm, (hhead h' hh').2.2⟩
        obtain ⟨hslot', hreal'⟩ := installHook_self s g
        exact ⟨hslot.trans hslot', hreal.trans hreal'⟩
      · obtain ⟨hslot, hreal⟩ := hin hg
        obtain ⟨hslot', hreal'⟩ := installHook_other s (hhead g hg).1 (hhead g hg).2.1
        rw [hslot, hreal, hslot', hreal']
        exact ⟨rfl, rfl⟩
    · obtain ⟨hslot, hreal⟩ := hout fun h' hh' => hall h' (List.mem_cons_of_mem h hh')
      obtain ⟨hfn, hap⟩ := hall h List.mem_cons_self
      obtain ⟨hslot', hreal'⟩ := installHook_other s hfn hap
      exact ⟨hslot.trans hslot', hreal.trans hreal'⟩

variable {w : InstallCfg}

theorem run_eq (hw : w.resolves = true) (s : Install) : installNetcodeHooks w s =
    { (hookSpecs w.iocp).foldl installHook (resolveReals w s) with complete := s.complete || imported s.table } := by
  have htarget : w.target = true := (of_decide_eq_true hw).1
  rw [installNetcodeHooks, htarget, hw]
  rfl

/-- What a run does to a function whose slot it finds: it keeps what was there, and puts the hook there. -/
theorem run_slot (hw : w.resolves = true) (s : Install) {h : HookSpec} (hh : h ∈ hookSpecs w.iocp) {c : Code}
    (hslot : slotOf s.table h = some c) :
    slotOf (installNetcodeHooks w s).table h = some (.hook h.fn) ∧ (installNetcodeHooks w s).real h.fn = some c := by
  have hslot' : slotOf (resolveReals w s).table h = some c := hslot
  obtain ⟨htable, hreal⟩ := (install_specs (hookSpecs_separate w.iocp) (resolveReals w s)).1 hh
  rw [hslot'] at htable hreal
  rw [run_eq hw]
  exact ⟨htable, hreal⟩

theorem run_found (hw : w.resolves = true) (s : Install) {h : HookSpec} (hh : h ∈ hookSpecs w.iocp) :
    (slotOf (installNetcodeHooks w s).table h).isSome = (slotOf s.table h).isSome := by
  obtain ⟨htable, -⟩ := (install_specs (hookSpecs_separate w.iocp) (resolveReals w s)).1 hh
  rw [run_eq hw]
  exact (congrArg Option.isSome htable).trans Option.isSome_map

theorem run_complete (hw : w.resolves = true) (s : Install) :
    (installNetcodeHooks w s).complete = (s.complete || imported s.table) := by
  rw [run_eq hw]

theorem mem_hookSpecs (iocp : Bool) : specWSASocketW ∈ hookSpecs iocp ∧ specWSARecvFrom ∈ hookSpecs iocp :=
  ⟨List.mem_append_left _ List.mem_cons_self, List.mem_append_left _ (List.mem_cons_of_mem _ List.mem_cons_self)⟩

theorem run_imported (hw : w.resolves = true) (s : Install) :
    imported (installNetcodeHooks w s).table = imported s.table := by
  obtain ⟨hsocket, hrecv⟩ := mem_hookSpecs w.iocp
  rw [imported, imported, run_found hw s hsocket, run_found hw s hrecv]

/-! ## The thread -/

/-- Every run but the first finds the hook, and keeps that as the real function. -/
theorem retry_loops (hw : w.resolves = true) {h : HookSpec} (hh : h ∈ hookSpecs w.iocp) (n : Nat) (s : Install)
    (hnot : s.complete = false) (himp : imported s.table = false) (hslot : slotOf s.table h = some (.hook h.fn)) :
    slotOf (retryInstall w (n + 1) s).table h = some (.hook h.fn) ∧
      (retryInstall w (n + 1) s).real h.fn = some (.hook h.fn) := by
  induction n generalizing s with
  | zero =>
    rw [retryInstall, hnot]
    exact run_slot hw s hh hslot
  | succ n ih =>
    rw [retryInstall, hnot]
    refine ih (installNetcodeHooks w s) ?_ ?_ (run_slot hw s hh hslot).1
    · rw [run_complete hw, hnot, himp]
      rfl
    · rw [run_imported hw, himp]

/-- **Complete at once, or never usable.** Take any import table, and any of the functions that can be patched in it. When
`HookThread` is done the slot of the function holds the hook. If the first run was complete, a call that is passed on comes
to whatever the slot held before; if it was not, the runs that follow have made the hook its own real function, and a
call that is passed on never returns. -/
theorem install_retry (w : InstallCfg) (table : ImportTable) (h : HookSpec) (a : Nat) (hw : w.resolves = true)
    (hh : h ∈ hookSpecs w.iocp) (hslot : slotOf table h = some (.addr a)) :
    let s := hookThread w table
    slotOf s.table h = some (.hook h.fn) ∧
      (imported table = true → Loop.run (callStep s.real) 2 (.hook h.fn) = some (some a)) ∧
      (imported table = false → ∀ n, Loop.run (callStep s.real) n (.hook h.fn) = none) := by
  intro s
  obtain ⟨hfirst, hreal⟩ := run_slot hw ⟨table, fun _ => none, false⟩ hh hslot
  have hcomplete := run_complete hw ⟨table, fun _ => none, false⟩
  rw [Bool.false_or] at hcomplete
  cases himp : imported table with
  | true =>
    have hs : s = installNetcodeHooks w ⟨table, fun _ => none, false⟩ := by
      show retryInstall w kHookRetries _ = _
      rw [kHookRetries, retryInstall, hcomplete, himp]
      rfl
    rw [hs]
    refine ⟨hfirst, fun _ => ?_, fun hno => absurd hno Bool.noConfusion⟩
    have hcall : callStep (installNetcodeHooks w ⟨table, fun _ => none, false⟩).real (.hook h.fn) = .inl (.addr a) := by
      rw [callStep, hreal]
    rw [Loop.run_goes_on hcall]
    rfl
  | false =>
    have hs : s = retryInstall w (159 + 1) (installNetcodeHooks w ⟨table, fun _ => none, false⟩) := rfl
    obtain ⟨hslot', hself⟩ := retry_loops hw hh 159 (installNetcodeHooks w ⟨table, fun _ => none, false⟩)
      (hcomplete.trans himp) ((run_imported hw _).trans himp) hfirst
    rw [← hs] at hslot' hself
    refine ⟨hslot', fun hyes => absurd hyes Bool.noConfusion, fun _ n => Loop.run_stuck ?_ n⟩
    rw [callStep, hself]

/-- Where the game imports `sendto` and `WSASocketW` but not `WSARecvFrom`, no call of `sendto` returns. -/
theorem install_retry_sendto :
    let w : InstallCfg := ⟨true, fun _ => some 7, false⟩
    let table : ImportTable := [⟨"WS2_32.dll", [⟨.ordinal 20, .addr 5, true⟩, ⟨.name "WSASocketW", .addr 6, true⟩]⟩]
    ∀ n, Loop.run (callStep (hookThread w table).real) n (.hook .sendto) = none := by
  intro w table
  have hslot : slotOf table ⟨.sendto, ws2Names, "sendto", 20⟩ = some (.addr 5) := by decide +kernel
  have himp : imported table = false := by decide +kernel
  exact (install_retry w table ⟨.sendto, ws2Names, "sendto", 20⟩ 5 (by decide) (by decide) hslot).2.2 himp

end BzNet
