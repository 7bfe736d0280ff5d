import BzNet.Install.Iat
import BzNet.Lib.Run

/-!
# The installation by address

`hook_setsockopt_iat` and `hooked_GetProcAddress`: the Linux proxy looks the functions up once, and then, in every module
that is loaded, gives each slot that holds one of the addresses it found the hook. What the game looks up by itself is
answered with the hook as well. Modules come and go and the game looks functions up while the worker thread is at it.

* `patchByPointer`, `resolvePointers`, `hookedGetProcAddress` : what the proxy does;
* `PointerEvent`, `pointerRun` : the proxy's steps and the game's, in any order;
* `importView` : what a caller can tell of an import table;
* `pointerStep_ok` : what every step keeps;
* `pointers_transparent` : every slot and every pointer that the game holds comes to the function it stands for.
-/

namespace BzNet

/-- A function, with the names that the game may look it up by: the first in any case, the second as it is. -/
structure ExportSpec where
  fn : HookFn
  name : String
  decorated : String
deriving DecidableEq

def exportSpecs : List ExportSpec :=
  [⟨.setsockopt, "setsockopt", "_setsockopt@20"⟩, ⟨.wsaSetSocketOption, "WSASetSocketOption", "_WSASetSocketOption@20"⟩,
    ⟨.getsockopt, "getsockopt", "_getsockopt@20"⟩, ⟨.wsaGetSocketOption, "WSAGetSocketOption", "_WSAGetSocketOption@20"⟩,
    ⟨.socket, "socket", "_socket@12"⟩, ⟨.wsaSocketW, "WSASocketW", "_WSASocketW@24"⟩,
    ⟨.closesocket, "closesocket", "_closesocket@4"⟩, ⟨.recvfrom, "recvfrom", "_recvfrom@24"⟩,
    ⟨.wsaRecvFrom, "WSARecvFrom", "_WSARecvFrom@36"⟩, ⟨.ioctlsocket, "ioctlsocket", "_ioctlsocket@12"⟩,
    ⟨.wsaIoctl, "WSAIoctl", "_WSAIoctl@36"⟩, ⟨.sendto, "sendto", "_sendto@24"⟩,
    ⟨.wsaSendTo, "WSASendTo", "_WSASendTo@36"⟩]

def ExportSpec.knows (e : ExportSpec) (s : String) : Bool := stricmp s e.name || s = e.decorated

/-- The proxy's surroundings. -/
structure PointerCfg where
  /-- `is_target_main_module` -/
  target : Bool
  /-- The import table of the game, for its slot of `GetProcAddress`. -/
  main : ImportTable
  /-- The handle of `ws2_32.dll`, if it can be loaded. -/
  ws2 : Option Nat
  /-- `module_is_ws2_32` -/
  isWs2 : Nat → Bool
  /-- The real `GetProcAddress`. -/
  lookup : Nat → ImportRef → Option Nat

/-- What the proxy finds for a function. -/
def PointerCfg.exported (w : PointerCfg) (e : ExportSpec) : Option Nat := w.ws2.bind fun m => w.lookup m (.name e.name)

/-- A module, with its import table as the loader left it and as it is now. -/
structure LoadedModule where
  loaded : ImportTable
  table : ImportTable

structure Pointers where
  /-- The `g_real_…` pointers. -/
  real : HookFn → Option Code
  /-- `g_installed_getproc_hook` -/
  getproc : Bool
  /-- The modules in memory, by their addresses. -/
  modules : Nat → Option LoadedModule
  /-- The pointers that the game has got, with the addresses they stand for. -/
  handed : List (Code × Nat)

/-! ## What the proxy does -/

/-- One of the comparisons for a slot. -/
def patchIfReal (real : HookFn → Option Code) (t : Thunk) (e : ExportSpec) : Thunk :=
  if real e.fn = some t.code ∧ t.writable then { t with code := .hook e.fn } else t

/-- All of them, on the slot as the ones before left it. -/
def patchSlot (real : HookFn → Option Code) (t : Thunk) : Thunk := exportSpecs.foldl (patchIfReal real) t

def isWs2Name (dll : String) : Bool := stricmp dll "WS2_32.dll"

/-- `patch_module_ws2_iat_by_pointer`: only the first block is patched. -/
def patchByPointer (real : HookFn → Option Code) : ImportTable → ImportTable
  | [] => []
  | d :: ds =>
    if isWs2Name d.dll then { d with thunks := d.thunks.map (patchSlot real) } :: ds else d :: patchByPointer real ds

/-- The slot that `install_getproc_hook_main_module` looks for; it goes on after a block without it. -/
def getprocThunk (main : ImportTable) : Option Thunk :=
  ((main.filter fun d => stricmp d.dll "KERNEL32.dll" || stricmp d.dll "KERNELBASE.dll").flatMap (·.thunks)).find?
    fun t => t.ref = .name "GetProcAddress"

/-- Those of which one at least must be found: all but the two that send. -/
def PointerCfg.resolves (w : PointerCfg) : Bool :=
  exportSpecs.any fun e => e.fn ≠ .sendto ∧ e.fn ≠ .wsaSendTo ∧ (w.exported e).isSome

/-- A pointer that is set stays as it is. -/
def resolveReal (w : PointerCfg) (real : HookFn → Option Code) (e : ExportSpec) : HookFn → Option Code :=
  if real e.fn = none then Function.update real e.fn ((w.exported e).map .addr) else real

/-- `hook_setsockopt_iat`, up to the modules. -/
def resolvePointers (w : PointerCfg) (s : Pointers) : Pointers :=
  if !w.target then s
  else
    let s' := { s with getproc := s.getproc || (getprocThunk w.main).any (·.writable) }
    if w.resolves then { s' with real := exportSpecs.foldl (resolveReal w) s.real } else s'

/-- `hooked_GetProcAddress` -/
def hookedGetProcAddress (w : PointerCfg) (s : Pointers) (m : Nat) (proc : ImportRef) : Pointers × Option Code :=
  match w.lookup m proc with
  | none => (s, none)
  | some a =>
    if !w.isWs2 m then (s, some (.addr a))
    else
      match proc with
      | .ordinal _ => (s, some (.addr a))
      | .name n =>
        match exportSpecs.find? (·.knows n) with
        | none => (s, some (.addr a))
        | some e => ({ s with real := Function.update s.real e.fn (some (.addr a)) }, some (.hook e.fn))

/-! ## The proxy and the game together -/

inductive PointerEvent where
  /-- The worker looks the functions up. -/
  | resolve
  /-- The worker comes to a module. -/
  | patch (id : Nat)
  | load (id : Nat) (table : ImportTable)
  | unload (id : Nat)
  /-- The game looks a function up. -/
  | getProc (m : Nat) (proc : ImportRef)

/-- The loader resolves imports to addresses, which are never the proxy's. -/
def fresh (table : ImportTable) : Bool :=
  table.all fun d => d.thunks.all fun t =>
    match t.code with
    | .addr _ => true
    | .hook _ => false

/-- The game's lookup, through the slot of `GetProcAddress` as it is. -/
def lookUp (w : PointerCfg) (s : Pointers) (m : Nat) (proc : ImportRef) : Pointers × Option Code :=
  if s.getproc then hookedGetProcAddress w s m proc else (s, (w.lookup m proc).map .addr)

/-- One step; the game keeps what it is given. -/
def pointerStep (w : PointerCfg) (s : Pointers) : PointerEvent → Pointers × Option Code
  | .resolve => (resolvePointers w s, none)
  | .patch id =>
    let patched := (s.modules id).map fun m => { m with table := patchByPointer s.real m.table }
    ({ s with modules := Function.update s.modules id patched }, none)
  | .load id table =>
    if fresh table ∧ (s.modules id).isNone then
      ({ s with modules := Function.update s.modules id (some ⟨table, table⟩) }, none)
    else (s, none)
  | .unload id => ({ s with modules := Function.update s.modules id none }, none)
  | .getProc m proc =>
    let (s', c) := lookUp w s m proc
    match c, w.lookup m proc with
    | some c, some a => ({ s' with handed := (c, a) :: s'.handed }, some c)
    | _, _ => (s', none)

def emptyPointers : Pointers := ⟨fun _ => none, false, fun _ => none, []⟩

def pointerRun (w : PointerCfg) (es : List PointerEvent) : Pointers := Machine.final (pointerStep w) emptyPointers es

/-! ## What a caller can tell -/

/-- Where a call of the code goes on, past the hook. -/
def reach (real : HookFn → Option Code) : Code → Option Code
  | .hook f => real f
  | .addr n => some (.addr n)

def slotView (g : Code → Option Code) (t : Thunk) : ImportRef × Option Code × Bool := (t.ref, g t.code, t.writable)

def importView (g : Code → Option Code) (table : ImportTable) : List (String × List (ImportRef × Option Code × Bool)) :=
  table.map fun d => (d.dll, d.thunks.map (slotView g))

/-- What the calls through the slots of a table come to. -/
def calls (real : HookFn → Option Code) (table : ImportTable) : List (List (Option (Option Nat))) :=
  table.map fun d => d.thunks.map fun t => Loop.run (callStep real) 2 t.code

section View
variable {real real' : HookFn → Option Code} {table loaded : ImportTable}

theorem run_reach {c : Code} {a : Nat} (h : reach real c = some (.addr a)) :
    Loop.run (callStep real) 2 c = some (some a) := by
  cases c with
  | hook f =>
    have hstep : callStep real (.hook f) = .inl (.addr a) := by
      have hf : real f = some (.addr a) := h
      rw [callStep, hf]
    rw [Loop.run_goes_on hstep]
    rfl
  | addr n =>
    obtain rfl : n = a := Code.addr.inj (Option.some.inj h)
    rfl

/-- Every slot stands for one that the loader filled. -/
theorem view_origin (h : importView (reach real) table = importView some loaded) {d : ImportDescriptor}
    (hd : d ∈ table) {t : Thunk} (ht : t ∈ d.thunks) :
    ∃ d₀ ∈ loaded, ∃ t₀ ∈ d₀.thunks, slotView (reach real) t = slotView some t₀ := by
  have hmem : (d.dll, d.thunks.map (slotView (reach real))) ∈ importView some loaded := by
    rw [← h]
    exact List.mem_map_of_mem hd
  obtain ⟨d₀, hd₀, heq⟩ := List.mem_map.mp hmem
  have hthunks := (Prod.mk.inj heq).2
  have hslot : slotView (reach real) t ∈ d₀.thunks.map (slotView some) := by
    rw [hthunks]
    exact List.mem_map_of_mem ht
  obtain ⟨t₀, ht₀, heq₀⟩ := List.mem_map.mp hslot
  exact ⟨d₀, hd₀, t₀, ht₀, heq₀.symm⟩

theorem reach_mono (hsub : ∀ f c, real f = some c → real' f = some c) {c o : Code} (h : reach real c = some o) :
    reach real' c = some o := by
  cases c with
  | hook f => exact hsub f o h
  | addr n => exact h

/-- Pointers that are set later change nothing for the slots already patched. -/
theorem view_mono (hsub : ∀ f c, real f = some c → real' f = some c)
    (h : importView (reach real) table = importView some loaded) :
    importView (reach real') table = importView some loaded := by
  rw [← h]
  refine List.map_congr_left fun d hd => ?_
  refine congrArg (Prod.mk d.dll) (List.map_congr_left fun t ht => ?_)
  obtain ⟨d₀, -, t₀, -, hslot⟩ := view_origin h hd ht
  have hreach : reach real t.code = some t₀.code := congrArg (fun v => v.2.1) hslot
  rw [slotView, slotView, hreach, reach_mono hsub hreach]

theorem fresh_addr (h : fresh loaded = true) {d : ImportDescriptor} (hd : d ∈ loaded) {t : Thunk} (ht : t ∈ d.thunks) :
    ∃ a, t.code = .addr a := by
  have hcode := List.all_eq_true.mp (List.all_eq_true.mp h d hd) t ht
  cases hc : t.code with
  | hook f =>
    rw [hc] at hcode
    exact absurd hcode Bool.false_ne_true
  | addr a => exact ⟨a, rfl⟩

theorem calls_view {g : Code → Option Code} (h : ∀ d ∈ table, ∀ t ∈ d.thunks, ∃ a, g t.code = some (.addr a) ∧
    Loop.run (callStep real) 2 t.code = some (some a)) :
    calls real table =
      (importView g table).map fun d => d.2.map fun v => v.2.1.bind (Loop.run (callStep fun _ => none) 1) := by
  rw [importView, List.map_map]
  refine List.map_congr_left fun d hd => ?_
  show _ = (d.thunks.map (slotView g)).map _
  rw [List.map_map]
  refine List.map_congr_left fun t ht => ?_
  obtain ⟨a, hg, hrun⟩ := h d hd t ht
  show _ = (g t.code).bind _
  rw [hrun, hg]
  rfl

/-- **The same view, the same calls.** -/
theorem calls_of_view (hfresh : fresh loaded = true) (h : importView (reach real) table = importView some loaded) :
    calls real table = calls (fun _ => none) loaded := by
  have hloaded : calls (fun _ => none) loaded = _ := calls_view (g := some) fun d hd t ht => by
    obtain ⟨a, ha⟩ := fresh_addr hfresh hd ht
    exact ⟨a, congrArg some ha, run_reach (congrArg _ ha)⟩
  rw [hloaded, ← h]
  refine calls_view fun d hd t ht => ?_
  obtain ⟨d₀, hd₀, t₀, ht₀, hslot⟩ := view_origin h hd ht
  obtain ⟨a, ha⟩ := fresh_addr hfresh hd₀ ht₀
  have hreach : reach real t.code = some (.addr a) := (congrArg (fun v => v.2.1) hslot).trans (congrArg some ha)
  exact ⟨a, hreach, run_reach hreach⟩

end View

/-! ## The invariant -/

theorem exportSpecs_inj : ∀ e ∈ exportSpecs, ∀ e' ∈ exportSpecs, e.fn = e'.fn → e = e' := by decide

def RealOk (w : PointerCfg) (real : HookFn → Option Code) : Prop :=
  ∀ f c, real f = some c → ∃ e ∈ exportSpecs, e.fn = f ∧ (w.exported e).map .addr = some c

structure ModuleOk (real : HookFn → Option Code) (m : LoadedModule) : Prop where
  fresh : fresh m.loaded = true
  same : importView (reach real) m.table = importView some m.loaded
  /-- A slot that cannot be written has not been. -/
  kept : ∀ d ∈ m.table, ∀ t ∈ d.thunks, t.writable = false → ∃ a, t.code = .addr a

structure PointersOk (w : PointerCfg) (s : Pointers) : Prop where
  real : RealOk w s.real
  modules : ∀ id m, s.modules id = some m → ModuleOk s.real m
  handed : ∀ p ∈ s.handed, reach s.real p.1 = some (.addr p.2)

section Invariant
variable {w : PointerCfg} {real real' : HookFn → Option Code} {s : Pointers}

theorem RealOk.addr (h : RealOk w real) {f : HookFn} {c : Code} (hf : real f = some c) : ∃ a, c = .addr a := by
  obtain ⟨e, -, -, he⟩ := h f c hf
  obtain ⟨a, -, ha⟩ := Option.map_eq_some_iff.mp he
  exact ⟨a, ha.symm⟩

theorem RealOk.set (h : RealOk w real) {e : ExportSpec} (he : e ∈ exportSpecs) {a : Nat} (hexp : w.exported e = some a) :
    RealOk w (Function.update real e.fn (some (.addr a))) ∧
      ∀ f c, real f = some c → Function.update real e.fn (some (.addr a)) f = some c := by
  refine ⟨fun f c hf => ?_, fun f c hf => ?_⟩
  · rw [Function.update_apply] at hf
    split at hf
    · next hfe =>
      refine ⟨e, he, hfe.symm, ?_⟩
      rw [hexp]
      exact hf
    · exact h f c hf
  · rw [Function.update_apply]
    split
    · next hfe =>
      obtain ⟨e', he', hfn, hc⟩ := h f c hf
      obtain rfl := exportSpecs_inj e' he' e he (hfn.trans hfe)
      rw [hexp] at hc
      exact hc
    · exact hf

/-- What the worker finds: the pointers set before stay, and every function of the list that is exported has its own. -/
theorem RealOk.resolve (h : RealOk w real) {es : List ExportSpec} (hes : ∀ e ∈ es, e ∈ exportSpecs) :
    RealOk w (es.foldl (resolveReal w) real) ∧ (∀ f c, real f = some c → es.foldl (resolveReal w) real f = some c) ∧
      ∀ e ∈ es, ∀ a, w.exported e = some a → es.foldl (resolveReal w) real e.fn = some (.addr a) := by
  induction es generalizing real with
  | nil => exact ⟨h, fun f c hf => hf, fun e he => absurd he List.not_mem_nil⟩
  | cons e es ih =>
    have he := hes e List.mem_cons_self
    have hfirst : RealOk w (resolveReal w real e) ∧ (∀ f c, real f = some c → resolveReal w real e f = some c) ∧
        ∀ a, w.exported e = some a → resolveReal w real e e.fn = some (.addr a) := by
      rw [resolveReal]
      split
      · next hnone =>
        cases hexp : w.exported e with
        | none =>
          rw [Option.map_none, ← hnone, Function.update_eq_self]
          exact ⟨h, fun f c hf => hf, fun a ha => absurd ha.symm (Option.some_ne_none a)⟩
        | some a =>
          obtain ⟨hok, hsub⟩ := h.set he hexp
          exact ⟨hok, hsub, fun a' ha' => by rw [Function.update_self, Option.some.inj ha']; rfl⟩
      · next hsome =>
        refine ⟨h, fun f c hf => hf, fun a ha => ?_⟩
        obtain ⟨c, hc⟩ := Option.ne_none_iff_exists'.mp hsome
        obtain ⟨-, hsub⟩ := h.set he ha
        have hset := hsub e.fn c hc
        rw [Function.update_self] at hset
        rw [hc, hset]
    obtain ⟨hok, hsub, hset⟩ := ih hfirst.1 fun e' he' => hes e' (List.mem_cons_of_mem e he')
    rw [List.foldl_cons]
    refine ⟨hok, fun f c hf => hsub f c (hfirst.2.1 f c hf), fun e' he' a ha => ?_⟩
    rcases List.mem_cons.mp he' with rfl | he'
    · exact hsub _ _ (hfirst.2.2 a ha)
    · exact hset e' he' a ha

theorem PointersOk.more (h : PointersOk w s) (hok : RealOk w real') (hsub : ∀ f c, s.real f = some c → real' f = some c)
    (getproc : Bool) : PointersOk w { s with real := real', getproc := getproc } where
  real := hok
  modules id m hm :=
    ⟨(h.modules id m hm).fresh, view_mono hsub (h.modules id m hm).same, (h.modules id m hm).kept⟩
  handed p hp := reach_mono hsub (h.handed p hp)

/-! ## Patching a module -/

/-- A comparison that holds is of an address, and what is put there goes on to it. -/
theorem patchIfReal_cases (hok : RealOk w real) (t : Thunk) (e : ExportSpec) :
    patchIfReal real t e = t ∨ patchIfReal real t e = { t with code := .hook e.fn } ∧ t.writable = true ∧
      (∃ a, t.code = .addr a) ∧ real e.fn = some t.code := by
  rw [patchIfReal]
  split
  · next h => exact .inr ⟨rfl, h.2, hok.addr h.1, h.1⟩
  · exact .inl rfl

/-- What all the comparisons leave: the slot as it was, or the hook that goes on to what it held. -/
theorem patchSlot_cases (hok : RealOk w real) (es : List ExportSpec) (t : Thunk) :
    es.foldl (patchIfReal real) t = t ∨ ∃ f, es.foldl (patchIfReal real) t = { t with code := .hook f } ∧
      t.writable = true ∧ (∃ a, t.code = .addr a) ∧ real f = some t.code := by
  induction es with
  | nil => exact .inl rfl
  | cons e es ih =>
    rw [List.foldl_cons]
    rcases patchIfReal_cases hok t e with hsame | ⟨hput, hw, haddr, hreal⟩
    · rwa [hsame]
    · have hrest : ∀ es : List ExportSpec,
          es.foldl (patchIfReal real) { t with code := .hook e.fn } = { t with code := .hook e.fn } := by
        intro es
        induction es with
        | nil => rfl
        | cons e' es ih' =>
          rw [List.foldl_cons]
          rcases patchIfReal_cases hok { t with code := .hook e.fn } e' with hsame | ⟨-, -, ⟨a, ha⟩, -⟩
          · rwa [hsame]
          · cases ha
      rw [hput, hrest]
      exact .inr ⟨e.fn, rfl, hw, haddr, hreal⟩

theorem patchSlot_view (hok : RealOk w real) (t : Thunk) :
    slotView (reach real) (patchSlot real t) = slotView (reach real) t := by
  rw [patchSlot]
  rcases patchSlot_cases hok exportSpecs t with hsame | ⟨f, hput, -, ⟨a, ha⟩, hreal⟩
  · rw [hsame]
  · rw [hput, slotView, slotView, ha]
    have hf : reach real (.hook f) = some (.addr a) := by rw [← ha]; exact hreal
    rw [hf]
    rfl

theorem patchSlot_bare (hok : RealOk w real) {es : List ExportSpec} {e : ExportSpec} (he : e ∈ es) {t : Thunk}
    (hw : t.writable = true) (hreal : real e.fn = some t.code) :
    ∃ f, (es.foldl (patchIfReal real) t).code = .hook f := by
  induction es with
  | nil => exact absurd he List.not_mem_nil
  | cons e' es ih =>
    rw [List.foldl_cons]
    by_cases hfirst : real e'.fn = some t.code
    · have hput : patchIfReal real t e' = { t with code := .hook e'.fn } := by rw [patchIfReal, if_pos ⟨hfirst, hw⟩]
      rw [hput]
      rcases patchSlot_cases hok es { t with code := .hook e'.fn } with hsame | ⟨f, hput', -⟩
      · exact ⟨e'.fn, congrArg Thunk.code hsame⟩
      · exact ⟨f, congrArg Thunk.code hput'⟩
    · have hsame : patchIfReal real t e' = t := by rw [patchIfReal, if_neg fun h => hfirst h.1]
      rw [hsame]
      rcases List.mem_cons.mp he with rfl | he
      · exact absurd hreal hfirst
      · exact ih he

theorem patchByPointer_view (hok : RealOk w real) (table : ImportTable) :
    importView (reach real) (patchByPointer real table) = importView (reach real) table := by
  induction table with
  | nil => rfl
  | cons d ds ih =>
    rw [patchByPointer]
    split
    · have hthunks : (d.thunks.map (patchSlot real)).map (slotView (reach real)) = d.thunks.map (slotView (reach real)) := by
        rw [List.map_map]
        exact List.map_congr_left fun t _ => patchSlot_view hok t
      show (d.dll, _) :: _ = (d.dll, _) :: _
      rw [hthunks]
    · exact congrArg (List.cons (d.dll, d.thunks.map (slotView (reach real)))) ih

theorem patchByPointer_kept (hok : RealOk w real) {table : ImportTable}
    (h : ∀ d ∈ table, ∀ t ∈ d.thunks, t.writable = false → ∃ a, t.code = .addr a) :
    ∀ d ∈ patchByPointer real table, ∀ t ∈ d.thunks, t.writable = false → ∃ a, t.code = .addr a := by
  induction table with
  | nil => exact h
  | cons d ds ih =>
    rw [patchByPointer]
    split
    · intro d' hd' t' ht' hw'
      rcases List.mem_cons.mp hd' with rfl | hd'
      · obtain ⟨t, ht, rfl⟩ := List.mem_map.mp ht'
        rw [patchSlot] at hw' ⊢
        rcases patchSlot_cases hok exportSpecs t with hsame | ⟨f, hput, hw, -⟩
        · rw [hsame] at hw' ⊢
          exact h d List.mem_cons_self t ht hw'
        · rw [hput] at hw'
          exact absurd (hw.symm.trans hw') Bool.noConfusion
      · exact h d' (List.mem_cons_of_mem d hd') t' ht' hw'
    · intro d' hd'
      rcases List.mem_cons.mp hd' with rfl | hd'
      · exact h d' List.mem_cons_self
      · exact ih (fun d' hd' => h d' (List.mem_cons_of_mem d hd')) d' hd'

theorem ModuleOk.patch (hok : RealOk w real) {m : LoadedModule} (h : ModuleOk real m) :
    ModuleOk real { m with table := patchByPointer real m.table } where
  fresh := h.fresh
  same := (patchByPointer_view hok m.table).trans h.same
  kept := patchByPointer_kept hok h.kept

theorem moduleOk_load {table : ImportTable} (h : fresh table = true) : ModuleOk real ⟨table, table⟩ where
  fresh := h
  same := List.map_congr_left fun d hd => congrArg _ (List.map_congr_left fun t ht => by
    obtain ⟨a, ha⟩ := fresh_addr h hd ht
    rw [slotView, slotView, ha]
    rfl)
  kept _ hd _ ht _ := fresh_addr h hd ht

end Invariant

/-! ## Every order of steps -/

/-- A library by the name of `ws2_32.dll` has one address for each function, by whichever name it is asked for. -/
def PointerCfg.Consistent (w : PointerCfg) : Prop :=
  ∀ m, w.isWs2 m = true → ∀ e ∈ exportSpecs, ∀ n a, e.knows n = true → w.lookup m (.name n) = some a →
    w.exported e = some a

section Runs
variable {w : PointerCfg} {s : Pointers}

/-- What the game is given goes where the library's own pointer does; the modules stay as they are, and the pointers that
are set. -/
theorem lookUp_ok (hw : w.Consistent) (h : PointersOk w s) (m : Nat) (proc : ImportRef) :
    PointersOk w (lookUp w s m proc).1 ∧ (lookUp w s m proc).1.modules = s.modules ∧
      (lookUp w s m proc).1.handed = s.handed ∧ (∀ f c, s.real f = some c → (lookUp w s m proc).1.real f = some c) ∧
      ∀ c a, (lookUp w s m proc).2 = some c → w.lookup m proc = some a →
        reach (lookUp w s m proc).1.real c = some (.addr a) := by
  have hplain : ∀ c a, (w.lookup m proc).map Code.addr = some c → w.lookup m proc = some a →
      reach s.real c = some (.addr a) := fun c a hc ha => by
    rw [ha] at hc
    obtain rfl : Code.addr a = c := Option.some.inj hc
    rfl
  rw [lookUp]
  split
  · rw [hookedGetProcAddress]
    cases ha : w.lookup m proc with
    | none => exact ⟨h, rfl, rfl, fun f c hf => hf, fun c a hc => absurd hc.symm (Option.some_ne_none c)⟩
    | some a =>
      have hsame : ∀ c a', some (Code.addr a) = some c → some a = some a' → reach s.real c = some (.addr a') :=
        fun c a' hc ha' => hplain c a' (by rw [ha]; exact hc) (ha.trans ha')
      dsimp only
      split
      · exact ⟨h, rfl, rfl, fun f c hf => hf, hsame⟩
      · next hws =>
        cases proc with
        | ordinal n => exact ⟨h, rfl, rfl, fun f c hf => hf, hsame⟩
        | name n =>
          dsimp only
          cases hfind : exportSpecs.find? (·.knows n) with
          | none => exact ⟨h, rfl, rfl, fun f c hf => hf, hsame⟩
          | some e =>
            have he := List.mem_of_find?_eq_some hfind
            have hknows := List.find?_some hfind
            have hws2 : w.isWs2 m = true := by simpa using hws
            obtain ⟨hok, hsub⟩ := h.real.set he (hw m hws2 e he n a hknows ha)
            refine ⟨h.more hok hsub s.getproc, rfl, rfl, hsub, fun c a' hc ha' => ?_⟩
            obtain rfl := Option.some.inj hc
            obtain rfl := Option.some.inj ha'
            exact Function.update_self _ _ _
  · exact ⟨h, rfl, rfl, fun f c hf => hf, hplain⟩

/-- What every step keeps; no step unsets a pointer. -/
theorem pointerStep_ok (hw : w.Consistent) (h : PointersOk w s) (e : PointerEvent) :
    PointersOk w (pointerStep w s e).1 ∧ ∀ f c, s.real f = some c → (pointerStep w s e).1.real f = some c := by
  cases e with
  | resolve =>
    obtain ⟨hok, hsub, -⟩ := h.real.resolve fun e (he : e ∈ exportSpecs) => he
    rw [pointerStep, resolvePointers]
    split
    · exact ⟨h, fun f c hf => hf⟩
    · dsimp only
      split
      · exact ⟨h.more hok hsub _, hsub⟩
      · exact ⟨h.more h.real (fun f c hf => hf) _, fun f c hf => hf⟩
  | patch id =>
    refine ⟨⟨h.real, fun id' m' hm' => ?_, h.handed⟩, fun f c hf => hf⟩
    rw [pointerStep] at hm' ⊢
    dsimp only at hm' ⊢
    rw [Function.update_apply] at hm'
    split at hm'
    · obtain ⟨m, hm, rfl⟩ := Option.map_eq_some_iff.mp hm'
      exact (h.modules id m hm).patch h.real
    · exact h.modules id' m' hm'
  | load id table =>
    rw [pointerStep]
    split
    · next hload =>
      refine ⟨⟨h.real, fun id' m' hm' => ?_, h.handed⟩, fun f c hf => hf⟩
      dsimp only at hm' ⊢
      rw [Function.update_apply] at hm'
      split at hm'
      · obtain rfl := Option.some.inj hm'
        exact moduleOk_load hload.1
      · exact h.modules id' m' hm'
    · exact ⟨h, fun f c hf => hf⟩
  | unload id =>
    refine ⟨⟨h.real, fun id' m' hm' => ?_, h.handed⟩, fun f c hf => hf⟩
    rw [pointerStep] at hm' ⊢
    dsimp only at hm' ⊢
    rw [Function.update_apply] at hm'
    split at hm'
    · cases hm'
    · exact h.modules id' m' hm'
  | getProc m proc =>
    obtain ⟨hok, hmods, hhanded, hsub, hreach⟩ := lookUp_ok hw h m proc
    rw [pointerStep]
    dsimp only
    cases hc : (lookUp w s m proc).2 with
    | none => exact ⟨hok, hsub⟩
    | some c =>
      cases ha : w.lookup m proc with
      | none => exact ⟨hok, hsub⟩
      | some a =>
        refine ⟨⟨hok.real, hok.modules, fun p hp => ?_⟩, hsub⟩
        rcases List.mem_cons.mp hp with rfl | hp
        · exact hreach c a hc ha
        · exact hok.handed p hp

theorem emptyPointers_ok (w : PointerCfg) : PointersOk w emptyPointers where
  real _ c hf := absurd hf.symm (Option.some_ne_none c)
  modules _ m hm := absurd hm.symm (Option.some_ne_none m)
  handed _ hp := absurd hp List.not_mem_nil

theorem pointerRun_ok (hw : w.Consistent) (es : List PointerEvent) : PointersOk w (pointerRun w es) :=
  Machine.final_inv (emptyPointers_ok w) (fun _ e h => (pointerStep_ok hw h e).1) es

/-- **Nobody can tell.** The worker looks functions up and goes through modules, the game loads modules, unloads them and
looks functions up, in any order. At every moment every slot of every module comes to where the loader had it go, and
every pointer that the game has got from `GetProcAddress` to the function it asked for: no hook is reached without its
real function, and none goes on to itself. -/
theorem pointers_transparent (hw : w.Consistent) (es : List PointerEvent) :
    (∀ id m, (pointerRun w es).modules id = some m → calls (pointerRun w es).real m.table = calls (fun _ => none) m.loaded) ∧
    ∀ p ∈ (pointerRun w es).handed, Loop.run (callStep (pointerRun w es).real) 2 p.1 = some (some p.2) := by
  have hok := pointerRun_ok hw es
  refine ⟨fun id m hm => ?_, fun p hp => run_reach (hok.handed p hp)⟩
  exact calls_of_view (hok.modules id m hm).fresh (hok.modules id m hm).same

end Runs

/-! ## A game that imports two functions -/

/-- A library of two functions, and a game that can look more up. -/
def twoFunctions : PointerCfg where
  target := true
  main := [⟨"KERNEL32.dll", [⟨.name "GetProcAddress", .addr 3, true⟩]⟩]
  ws2 := some 1
  isWs2 m := m = 1
  lookup _ r := if r = .name "socket" then some 5 else if r = .name "sendto" then some 6 else none

theorem twoFunctions_consistent : twoFunctions.Consistent := by
  have hsocket : ∀ e ∈ exportSpecs, e.knows "socket" = true → twoFunctions.exported e = some 5 := by decide +kernel
  have hsendto : ∀ e ∈ exportSpecs, e.knows "sendto" = true → twoFunctions.exported e = some 6 := by decide +kernel
  intro m _ e he n a hn ha
  have hname : (if ImportRef.name n = .name "socket" then some 5
    else if ImportRef.name n = .name "sendto" then some 6 else none) = some a := ha
  split at hname
  · next h =>
    obtain rfl := ImportRef.name.inj h
    rw [← hname]
    exact hsocket e he hn
  · split at hname
    · next h =>
      obtain rfl := ImportRef.name.inj h
      rw [← hname]
      exact hsendto e he hn
    · cases hname

/-- Its imports of the two, by ordinal and by name, and one of another library. -/
def twoImports : ImportTable :=
  [⟨"USER32.dll", [⟨.name "MessageBoxA", .addr 9, true⟩]⟩,
    ⟨"ws2_32.DLL", [⟨.ordinal 23, .addr 5, true⟩, ⟨.name "sendto", .addr 6, true⟩, ⟨.ordinal 1, .addr 8, true⟩]⟩]

/-- A pointer that the game looked up between two rounds of the worker still leads to the function after the second. -/
theorem pointers_transparent_twoFunctions :
    let s := pointerRun twoFunctions
      [.load 7 twoImports, .resolve, .patch 7, .getProc 1 (.name "sendto"), .resolve, .patch 7]
    Loop.run (callStep s.real) 2 (.hook .sendto) = some (some 6) :=
  (pointers_transparent twoFunctions_consistent _).2 (.hook .sendto, 6) (by decide +kernel)

end BzNet
