import BzNet.Wire
import BzNet.Lib.Loop

/-!
# Import tables

Both proxies put their hooks into the import tables of modules: the slot through which a module calls a function is given
the address of the hook, and the hook calls the address that it keeps as the real one.

* `Code`, `ImportTable` : what a slot holds, and the tables as the loader has them;
* `callStep` : the chain of real pointers from one piece of code to the next, `Loop.run` of it the chain to its end;
* `patchIAT` : the patcher that goes by the name of the function or its ordinal;
* `patchIAT_self`, `patchIAT_other` : what it leaves of the slot it patches and of the slots of other functions.
-/

namespace BzNet

/-- The functions that one of the proxies hooks. -/
inductive HookFn where
  | wsaSocketW
  | wsaRecvFrom
  | recvfrom
  | ioctlsocket
  | wsaIoctl
  | closesocket
  | setsockopt
  | sendto
  | wsaSendTo
  | getQueuedCompletionStatus
  | wsaSetSocketOption
  | getsockopt
  | wsaGetSocketOption
  | socket
deriving DecidableEq

/-- What a slot holds: the address of a hook, or any other. -/
inductive Code where
  | hook (f : HookFn)
  | addr (n : Nat)
deriving DecidableEq

/-- Where a call that is passed on goes next: a hook passes on to what it keeps as the real function, and without one it
returns an error; any other code returns. What a hook answers by itself (a send that is suppressed or queued) goes
nowhere. -/
def callStep (real : HookFn → Option Code) : Code → Code ⊕ Option Nat
  | .hook f =>
    match real f with
    | some c => .inl c
    | none => .inr none
  | .addr n => .inr (some n)

/-! ## The tables -/

inductive ImportRef where
  | ordinal (n : Nat)
  | name (s : String)
deriving DecidableEq

/-- A slot, with the import that the loader resolved it from; `writable` is whether its page can be unprotected. -/
structure Thunk where
  ref : ImportRef
  code : Code
  writable : Bool

structure ImportDescriptor where
  dll : String
  thunks : List Thunk

/-- The import directory of a module. A module whose headers are not those of an image has none. -/
abbrev ImportTable := List ImportDescriptor

def stricmp (a b : String) : Bool := a.toList.map Char.toLower = b.toList.map Char.toLower

/-- A function to hook, with the names its module goes by and its own name and ordinal; the ordinal `0` is none. -/
structure HookSpec where
  fn : HookFn
  dlls : List String
  name : String
  ordinal : Nat
deriving DecidableEq

def HookSpec.picks (h : HookSpec) (t : Thunk) : Bool :=
  match t.ref with
  | .ordinal n => h.ordinal ≠ 0 ∧ n = h.ordinal
  | .name s => s = h.name

/-- The walk of `PatchIAT` along the slots of a module: the old code and the new slots. -/
def patchThunks (h : HookSpec) (new : Code) : List Thunk → Option (Code × List Thunk)
  | [] => none
  | t :: ts =>
    if h.picks t then
      if t.writable then some (t.code, { t with code := new } :: ts) else none
    else (patchThunks h new ts).map fun r => (r.1, t :: r.2)

/-- `PatchIAT`: only the first import block of the module is looked at. -/
def patchIAT (dll : String) (h : HookSpec) (new : Code) : ImportTable → Option (Code × ImportTable)
  | [] => none
  | d :: ds =>
    if stricmp d.dll dll then (patchThunks h new d.thunks).map fun r => (r.1, { d with thunks := r.2 } :: ds)
    else (patchIAT dll h new ds).map fun r => (r.1, d :: r.2)

/-- Under the first name that works. -/
def patchFirst (h : HookSpec) (new : Code) (table : ImportTable) : Option (Code × ImportTable) :=
  h.dlls.findSome? fun dll => patchIAT dll h new table

def slotOf (table : ImportTable) (h : HookSpec) : Option Code := (patchFirst h (.hook h.fn) table).map Prod.fst

/-! ## What a patch leaves -/

/-- No slot is one of both functions. -/
def HookSpec.Apart (h g : HookSpec) : Prop := h.name ≠ g.name ∧ (h.ordinal = 0 ∨ h.ordinal ≠ g.ordinal)

instance (h g : HookSpec) : Decidable (h.Apart g) := inferInstanceAs (Decidable (_ ∧ _))

theorem picks_apart {h g : HookSpec} (hap : h.Apart g) {t : Thunk} (ht : h.picks t = true) : g.picks t = false := by
  unfold HookSpec.picks at ht ⊢
  cases href : t.ref with
  | ordinal n =>
    rw [href] at ht
    obtain ⟨h0, hn⟩ := of_decide_eq_true ht
    refine decide_eq_false fun hg => ?_
    rcases hap.2 with hz | hne
    · exact h0 hz
    · exact hne (hn.symm.trans hg.2)
  | name s =>
    rw [href] at ht
    exact decide_eq_false fun hg => hap.1 ((of_decide_eq_true ht).symm.trans hg)

section Thunks
variable {h g : HookSpec} {new new' : Code} {ts ts' : List Thunk} {old : Code}

theorem patchThunks_fst (h : HookSpec) (new new' : Code) (ts : List Thunk) :
    (patchThunks h new ts).map Prod.fst = (patchThunks h new' ts).map Prod.fst := by
  induction ts with
  | nil => rfl
  | cons t ts ih =>
    rw [patchThunks, patchThunks]
    split
    · split <;> rfl
    · rw [Option.map_map, Option.map_map]
      exact ih

theorem patchThunks_self (hp : patchThunks h new ts = some (old, ts')) :
    (patchThunks h new' ts').map Prod.fst = some new := by
  induction ts generalizing ts' with
  | nil => cases hp
  | cons t ts ih =>
    rw [patchThunks] at hp
    split at hp
    · next hm =>
      split at hp
      · next hw =>
        obtain ⟨rfl, rfl⟩ := Prod.mk.inj (Option.some.inj hp)
        have hm' : h.picks { t with code := new } = true := hm
        rw [patchThunks, if_pos hm', if_pos hw]
        rfl
      · cases hp
    · next hm =>
      obtain ⟨⟨old', ts''⟩, hts, heq⟩ := Option.map_eq_some_iff.mp hp
      obtain ⟨rfl, rfl⟩ := Prod.mk.inj heq
      rw [patchThunks, if_neg hm, Option.map_map]
      exact ih hts

theorem patchThunks_other (hap : h.Apart g) (hp : patchThunks h new ts = some (old, ts')) :
    (patchThunks g new' ts').map Prod.fst = (patchThunks g new' ts).map Prod.fst := by
  induction ts generalizing ts' with
  | nil => cases hp
  | cons t ts ih =>
    rw [patchThunks] at hp
    split at hp
    · next hm =>
      split at hp
      · obtain ⟨rfl, rfl⟩ := Prod.mk.inj (Option.some.inj hp)
        have hg := picks_apart hap hm
        have hg' : g.picks { t with code := new } = false := hg
        rw [patchThunks, patchThunks, hg, hg', if_neg Bool.false_ne_true, if_neg Bool.false_ne_true, Option.map_map,
          Option.map_map]
        rfl
      · cases hp
    · obtain ⟨⟨old', ts''⟩, hts, heq⟩ := Option.map_eq_some_iff.mp hp
      obtain ⟨rfl, rfl⟩ := Prod.mk.inj heq
      rw [patchThunks, patchThunks]
      split
      · split <;> rfl
      · rw [Option.map_map, Option.map_map]
        exact ih hts

theorem patchThunks_cons_isSome (g : HookSpec) (new : Code) (t : Thunk) (ts : List Thunk) :
    (patchThunks g new (t :: ts)).isSome = if g.picks t then t.writable else (patchThunks g new ts).isSome := by
  rw [patchThunks]
  split
  · cases t.writable <;> rfl
  · exact Option.isSome_map

/-- What can be patched stays so, and nothing else becomes so. -/
theorem patchThunks_isSome (hp : patchThunks h new ts = some (old, ts')) :
    (patchThunks g new' ts').isSome = (patchThunks g new' ts).isSome := by
  induction ts generalizing ts' with
  | nil => cases hp
  | cons t ts ih =>
    rw [patchThunks] at hp
    split at hp
    · split at hp
      · obtain ⟨rfl, rfl⟩ := Prod.mk.inj (Option.some.inj hp)
        rw [patchThunks_cons_isSome, patchThunks_cons_isSome]
        rfl
      · cases hp
    · obtain ⟨⟨old', ts''⟩, hts, heq⟩ := Option.map_eq_some_iff.mp hp
      obtain ⟨rfl, rfl⟩ := Prod.mk.inj heq
      rw [patchThunks_cons_isSome, patchThunks_cons_isSome, ih hts]

end Thunks

section Tables
variable {h g : HookSpec} {dll dll' : String} {new new' : Code} {table table' : ImportTable} {old : Code}

theorem patchIAT_fst (dll : String) (h : HookSpec) (new new' : Code) (table : ImportTable) :
    (patchIAT dll h new table).map Prod.fst = (patchIAT dll h new' table).map Prod.fst := by
  induction table with
  | nil => rfl
  | cons d ds ih =>
    rw [patchIAT, patchIAT]
    split
    · rw [Option.map_map, Option.map_map]
      exact patchThunks_fst h new new' d.thunks
    · rw [Option.map_map, Option.map_map]
      exact ih

/-- **The slot it patches** holds the new code. -/
theorem patchIAT_self (hp : patchIAT dll h new table = some (old, table')) :
    (patchIAT dll h new' table').map Prod.fst = some new := by
  induction table generalizing table' with
  | nil => cases hp
  | cons d ds ih =>
    rw [patchIAT] at hp
    split at hp
    · next hd =>
      obtain ⟨⟨old', ts⟩, hts, heq⟩ := Option.map_eq_some_iff.mp hp
      obtain ⟨rfl, rfl⟩ := Prod.mk.inj heq
      rw [patchIAT, if_pos hd, Option.map_map]
      exact patchThunks_self hts
    · next hd =>
      obtain ⟨⟨old', ds'⟩, hds, heq⟩ := Option.map_eq_some_iff.mp hp
      obtain ⟨rfl, rfl⟩ := Prod.mk.inj heq
      rw [patchIAT, if_neg hd, Option.map_map]
      exact ih hds

/-- **The slots of other functions** hold what they did. -/
theorem patchIAT_other (hap : h.Apart g) (hp : patchIAT dll h new table = some (old, table')) :
    (patchIAT dll' g new' table').map Prod.fst = (patchIAT dll' g new' table).map Prod.fst := by
  induction table generalizing table' with
  | nil => cases hp
  | cons d ds ih =>
    rw [patchIAT] at hp
    split at hp
    · obtain ⟨⟨old', ts⟩, hts, heq⟩ := Option.map_eq_some_iff.mp hp
      obtain ⟨rfl, rfl⟩ := Prod.mk.inj heq
      rw [patchIAT, patchIAT]
      split
      · rw [Option.map_map, Option.map_map]
        exact patchThunks_other hap hts
      · rw [Option.map_map, Option.map_map]
        rfl
    · obtain ⟨⟨old', ds'⟩, hds, heq⟩ := Option.map_eq_some_iff.mp hp
      obtain ⟨rfl, rfl⟩ := Prod.mk.inj heq
      rw [patchIAT, patchIAT]
      split
      · rw [Option.map_map, Option.map_map]
        rfl
      · rw [Option.map_map, Option.map_map]
        exact ih hds

theorem patchIAT_isSome (hp : patchIAT dll h new table = some (old, table')) :
    (patchIAT dll' g new' table').isSome = (patchIAT dll' g new' table).isSome := by
  induction table generalizing table' with
  | nil => cases hp
  | cons d ds ih =>
    rw [patchIAT] at hp
    split at hp
    · obtain ⟨⟨old', ts⟩, hts, heq⟩ := Option.map_eq_some_iff.mp hp
      obtain ⟨rfl, rfl⟩ := Prod.mk.inj heq
      rw [patchIAT, patchIAT]
      split
      · rw [Option.isSome_map, Option.isSome_map]
        exact patchThunks_isSome hts
      · rw [Option.isSome_map, Option.isSome_map]
    · obtain ⟨⟨old', ds'⟩, hds, heq⟩ := Option.map_eq_some_iff.mp hp
      obtain ⟨rfl, rfl⟩ := Prod.mk.inj heq
      rw [patchIAT, patchIAT]
      split
      · rw [Option.isSome_map, Option.isSome_map]
      · rw [Option.isSome_map, Option.isSome_map]
        exact ih hds

theorem slotOf_eq (h : HookSpec) (new : Code) (table : ImportTable) :
    slotOf table h = (patchFirst h new table).map Prod.fst := by
  rw [slotOf, patchFirst, patchFirst, List.map_findSome?, List.map_findSome?]
  congr 1
  funext dll
  exact patchIAT_fst dll h _ new table

theorem slotOf_patched (hp : patchFirst h new table = some (old, table')) : slotOf table' h = some new := by
  obtain ⟨before, dll, after, hdlls, hsome, hnone⟩ := List.findSome?_eq_some_iff.mp hp
  have hfirst : ∀ dll' ∈ before, patchIAT dll' h new table' = none := fun dll' hmem => by
    rw [← Option.not_isSome_iff_eq_none, patchIAT_isSome hsome, hnone dll' hmem]
    exact Bool.false_ne_true
  have hself : (patchIAT dll h new table').map Prod.fst = some new := patchIAT_self hsome
  rw [slotOf_eq h new, patchFirst, hdlls, List.findSome?_append, List.findSome?_eq_none_iff.mpr hfirst, Option.none_or,
    List.findSome?_cons]
  cases hd : patchIAT dll h new table' with
  | none =>
    rw [hd] at hself
    cases hself
  | some r => rwa [hd] at hself

theorem slotOf_apart (hap : h.Apart g) (hp : patchFirst h new table = some (old, table')) :
    slotOf table' g = slotOf table g := by
  obtain ⟨before, dll, after, -, hsome, -⟩ := List.findSome?_eq_some_iff.mp hp
  rw [slotOf, slotOf, patchFirst, patchFirst, List.map_findSome?, List.map_findSome?]
  congr 1
  funext dll'
  exact patchIAT_other hap hsome

end Tables

end BzNet
