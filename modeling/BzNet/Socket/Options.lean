import BzNet.Wire
import BzNet.Lib.Run

/-!
# Socket options

The hooks of `WSASocketW` and of the calls that set options: whatever the game asks for, the two buffers of a socket are
given the proxy's own sizes, and the class of service of a datagram socket is marked.

* `Os`, `plainStep` : the sockets, and the game's calls as the system takes them;
* `hookedStep` : the same calls through the hooks of one of the proxies;
* `Os.kind`, `Os.opt` : what a request leaves of a socket;
* `SameOptions`, `hookedStep_same` : a call with the proxy and without it;
* `options_others` : what the proxy does not set is as it would be without it.
-/

namespace BzNet

/-- A level and a name. -/
abbrev OptKey := Int × Int

/-- `SOL_SOCKET`, `SO_SNDBUF` -/
def kSoSndBuf : OptKey := (0xffff, 0x1001)

/-- `SOL_SOCKET`, `SO_RCVBUF` -/
def kSoRcvBuf : OptKey := (0xffff, 0x1002)

/-- `IPPROTO_IP`, `IP_TOS` -/
def kIpTos : OptKey := (0, 3)

def kTargetSndBuf : Nat := 524288
def kTargetRcvBuf : Nat := 4194304

def intBytes (n : Nat) : Payload := (List.range 4).map fun i => BitVec.ofNat 8 (n >>> (8 * i))

/-! ## The system -/

/-- A socket, with the value that each option was last given. -/
structure Sock where
  /-- It is of `WSASocketW`, for datagrams. -/
  datagram : Bool
  opts : OptKey → Option Payload

/-- The open sockets by their handles. -/
abbrev Os := Nat → Option Sock

/-- What the game calls; the handle of a new socket is the system's. -/
inductive OptCall where
  | wsaSocketW (type protocol : Int) (s : Option Nat)
  | socket (type protocol : Int) (s : Option Nat)
  | setsockopt (s : Nat) (key : OptKey) (val : Payload)
  | wsaSetSocketOption (s : Nat) (key : OptKey) (val : Payload)
  | closesocket (s : Nat) (closes : Bool)

/-- A call, with the requests that the system grants meanwhile. -/
structure OptEvent where
  call : OptCall
  grants : Nat → OptKey → Payload → Bool

/-- What a call returns: a handle, or whether it succeeded. -/
inductive OptResult where
  | handle (s : Option Nat)
  | rc (ok : Bool)

/-- A handle that is in use is not given out again. -/
def Os.create (os : Os) (s : Nat) (datagram : Bool) : Os :=
  if (os s).isNone then Function.update os s (some ⟨datagram, fun _ => none⟩) else os

def Os.set (os : Os) (grants : Nat → OptKey → Payload → Bool) (s : Nat) (key : OptKey) (val : Payload) : Os × Bool :=
  match os s with
  | none => (os, false)
  | some k =>
    if grants s key val then (Function.update os s (some { k with opts := Function.update k.opts key (some val) }), true)
    else (os, false)

/-- `type == SOCK_DGRAM || protocol == IPPROTO_UDP` -/
def forDatagrams (type protocol : Int) : Bool := type = 2 ∨ protocol = 17

/-- A call without the proxy. -/
def plainCall (os : Os) (grants : Nat → OptKey → Payload → Bool) : OptCall → Os × OptResult
  | .wsaSocketW _ _ none => (os, .handle none)
  | .wsaSocketW type protocol (some s) => (os.create s (forDatagrams type protocol), .handle (some s))
  | .socket _ _ none => (os, .handle none)
  | .socket _ _ (some s) => (os.create s false, .handle (some s))
  | .setsockopt s key val => ((os.set grants s key val).1, .rc (os.set grants s key val).2)
  | .wsaSetSocketOption s key val => ((os.set grants s key val).1, .rc (os.set grants s key val).2)
  | .closesocket s closes => (if closes then Function.update os s none else os, .rc closes)

def plainStep (os : Os) (ev : OptEvent) : Os × OptResult := plainCall os ev.grants ev.call

/-! ## The hooks -/

structure OptionsCfg where
  /-- The proxy that also hooks `WSASetSocketOption`. -/
  linux : Bool
  /-- `g_dscp` -/
  dscp : Nat

/-- The byte that the class of service is marked with. -/
def OptionsCfg.mark (cfg : OptionsCfg) : Payload := intBytes (cfg.dscp <<< 2)

/-- `apply_dscp` -/
def applyDscp (cfg : OptionsCfg) (os : Os) (grants : Nat → OptKey → Payload → Bool) (s : Nat) : Os :=
  if cfg.dscp = 0 then os else (os.set grants s kIpTos cfg.mark).1

/-- The two sizes, as `setsockopt` and `WSASetSocketOption` put them in; `none` for any other option. -/
def forcedSize (key : OptKey) : Option Nat :=
  if key = kSoSndBuf then some kTargetSndBuf else if key = kSoRcvBuf then some kTargetRcvBuf else none

/-- `Hooked_setsockopt`; `hooked_WSASetSocketOption` does not mark. -/
def hookedSet (cfg : OptionsCfg) (marks : Bool) (os : Os) (grants : Nat → OptKey → Payload → Bool) (s : Nat) (key : OptKey)
    (val : Payload) : Os × OptResult :=
  match forcedSize key with
  | some size =>
    let (os, ok) := os.set grants s key (intBytes size)
    (if marks ∧ key = kSoSndBuf then applyDscp cfg os grants s else os, .rc ok)
  | none =>
    let (os, ok) := os.set grants s key val
    (os, .rc ok)

/-- What `Hooked_WSASocketW` does to a new datagram socket. -/
def tuneSocket (cfg : OptionsCfg) (os : Os) (grants : Nat → OptKey → Payload → Bool) (s : Nat) : Os :=
  let os := (os.set grants s kSoSndBuf (intBytes kTargetSndBuf)).1
  let os := (os.set grants s kSoRcvBuf (intBytes kTargetRcvBuf)).1
  applyDscp cfg os grants s

/-- A call with the proxy. -/
def hookedCall (cfg : OptionsCfg) (os : Os) (grants : Nat → OptKey → Payload → Bool) : OptCall → Os × OptResult
  | .wsaSocketW _ _ none => (os, .handle none)
  | .wsaSocketW type protocol (some s) =>
    let os := os.create s (forDatagrams type protocol)
    (if forDatagrams type protocol then tuneSocket cfg os grants s else os, .handle (some s))
  | .setsockopt s key val => hookedSet cfg true os grants s key val
  | .wsaSetSocketOption s key val =>
    if cfg.linux then hookedSet cfg false os grants s key val else plainCall os grants (.wsaSetSocketOption s key val)
  | .socket type protocol s => plainCall os grants (.socket type protocol s)
  | .closesocket s closes => plainCall os grants (.closesocket s closes)

def hookedStep (cfg : OptionsCfg) (os : Os) (ev : OptEvent) : Os × OptResult := hookedCall cfg os ev.grants ev.call

def noSockets : Os := fun _ => none

/-! ## What one call leaves -/

def Os.kind (os : Os) (s : Nat) : Option Bool := (os s).map (·.datagram)

def Os.opt (os : Os) (s : Nat) (key : OptKey) : Option Payload := (os s).bind (·.opts key)

section Calls
variable {os : Os} {grants : Nat → OptKey → Payload → Bool} {s s' : Nat} {key key' : OptKey} {val : Payload}

/-- A request is refused, and nothing changes, or it is granted to an open socket. -/
theorem set_cases (os : Os) (grants : Nat → OptKey → Payload → Bool) (s : Nat) (key : OptKey) (val : Payload) :
    (os.set grants s key val = (os, false) ∧ ((os.kind s).isSome && grants s key val) = false) ∨
      ∃ k, os s = some k ∧ grants s key val = true ∧ os.set grants s key val =
        (Function.update os s (some { k with opts := Function.update k.opts key (some val) }), true) := by
  rw [Os.set, Os.kind]
  cases hs : os s with
  | none => exact .inl ⟨rfl, rfl⟩
  | some k =>
    cases hg : grants s key val with
    | false => exact .inl ⟨rfl, rfl⟩
    | true => exact .inr ⟨k, rfl, rfl, rfl⟩

theorem set_kind (os : Os) (grants : Nat → OptKey → Payload → Bool) (s s' : Nat) (key : OptKey) (val : Payload) :
    (os.set grants s key val).1.kind s' = os.kind s' := by
  rcases set_cases os grants s key val with ⟨hset, -⟩ | ⟨k, hs, -, hset⟩
  · rw [hset]
  · rw [hset, Os.kind, Os.kind]
    dsimp only
    rw [Function.update_apply]
    split
    · next heq => rw [heq, hs]; rfl
    · rfl

theorem set_ok (os : Os) (grants : Nat → OptKey → Payload → Bool) (s : Nat) (key : OptKey) (val : Payload) :
    (os.set grants s key val).2 = ((os.kind s).isSome && grants s key val) := by
  rcases set_cases os grants s key val with ⟨hset, hno⟩ | ⟨k, hs, hg, hset⟩
  · rw [hset, hno]
  · rw [hset, hg, Os.kind, hs]
    rfl

theorem set_opt (os : Os) (grants : Nat → OptKey → Payload → Bool) (s s' : Nat) (key key' : OptKey) (val : Payload) :
    (os.set grants s key val).1.opt s' key' =
      if s' = s ∧ key' = key ∧ ((os.kind s).isSome && grants s key val) = true then some val else os.opt s' key' := by
  rcases set_cases os grants s key val with ⟨hset, hno⟩ | ⟨k, hs, hg, hset⟩
  · rw [hset, if_neg fun h => absurd (hno.symm.trans h.2.2) Bool.false_ne_true]
  · have hopen : (os.kind s).isSome = true := by rw [Os.kind, hs]; rfl
    rw [hset, hopen, hg, Os.opt, Os.opt]
    dsimp only
    rw [Function.update_apply]
    by_cases heq : s' = s
    · subst heq
      rw [if_pos rfl, hs]
      by_cases hkey : key' = key
      · subst hkey
        rw [if_pos ⟨rfl, rfl, rfl⟩]
        exact Function.update_self _ _ _
      · rw [if_neg fun h => hkey h.2.1]
        exact Function.update_of_ne hkey _ _
    · rw [if_neg heq, if_neg fun h => heq h.1]

theorem set_opt_self (hopen : (os.kind s).isSome = true) (hgrants : grants s key val = true) :
    (os.set grants s key val).1.opt s key = some val := by
  rw [set_opt, hopen, hgrants, if_pos ⟨rfl, rfl, rfl⟩]

theorem set_opt_other (hkey : key' ≠ key) : (os.set grants s key val).1.opt s' key' = os.opt s' key' := by
  rw [set_opt, if_neg fun h => hkey h.2.1]

theorem create_opt (os : Os) (s s' : Nat) (datagram : Bool) (key : OptKey) :
    (os.create s datagram).opt s' key = os.opt s' key := by
  rw [Os.create]
  split
  · next hnone =>
    rw [Os.opt, Os.opt, Function.update_apply]
    split
    · next heq =>
      rw [heq, Option.isNone_iff_eq_none.mp hnone]
      rfl
    · rfl
  · rfl

theorem create_kind (os : Os) (s s' : Nat) (datagram : Bool) :
    (os.create s datagram).kind s' = if s' = s ∧ os.kind s = none then some datagram else os.kind s' := by
  rw [Os.create]
  split
  · next hnone =>
    have hkind : os.kind s = none := by rw [Os.kind, Option.isNone_iff_eq_none.mp hnone]; rfl
    rw [hkind, Os.kind, Function.update_apply]
    by_cases heq : s' = s
    · rw [if_pos heq, if_pos ⟨heq, rfl⟩]
      rfl
    · rw [if_neg heq, if_neg fun h => heq h.1]
      rfl
  · next hsome =>
    rw [if_neg fun h => hsome (Option.isNone_iff_eq_none.mpr (Option.map_eq_none_iff.mp h.2))]

theorem applyDscp_kind (cfg : OptionsCfg) (os : Os) (grants : Nat → OptKey → Payload → Bool) (s s' : Nat) :
    (applyDscp cfg os grants s).kind s' = os.kind s' := by
  rw [applyDscp]
  split
  · rfl
  · exact set_kind os grants s s' kIpTos cfg.mark

theorem applyDscp_other {cfg : OptionsCfg} (h : key ≠ kIpTos ∨ cfg.dscp = 0) :
    (applyDscp cfg os grants s).opt s' key = os.opt s' key := by
  rw [applyDscp]
  split
  · rfl
  · next hdscp => exact set_opt_other (h.resolve_right hdscp)

end Calls

/-! ## Everything else -/

/-- The options that the proxy leaves to the game. -/
def OptionsCfg.leaves (cfg : OptionsCfg) (key : OptKey) : Prop := forcedSize key = none ∧ (key = kIpTos → cfg.dscp = 0)

/-- Two systems with the same sockets, and the same options but for those that the proxy sets. -/
def SameOptions (cfg : OptionsCfg) (os os' : Os) : Prop :=
  ∀ s, os.kind s = os'.kind s ∧ ∀ key, cfg.leaves key → os.opt s key = os'.opt s key

/-- The game asks for the size of a buffer. -/
def OptEvent.asksSize (ev : OptEvent) : Bool :=
  match ev.call with
  | .setsockopt _ key _ => (forcedSize key).isSome
  | .wsaSetSocketOption _ key _ => (forcedSize key).isSome
  | _ => false

section SameOptions
variable {cfg : OptionsCfg} {os os' : Os} {grants : Nat → OptKey → Payload → Bool} {key : OptKey}

theorem SameOptions.set (h : SameOptions cfg os os') (s : Nat) (val : Payload) :
    SameOptions cfg (os.set grants s key val).1 (os'.set grants s key val).1 := by
  intro s'
  refine ⟨by rw [set_kind, set_kind, (h s').1], fun key' hkey' => ?_⟩
  rw [set_opt, set_opt, (h s).1, (h s').2 key' hkey']

theorem SameOptions.proxy (h : SameOptions cfg os os') (hkey : ¬ cfg.leaves key) (s : Nat) (val : Payload) :
    SameOptions cfg (os.set grants s key val).1 os' := by
  intro s'
  refine ⟨by rw [set_kind, (h s').1], fun key' hkey' => ?_⟩
  rw [set_opt_other (by rintro rfl; exact hkey hkey'), (h s').2 key' hkey']

theorem SameOptions.game (h : SameOptions cfg os os') (hkey : ¬ cfg.leaves key) (s : Nat) (val : Payload) :
    SameOptions cfg os (os'.set grants s key val).1 := by
  intro s'
  refine ⟨by rw [set_kind, (h s').1], fun key' hkey' => ?_⟩
  rw [set_opt_other (by rintro rfl; exact hkey hkey'), (h s').2 key' hkey']

theorem SameOptions.dscp (h : SameOptions cfg os os') (s : Nat) : SameOptions cfg (applyDscp cfg os grants s) os' := by
  intro s'
  refine ⟨by rw [applyDscp_kind, (h s').1], fun key hkey => ?_⟩
  have hleft : key ≠ kIpTos ∨ cfg.dscp = 0 := by
    by_cases heq : key = kIpTos
    · exact .inr (hkey.2 heq)
    · exact .inl heq
  rw [applyDscp_other hleft, (h s').2 key hkey]

theorem SameOptions.create (h : SameOptions cfg os os') (s : Nat) (datagram : Bool) :
    SameOptions cfg (os.create s datagram) (os'.create s datagram) := by
  intro s'
  refine ⟨by rw [create_kind, create_kind, (h s).1, (h s').1], fun key hkey => ?_⟩
  rw [create_opt, create_opt, (h s').2 key hkey]

theorem SameOptions.tune (h : SameOptions cfg os os') (s : Nat) : SameOptions cfg (tuneSocket cfg os grants s) os' := by
  have hsnd : ¬ cfg.leaves kSoSndBuf := fun hk => by cases hk.1
  have hrcv : ¬ cfg.leaves kSoRcvBuf := fun hk => by cases hk.1
  exact ((h.proxy hsnd s _).proxy hrcv s _).dscp s

theorem SameOptions.hookedSet (h : SameOptions cfg os os') (marks : Bool) (s : Nat) (val : Payload) :
    SameOptions cfg (hookedSet cfg marks os grants s key val).1 (os'.set grants s key val).1 ∧
      (forcedSize key = none → (BzNet.hookedSet cfg marks os grants s key val).2 = .rc (os'.set grants s key val).2) := by
  rw [BzNet.hookedSet]
  cases hsize : forcedSize key with
  | none =>
    refine ⟨h.set s val, fun _ => ?_⟩
    show OptResult.rc _ = _
    rw [set_ok, set_ok, (h s).1]
  | some size =>
    have hkey : ¬ cfg.leaves key := fun hk => absurd (hk.1.symm.trans hsize) (Option.some_ne_none size).symm
    refine ⟨?_, fun hno => absurd hno (Option.some_ne_none size)⟩
    have hset : SameOptions cfg (os.set grants s key (intBytes size)).1 (os'.set grants s key val).1 :=
      (h.proxy hkey s (intBytes size)).game hkey s val
    dsimp only
    split
    · exact hset.dscp s
    · exact hset

theorem SameOptions.close (h : SameOptions cfg os os') (s : Nat) :
    SameOptions cfg (Function.update os s none) (Function.update os' s none) := by
  intro s'
  by_cases heq : s' = s
  · subst heq
    rw [Os.kind, Os.kind, Function.update_self, Function.update_self]
    refine ⟨rfl, fun key _ => ?_⟩
    rw [Os.opt, Os.opt, Function.update_self, Function.update_self]
  · obtain ⟨hkind, hopt⟩ := h s'
    rw [Os.kind, Os.kind, Function.update_of_ne heq, Function.update_of_ne heq]
    refine ⟨hkind, fun key hkey => ?_⟩
    rw [Os.opt, Os.opt, Function.update_of_ne heq, Function.update_of_ne heq]
    exact hopt key hkey

/-- One call keeps the two systems alike, and returns the same unless it asks for the size of a buffer. -/
theorem hookedStep_same (h : SameOptions cfg os os') (ev : OptEvent) :
    SameOptions cfg (hookedStep cfg os ev).1 (plainStep os' ev).1 ∧
      (ev.asksSize = false → (hookedStep cfg os ev).2 = (plainStep os' ev).2) := by
  obtain ⟨call, grants⟩ := ev
  cases call with
  | wsaSocketW type protocol s =>
    cases s with
    | none => exact ⟨h, fun _ => rfl⟩
    | some s =>
      refine ⟨?_, fun _ => rfl⟩
      rw [hookedStep, plainStep, hookedCall, plainCall]
      dsimp only
      split
      · exact (h.create s _).tune s
      · exact h.create s _
  | socket type protocol s =>
    cases s with
    | none => exact ⟨h, fun _ => rfl⟩
    | some s => exact ⟨h.create s false, fun _ => rfl⟩
  | setsockopt s key val =>
    obtain ⟨hsame, hrc⟩ := @SameOptions.hookedSet cfg os os' grants key h true s val
    exact ⟨hsame, fun hno => hrc (Option.not_isSome_iff_eq_none.mp (Bool.not_eq_true _ ▸ hno))⟩
  | wsaSetSocketOption s key val =>
    rw [hookedStep, plainStep, hookedCall]
    dsimp only
    split
    · obtain ⟨hsame, hrc⟩ := @SameOptions.hookedSet cfg os os' grants key h false s val
      exact ⟨hsame, fun hno => hrc (Option.not_isSome_iff_eq_none.mp (Bool.not_eq_true _ ▸ hno))⟩
    · refine ⟨h.set s val, fun _ => ?_⟩
      rw [plainCall, plainCall, set_ok, set_ok, (h s).1]
  | closesocket s closes =>
    refine ⟨?_, fun _ => rfl⟩
    rw [hookedStep, plainStep, hookedCall, plainCall, plainCall]
    dsimp only
    split
    · exact h.close s
    · exact h

/-- **Everything else is the game's.** Run the same calls with the proxy and without it. At the end the same sockets are
open, and every option that the proxy does not set has the same value; and on the way every call has returned the same,
but for those that ask for the size of a buffer. -/
theorem options_others (cfg : OptionsCfg) (evs : List OptEvent) :
    SameOptions cfg (Machine.final (hookedStep cfg) noSockets evs) (Machine.final plainStep noSockets evs) ∧
      ∀ (i : Nat) (ev : OptEvent), evs[i]? = some ev → ev.asksSize = false →
        (Machine.outputs (hookedStep cfg) noSockets evs)[i]? = (Machine.outputs plainStep noSockets evs)[i]? := by
  have hrun : ∀ evs,
      SameOptions cfg (Machine.final (hookedStep cfg) noSockets evs) (Machine.final plainStep noSockets evs) := by
    intro evs
    induction evs using List.reverseRecOn with
    | nil => exact fun s => ⟨rfl, fun key _ => rfl⟩
    | append_singleton evs ev ih =>
      rw [Machine.final_concat, Machine.final_concat]
      exact (hookedStep_same ih ev).1
  refine ⟨hrun evs, fun i ev hev hsize => ?_⟩
  rw [Machine.outputs_getElem? _ _ hev, Machine.outputs_getElem? _ _ hev]
  exact congrArg some ((hookedStep_same (hrun (evs.take i)) ev).2 hsize)

end SameOptions

end BzNet
