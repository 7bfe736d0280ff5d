import BzNet.Socket.Options

/-!
# The options that the proxies keep

The sizes of the two buffers of a socket, which the game's own requests do not change, and the mark of its datagrams, which
one of them puts back.

* `SizesOk`, `SizesOk.call` : what every call keeps of the sizes;
* `options_forced` : no size of the game's ever comes into effect, and a datagram socket has the proxy's;
* `OptCall.marks`, `OptCall.clears` : the calls that mark a socket, and those that may undo it;
* `options_marked` : the mark stays until the game puts another in its place.
-/

namespace BzNet

/-! ## The sizes of the buffers -/

/-- A size is the proxy's or has never been set, and of a datagram socket of `WSASocketW`, where the proxy's are granted, it
is the proxy's. -/
def SizesOk (granted : Prop) (os : Os) : Prop :=
  ∀ s key size, forcedSize key = some size →
    os.opt s key = some (intBytes size) ∨ (os.opt s key = none ∧ (granted → os.kind s ≠ some true))

/-- The proxy's sizes are granted wherever they are asked for. -/
def GrantsSizes (grants : Nat → OptKey → Payload → Bool) : Prop :=
  ∀ s key size, forcedSize key = some size → grants s key (intBytes size) = true

/-- A call that a proxy passes on as it is asks for no size. -/
def OptionsCfg.hooks (cfg : OptionsCfg) (call : OptCall) : Prop :=
  cfg.linux = true ∨ ∀ s key val, call = .wsaSetSocketOption s key val → forcedSize key = none

section Sizes
variable {cfg : OptionsCfg} {evs : List OptEvent} {granted : Prop} {os : Os} {grants : Nat → OptKey → Payload → Bool}
  {key : OptKey} {val : Payload}

theorem forcedSize_key {size : Nat} (h : forcedSize key = some size) :
    (key = kSoSndBuf ∧ size = kTargetSndBuf) ∨ (key = kSoRcvBuf ∧ size = kTargetRcvBuf) := by
  rw [forcedSize] at h
  split at h
  · next hkey => exact .inl ⟨hkey, (Option.some.inj h).symm⟩
  · split at h
    · next hkey => exact .inr ⟨hkey, (Option.some.inj h).symm⟩
    · cases h

theorem SizesOk.set (h : SizesOk granted os) (hval : ∀ size, forcedSize key = some size → val = intBytes size) (s : Nat) :
    SizesOk granted (os.set grants s key val).1 := by
  intro s' key' size hsize
  rw [set_opt, set_kind]
  split
  · next hkey =>
    obtain ⟨-, rfl, -⟩ := hkey
    exact .inl (congrArg some (hval size hsize))
  · exact h s' key' size hsize

theorem SizesOk.dscp (h : SizesOk granted os) (s : Nat) : SizesOk granted (applyDscp cfg os grants s) := by
  rw [applyDscp]
  split
  · exact h
  · exact h.set (fun size hsize => by cases hsize) s

theorem SizesOk.hookedSet (h : SizesOk granted os) (marks : Bool) (s : Nat) (val : Payload) :
    SizesOk granted (hookedSet cfg marks os grants s key val).1 := by
  rw [BzNet.hookedSet]
  cases hsize : forcedSize key with
  | none => exact h.set (fun size hno => absurd (hsize.symm.trans hno).symm (Option.some_ne_none size)) s
  | some size =>
    have hset : SizesOk granted (os.set grants s key (intBytes size)).1 := h.set (fun size' hsize' => by
      rw [Option.some.inj (hsize.symm.trans hsize')]) s
    dsimp only
    split
    · exact hset.dscp s
    · exact hset

theorem SizesOk.create (h : SizesOk granted os) (s : Nat) : SizesOk granted (os.create s false) := by
  intro s' key size hsize
  rw [create_opt, create_kind]
  refine (h s' key size hsize).imp_right fun hnone => ⟨hnone.1, fun hgranted hkind => ?_⟩
  split at hkind
  · cases hkind
  · exact hnone.2 hgranted hkind

theorem SizesOk.tune (h : SizesOk granted os) (hgrants : granted → GrantsSizes grants) (s : Nat) (datagram : Bool) :
    SizesOk granted (tuneSocket cfg (os.create s datagram) grants s) := by
  intro s' key size hsize
  have hweak : SizesOk False (os.create s datagram) := fun s' key size hsize => by
    rw [create_opt]
    exact (h s' key size hsize).imp_right fun hnone => ⟨hnone.1, False.elim⟩
  have hsnd : ∀ size, forcedSize kSoSndBuf = some size → intBytes kTargetSndBuf = intBytes size := fun size hsize => by
    cases hsize
    rfl
  have hrcv : ∀ size, forcedSize kSoRcvBuf = some size → intBytes kTargetRcvBuf = intBytes size := fun size hsize => by
    cases hsize
    rfl
  have hsizes : SizesOk False (tuneSocket cfg (os.create s datagram) grants s) :=
    ((hweak.set hsnd s).set hrcv s).dscp s
  refine (hsizes s' key size hsize).imp_right fun hnone => ⟨hnone.1, fun hgranted hkind => ?_⟩
  have hopt := hnone.1
  rw [tuneSocket, applyDscp_other (.inl (by rintro rfl; cases hsize))] at hopt
  rw [tuneSocket, applyDscp_kind, set_kind, set_kind] at hkind
  by_cases heq : s' = s
  · subst heq
    rcases forcedSize_key hsize with ⟨rfl, rfl⟩ | ⟨rfl, rfl⟩
    · rw [set_opt_other (by decide), set_opt_self (by rw [hkind]; rfl) (hgrants hgranted s' _ _ rfl)] at hopt
      cases hopt
    · rw [set_opt_self (by rw [set_kind, hkind]; rfl) (hgrants hgranted s' _ _ rfl)] at hopt
      cases hopt
  · rw [create_kind, if_neg fun hs => heq hs.1] at hkind
    rw [set_opt, if_neg fun hs => heq hs.1, set_opt, if_neg fun hs => heq hs.1, create_opt] at hopt
    rcases h s' key size hsize with hset | hold
    · rw [hopt] at hset
      cases hset
    · exact hold.2 hgranted hkind

theorem SizesOk.call (h : SizesOk granted os) {call : OptCall} (hcall : cfg.hooks call)
    (hgrants : granted → GrantsSizes grants) : SizesOk granted (hookedCall cfg os grants call).1 := by
  cases call with
  | wsaSocketW type protocol s =>
    cases s with
    | none => exact h
    | some s =>
      rw [hookedCall]
      dsimp only
      split
      · exact h.tune hgrants s _
      · next hno =>
        rw [Bool.not_eq_true] at hno
        rw [hno]
        exact h.create s
  | socket type protocol s =>
    cases s with
    | none => exact h
    | some s => exact h.create s
  | setsockopt s key val => exact h.hookedSet true s val
  | wsaSetSocketOption s key val =>
    rw [hookedCall]
    split
    · exact h.hookedSet false s val
    · next hno =>
      have hkey := (hcall.resolve_left hno) s key val rfl
      exact h.set (fun size hsize => absurd (hkey.symm.trans hsize).symm (Option.some_ne_none size)) s
  | closesocket s closes =>
    rw [hookedCall, plainCall]
    dsimp only
    split
    · intro s' key size hsize
      rw [Os.opt, Os.kind, Function.update_apply]
      split
      · exact .inr ⟨rfl, fun _ hkind => absurd hkind.symm (Option.some_ne_none true)⟩
      · exact h s' key size hsize
    · exact h

theorem run_sizesOk (hevs : ∀ ev ∈ evs, cfg.hooks ev.call) (hgrants : granted → ∀ ev ∈ evs, GrantsSizes ev.grants) :
    SizesOk granted (Machine.final (hookedStep cfg) noSockets evs) := by
  induction evs using List.reverseRecOn with
  | nil => exact fun s key size _ => .inr ⟨rfl, fun _ hkind => absurd hkind.symm (Option.some_ne_none true)⟩
  | append_singleton evs ev ih =>
    rw [Machine.final_concat]
    refine (ih (fun ev' hev' => hevs ev' (List.mem_append_left _ hev'))
      fun hgranted ev' hev' => hgrants hgranted ev' (List.mem_append_left _ hev')).call ?_ fun hgranted => ?_
    · exact hevs ev (List.mem_append_right _ List.mem_cons_self)
    · exact hgrants hgranted ev (List.mem_append_right _ List.mem_cons_self)

/-- **No size but the proxy's.** Whatever the game calls and whatever the system grants, no size that the game asks for
ever comes into effect: the size of a buffer has never been set, or it is the proxy's. Where the system grants the proxy's
sizes, every datagram socket of `WSASocketW` has both of them, at every moment until it is closed. -/
theorem options_forced (cfg : OptionsCfg) (evs : List OptEvent) (hevs : ∀ ev ∈ evs, cfg.hooks ev.call) (s : Nat)
    {key : OptKey} {size : Nat} (hsize : forcedSize key = some size) :
    let os := Machine.final (hookedStep cfg) noSockets evs
    (os.opt s key = none ∨ os.opt s key = some (intBytes size)) ∧
      ((∀ ev ∈ evs, GrantsSizes ev.grants) → os.kind s = some true → os.opt s key = some (intBytes size)) := by
  intro os
  refine ⟨?_, fun hgrants hkind => ?_⟩
  · have hok : SizesOk False os := run_sizesOk hevs False.elim
    exact (hok s key size hsize).symm.imp_left And.left
  · have hok : SizesOk True os := run_sizesOk hevs fun _ => hgrants
    exact (hok s key size hsize).resolve_right fun hnone => hnone.2 trivial hkind

end Sizes

/-- The game asks for 32 KB, and has 512 KB. -/
theorem options_forced_shrink :
    (Machine.final (hookedStep ⟨false, 46⟩) noSockets
      [⟨.wsaSocketW 2 17 (some 7), fun _ _ _ => true⟩, ⟨.setsockopt 7 kSoSndBuf (intBytes 32768), fun _ _ _ => true⟩]).opt
      7 kSoSndBuf = some (intBytes kTargetSndBuf) := by
  have hsize : forcedSize kSoSndBuf = some kTargetSndBuf := rfl
  refine (options_forced ⟨false, 46⟩ _ ?_ 7 hsize).2 ?_ rfl
  · intro ev hev
    rcases List.mem_pair.mp hev with rfl | rfl <;> exact .inr fun s key val hcall => by cases hcall
  · intro ev hev s key size _
    rcases List.mem_pair.mp hev with rfl | rfl <;> rfl

/-! ## The class of service -/

/-- The call has the proxy mark the socket: it makes it, for datagrams, or it asks for the size of its send buffer. -/
def OptCall.marks (s : Nat) : OptCall → Bool
  | .wsaSocketW type protocol (some s') => s' = s ∧ forDatagrams type protocol
  | .setsockopt s' key _ => s' = s ∧ key = kSoSndBuf
  | _ => false

/-- The call is one for another mark, or closes the socket. -/
def OptCall.clears (s : Nat) : OptCall → Bool
  | .setsockopt s' key _ => s' = s ∧ key = kIpTos
  | .wsaSetSocketOption s' key _ => s' = s ∧ key = kIpTos
  | .closesocket s' closes => s' = s ∧ closes
  | _ => false

section Marks
variable {cfg : OptionsCfg} {os : Os} {grants : Nat → OptKey → Payload → Bool} {s : Nat}

theorem applyDscp_mark (hdscp : cfg.dscp ≠ 0) (hopen : (os.kind s).isSome = true)
    (hgrants : grants s kIpTos cfg.mark = true) : (applyDscp cfg os grants s).opt s kIpTos = some cfg.mark := by
  rw [applyDscp, if_neg hdscp]
  exact set_opt_self hopen hgrants

theorem call_marks (hdscp : cfg.dscp ≠ 0) {call : OptCall} (hmarks : call.marks s = true)
    (hgrants : grants s kIpTos cfg.mark = true) (hopen : ((hookedCall cfg os grants call).1.kind s).isSome = true) :
    (hookedCall cfg os grants call).1.opt s kIpTos = some cfg.mark := by
  cases call with
  | wsaSocketW type protocol s' =>
    cases s' with
    | none => cases hmarks
    | some s' =>
      obtain ⟨rfl, hdatagram⟩ := of_decide_eq_true hmarks
      rw [hookedCall] at hopen ⊢
      dsimp only at hopen ⊢
      rw [if_pos hdatagram, tuneSocket, applyDscp_kind] at hopen
      rw [if_pos hdatagram, tuneSocket]
      exact applyDscp_mark hdscp hopen hgrants
  | setsockopt s' key val =>
    obtain ⟨rfl, rfl⟩ := of_decide_eq_true hmarks
    rw [hookedCall, hookedSet, show forcedSize kSoSndBuf = some kTargetSndBuf from rfl] at hopen ⊢
    dsimp only at hopen ⊢
    rw [if_pos ⟨rfl, rfl⟩, applyDscp_kind] at hopen
    rw [if_pos ⟨rfl, rfl⟩]
    exact applyDscp_mark hdscp hopen hgrants
  | socket type protocol s' => cases hmarks
  | wsaSetSocketOption s' key val => cases hmarks
  | closesocket s' closes => cases hmarks

/-- A mark that is there stays through every request but one for another. -/
theorem set_keeps_mark (h : os.opt s kIpTos = some cfg.mark) {s' : Nat} {key : OptKey} {val : Payload}
    (hval : s' = s → key = kIpTos → val = cfg.mark) : (os.set grants s' key val).1.opt s kIpTos = some cfg.mark := by
  rw [set_opt]
  split
  · next hkey => rw [hval hkey.1.symm hkey.2.1.symm]
  · exact h

theorem applyDscp_keeps (h : os.opt s kIpTos = some cfg.mark) (s' : Nat) :
    (applyDscp cfg os grants s').opt s kIpTos = some cfg.mark := by
  rw [applyDscp]
  split
  · exact h
  · exact set_keeps_mark h fun _ _ => rfl

theorem hookedSet_keeps (h : os.opt s kIpTos = some cfg.mark) (marks : Bool) {s' : Nat} {key : OptKey} {val : Payload}
    (hclear : ¬ (s' = s ∧ key = kIpTos)) : (hookedSet cfg marks os grants s' key val).1.opt s kIpTos = some cfg.mark := by
  rw [hookedSet]
  cases forcedSize key with
  | none => exact set_keeps_mark h fun hs hkey => absurd ⟨hs, hkey⟩ hclear
  | some size =>
    have hset : (os.set grants s' key (intBytes size)).1.opt s kIpTos = some cfg.mark :=
      set_keeps_mark h fun hs hkey => absurd ⟨hs, hkey⟩ hclear
    dsimp only
    split
    · exact applyDscp_keeps hset s'
    · exact hset

theorem call_keeps_mark (h : os.opt s kIpTos = some cfg.mark) {call : OptCall} (hclear : call.clears s = false) :
    (hookedCall cfg os grants call).1.opt s kIpTos = some cfg.mark := by
  have hcreate : ∀ s' datagram, (os.create s' datagram).opt s kIpTos = some cfg.mark := fun s' datagram => by
    rw [create_opt, h]
  cases call with
  | wsaSocketW type protocol s' =>
    cases s' with
    | none => exact h
    | some s' =>
      rw [hookedCall]
      dsimp only
      split
      · exact applyDscp_keeps (set_keeps_mark (set_keeps_mark (hcreate s' _) (by rintro - ⟨⟩)) (by rintro - ⟨⟩)) s'
      · exact hcreate s' _
  | socket type protocol s' =>
    cases s' with
    | none => exact h
    | some s' => exact hcreate s' false
  | setsockopt s' key val => exact hookedSet_keeps h true (of_decide_eq_false hclear)
  | wsaSetSocketOption s' key val =>
    rw [hookedCall]
    split
    · exact hookedSet_keeps h false (of_decide_eq_false hclear)
    · exact set_keeps_mark h fun hs hkey => absurd ⟨hs, hkey⟩ (of_decide_eq_false hclear)
  | closesocket s' closes =>
    have hother : ¬ (s' = s ∧ closes = true) := of_decide_eq_false hclear
    rw [hookedCall, plainCall]
    dsimp only
    split
    · next hcloses =>
      rw [Os.opt, Function.update_of_ne fun heq => hother ⟨heq.symm, hcloses⟩]
      exact h
    · exact h

/-- **The mark stays.** A datagram socket is marked when `WSASocketW` makes it, and any socket is when the game asks for
the size of its send buffer, if the system grants the mark. From then on the socket keeps it until it is closed or the game
asks for another, whatever else the game calls. -/
theorem options_marked (hdscp : cfg.dscp ≠ 0) (before after : List OptEvent) (ev : OptEvent)
    (hmarks : ev.call.marks s = true) (hgrants : ev.grants s kIpTos cfg.mark = true)
    (hopen : ((Machine.final (hookedStep cfg) noSockets (before ++ [ev])).kind s).isSome = true)
    (hafter : ∀ ev' ∈ after, ev'.call.clears s = false) :
    (Machine.final (hookedStep cfg) noSockets (before ++ ev :: after)).opt s kIpTos = some cfg.mark := by
  rw [Machine.final_concat] at hopen
  induction after using List.reverseRecOn with
  | nil =>
    rw [Machine.final_concat]
    exact call_marks hdscp hmarks hgrants hopen
  | append_singleton after ev' ih =>
    have hrun : before ++ ev :: (after ++ [ev']) = (before ++ ev :: after) ++ [ev'] := by
      rw [List.append_assoc, List.cons_append]
    rw [hrun, Machine.final_concat]
    exact call_keeps_mark (ih fun ev'' hev'' => hafter ev'' (List.mem_append_left _ hev''))
      (hafter ev' (List.mem_append_right _ List.mem_cons_self))

end Marks

/-- A socket of another kind is marked as well once the game asks for its send buffer. -/
theorem options_marked_stream :
    (Machine.final (hookedStep ⟨true, 46⟩) noSockets
      ([⟨.socket 1 6 (some 7), fun _ _ _ => true⟩] ++ ⟨.setsockopt 7 kSoSndBuf (intBytes 32768), fun _ _ _ => true⟩ ::
        [⟨.wsaSetSocketOption 7 kSoRcvBuf (intBytes 32768), fun _ _ _ => true⟩])).opt 7 kIpTos = some (intBytes 184) := by
  refine @options_marked ⟨true, 46⟩ 7 (by decide) _ _ _ rfl rfl rfl fun ev hev => ?_
  rw [List.mem_singleton.mp hev]
  rfl

end BzNet
