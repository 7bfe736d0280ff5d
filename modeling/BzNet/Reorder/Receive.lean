import BzNet.Reorder.Core
import BzNet.Lib.Run

/-!
# The receive hook over the reorder buffer

`Hooked_WSARecvFrom` of `netcode_hooks.cpp` (and its twin in `dsound_proxy.cpp`) on the synchronous path
with the buffer enabled, and what `Hooked_closesocket` does to the buffer.

* `rxArrive`, `rxRelease` : the two things the hook does to the buffer, one drained datagram and the
  release at the end of a call;
* `rxDrain` : the drain loop, over the results of the real calls it makes, with `DrainRound` for what one round
  of it can do;
* `hookedWSARecvFrom`, `closeReorder` : the hooks;
* `recvRun_inv` : the invariant rule for runs of receive calls, in terms of `rxArrive` and `rxRelease`.
-/

namespace BzNet

/-- `BZWKPKT1`. -/
def kWakeMagic : Payload := [0x42, 0x5a, 0x57, 0x4b, 0x50, 0x4b, 0x54, 0x31]

/-- The globals of the receive path. -/
structure RxState where
  rx : ReorderCtx
  /-- `g_reorder_drain`, the real calls one hook call may make. -/
  drain : Nat
  reorderSock : Socket
  lastRecvCallMs : U64

def rxInit (cfg : ReorderCfg) (drain : Nat) : RxState := ⟨reorderInit cfg, drain, invalidSocket, 0⟩

/-- What one real receive call returns. -/
inductive RecvResult where
  | datagram (d : Datagram)
  /-- `WSAEMSGSIZE`: a datagram larger than the drain buffer. -/
  | msgsize
  /-- Nothing there, or an error. -/
  | failed

/-- A hooked receive call: the clock at its start and at its release, and what its real calls return,
each with the clock read after it. -/
structure RecvCall where
  sock : Socket
  pollMs : U64
  reals : List (RecvResult × U64)
  nowMs : U64

/-! ## The two things a call does to the buffer -/

/-- One drained datagram: the buffer, what is handed over at once, and whether the buffer took it. -/
structure Arrived where
  ctx : ReorderCtx
  out : Option Datagram
  tracked : Bool

def rxArrive (c : ReorderCtx) (d : Datagram) (arrivalMs : U64) : Arrived :=
  match reorderGetPeer c d.src arrivalMs with
  | none =>
    -- every entry is live: pass it straight through
    ⟨{ c with stats := { c.stats with bypassTableFull := c.stats.bypassTableFull + 1 } }, some d, false⟩
  | some (c, i) =>
    let pb := reorderAdaptOnArrival c.cfg (c.tbl i) d.seq arrivalMs
    let ins := reorderInsert c.cfg pb d.seq arrivalMs d
    let c := { c with tbl := Function.update c.tbl i ins.1, stats := reorderCountInsert c.stats ins.2 }
    match ins.2 with
    | .evicted out =>
      let r := reorderNoteDelivery c.cfg ins.1 out.seq arrivalMs
      ⟨{ c with
          tbl := Function.update c.tbl i r.1
          stats := reorderCountDelivery c.stats r.2 out.ts arrivalMs .evicted }, some out.pkt, true⟩
    | res => ⟨c, if reorderMustPassThrough res then some d else none, true⟩

/-- A release: the buffer, and the slot that went out with the index of its entry. -/
structure Released where
  ctx : ReorderCtx
  took : Option (Nat × ReorderSlot)

def Released.out (r : Released) : Option Datagram := r.took.map fun s => s.2.pkt

@[simp] theorem Released.out_none (c : ReorderCtx) : (Released.mk c none).out = none := rfl

@[simp] theorem Released.out_some (c : ReorderCtx) (i : Nat) (s : ReorderSlot) :
    (Released.mk c (some (i, s))).out = some s.pkt := rfl

/-- The release at the end of a call. -/
def rxRelease (c : ReorderCtx) (nowMs : U64) : Released :=
  match reorderNextReady c nowMs with
  | none => ⟨c, none⟩
  | some (c, i, slot, kind) =>
    let r := reorderTake c i slot nowMs kind
    ⟨r.1, some (i, r.2)⟩

/-! ## The drain loop -/

/-- Our own wake datagrams mark the socket readable and never reach the game. -/
def isWake (d : Datagram) : Bool := d.data = kWakeMagic

/-- Too short for a sequence, or not IPv4. -/
def isUnsequenced (d : Datagram) : Bool := d.src.family ≠ afInet || d.data.length < kReorderSeqMinPay

theorem family_of_sequenced {d : Datagram} (h : isUnsequenced d = false) : d.src.family = afInet := by
  by_contra hne
  simp [isUnsequenced, hne] at h

/-- A datagram of the game taken from the socket, with the buffer it meets. -/
structure Taken where
  met : ReorderCtx
  pkt : Datagram

/-- Where a drain stops: the state, the real datagrams it counted, the one it hands over in the middle of
the loop, and the game's datagrams it took. -/
structure Drained where
  state : RxState
  count : Nat
  out : Option Datagram
  taken : List Taken

def noteDrainDepth (s : RxState) (drained : Nat) : RxState :=
  { s with rx := { s.rx with stats := { s.rx.stats with
    maxDrainDepth := if drained > s.rx.stats.maxDrainDepth then drained else s.rx.stats.maxDrainDepth } } }

def rxDrain (sock : Socket) : Nat → RxState → List (RecvResult × U64) → Nat → Drained
  | 0, s, _, drained => ⟨s, drained, none, []⟩
  | n + 1, s, reals, drained =>
    -- no room left: deliver what we have and come back
    if reorderDrainSaturated s.rx then ⟨s, drained, none, []⟩
    else
      match reals with
      | [] => ⟨s, drained, none, []⟩
      | (.failed, _) :: _ => ⟨s, drained, none, []⟩
      | (.msgsize, _) :: reals =>
        let s := { s with rx := { s.rx with stats := { s.rx.stats with emsgsize := s.rx.stats.emsgsize + 1 } } }
        rxDrain sock n s reals (drained + 1)
      | (.datagram d, arrivalMs) :: reals =>
        if d.data = [] then ⟨s, drained, none, []⟩
        else if isWake d then rxDrain sock n s reals (drained + 1)
        else if isUnsequenced d then
          let s' := { s with rx := { s.rx with stats := { s.rx.stats with bypassShort := s.rx.stats.bypassShort + 1 } } }
          ⟨s', drained + 1, some d, [⟨s.rx, d⟩]⟩
        else
          let a := rxArrive s.rx d arrivalMs
          if !a.tracked then ⟨{ s with rx := a.ctx }, drained + 1, a.out, [⟨s.rx, d⟩]⟩
          else
            -- this socket carries reorderable traffic
            let s' := { s with rx := a.ctx, reorderSock := sock, lastRecvCallMs := arrivalMs }
            match a.out with
            | some out => ⟨noteDrainDepth s' (drained + 1), drained + 1, some out, [⟨s.rx, d⟩]⟩
            | none =>
              let r := rxDrain sock n s' reals (drained + 1)
              { r with taken := ⟨s.rx, d⟩ :: r.taken }

/-- What one round of the drain loop can do. -/
inductive DrainRound (sock : Socket) (n : Nat) (s : RxState) (drained : Nat) : Drained → Prop where
  /-- No room, or nothing more to take. -/
  | stop : DrainRound sock n s drained ⟨s, drained, none, []⟩
  /-- A wake datagram, or one larger than the drain buffer. -/
  | skip (st : ReorderStats) (reals : List (RecvResult × U64))
      (hst : st = s.rx.stats ∨ st = { s.rx.stats with emsgsize := s.rx.stats.emsgsize + 1 }) :
      DrainRound sock n s drained (rxDrain sock n { s with rx := { s.rx with stats := st } } reals (drained + 1))
  /-- A datagram that is not reordered ends the loop. -/
  | pass (d : Datagram) (hun : isUnsequenced d = true) :
      DrainRound sock n s drained
        ⟨{ s with rx := { s.rx with stats := { s.rx.stats with bypassShort := s.rx.stats.bypassShort + 1 } } },
          drained + 1, some d, [⟨s.rx, d⟩]⟩
  /-- An arrival that hands something over ends the loop. -/
  | deliver (d : Datagram) (t : U64) (s' : RxState) (hsat : reorderDrainSaturated s.rx = false)
      (hun : isUnsequenced d = false)
      (hrx : s'.rx = (rxArrive s.rx d t).ctx ∨
        s'.rx = (noteDrainDepth { s with rx := (rxArrive s.rx d t).ctx } (drained + 1)).rx) :
      DrainRound sock n s drained ⟨s', drained + 1, (rxArrive s.rx d t).out, [⟨s.rx, d⟩]⟩
  /-- An arrival that is held. -/
  | hold (d : Datagram) (t : U64) (reals : List (RecvResult × U64)) (hsat : reorderDrainSaturated s.rx = false)
      (hun : isUnsequenced d = false) (hout : (rxArrive s.rx d t).out = none) :
      DrainRound sock n s drained
        { rxDrain sock n { s with rx := (rxArrive s.rx d t).ctx, reorderSock := sock, lastRecvCallMs := t } reals
            (drained + 1) with
          taken := ⟨s.rx, d⟩ ::
            (rxDrain sock n { s with rx := (rxArrive s.rx d t).ctx, reorderSock := sock, lastRecvCallMs := t } reals
              (drained + 1)).taken }

theorem rxDrain_round (sock : Socket) (n : Nat) (s : RxState) (reals : List (RecvResult × U64)) (drained : Nat) :
    DrainRound sock n s drained (rxDrain sock (n + 1) s reals drained) := by
  unfold rxDrain
  split
  · exact .stop
  · next hsat =>
    have hsat : reorderDrainSaturated s.rx = false := by simpa using hsat
    split
    · exact .stop
    · exact .stop
    · exact .skip _ _ (Or.inr rfl)
    · next d t reals =>
      dsimp only
      split
      · exact .stop
      · split
        · exact .skip s.rx.stats reals (Or.inl rfl)
        · split
          · next hun => exact .pass d hun
          · next hun =>
            have hun : isUnsequenced d = false := by simpa using hun
            split
            · exact .deliver d t _ hsat hun (Or.inl rfl)
            · cases hout : (rxArrive s.rx d t).out with
              | none => exact .hold d t reals hsat hun hout
              | some out =>
                have hround := @DrainRound.deliver sock n s drained d t
                  (noteDrainDepth { s with rx := (rxArrive s.rx d t).ctx, reorderSock := sock, lastRecvCallMs := t }
                    (drained + 1)) hsat hun (Or.inr rfl)
                rw [hout] at hround
                exact hround

/-! ## The hooks -/

/-- What a receive call took from the socket and what it handed to the game. -/
structure RecvOut where
  taken : List Taken
  handed : Option Datagram

def hookedWSARecvFrom (s : RxState) (call : RecvCall) : RxState × RecvOut :=
  let s := if call.sock = s.reorderSock then { s with lastRecvCallMs := call.pollMs } else s
  let r := rxDrain call.sock s.drain s call.reals 0
  match r.out with
  | some d => (r.state, ⟨r.taken, some d⟩)
  | none =>
    let s := noteDrainDepth r.state r.count
    let p := rxRelease s.rx call.nowMs
    ({ s with rx := p.ctx }, ⟨r.taken, p.out⟩)

/-- The part of `Hooked_closesocket` that concerns the buffer. -/
def closeReorder (s : RxState) (sock : Socket) : RxState :=
  { s with
    rx := reorderReset s.rx
    reorderSock := if sock = s.reorderSock then invalidSocket else s.reorderSock }

/-! ## Runs -/

/-- The datagrams taken from the sockets over a run, in order. -/
def takenOf (outs : List RecvOut) : List Datagram := (outs.flatMap RecvOut.taken).map Taken.pkt

/-- The datagrams handed to the game over a run, in order. -/
def handedOf (outs : List RecvOut) : List Datagram := outs.filterMap RecvOut.handed

section Invariant

/-- A property of the buffer, of what was taken and of what was handed over, kept by everything a
receive call does. `Src` is what is known of the datagrams that arrive and of the buffer they meet. -/
structure Kept (Src : ReorderCtx → Datagram → Prop) (P : ReorderCtx → List Datagram → List Datagram → Prop) :
    Prop where
  /-- The counters that the drain keeps itself are not looked at. -/
  stats : ∀ {c T H} st, st.purgedStale = c.stats.purgedStale → st.droppedReclaim = c.stats.droppedReclaim →
    st.bypassTableFull = c.stats.bypassTableFull → st.deliveredForced = c.stats.deliveredForced → P c T H →
    P { c with stats := st } T H
  pass : ∀ {c T H} d, Src c d → isUnsequenced d = true → P c T H → P c (T ++ [d]) (H ++ [d])
  arrive : ∀ {c T H} d t, Src c d → isUnsequenced d = false → reorderDrainSaturated c = false → P c T H →
    P (rxArrive c d t).ctx (T ++ [d]) (H ++ (rxArrive c d t).out.toList)
  release : ∀ {c T H} t, P c T H → P (rxRelease c t).ctx T (H ++ (rxRelease c t).out.toList)

variable {Src : ReorderCtx → Datagram → Prop} {P : ReorderCtx → List Datagram → List Datagram → Prop}

theorem rxDrain_inv (hP : Kept Src P) (sock : Socket) (n : Nat) :
    ∀ (s : RxState) (reals : List (RecvResult × U64)) (drained : Nat) {T H : List Datagram},
      (∀ m ∈ (rxDrain sock n s reals drained).taken, Src m.met m.pkt) → P s.rx T H →
      P (rxDrain sock n s reals drained).state.rx (T ++ (rxDrain sock n s reals drained).taken.map Taken.pkt)
        (H ++ (rxDrain sock n s reals drained).out.toList) := by
  induction n with
  | zero =>
    intro s reals drained T H _ h
    simpa [rxDrain] using h
  | succ n ih =>
    intro s reals drained T H hsrc h
    have hround := rxDrain_round sock n s reals drained
    generalize rxDrain sock (n + 1) s reals drained = r at hround hsrc ⊢
    cases hround with
    | stop => simpa using h
    | skip st reals' hst =>
      refine ih _ reals' _ hsrc ?_
      rcases hst with rfl | rfl
      · exact h
      · exact hP.stats _ rfl rfl rfl rfl h
    | pass d hun =>
      have hd := hsrc _ (List.mem_singleton_self _)
      exact hP.stats _ rfl rfl rfl rfl (hP.pass d hd hun h)
    | deliver d t s' hsat hun hrx =>
      have hd := hsrc _ (List.mem_singleton_self _)
      have harr := hP.arrive d t hd hun hsat h
      change P s'.rx _ _
      rcases hrx with hrx | hrx
      · exact hrx ▸ harr
      · exact hrx ▸ hP.stats _ rfl rfl rfl rfl harr
    | hold d t reals' hsat hun hout =>
      have hd := hsrc _ List.mem_cons_self
      have harr := hP.arrive d t hd hun hsat h
      rw [hout, Option.toList_none, List.append_nil] at harr
      have hrest := ih { s with rx := (rxArrive s.rx d t).ctx, reorderSock := sock, lastRecvCallMs := t }
        reals' (drained + 1) (fun m hm => hsrc m (List.mem_cons_of_mem _ hm)) harr
      simpa using hrest

theorem hookedWSARecvFrom_inv (hP : Kept Src P) (s : RxState) (call : RecvCall) {T H : List Datagram}
    (hsrc : ∀ m ∈ (hookedWSARecvFrom s call).2.taken, Src m.met m.pkt) (h : P s.rx T H) :
    P (hookedWSARecvFrom s call).1.rx (T ++ (hookedWSARecvFrom s call).2.taken.map Taken.pkt)
      (H ++ (hookedWSARecvFrom s call).2.handed.toList) := by
  unfold hookedWSARecvFrom at hsrc ⊢
  dsimp only at hsrc ⊢
  have hpoll : P (if call.sock = s.reorderSock then { s with lastRecvCallMs := call.pollMs } else s).rx T H := by
    split
    · exact h
    · exact h
  generalize (if call.sock = s.reorderSock then { s with lastRecvCallMs := call.pollMs } else s) = s' at hpoll hsrc ⊢
  have hdr := fun hsrc => rxDrain_inv hP call.sock s'.drain s' call.reals 0 hsrc hpoll
  cases hout : (rxDrain call.sock s'.drain s' call.reals 0).out with
  | some d =>
    rw [hout] at hdr hsrc
    exact hdr hsrc
  | none =>
    rw [hout] at hdr hsrc
    simp only [Option.toList_none, List.append_nil] at hdr
    exact hP.release call.nowMs (hP.stats _ rfl rfl rfl rfl (hdr hsrc))

/-- **The invariant rule for runs of receive calls.** -/
theorem recvRun_inv (hP : Kept Src P) (calls : List RecvCall) (s : RxState)
    (hsrc : ∀ m ∈ (Machine.outputs hookedWSARecvFrom s calls).flatMap RecvOut.taken, Src m.met m.pkt)
    {T H : List Datagram} (h : P s.rx T H) :
    P (Machine.final hookedWSARecvFrom s calls).rx
      (T ++ takenOf (Machine.outputs hookedWSARecvFrom s calls))
      (H ++ handedOf (Machine.outputs hookedWSARecvFrom s calls)) := by
  induction calls generalizing s T H with
  | nil => simpa [takenOf, handedOf, Machine.outputs] using h
  | cons call calls ih =>
    rw [Machine.outputs, List.flatMap_cons] at hsrc
    have hcall := hookedWSARecvFrom_inv hP s call (fun m hm => hsrc m (List.mem_append_left _ hm)) h
    have hrest := ih _ (fun m hm => hsrc m (List.mem_append_right _ hm)) hcall
    have hhanded : handedOf (Machine.outputs hookedWSARecvFrom s (call :: calls)) =
        (hookedWSARecvFrom s call).2.handed.toList ++
          handedOf (Machine.outputs hookedWSARecvFrom (hookedWSARecvFrom s call).1 calls) := by
      simp only [handedOf, Machine.outputs, List.filterMap_cons]
      cases (hookedWSARecvFrom s call).2.handed <;> rfl
    rw [hhanded, ← List.append_assoc]
    simpa [takenOf, Machine.outputs, List.append_assoc] using hrest

end Invariant

end BzNet
