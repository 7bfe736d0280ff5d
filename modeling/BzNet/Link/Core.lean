import BzNet.Pace.Close
import BzNet.Proxy.Sends
import BzNet.Proxy.Wake

/-!
# Machines on a network

Any number of machines that run the game through the proxy, each with both directions of its proxy and all of its
threads, on a network that may lose, repeat and reorder what it carries.

* `Host` : one machine; `Host.send`, `Host.recv` and the sections of a `closesocket` are its steps;
* `Topology` : which endpoint a socket's datagrams come from, and where an endpoint leads;
* `Net`, `NetAct`, `netStep` : the machines, what is on its way between them, and one action of anybody.
-/

namespace BzNet

/-! ## One machine -/

structure HostCfg where
  proxy : ProxyCfg
  tx : TxCfg
  /-- `g_wake_enabled`. -/
  wake : Bool

/-- A machine: its send side, its receive side with the sockets, and the closes under way. The globals of the proxy
that both sides use are those of `rx`. -/
structure Host where
  tx : SendSys
  rx : WakeSys
  closing : Socket → Option CloseStage

def hostInit (cfg : HostCfg) : Host := ⟨sendSysInit cfg.proxy cfg.tx, wakeInit cfg.proxy cfg.wake, fun _ => none⟩

/-- What a step hands to a real send function is the second component. -/
abbrev HostStep := Option (Host × List Handed)

def Host.send (h : Host) (act : SendAct) : HostStep :=
  match act with
  -- the sampler is shown receipts by the receive hooks
  | .recv _ _ _ => none
  | act => (sendSysStep { h.tx with proxy := h.rx.proxy } act).map fun t =>
      ({ h with tx := t, rx := { h.rx with proxy := t.proxy } }, t.wire.drop h.tx.wire.length)

/-- Neither an arrival, which is the network's to make, nor a close. -/
def WakeOp.own : WakeOp → Bool
  | .arrive _ _ => false
  | .closesocket _ => false
  | _ => true

def Host.recv (h : Host) (op : WakeOp) : HostStep :=
  if op.own then some ({ h with rx := wakeStep h.rx op }, []) else none

/-- The end of a session, in the pacer's section of a close. -/
def closeSession (p : Proxy) (s : Socket) : Proxy :=
  if dampenCloseEndsSession s p.dampenSock then
    let dr := purgeSession p.dampen p.rtt
    { p with dampen := dr.1, rtt := dr.2, dampenSock := invalidSocket }
  else p

/-- Close and session end are what one undisturbed `closesocket` comes to. -/
theorem hookedClosesocket_eq (p : Proxy) (s : Socket) :
    (hookedClosesocket p s).1 = closeSession { p with rx := closeReorder p.rx s } s := by
  unfold hookedClosesocket closeSession
  dsimp only
  split <;> rfl

/-- The real call, which drops what is on the socket, and the reset of the reorder buffer. -/
def Host.realClose (h : Host) (sock : Socket) : HostStep :=
  if (h.closing sock).isSome then none
  else some ({ h with
    rx := { h.rx with
      proxy := { h.rx.proxy with rx := closeReorder h.rx.proxy.rx sock }
      queue := Function.update h.rx.queue sock [] }
    closing := Function.update h.closing sock (some .dupPurge) }, [])

def Host.dupPurge (h : Host) (sock : Socket) : HostStep :=
  if h.closing sock = some .dupPurge then
    some ({ h with
      tx := { h.tx with dup := dupPurgeSocket h.tx.dup sock }
      closing := Function.update h.closing sock (some .pacePurge) }, [])
  else none

/-- The pacer's section: flush, purge, and the end of the session; `ms` is the clock at each send of the flush. -/
def Host.pacePurge (h : Host) (sock : Socket) (ms : Nat → U64) : HostStep :=
  if h.closing sock = some .pacePurge then
    let r := paceFlushLocked h.tx.tx
    let ws := handOver ms r.2
    some ({ h with
      tx := { h.tx with tx := pacePurgeSocket r.1 sock, wire := h.tx.wire ++ ws }
      rx := { h.rx with proxy := closeSession h.rx.proxy sock }
      closing := Function.update h.closing sock none }, ws)
  else none

/-! ## The network -/

/-- Which endpoint a socket's datagrams come from, and the machine and socket that an endpoint leads to. -/
structure Topology (ι : Type) where
  endpoint : ι → Socket → SockAddr
  home : SockAddr → Option (ι × Socket)
  /-- Nothing comes from `0.0.0.0:0`. -/
  endpoint_ne : ∀ i s, (endpoint i s).addr ≠ 0 ∨ (endpoint i s).port ≠ 0

/-- A datagram on its way to a socket. -/
structure Parcel (ι : Type) where
  dst : ι
  sock : Socket
  pkt : Packet
deriving DecidableEq

def Topology.route {ι : Type} (top : Topology ι) (i : ι) (o : Outgoing) : Option (Parcel ι) :=
  (top.home (readSockAddr o.dest)).map fun d => ⟨d.1, d.2, ⟨top.endpoint i o.sock, o.data⟩⟩

structure Net (ι : Type) where
  host : ι → Host
  air : Multiset (Parcel ι)

def netInit {ι : Type} (cfg : ι → HostCfg) : Net ι := ⟨fun i => hostInit (cfg i), 0⟩

inductive NetAct (ι : Type) where
  | send (i : ι) (act : SendAct)
  | recv (i : ι) (op : WakeOp)
  | realClose (i : ι) (sock : Socket)
  | dupPurge (i : ι) (sock : Socket)
  | pacePurge (i : ι) (sock : Socket) (ms : Nat → U64)
  /-- The network delivers, loses or repeats a datagram. -/
  | deliver (k : Parcel ι)
  | lose (k : Parcel ι)
  | copy (k : Parcel ι)

section Step
variable {ι : Type} [DecidableEq ι] (top : Topology ι) (s : Net ι)

/-- Machine `i` goes on as `r` says, and the network takes what it has sent. -/
def Net.goesOn (i : ι) (r : Host × List Handed) : Net ι :=
  ⟨Function.update s.host i r.1, s.air + (r.2.filterMap fun w => top.route i w.out : List (Parcel ι))⟩

def Net.arrives (k : Parcel ι) : Net ι :=
  let h := s.host k.dst
  ⟨Function.update s.host k.dst { h with rx := wakeStep h.rx (.arrive k.sock k.pkt) }, s.air.erase k⟩

/-- One action; `none` where nobody can take it. -/
def netStep : NetAct ι → Option (Net ι)
  | .send i act => ((s.host i).send act).map (s.goesOn top i)
  | .recv i op => ((s.host i).recv op).map (s.goesOn top i)
  | .realClose i sock => ((s.host i).realClose sock).map (s.goesOn top i)
  | .dupPurge i sock => ((s.host i).dupPurge sock).map (s.goesOn top i)
  | .pacePurge i sock ms => ((s.host i).pacePurge sock ms).map (s.goesOn top i)
  | .deliver k => if k ∈ s.air then some (s.arrives k) else none
  | .lose k => if k ∈ s.air then some { s with air := s.air.erase k } else none
  | .copy k => if k ∈ s.air then some { s with air := k ::ₘ s.air } else none

end Step

/-- The datagrams handed to the game of machine `j`, in order. -/
def Net.given {ι : Type} (s : Net ι) (j : ι) : List Packet := (s.host j).rx.handed

end BzNet
