import BzNet.Dampen.Record
import BzNet.Rtt.Record
import BzNet.Reorder.Receive

/-!
# The proxy: the socket hooks over the three modules

`netcode_hooks.cpp` (Windows) and its twin `dsound_proxy.cpp` (Proton): the hooks that the game's socket
calls go through, as far as they concern the duplicate suppressor, the round-trip sampler and the reorder
buffer.

* `SendCall`, `SendCall.gate` : a send of the game, and what the suppressor and the sampler see of it;
* `hookedSendto`, `hookedWSASendTo` : the outbound hooks, which share `sendThrough`;
* `scatterCopy`, `RecvArgs.feed` : how a datagram reaches the caller's buffers, and what the sampler is shown
  of it;
* `hookedRecvfrom`, `wsaRecvFrom` : the inbound hooks, the second with both of its paths;
* `purgeSession`, `hookedClosesocket` : the end of a session;
* `proxyStep` : one hooked call.

The locks are ready from initialisation on. Pacing and duplication work on a datagram after the suppressor
and the sampler have seen it, and never call back into them.
-/

namespace BzNet

inductive Platform where
  | windows
  | linux
deriving DecidableEq

/-- What the environment variables decide. -/
structure ProxyCfg where
  platform : Platform
  dampen : Bool
  rtt : Bool
  reorder : Bool
  buffer : ReorderCfg
  drain : Nat

/-- The globals of the proxy. -/
structure Proxy where
  cfg : ProxyCfg
  dampen : DampenCtx
  /-- `g_dampen_sock`. -/
  dampenSock : Socket
  rtt : RttCtx
  rx : RxState

def proxyInit (cfg : ProxyCfg) : Proxy where
  cfg := cfg
  dampen := dampenInit cfg.dampen
  dampenSock := invalidSocket
  rtt := rttInit cfg.rtt
  rx := rxInit cfg.buffer cfg.drain

/-! ## Sends -/

/-- The call and its buffers; `none` is a null pointer. -/
inductive SendForm where
  | sendto (buf : Option Payload)
  | wsaSendTo (buffers : List (Option Payload)) (overlapped : Bool)

/-- A send of the game, with the clock readings of the suppressor and of the sampler. -/
structure SendCall where
  sock : Socket
  form : SendForm
  flags : U32
  dest : Option SockAddr
  admitMs : U64
  rttMs : U64

def ntohl (a : U32) : U32 :=
  (a.setWidth 8).setWidth 32 <<< 24 ||| ((a >>> 8).setWidth 8).setWidth 32 <<< 16 |||
    ((a >>> 16).setWidth 8).setWidth 32 <<< 8 ||| a >>> 24

/-- The game's connection to itself. -/
def dupIsLoopback (dest : SockAddr) : Bool := dest.family = afInet && ntohl dest.addr >>> 24 == 127

/-- The segments of a scattered send behind one another, when they fit a datagram. -/
def flattenSegments : Payload → List (Option Payload) → Option Payload
  | flat, [] => some flat
  | flat, none :: buffers => flattenSegments flat buffers
  | flat, some b :: buffers =>
    if flat.length + b.length > kReorderMaxPktBytes then none else flattenSegments (flat ++ b) buffers

/-- The destination and the datagram of a send that the suppressor and the sampler look at. -/
def sendGate (flags : U32) (dest : Option SockAddr) (pay : Option Payload) : Option (SockAddr × Payload) :=
  match dest, pay with
  | some dest, some pay =>
    if flags = 0 ∧ pay ≠ [] ∧ dest.family = afInet ∧ dupIsLoopback dest = false then some (dest, pay) else none
  | _, _ => none

/-- What the outbound hooks do with such a datagram, and whether it is suppressed. A suppressed copy never
leaves, so the sampler does not see it. -/
def sendThrough (p : Proxy) (sock : Socket) (admitMs rttMs : U64) : Option (SockAddr × Payload) → Proxy × Bool
  | none => (p, false)
  | some (dest, pay) =>
    if p.dampen.enabled then
      let a := dampenAdmit p.dampen dest.addr pay admitMs
      -- this socket carries traffic the suppressor looks at: its close ends the session
      let p := { p with dampen := a.1, dampenSock := sock }
      if a.2 = .suppress then (p, true)
      else ({ p with rtt := rttOnSend p.rtt dest.addr pay rttMs }, false)
    else ({ p with rtt := rttOnSend p.rtt dest.addr pay rttMs }, false)

def hookedSendto (p : Proxy) (sock : Socket) (buf : Option Payload) (flags : U32) (dest : Option SockAddr)
    (admitMs rttMs : U64) : Proxy × Bool :=
  sendThrough p sock admitMs rttMs (sendGate flags dest buf)

/-- The flat datagram of a scattered send; an overlapped one is the caller's to complete. -/
def wsaSendPayload (buffers : List (Option Payload)) (overlapped : Bool) : Option Payload :=
  if overlapped || buffers.isEmpty then none else flattenSegments [] buffers

def hookedWSASendTo (p : Proxy) (sock : Socket) (buffers : List (Option Payload)) (flags : U32)
    (dest : Option SockAddr) (overlapped : Bool) (admitMs rttMs : U64) : Proxy × Bool :=
  sendThrough p sock admitMs rttMs (sendGate flags dest (wsaSendPayload buffers overlapped))

/-- Either outbound hook. -/
def hookedSend (p : Proxy) (c : SendCall) : Proxy × Bool :=
  match c.form with
  | .sendto buf => hookedSendto p c.sock buf c.flags c.dest c.admitMs c.rttMs
  | .wsaSendTo buffers overlapped =>
    hookedWSASendTo p c.sock buffers c.flags c.dest overlapped c.admitMs c.rttMs

def SendCall.gate (c : SendCall) : Option (SockAddr × Payload) :=
  sendGate c.flags c.dest (match c.form with
    | .sendto buf => buf
    | .wsaSendTo buffers overlapped => wsaSendPayload buffers overlapped)

theorem hookedSend_gate (p : Proxy) (c : SendCall) :
    hookedSend p c = sendThrough p c.sock c.admitMs c.rttMs c.gate := by
  unfold hookedSend SendCall.gate
  cases c.form <;> rfl

/-! ## Receives -/

/-- A datagram of any size, as a plain receive takes it from the socket. -/
structure Packet where
  src : SockAddr
  data : Payload
deriving DecidableEq

def Datagram.packet (d : Datagram) : Packet := ⟨d.src, d.data⟩

/-- What the caller of a receive hands over: its buffers by length (`none` is a null pointer), the memory
behind the first of them, which results it asked for, and the sampler's clock reading. `waiting` is the datagram
that a call past the buffer finds on the socket. -/
structure RecvArgs where
  segments : List (Option Nat)
  behind : Nat → U8
  wantsFrom : Bool
  wantsBytes : Bool
  overlapped : Bool
  feedMs : U64
  waiting : Option Packet

/-- What each segment receives of a datagram. -/
def scatterCopy : List (Option Nat) → Payload → List Payload
  | [], _ => []
  | none :: segments, src => [] :: scatterCopy segments src
  | some len :: segments, src => src.take len :: scatterCopy segments (src.drop len)

def RecvArgs.capacity (a : RecvArgs) : Nat := (a.segments.map fun s => s.getD 0).sum

/-- The `n` bytes at the pointer of the first buffer, after a datagram was delivered. -/
def RecvArgs.atFirst (a : RecvArgs) (data : Payload) (n : Nat) : Option Payload :=
  match a.segments with
  | some len :: _ => some (data.take len ++ (List.range (n - (data.take len).length)).map a.behind)
  | _ => none

/-- What the sampler is shown of a delivered datagram. -/
def RecvArgs.feed (a : RecvArgs) (d : Packet) : Option RttOp :=
  let copied := (scatterCopy a.segments d.data).flatten.length
  if 0 < copied ∧ d.src.family = afInet then
    (a.atFirst d.data copied).map fun view => .recv d.src.addr view a.feedMs
  else none

def Proxy.rttCall (p : Proxy) : Option RttOp → Proxy × Option RttOutcome
  | none => (p, none)
  | some op => ({ p with rtt := (rttStep p.rtt op).1 }, (rttStep p.rtt op).2)

/-- What a receive hands to the game, and what the sampler made of it. -/
structure Received where
  handed : Option Packet
  outcome : Option RttOutcome

/-- The first datagram that is not a wake datagram of our own. -/
def skipWakes : List (Option Packet) → Option Packet
  | some d :: reals => if d.data = kWakeMagic then skipWakes reals else some d
  | _ => none

/-- The sampler is only wired into the plain receive of the Linux proxy. -/
def recvfromFeed (platform : Platform) (wantsFrom : Bool) (handed : Option Packet) (feedMs : U64) : Option RttOp :=
  match platform, handed with
  | .linux, some d =>
    if d.data ≠ [] ∧ wantsFrom = true ∧ d.src.family = afInet then some (.recv d.src.addr d.data feedMs) else none
  | _, _ => none

/-- `reals` is what the real calls return, in order. -/
def hookedRecvfrom (p : Proxy) (wantsFrom : Bool) (reals : List (Option Packet)) (feedMs : U64) : Proxy × Received :=
  let handed := skipWakes reals
  let r := p.rttCall (recvfromFeed p.cfg.platform wantsFrom handed feedMs)
  (r.1, ⟨handed, r.2⟩)

/-- The path past the buffer: overlapped calls, and every call while the buffer is off. -/
def bypassesBuffer (p : Proxy) (a : RecvArgs) : Bool := !p.cfg.reorder || a.overlapped || a.segments.isEmpty

/-- The one real call of that path: a datagram that does not fit fails it. -/
def RecvArgs.real (a : RecvArgs) : Option Packet := a.waiting.filter fun d => d.data.length ≤ a.capacity

/-- `Hooked_WSARecvFrom`, both paths. The delivery from the buffer is seen by the sampler of the Windows
proxy only. -/
def wsaRecvFrom (p : Proxy) (a : RecvArgs) (call : RecvCall) : Proxy × Received :=
  if bypassesBuffer p a then
    let r := p.rttCall (if a.wantsBytes && a.wantsFrom then a.real.bind a.feed else none)
    (r.1, ⟨a.real, r.2⟩)
  else
    let b := hookedWSARecvFrom p.rx call
    let handed := b.2.handed.map Datagram.packet
    let r := { p with rx := b.1 }.rttCall (if p.cfg.platform = Platform.windows then handed.bind a.feed else none)
    (r.1, ⟨handed, r.2⟩)

/-! ## Closing a socket -/

/-- The walk over the suppressor's table, which purges both tables under each address it meets. -/
def purgeSession (d : DampenCtx) (r : RttCtx) : DampenCtx × RttCtx :=
  (List.range kDampenPeers).foldl (fun dr i =>
    let addr := (dr.1.peers i).addr
    if addr ≠ 0 then (dampenPurgePeer dr.1 addr, rttPurgePeer dr.2 addr) else dr) (d, r)

/-- The hook, and whether the close ended the session. -/
def hookedClosesocket (p : Proxy) (s : Socket) : Proxy × Bool :=
  let p := { p with rx := closeReorder p.rx s }
  if dampenCloseEndsSession s p.dampenSock then
    let dr := purgeSession p.dampen p.rtt
    ({ p with dampen := dr.1, rtt := dr.2, dampenSock := invalidSocket }, true)
  else (p, false)

/-! ## The proxy as a machine -/

inductive ProxyOp where
  | send (c : SendCall)
  | recvfrom (sock : Socket) (wantsFrom : Bool) (reals : List (Option Packet)) (feedMs : U64)
  | wsaRecvFrom (a : RecvArgs) (call : RecvCall)
  | closesocket (s : Socket)

def ProxyOp.sock : ProxyOp → Socket
  | .send c => c.sock
  | .recvfrom sock _ _ _ => sock
  | .wsaRecvFrom _ call => call.sock
  | .closesocket s => s

inductive ProxyOut where
  | sent (suppressed : Bool)
  | received (r : Received)
  | closed (endsSession : Bool)

def proxyStep (p : Proxy) : ProxyOp → Proxy × ProxyOut
  | .send c => ((hookedSend p c).1, .sent (hookedSend p c).2)
  | .recvfrom _ wantsFrom reals feedMs =>
    let r := hookedRecvfrom p wantsFrom reals feedMs
    (r.1, .received r.2)
  | .wsaRecvFrom a call => ((wsaRecvFrom p a call).1, .received (wsaRecvFrom p a call).2)
  | .closesocket s => ((hookedClosesocket p s).1, .closed (hookedClosesocket p s).2)

/-! ## Sample calls -/

/-- The Windows proxy with the reorder buffer off, as it is shipped. -/
def sampleCfg (dampen : Bool) : ProxyCfg := ⟨.windows, dampen, true, false, .default, kReorderDrainCapDef⟩

def sampleAddr (n : U8) : U32 := n.setWidth 32 <<< 24 ||| 0x0A

def sampleSend (sock : Socket) (addr : U32) (port : U16) (pay : Payload) (now : U64) : SendCall :=
  ⟨sock, .sendto (some pay), 0, some ⟨afInet, addr, port⟩, now, now⟩

/-- A receive through `WSARecvFrom` into one large buffer. -/
def sampleRecv (sock : Socket) (d : Datagram) (now : U64) : ProxyOp :=
  .wsaRecvFrom ⟨[some kReorderMaxPktBytes], fun _ => 0, true, true, false, now, some d.packet⟩
    ⟨sock, now, [(.datagram d, now)], now⟩

end BzNet
