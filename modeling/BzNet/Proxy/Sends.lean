import BzNet.Lib.Bytes
import BzNet.Pace.Order
import BzNet.Pace.Duplicate
import BzNet.Proxy.Calls

/-!
# A send of the game, from the hook to the wire

`Hooked_sendto` and `Hooked_WSASendTo` of both proxies in full: suppressor, sampler, pacer, the real send and its
duplicate. The hook is split into its locked sections and real calls, between which the pacer thread, the
duplicate thread and a receive may run in any order.

* `SendArgs` : the arguments of the call, with what each section takes from them;
* `SendSys`, `sendSysStep` : the game thread's send in progress, the two queues with their threads, the calls made
  into the sampler, and what has been handed to a real send function, each with the clock at that moment;
* `SendSys.records`, `SendSys.handed` : the sends recorded by the sampler, and the copies handed over that it is
  meant to record.
-/

namespace BzNet

/-! ## The call -/

/-- The fields of a `sockaddr` in memory; bytes past its length read as zero, and no caller passes fewer than the
fields take. -/
def readSockAddr (bs : List U8) : SockAddr where
  family := BitVec.ofNat 16 (Bytes.leValue (bs.take 2))
  port := BitVec.ofNat 16 (Bytes.leValue ((bs.drop 2).take 2).reverse)
  addr := BitVec.ofNat 32 (Bytes.leValue ((bs.drop 4).take 4))

/-- The arguments of a send; the destination is the `tolen` bytes behind the pointer. -/
structure SendArgs where
  sock : Socket
  form : SendForm
  flags : U32
  dest : Option (List U8)

/-- The call as the suppressor and the sampler see it. -/
def SendArgs.call (a : SendArgs) (admitMs rttMs : U64) : SendCall :=
  ⟨a.sock, a.form, a.flags, a.dest.map readSockAddr, admitMs, rttMs⟩

def SendForm.data : SendForm → Payload
  | .sendto buf => buf.getD []
  | .wsaSendTo buffers _ => (buffers.map fun b => b.getD []).flatten

/-- The datagram in one piece, where the suppressor, the sampler and the pacer look at it. -/
def SendForm.flat : SendForm → Option Payload
  | .sendto buf => buf
  | .wsaSendTo buffers overlapped => wsaSendPayload buffers overlapped

/-- The copy that a duplicate is sent from; an overlapped original has one too. -/
def SendForm.dupFlat : SendForm → Option Payload
  | .sendto buf => buf
  | .wsaSendTo buffers _ => flattenSegments [] buffers

def SendArgs.outgoing (a : SendArgs) : Outgoing := ⟨a.sock, a.dest.getD [], a.form.data⟩

def SendArgs.offered (a : SendArgs) : Bool := a.flags == 0 && a.form.flat.any fun pay => pay ≠ []

def isRemoteInet (dest : SockAddr) : Bool := dest.family == afInet && !dupIsLoopback dest

/-- Large enough to carry a sequence, and bound for a peer. -/
def SendArgs.duplicable (a : SendArgs) : Bool :=
  (a.dest.any fun bs => isRemoteInet (readSockAddr bs)) &&
    a.form.dupFlat.any fun pay => kReorderSeqMinPay ≤ pay.length

/-! ## The system -/

/-- Where the send in progress has got to: before the offer to the pacer, before the real send, or before its
duplicate. -/
inductive SendStage where
  | offer
  | real
  | dup
deriving DecidableEq

/-- The send in progress, with the clock at the sampler's section. -/
structure Flight where
  args : SendArgs
  rttMs : U64
  stage : SendStage

/-- A datagram handed to a real send function. -/
structure Handed where
  out : Outgoing
  ms : U64

/-- A sample: the peer, the acknowledged sequence, and the clock when it was taken. -/
structure Sampled where
  peer : U32
  seq : U32
  now : U64
  ms : U32

structure SendSys where
  proxy : Proxy
  tx : PaceCtx
  /-- `g_send_dup`. -/
  sendDup : Bool
  dup : DupCtx
  /-- The copy that the duplicate thread has taken off the queue and not sent yet. -/
  hand : Option Outgoing
  flight : Option Flight
  /-- The calls made into the sampler. -/
  calls : List RttOp
  wire : List Handed
  samples : List Sampled

/-- The settings of the two queues. -/
structure TxCfg where
  rateBps : U32
  maxDelayMs : U32
  sendDup : Bool
  dupDelayMs : U32
  dupMaxPps : U32
  startMs : U64

def sendSysInit (cfg : ProxyCfg) (tx : TxCfg) : SendSys where
  proxy := proxyInit { cfg with rtt := true }
  tx := paceInit tx.rateBps tx.maxDelayMs tx.startMs
  sendDup := tx.sendDup
  dup := dupInit tx.dupDelayMs tx.dupMaxPps
  hand := none
  flight := none
  calls := []
  wire := []
  samples := []

inductive SendAct where
  /-- A send of the game up to the sampler's section. -/
  | start (a : SendArgs) (admitMs rttMs : U64)
  /-- The offer to the pacer; `ms` is the clock at each send of a flush. -/
  | offer (now : U64) (ms : Nat → U64)
  | real (ok : Bool) (ms : U64)
  /-- The duplicate: sent at once, or queued. -/
  | dup (ms : U64)
  | turn (now : U64) (ms : Nat → U64)
  | dupPop (now : U64)
  | dupSend (ms : U64)
  /-- A datagram of a peer reaches the sampler. -/
  | recv (addr : U32) (pay : Payload) (now : U64)

/-- The entries taken off a queue, handed over one after the other. -/
def handOver (ms : Nat → U64) (es : List PaceEntry) : List Handed := es.mapIdx fun i e => ⟨e.toOutgoing, ms i⟩

section Step
variable (s : SendSys)

/-- The hook up to the sampler's section; a suppressed send is only counted by the pacer. -/
def SendSys.start (a : SendArgs) (admitMs rttMs : U64) : SendSys :=
  let c := a.call admitMs rttMs
  let s' := { s with proxy := (hookedSend s.proxy c).1, calls := s.calls ++ rttCalls s.proxy (.send c) }
  if (hookedSend s.proxy c).2 then
    { s' with tx := paceObserve s.tx (BitVec.ofNat 32 a.form.data.length) admitMs }
  else { s' with flight := some ⟨a, rttMs, .offer⟩ }

/-- The pacer's section, where the call has one; a datagram it takes is done with. -/
def SendSys.offer (f : Flight) (now : U64) (ms : Nat → U64) : SendSys :=
  if f.args.offered then
    let r := paceTake s.tx f.args.outgoing now
    { s with
      tx := r.1
      wire := s.wire ++ handOver ms r.2.2
      flight := if r.2.1 then none else some { f with stage := .real } }
  else { s with flight := some { f with stage := .real } }

/-- The real send, and whether a duplicate follows. -/
def SendSys.real (f : Flight) (ok : Bool) (ms : U64) : SendSys :=
  { s with
    wire := s.wire ++ [⟨f.args.outgoing, ms⟩]
    flight := if ok && s.sendDup && f.args.duplicable then some { f with stage := .dup } else none }

def SendSys.duplicate (f : Flight) (ms : U64) : SendSys :=
  if s.dup.delayMs = 0 then { s with wire := s.wire ++ [⟨f.args.outgoing, ms⟩], flight := none }
  else { s with dup := dupEnqueue s.dup f.args.outgoing ms, flight := none }

def sampleOf (addr : U32) (pay : Payload) (now : U64) : RttOutcome → Option Sampled
  | .sample ms => some ⟨addr, reorderAckFromPayload pay, now, ms⟩
  | _ => none

def SendSys.receive (addr : U32) (pay : Payload) (now : U64) : SendSys :=
  let r := rttOnRecv s.proxy.rtt addr pay now
  { s with
    proxy := { s.proxy with rtt := r.1 }
    calls := s.calls ++ [.recv addr pay now]
    samples := s.samples ++ (sampleOf addr pay now r.2).toList }

/-- The send in progress, when it has got to `stage`. -/
def SendSys.at (stage : SendStage) : Option Flight := s.flight.filter fun f => f.stage = stage

end Step

/-- One section or real call of a thread; `none` where no thread is there. -/
def sendSysStep (s : SendSys) : SendAct → Option SendSys
  | .start a admitMs rttMs => if s.flight.isSome then none else some (s.start a admitMs rttMs)
  | .offer now ms => (s.at .offer).map fun f => s.offer f now ms
  | .real ok ms => (s.at .real).map fun f => s.real f ok ms
  | .dup ms => (s.at .dup).map fun f => s.duplicate f ms
  | .turn now ms =>
    let r := sendPaceTurn s.tx now
    some { s with tx := r.1, wire := s.wire ++ handOver ms r.2 }
  | .dupPop now =>
    if s.hand.isSome then none
    else (dupPopDue s.dup now).map fun r => { s with dup := r.2, hand := some r.1.toOutgoing }
  | .dupSend ms => s.hand.map fun o => { s with hand := none, wire := s.wire ++ [⟨o, ms⟩] }
  | .recv addr pay now => some (s.receive addr pay now)

/-! ## What is recorded and what is handed over -/

/-- A reliable copy for a peer: its sequence, and when it was recorded or handed over. -/
structure Copy where
  peer : U32
  seq : U32
  ms : U64
deriving DecidableEq

def recordOf : RttOp → Option Copy
  | .send addr pay now => if Sequenced pay then some ⟨addr, reorderSeqFromPayload pay, now⟩ else none
  | _ => none

/-- The reliable datagrams for IPv4 peers other than the game itself. -/
def Outgoing.Tracked (o : Outgoing) : Prop := Sequenced o.data ∧ isRemoteInet (readSockAddr o.dest) = true

instance (o : Outgoing) : Decidable o.Tracked := inferInstanceAs (Decidable (_ ∧ _))

def copyOf (o : Outgoing) (ms : U64) : Option Copy :=
  if o.Tracked then some ⟨(readSockAddr o.dest).addr, reorderSeqFromPayload o.data, ms⟩ else none

/-- The sequences and times passed to `rtt_on_send`. -/
def SendSys.records (s : SendSys) : List Copy := s.calls.filterMap recordOf

/-- The reliable copies handed to a real send function. -/
def SendSys.handed (s : SendSys) : List Copy := s.wire.filterMap fun w => copyOf w.out w.ms

end BzNet
