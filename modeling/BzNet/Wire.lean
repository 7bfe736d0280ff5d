import BzNet.Lib.Serial

/-!
# The wire: header fields, sequence comparison, addresses

The part of the P2P header the proxies read (`shared/reorder_core.h`): byte 0 carries the reliable
flag, offset 10 the sender's message counter, offset 14 its acknowledgement, both big-endian. A
datagram shorter than `kReorderSeqMinPay` bytes carries neither.

A payload is the list of bytes the caller passes, so a length argument of the source is the length
of the list; reading past its end reads `0`, which no caller does.
-/

namespace BzNet

abbrev U8 := BitVec 8
abbrev U16 := BitVec 16
abbrev U32 := BitVec 32
abbrev U64 := BitVec 64

abbrev Payload := List U8

/-! ## Header fields -/

def kReorderSeqOffset : Nat := 10
def kReorderSeqMinPay : Nat := 18
def kReorderAckOffset : Nat := 14
def kBzHdrFlagReliable : U8 := 0x80#8

/-- The big-endian 32-bit field at byte `off`. -/
def be32 (p : Payload) (off : Nat) : U32 :=
  ((p.getD off 0).setWidth 32 <<< 24) ||| ((p.getD (off + 1) 0).setWidth 32 <<< 16) |||
    ((p.getD (off + 2) 0).setWidth 32 <<< 8) ||| (p.getD (off + 3) 0).setWidth 32

def reorderSeqFromPayload (p : Payload) : U32 := be32 p kReorderSeqOffset

def reorderAckFromPayload (p : Payload) : U32 := be32 p kReorderAckOffset

def reorderIsReliable (p : Payload) : Bool := (p.getD 0 0 &&& kBzHdrFlagReliable) != 0

/-- The datagrams that carry a sequence of the reliable stream. -/
def Sequenced (p : Payload) : Prop := kReorderSeqMinPay ≤ p.length ∧ reorderIsReliable p = true

instance (p : Payload) : Decidable (Sequenced p) := inferInstanceAs (Decidable (_ ∧ _))

/-! ## Sequence comparison -/

/-- `static_cast<int32_t>(a - b)`. -/
def seqCmp (a b : U32) : Int := Serial.cmp a b

def seqNext (s : U32) : U32 := s + 1

def seqAheadOrEqual (seq want : U32) : Bool := 0 ≤ seqCmp seq want

theorem seqCmp_next {a b : U32} (h : 0 < seqCmp a b) (hne : a ≠ seqNext b) : 0 < seqCmp a (seqNext b) := by
  rw [seqCmp, Serial.cmp_pos_iff] at h ⊢
  have hnext : Serial.elapsed (seqNext b) b = 1 := by
    have hsub : seqNext b - b = 1#32 := add_sub_cancel_left b 1#32
    rw [Serial.elapsed, hsub]
    rfl
  have hbase := @Serial.elapsed_of_base 32 b a (seqNext b) (by omega)
  have hpos : Serial.elapsed a (seqNext b) ≠ 0 := fun h0 => hne ((Serial.elapsed_eq_zero_iff _ _).mp h0)
  omega

theorem seqAheadOrEqual_next {a b : U32} (h : 0 < seqCmp a b) : seqAheadOrEqual a (seqNext b) = true := by
  rw [seqAheadOrEqual, decide_eq_true_eq]
  by_cases heq : a = seqNext b
  · rw [heq, seqCmp, Serial.cmp_self]
  · exact Int.le_of_lt (seqCmp_next h heq)

/-! ## Addresses -/

def afInet : U16 := 2

/-- A `sockaddr_in`: the address in network order, the port in host order. -/
@[ext]
structure SockAddr where
  family : U16
  addr : U32
  port : U16
deriving DecidableEq

/-- A socket handle. -/
abbrev Socket := U64

/-- `INVALID_SOCKET`, which is also `kDampenInvalidSock`: all bits set. -/
def invalidSocket : Socket := BitVec.allOnes 64

/-! ## Sample datagrams -/

/-- The smallest datagram with a sequence: flag byte, sequence and acknowledgement, the other header
bytes zero (`make_pkt` of the tests). -/
def makePkt (reliable : Bool) (seq ack : U32) : Payload :=
  (if reliable then 0xC0 else 0x40) :: List.replicate 9 0 ++
    [seq.extractLsb' 24 8, seq.extractLsb' 16 8, seq.extractLsb' 8 8, seq.extractLsb' 0 8,
      ack.extractLsb' 24 8, ack.extractLsb' 16 8, ack.extractLsb' 8 8, ack.extractLsb' 0 8]

/-- The header of a captured datagram decodes to the ordinals its log line prints. -/
example : let p : Payload := [0xc0, 0, 0, 0, 1, 0x9f, 0x9f, 0xc2, 0x36, 0xff, 0, 0, 2, 0xc1, 0, 0, 0x39, 0x76]
    reorderSeqFromPayload p = 705 ∧ reorderAckFromPayload p = 14710 ∧ reorderIsReliable p = true := by
  decide

end BzNet
