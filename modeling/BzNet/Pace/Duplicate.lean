import BzNet.Pace.Core

/-!
# Delayed duplicates

The queue of delayed copies that both proxies keep (`dup_enqueue`, `dup_purge_socket` and the turn of the
duplicate thread): under its own lock, and the thread sends what it has taken off after releasing it. The code is
dormant: duplication is off (`g_send_dup`) and nothing switches it on.
-/

namespace BzNet

def kDupQueueSlots : Nat := 128
def kDupAddrBytes : Nat := 128

structure DupEntry extends Outgoing where
  dueMs : U64
deriving DecidableEq

structure DupCtx where
  delayMs : U32
  /-- `0` is unlimited. -/
  maxPps : U32
  bucketStartMs : U64
  bucketSent : U32
  q : RingBuffer DupEntry kDupQueueSlots

def dupInit (delayMs maxPps : U32) : DupCtx where
  delayMs := delayMs
  maxPps := maxPps
  bucketStartMs := 0
  bucketSent := 0
  q := RingBuffer.empty ⟨⟨0, [], []⟩, 0⟩ (by decide)

/-- The budget of copies is per second. -/
def dupRollBucket (c : DupCtx) (now : U64) : DupCtx :=
  if 1000 ≤ now - c.bucketStartMs then { c with bucketStartMs := now, bucketSent := 0 } else c

/-- Rate-gate and enqueue a copy; without budget or room it is dropped. -/
def dupEnqueue (c : DupCtx) (o : Outgoing) (now : U64) : DupCtx :=
  if o.data = [] ∨ kReorderMaxPktBytes < o.data.length ∨ o.dest = [] ∨ kDupAddrBytes < o.dest.length then c
  else
    let c := dupRollBucket c now
    if (c.maxPps ≠ 0 ∧ c.maxPps ≤ c.bucketSent) ∨ kDupQueueSlots ≤ c.q.used then c
    else { c with bucketSent := c.bucketSent + 1, q := c.q.push ⟨o, now + c.delayMs.setWidth 64⟩ }

def dupPurgeSocket (c : DupCtx) (sock : Socket) : DupCtx :=
  { c with q := c.q.keep fun e => e.sock != sock }

def dupPopDue (c : DupCtx) (now : U64) : Option (DupEntry × DupCtx) :=
  if c.q.used = 0 ∨ now < (c.q.get 0).dueMs then none
  else some (c.q.get 0, { c with q := c.q.dropFirst 1 })

/-! ## What each function does to the queue -/

/-- The copies in the queue, first to leave first. -/
def DupCtx.pending (c : DupCtx) : List Outgoing := c.q.toList.map DupEntry.toOutgoing

@[simp] theorem length_dupPending (c : DupCtx) : c.pending.length = c.q.used := by simp [DupCtx.pending]

@[simp] theorem dupRollBucket_q (c : DupCtx) (now : U64) : (dupRollBucket c now).q = c.q := by
  unfold dupRollBucket
  split <;> rfl

theorem dupEnqueue_pending (c : DupCtx) (o : Outgoing) (now : U64) :
    (dupEnqueue c o now).pending = c.pending ∨ (dupEnqueue c o now).pending = c.pending ++ [o] := by
  unfold dupEnqueue
  split
  · exact Or.inl rfl
  · dsimp only
    split
    · exact Or.inl (by rw [DupCtx.pending, dupRollBucket_q]; rfl)
    · next h =>
      right
      push Not at h
      rw [dupRollBucket_q] at h
      rw [DupCtx.pending, DupCtx.pending, dupRollBucket_q, c.q.toList_push_room _ h.2]
      simp

theorem dupPurgeSocket_pending (c : DupCtx) (sock : Socket) :
    (dupPurgeSocket c sock).pending = c.pending.filter fun o => o.sock != sock := by
  rw [DupCtx.pending, dupPurgeSocket, RingBuffer.toList_keep, DupCtx.pending, List.filter_map]
  rfl

theorem dupPopDue_some {c c' : DupCtx} {e : DupEntry} {now : U64} (h : dupPopDue c now = some (e, c')) :
    c.pending = e.toOutgoing :: c'.pending := by
  unfold dupPopDue at h
  split at h
  · exact absurd h (by simp)
  · next hne =>
    obtain ⟨rfl, rfl⟩ := Prod.mk.inj (Option.some.inj h)
    rw [DupCtx.pending, RingBuffer.toList_eq_cons fun h0 => hne (Or.inl h0)]
    rfl

end BzNet
