import BzNet.Dampen.Record

/-!
# Peers of the suppressor do not interfere

With room for the addresses in use, a call about one address neither reads nor writes the record of another
(`dampenStep_record_of_room`), so the answers about an address are those of the run without the other calls. One
address more than the table has records is enough to lose this.
-/

namespace BzNet

open Machine

def DampenOp.about (addr : U32) (op : DampenOp) : Bool := op.addr == addr

/-- What a run over the addresses `S` keeps: every address has one record, and the records are those of `S`. -/
structure PeersInv (enabled : Bool) (S : Finset U32) (c : DampenCtx) : Prop where
  enabled : c.enabled = enabled
  distinct : c.Distinct
  keys : LruTable.KeysIn kDampenPeers c.peers S

section
variable {enabled : Bool} {S : Finset U32} {c : DampenCtx} {op : DampenOp} {addr : U32}

theorem peersInv_init (enabled : Bool) (S : Finset U32) : PeersInv enabled S (dampenInit enabled) :=
  ⟨rfl, dampenInit_distinct enabled, fun _ _ hi => absurd rfl hi⟩

theorem dampenStep_peersInv (h : PeersInv enabled S c) (hop : op.addr ∈ S) : PeersInv enabled S (dampenStep c op).1 where
  enabled := dampenStep_enabled.trans h.enabled
  distinct := dampenStep_distinct h.distinct
  keys := dampenStep_keysIn h.keys hop

theorem dampenStep_about (h : PeersInv enabled S c) (hne : addr ≠ 0) (hmine : op.about addr = true) :
    dampenRecord (dampenStep c op).1 addr = (dampenRecordStep enabled (dampenRecord c addr) op).1 ∧
      (dampenStep c op).2 = (dampenRecordStep enabled (dampenRecord c addr) op).2 := by
  have haddr : op.addr = addr := by simpa [DampenOp.about] using hmine
  subst haddr
  rw [← h.enabled]
  exact dampenStep_record h.distinct hne

theorem dampenStep_not_about (h : PeersInv enabled S c) (hcard : S.card ≤ kDampenPeers) (hop : op.addr ∈ S)
    (hne : addr ≠ 0) (hother : op.about addr = false) :
    dampenRecord (dampenStep c op).1 addr = dampenRecord c addr := by
  have haddr : op.addr ≠ addr := by simpa [DampenOp.about] using hother
  exact dampenStep_record_of_room h.distinct h.keys hcard hop hne haddr.symm

end

/-- **Noninterference of the peers.** In a run over at most `kDampenPeers` addresses the answers to the calls about
one of them are those of the run of these calls alone. -/
theorem dampen_peers_isolated (enabled : Bool) (S : Finset U32) (hcard : S.card ≤ kDampenPeers) (ops : List DampenOp)
    (hops : ∀ op ∈ ops, op.addr ∈ S) (addr : U32) (hne : addr ≠ 0) :
    answersTo (DampenOp.about addr) ops (outputs dampenStep (dampenInit enabled) ops) =
      outputs dampenStep (dampenInit enabled) (ops.filter (DampenOp.about addr)) := by
  have hinv : ∀ c op, PeersInv enabled S c → op.addr ∈ S → PeersInv enabled S (dampenStep c op).1 :=
    fun _ _ h hop => dampenStep_peersInv h hop
  have hmine : ∀ c op, PeersInv enabled S c → op.addr ∈ S → op.about addr = true →
      dampenRecord (dampenStep c op).1 addr = (dampenRecordStep enabled (dampenRecord c addr) op).1 ∧
        (dampenStep c op).2 = (dampenRecordStep enabled (dampenRecord c addr) op).2 :=
    fun _ _ h _ hm => dampenStep_about h hne hm
  have hother : ∀ c op, PeersInv enabled S c → op.addr ∈ S → op.about addr = false →
      dampenRecord (dampenStep c op).1 addr = dampenRecord c addr :=
    fun _ _ h hop ho => dampenStep_not_about h hcard hop hne ho
  exact @outputs_restrict _ _ _ _ dampenStep (dampenRecordStep enabled) (fun c => dampenRecord c addr)
    (DampenOp.about addr) (PeersInv enabled S) (fun op => op.addr ∈ S) hinv hmine hother _ (peersInv_init enabled S)
    ops hops

/-- Two peers: while one is sent a copy, the other acknowledges and is purged. -/
theorem dampen_peers_isolated_two :
    let ops : List DampenOp := [.admission 1 (makePkt true 7 0) 1000, .admission 2 (makePkt true 7 0) 1000,
      .observeAck 2 7 1030, .admission 1 (makePkt true 7 0) 1010, .purgePeer 2, .setRtt 2 300,
      .admission 1 (makePkt true 7 0) 1070]
    (({1, 2} : Finset U32).card ≤ kDampenPeers ∧ (1 : U32) ≠ 0 ∧ ∀ op ∈ ops, op.addr ∈ ({1, 2} : Finset U32)) ∧
      answersTo (DampenOp.about 1) ops (outputs dampenStep (dampenInit true) ops) =
        outputs dampenStep (dampenInit true) (ops.filter (DampenOp.about 1)) := by
  intro ops
  have hops : ∀ op ∈ ops, op.addr ∈ ({1, 2} : Finset U32) := by
    intro op hop
    simp only [ops, List.mem_cons, List.not_mem_nil, or_false] at hop
    rcases hop with rfl | rfl | rfl | rfl | rfl | rfl | rfl <;> decide
  exact ⟨⟨by decide, by decide, hops⟩,
    dampen_peers_isolated true {1, 2} (by decide) ops hops 1 (by decide)⟩

/-- Seventeen peers: the record of the first is evicted and its retry sent. -/
example :
    let ops := (List.range 17).map (fun i => DampenOp.admission (BitVec.ofNat 32 (i + 1)) (makePkt true 7 0)
      (BitVec.ofNat 64 (1000 + i))) ++ [.admission 1 (makePkt true 7 0) 1020]
    answersTo (DampenOp.about 1) ops (outputs dampenStep (dampenInit true) ops) = [some .send, some .send] ∧
      outputs dampenStep (dampenInit true) (ops.filter (DampenOp.about 1)) = [some .send, some .suppress] := by
  decide +kernel

end BzNet
