import BzNet.Proxy.Calls

/-!
# The suppressor does not mix destinations up

The record that decides on a datagram is that of its destination address, and with room for the addresses in use
no send reaches the record of another one. The decisions on the sends to an address are therefore those of the run
without the others. The port is no part of the key.
-/

namespace BzNet

open Machine

def sentTo (addr : U32) (c : SendCall) : Bool :=
  match c.dest with
  | some dest => dest.family = afInet && dest.addr = addr
  | none => false

def sentToEndpoint (addr : U32) (port : U16) (c : SendCall) : Bool :=
  sentTo addr c && (c.dest.map SockAddr.port == some port)

/-- A send, as far as the record of its destination is concerned. -/
def sendRecordStep (enabled : Bool) (r : Option DampenPeer) (c : SendCall) : Option DampenPeer × Bool :=
  match c.gate with
  | some (dest, pay) =>
    if enabled then
      let a := dampenRecordStep true r (.admission dest.addr pay c.admitMs)
      (a.1, a.2 = some .suppress)
    else (r, false)
  | none => (r, false)

/-- What a run of sends keeps: every address has one record, and the records are those of `S`. -/
structure SendInv (enabled : Bool) (S : Finset U32) (p : Proxy) : Prop where
  enabled : p.dampen.enabled = enabled
  distinct : p.dampen.Distinct
  keys : LruTable.KeysIn kDampenPeers p.dampen.peers S

section
variable {enabled : Bool} {S : Finset U32} {p : Proxy} {c : SendCall}

theorem sentTo_gate {addr : U32} {dest : SockAddr} {pay : Payload} (hg : c.gate = some (dest, pay)) :
    sentTo addr c = true ↔ dest.addr = addr := by
  obtain ⟨hd, -, hf⟩ := sendGate_some hg
  simp [sentTo, hd, hf]

theorem hookedSend_inv (h : SendInv enabled S p) (hc : ∀ dest pay, c.gate = some (dest, pay) → dest.addr ∈ S) :
    SendInv enabled S (hookedSend p c).1 := by
  cases hg : c.gate with
  | none =>
    rw [hookedSend_ungated hg]
    exact h
  | some g =>
    obtain ⟨dest, pay⟩ := g
    cases hen : p.dampen.enabled with
    | false =>
      rw [hookedSend_off hg hen]
      exact ⟨h.enabled, h.distinct, h.keys⟩
    | true =>
      obtain ⟨hd, -, -⟩ := hookedSend_on hg hen
      constructor
      · rw [hd, dampenStep_enabled]
        exact h.enabled
      · rw [hd]
        exact dampenStep_distinct h.distinct
      · rw [hd]
        exact dampenStep_keysIn h.keys (hc dest pay hg)

theorem hookedSend_record {addr : U32} (h : SendInv enabled S p) (hne : addr ≠ 0) (hmine : sentTo addr c = true) :
    dampenRecord (hookedSend p c).1.dampen addr = (sendRecordStep enabled (dampenRecord p.dampen addr) c).1 ∧
      (hookedSend p c).2 = (sendRecordStep enabled (dampenRecord p.dampen addr) c).2 := by
  cases hg : c.gate with
  | none => simp [hookedSend_ungated hg, sendRecordStep, hg]
  | some g =>
    obtain ⟨dest, pay⟩ := g
    obtain rfl := (sentTo_gate hg).mp hmine
    cases hen : p.dampen.enabled with
    | false => simp [hookedSend_off hg hen, sendRecordStep, hg, ← h.enabled, hen]
    | true =>
      obtain ⟨hd, -, hans⟩ := hookedSend_on hg hen
      have hstep := @dampenStep_record p.dampen (.admission dest.addr pay c.admitMs) h.distinct hne
      rw [hen] at hstep
      simp only [sendRecordStep, hg, ← h.enabled, hen, if_true]
      refine ⟨hd ▸ hstep.1, ?_⟩
      rw [Bool.eq_iff_iff, hans, decide_eq_true_iff, hstep.2]
      rfl

/-- With room for the addresses in use, a send to another address leaves the record alone. -/
theorem hookedSend_record_of_ne {addr : U32} (h : SendInv enabled S p) (hcard : S.card ≤ kDampenPeers)
    (hc : ∀ dest pay, c.gate = some (dest, pay) → dest.addr ∈ S) (hne : addr ≠ 0) (hother : sentTo addr c = false) :
    dampenRecord (hookedSend p c).1.dampen addr = dampenRecord p.dampen addr := by
  cases hg : c.gate with
  | none => rw [hookedSend_ungated hg]
  | some g =>
    obtain ⟨dest, pay⟩ := g
    cases hen : p.dampen.enabled with
    | false => rw [hookedSend_off hg hen]
    | true =>
      have haddr : addr ≠ dest.addr := by
        rintro rfl
        rw [(sentTo_gate hg).mpr rfl] at hother
        cases hother
      rw [(hookedSend_on hg hen).1]
      exact dampenStep_record_of_room h.distinct h.keys hcard (hc dest pay hg) hne haddr

end

/-- **Isolation of the destinations.** While at most `kDampenPeers` addresses pass the gate, the sends to an
address are suppressed in any run exactly as in the run of these sends alone. -/
theorem dampen_sends_isolated (cfg : ProxyCfg) (addr : U32) (hne : addr ≠ 0) (S : Finset U32)
    (hcard : S.card ≤ kDampenPeers) (cs : List SendCall)
    (hS : ∀ c ∈ cs, ∀ dest pay, c.gate = some (dest, pay) → dest.addr ∈ S) :
    answersTo (sentTo addr) cs (outputs hookedSend (proxyInit cfg) cs) =
      outputs hookedSend (proxyInit cfg) (cs.filter (sentTo addr)) := by
  have hinit : SendInv cfg.dampen S (proxyInit cfg) :=
    ⟨rfl, dampenInit_distinct cfg.dampen, fun i _ hi => absurd rfl hi⟩
  exact @outputs_restrict _ _ _ _ hookedSend (sendRecordStep cfg.dampen) (fun p => dampenRecord p.dampen addr)
    (sentTo addr) (SendInv cfg.dampen S) (fun c => ∀ dest pay, c.gate = some (dest, pay) → dest.addr ∈ S)
    (fun _ _ h hc => hookedSend_inv h hc) (fun _ _ h _ hm => hookedSend_record h hne hm)
    (fun _ _ h hc ho => hookedSend_record_of_ne h hcard hc hne ho) _ hinit cs hS

/-- Two players, one of whom is sent a copy. -/
theorem dampen_sends_isolated_twoPlayers :
    let cs := [sampleSend 7 (sampleAddr 1) 17770 (makePkt true 5 0) 1000,
      sampleSend 7 (sampleAddr 2) 17770 (makePkt true 5 0) 1001,
      sampleSend 7 (sampleAddr 2) 17770 (makePkt true 5 0) 1002]
    (sampleAddr 2 ≠ 0 ∧ ({sampleAddr 1, sampleAddr 2} : Finset U32).card ≤ kDampenPeers) ∧
      answersTo (sentTo (sampleAddr 2)) cs (outputs hookedSend (proxyInit (sampleCfg true)) cs) =
        outputs hookedSend (proxyInit (sampleCfg true)) (cs.filter (sentTo (sampleAddr 2))) := by
  intro cs
  refine ⟨by decide, dampen_sends_isolated (sampleCfg true) (sampleAddr 2) (by decide) {sampleAddr 1, sampleAddr 2}
    (by decide) cs fun c hc dest pay hg => ?_⟩
  have hdest := (sendGate_some hg).1
  simp only [cs, List.mem_cons, List.not_mem_nil, or_false] at hc
  rcases hc with rfl | rfl | rfl
  all_goals
    cases hdest
    decide

/-- Two players behind one address: the first datagram to the second one is taken for a copy of that to the
first. -/
theorem dampen_sends_isolated_sharedAddr :
    let cs := [sampleSend 7 (sampleAddr 1) 1000 (makePkt true 5 0) 1000,
      sampleSend 7 (sampleAddr 1) 2000 (makePkt true 5 0) 1010]
    answersTo (sentToEndpoint (sampleAddr 1) 2000) cs (outputs hookedSend (proxyInit (sampleCfg true)) cs) = [true] ∧
      outputs hookedSend (proxyInit (sampleCfg true)) (cs.filter (sentToEndpoint (sampleAddr 1) 2000)) = [false] := by
  constructor
  · decide +kernel
  · decide +kernel

end BzNet
