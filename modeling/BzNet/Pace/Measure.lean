import BzNet.Lib.Windows
import BzNet.Pace.Core
import Mathlib.Data.List.Induction

/-!
# The one-second measurement

Peaks and burst seconds, whatever the times at which the window is looked at.

* `secondOf`, `packetsIn`, `bytesIn` : the seconds counted from the initialisation, and the traffic of each;
* `Metered` : the window stands at a second, and the peaks are those of the seconds before;
* `paceTick_metered`, `paceObserve_metered`, `paceAdmit_measure` : one call; `measure_metered` every run;
* `pace_measure_grid` : two schedules of the same packets measure the same, which is what the seconds add up to.
-/

namespace BzNet

open Windows

/-! ## The seconds -/

/-- A packet as the measurement sees it. -/
structure Observed where
  len : U32
  time : U64

def secondOf (init now : U64) : Nat := (now.toNat - init.toNat) / 1000

def packetsIn (init : U64) (ps : List Observed) : Nat → Nat := inWindow (ps.map fun p => (secondOf init p.time, 1))

def bytesIn (init : U64) (ps : List Observed) : Nat → Nat :=
  inWindow (ps.map fun p => (secondOf init p.time, p.len.toNat))

/-- What the statistics say of the traffic. -/
structure Traffic where
  peakPps : Nat
  peakBps : Nat
  burstSeconds : Nat
  packets : Nat
  bytes : Nat

def PaceCtx.traffic (c : PaceCtx) : Traffic where
  peakPps := c.stats.peakPps.toNat
  peakBps := c.stats.peakBps.toNat
  burstSeconds := c.stats.burstSeconds
  packets := c.stats.packets
  bytes := c.stats.bytes

/-- The traffic of the packets, second by second. -/
structure OnGrid (init : U64) (ps : List Observed) (t : Traffic) : Prop where
  peakPps : IsGreatest (Set.range (packetsIn init ps)) t.peakPps
  peakBps : IsGreatest (Set.range (bytesIn init ps)) t.peakBps
  burstSeconds : t.burstSeconds = {k | kPaceBurstPps.toNat < packetsIn init ps k}.ncard
  packets : t.packets = ps.length
  bytes : t.bytes = (ps.map fun p => p.len.toNat).sum

section Seconds
variable {init now : U64} {ps : List Observed} {p : Observed} {k : Nat}

theorem secondOf_start (h : init.toNat ≤ now.toNat) : init.toNat + 1000 * secondOf init now ≤ now.toNat := by
  unfold secondOf
  omega

theorem packetsIn_concat (init : U64) (ps : List Observed) (p : Observed) (k : Nat) :
    packetsIn init (ps ++ [p]) k = packetsIn init ps k + if secondOf init p.time = k then 1 else 0 := by
  unfold packetsIn
  rw [List.map_append]
  exact inWindow_concat _ _ k

theorem bytesIn_concat (init : U64) (ps : List Observed) (p : Observed) (k : Nat) :
    bytesIn init (ps ++ [p]) k = bytesIn init ps k + if secondOf init p.time = k then p.len.toNat else 0 := by
  unfold bytesIn
  rw [List.map_append]
  exact inWindow_concat _ _ k

theorem packetsIn_eq_zero (h : ∀ p ∈ ps, secondOf init p.time ≠ k) : packetsIn init ps k = 0 :=
  inWindow_eq_zero (List.forall_mem_map.mpr h)

theorem bytesIn_eq_zero (h : ∀ p ∈ ps, secondOf init p.time ≠ k) : bytesIn init ps k = 0 :=
  inWindow_eq_zero (List.forall_mem_map.mpr h)

end Seconds

/-! ## One call -/

/-- The measurement in second `k`. -/
structure Metered (init : U64) (ps : List Observed) (k : Nat) (c : PaceCtx) : Prop where
  start : c.winStartMs.toNat = init.toNat + 1000 * k
  past : ∀ p ∈ ps, secondOf init p.time ≤ k
  winPackets : c.winPackets.toNat = packetsIn init ps k
  winBytes : c.winBytes.toNat = bytesIn init ps k
  peakPps : c.stats.peakPps.toNat = (Finset.range k).sup (packetsIn init ps)
  peakBps : c.stats.peakBps.toNat = (Finset.range k).sup (bytesIn init ps)
  burstSeconds : c.stats.burstSeconds = ((Finset.range k).filter fun i => kPaceBurstPps.toNat < packetsIn init ps i).card
  packets : c.stats.packets = ps.length
  bytes : c.stats.bytes = (ps.map fun p => p.len.toNat).sum

section Calls
variable {init now : U64} {ps : List Observed} {k : Nat} {c : PaceCtx}

theorem toNat_higher (a b : U32) : (if a < b then b else a).toNat = max a.toNat b.toNat := by
  split
  · next h => exact (Nat.max_eq_right (Nat.le_of_lt (BitVec.lt_def.mp h))).symm
  · next h => exact (Nat.max_eq_left (BitVec.le_def.mp (BitVec.not_lt.mp h))).symm

theorem paceInit_metered (rateBps maxDelayMs : U32) (init : U64) :
    Metered init [] 0 (paceInit rateBps maxDelayMs init) :=
  ⟨rfl, fun _ h => absurd h List.not_mem_nil, rfl, rfl, rfl, rfl, rfl, rfl, rfl⟩

/-- The window moves to the second of the call, and what it counted goes to the peaks. -/
theorem paceTick_metered (h : Metered init ps k c) (hnow : init.toNat + 1000 * k ≤ now.toNat) :
    Metered init ps (secondOf init now) (paceTick c now) := by
  have helapsed : (now - c.winStartMs).toNat = now.toNat - c.winStartMs.toNat :=
    BitVec.toNat_sub_of_le (BitVec.le_def.mpr (h.start ▸ hnow))
  have hthousand : ((1000 : U64)).toNat = 1000 := rfl
  have hlt : now - c.winStartMs < 1000 ↔ now.toNat - (init.toNat + 1000 * k) < 1000 := by
    rw [BitVec.lt_def, helapsed, h.start, hthousand]
  unfold paceTick
  by_cases hin : now - c.winStartMs < 1000
  · have hk : secondOf init now = k := by
      unfold secondOf
      have := hlt.mp hin
      omega
    rw [if_pos hin, hk]
    exact h
  · have hk : k < secondOf init now := by
      unfold secondOf
      have := hlt.not.mp hin
      omega
    have hempty : ∀ i, k < i → ∀ p ∈ ps, secondOf init p.time ≠ i := fun i hi p hp he => by
      have := h.past p hp
      omega
    have hpackets : ∀ i, k < i → packetsIn init ps i = 0 := fun i hi => packetsIn_eq_zero (hempty i hi)
    have hbytes : ∀ i, k < i → bytesIn init ps i = 0 := fun i hi => bytesIn_eq_zero (hempty i hi)
    have hburst : kPaceBurstPps < c.winPackets ↔ kPaceBurstPps.toNat < packetsIn init ps k := by
      rw [BitVec.lt_def, h.winPackets]
    rw [if_neg hin]
    refine ⟨?_, fun p hp => Nat.le_trans (h.past p hp) (Nat.le_of_lt hk), ?_, ?_, ?_, ?_, ?_, h.packets, h.bytes⟩
    · have hmod : ((now - c.winStartMs) % 1000).toNat = (now.toNat - (init.toNat + 1000 * k)) % 1000 := by
        rw [BitVec.toNat_umod, helapsed, h.start, hthousand]
      have hle : (now - c.winStartMs) % 1000 ≤ now := by
        rw [BitVec.le_def, hmod]
        exact Nat.le_trans (Nat.mod_le _ _) (Nat.sub_le _ _)
      change (now - (now - c.winStartMs) % 1000).toNat = _
      rw [BitVec.toNat_sub_of_le hle, hmod]
      unfold secondOf
      omega
    · exact (hpackets _ hk).symm
    · exact (hbytes _ hk).symm
    · change (if c.stats.peakPps < c.winPackets then c.winPackets else c.stats.peakPps).toNat = _
      rw [toNat_higher, h.peakPps, h.winPackets, sup_range_jump hk hpackets]
    · change (if c.stats.peakBps < c.winBytes then c.winBytes else c.stats.peakBps).toNat = _
      rw [toNat_higher, h.peakBps, h.winBytes, sup_range_jump hk hbytes]
    · change c.stats.burstSeconds + (if kPaceBurstPps < c.winPackets then 1 else 0) = _
      simp only [h.burstSeconds, hburst]
      rw [card_filter_range_jump _ hk hpackets]

theorem paceObserve_metered (h : Metered init ps k c) (hnow : init.toNat + 1000 * k ≤ now.toNat) {len : U32}
    (hpackets : ∀ i, packetsIn init (ps ++ [⟨len, now⟩]) i < 2 ^ 32)
    (hbytes : ∀ i, bytesIn init (ps ++ [⟨len, now⟩]) i < 2 ^ 32) :
    Metered init (ps ++ [⟨len, now⟩]) (secondOf init now) (paceObserve c len now) := by
  have htick := paceTick_metered h hnow
  have hp := hpackets (secondOf init now)
  have hb := hbytes (secondOf init now)
  rw [packetsIn_concat, if_pos rfl] at hp
  rw [bytesIn_concat, if_pos rfl] at hb
  have hbefore : ∀ i, i < secondOf init now → packetsIn init (ps ++ [⟨len, now⟩]) i = packetsIn init ps i := by
    intro i hi
    rw [packetsIn_concat, if_neg (Nat.ne_of_gt hi), Nat.add_zero]
  have hbefore' : ∀ i, i < secondOf init now → bytesIn init (ps ++ [⟨len, now⟩]) i = bytesIn init ps i := by
    intro i hi
    rw [bytesIn_concat, if_neg (Nat.ne_of_gt hi), Nat.add_zero]
  refine ⟨htick.start, fun p hmem => ?_, ?_, ?_, ?_, ?_, ?_, ?_, ?_⟩
  · rcases List.mem_append.mp hmem with hmem | hmem
    · exact htick.past p hmem
    · rw [List.mem_singleton.mp hmem]
  · change ((paceTick c now).winPackets + 1).toNat = _
    rw [BitVec.toNat_add, htick.winPackets, packetsIn_concat, if_pos rfl]
    exact Nat.mod_eq_of_lt hp
  · change ((paceTick c now).winBytes + len).toNat = _
    rw [BitVec.toNat_add, htick.winBytes, bytesIn_concat, if_pos rfl]
    exact Nat.mod_eq_of_lt hb
  · exact htick.peakPps.trans (sup_range_congr hbefore).symm
  · exact htick.peakBps.trans (sup_range_congr hbefore').symm
  · exact htick.burstSeconds.trans (card_filter_range_congr _ hbefore).symm
  · change (paceTick c now).stats.packets + 1 = _
    rw [htick.packets, List.length_append, List.length_singleton]
  · change (paceTick c now).stats.bytes + len.toNat = _
    rw [htick.bytes, List.map_append, List.sum_append]
    rfl

/-- The measurement of `c'` is that of `c`. -/
structure SameMeasure (c' c : PaceCtx) : Prop where
  winStartMs : c'.winStartMs = c.winStartMs
  winPackets : c'.winPackets = c.winPackets
  winBytes : c'.winBytes = c.winBytes
  traffic : c'.traffic = c.traffic

theorem SameMeasure.trans {c'' c' : PaceCtx} (h : SameMeasure c'' c') (h' : SameMeasure c' c) : SameMeasure c'' c where
  winStartMs := h.winStartMs.trans h'.winStartMs
  winPackets := h.winPackets.trans h'.winPackets
  winBytes := h.winBytes.trans h'.winBytes
  traffic := h.traffic.trans h'.traffic

theorem SameMeasure.metered {c' : PaceCtx} (h : SameMeasure c' c) (hc : Metered init ps k c) : Metered init ps k c' where
  start := by rw [h.winStartMs, hc.start]
  past := hc.past
  winPackets := by rw [h.winPackets, hc.winPackets]
  winBytes := by rw [h.winBytes, hc.winBytes]
  peakPps := (congrArg Traffic.peakPps h.traffic).trans hc.peakPps
  peakBps := (congrArg Traffic.peakBps h.traffic).trans hc.peakBps
  burstSeconds := (congrArg Traffic.burstSeconds h.traffic).trans hc.burstSeconds
  packets := (congrArg Traffic.packets h.traffic).trans hc.packets
  bytes := (congrArg Traffic.bytes h.traffic).trans hc.bytes

theorem paceRefill_measure (c : PaceCtx) (now : U64) : SameMeasure (paceRefill c now) c := by
  unfold paceRefill
  dsimp only
  split
  · exact ⟨rfl, rfl, rfl, rfl⟩
  · exact ⟨rfl, rfl, rfl, rfl⟩

theorem paceAdmit_measure (c : PaceCtx) (len : U32) (now : U64) :
    SameMeasure (paceAdmit c len now).1 (paceObserve c len now) := by
  unfold paceAdmit
  dsimp only
  generalize paceObserve c len now = o
  by_cases hrate : o.rateBps = 0
  · rw [if_pos hrate]
    exact ⟨rfl, rfl, rfl, rfl⟩
  rw [if_neg hrate]
  by_cases hsmall : len.toNat < kReorderSeqMinPay
  · rw [if_pos hsmall]
    exact ⟨rfl, rfl, rfl, rfl⟩
  rw [if_neg hsmall]
  refine SameMeasure.trans ?_ (paceRefill_measure o now)
  generalize paceRefill o now = r
  split
  · exact ⟨rfl, rfl, rfl, rfl⟩
  · split
    · refine ⟨rfl, rfl, rfl, ?_⟩
      dsimp only [PaceCtx.traffic]
      split <;> rfl
    · exact ⟨rfl, rfl, rfl, rfl⟩

end Calls

/-! ## Runs -/

inductive MeasureOp where
  | tick (now : U64)
  | observe (len : U32) (now : U64)
  /-- An admission, which observes first. -/
  | admission (len : U32) (now : U64)

def MeasureOp.time : MeasureOp → U64
  | .tick now => now
  | .observe _ now => now
  | .admission _ now => now

def MeasureOp.packets : MeasureOp → List Observed
  | .tick _ => []
  | .observe len now => [⟨len, now⟩]
  | .admission len now => [⟨len, now⟩]

theorem MeasureOp.time_packets (op : MeasureOp) : ∀ p ∈ op.packets, p.time = op.time := by
  intro p hp
  cases op with
  | tick now => exact absurd hp List.not_mem_nil
  | observe len now => rw [List.mem_singleton.mp hp]; rfl
  | admission len now => rw [List.mem_singleton.mp hp]; rfl

def packetsOf (ops : List MeasureOp) : List Observed := ops.flatMap MeasureOp.packets

def measureStep (c : PaceCtx) : MeasureOp → PaceCtx
  | .tick now => paceTick c now
  | .observe len now => paceObserve c len now
  | .admission len now => (paceAdmit c len now).1

/-- A schedule whose times do not go back, from the initialisation up to the tick at its end. -/
def InTime (init : U64) (ops : List MeasureOp) (final : U64) : Prop :=
  (init :: (ops.map MeasureOp.time ++ [final])).Pairwise fun a b => a.toNat ≤ b.toNat

instance (init : U64) (ops : List MeasureOp) (final : U64) : Decidable (InTime init ops final) :=
  inferInstanceAs (Decidable (List.Pairwise _ _))

/-- The measurement after a schedule and a last tick. -/
def measured (rateBps maxDelayMs : U32) (init : U64) (ops : List MeasureOp) (final : U64) : PaceCtx :=
  paceTick (ops.foldl measureStep (paceInit rateBps maxDelayMs init)) final

section Runs
variable {init : U64} {c : PaceCtx}

/-- No second counts up to what would wrap. -/
def SecondsFit (init : U64) (ps : List Observed) : Prop := ∀ k, packetsIn init ps k < 2 ^ 32 ∧ bytesIn init ps k < 2 ^ 32

theorem SecondsFit.of_total {ps : List Observed} (hp : ps.length < 2 ^ 32)
    (hb : (ps.map fun p => p.len.toNat).sum < 2 ^ 32) : SecondsFit init ps := by
  intro k
  have hpackets := inWindow_le_sum (ps.map fun p => (secondOf init p.time, 1)) k
  have hbytes := inWindow_le_sum (ps.map fun p => (secondOf init p.time, p.len.toNat)) k
  rw [List.map_map] at hpackets hbytes
  refine ⟨Nat.lt_of_le_of_lt hpackets ?_, Nat.lt_of_le_of_lt hbytes hb⟩
  have hone : (ps.map (Prod.snd ∘ fun p => (secondOf init p.time, 1))).sum = ps.length := by simp [Function.comp_def]
  rwa [hone]

theorem SecondsFit.concat {ps : List Observed} {p : Observed} (h : SecondsFit init (ps ++ [p])) : SecondsFit init ps := by
  intro k
  obtain ⟨hp, hb⟩ := h k
  rw [packetsIn_concat] at hp
  rw [bytesIn_concat] at hb
  exact ⟨by omega, by omega⟩

/-- **One call of a schedule.** -/
theorem measureStep_metered {ps : List Observed} {k : Nat} (h : Metered init ps k c) (op : MeasureOp)
    (hnow : init.toNat + 1000 * k ≤ op.time.toNat) (hfit : SecondsFit init (ps ++ op.packets)) :
    Metered init (ps ++ op.packets) (secondOf init op.time) (measureStep c op) := by
  cases op with
  | tick now =>
    have htick := paceTick_metered h hnow
    rwa [← List.append_nil ps] at htick
  | observe len now => exact paceObserve_metered h hnow (fun i => (hfit i).1) fun i => (hfit i).2
  | admission len now =>
    exact (paceAdmit_measure c len now).metered (paceObserve_metered h hnow (fun i => (hfit i).1) fun i => (hfit i).2)

theorem SecondsFit.prefix {ps qs : List Observed} (h : SecondsFit init (ps ++ qs)) : SecondsFit init ps := by
  induction qs using List.reverseRecOn with
  | nil => rwa [List.append_nil] at h
  | append_singleton qs p ih =>
    rw [← List.append_assoc] at h
    exact ih h.concat

/-- **A schedule.** It leaves the window at a second that no later time is before. -/
theorem measure_metered (rateBps maxDelayMs : U32) {ops : List MeasureOp}
    (hops : (init :: ops.map MeasureOp.time).Pairwise fun a b => a.toNat ≤ b.toNat)
    (hfit : SecondsFit init (packetsOf ops)) :
    ∃ k, Metered init (packetsOf ops) k (ops.foldl measureStep (paceInit rateBps maxDelayMs init)) ∧
      ∀ now : U64, init.toNat ≤ now.toNat → (∀ op ∈ ops, op.time.toNat ≤ now.toNat) →
        init.toNat + 1000 * k ≤ now.toNat := by
  induction ops using List.reverseRecOn with
  | nil => exact ⟨0, paceInit_metered rateBps maxDelayMs init, fun now hinit _ => by omega⟩
  | append_singleton ops op ih =>
    have hpackets : packetsOf (ops ++ [op]) = packetsOf ops ++ op.packets := by simp [packetsOf]
    rw [hpackets] at hfit ⊢
    rw [List.map_append, ← List.cons_append, List.pairwise_append] at hops
    obtain ⟨hbefore, -, hop⟩ := hops
    have hle : ∀ t ∈ init :: ops.map MeasureOp.time, t.toNat ≤ op.time.toNat :=
      fun t ht => hop t ht _ (List.mem_singleton_self _)
    have hinit : init.toNat ≤ op.time.toNat := hle init List.mem_cons_self
    obtain ⟨k, hk, hstart⟩ := ih hbefore hfit.prefix
    have hnow := hstart op.time hinit fun o ho => hle _ (List.mem_cons_of_mem _ (List.mem_map_of_mem ho))
    rw [List.foldl_append, List.foldl_cons, List.foldl_nil]
    refine ⟨secondOf init op.time, measureStep_metered hk op hnow hfit, fun now _ hlater => ?_⟩
    exact Nat.le_trans (secondOf_start hinit) (hlater op (List.mem_append_right _ (List.mem_singleton_self op)))

/-- A measurement that has passed the second of every packet shows the traffic of all seconds. -/
theorem Metered.onGrid {ps : List Observed} {k : Nat} (h : Metered init ps k c)
    (hpast : ∀ p ∈ ps, secondOf init p.time < k) : OnGrid init ps c.traffic := by
  have hlast : ∀ i, k ≤ i → ∀ p ∈ ps, secondOf init p.time ≠ i := fun i hi p hp he => by
    have := hpast p hp
    omega
  have hpackets : ∀ i, k ≤ i → packetsIn init ps i = 0 := fun i hi => packetsIn_eq_zero (hlast i hi)
  have hbytes : ∀ i, k ≤ i → bytesIn init ps i = 0 := fun i hi => bytesIn_eq_zero (hlast i hi)
  refine ⟨?_, ?_, ?_, h.packets, h.bytes⟩
  · change IsGreatest _ c.stats.peakPps.toNat
    rw [h.peakPps]
    exact isGreatest_sup_range hpackets
  · change IsGreatest _ c.stats.peakBps.toNat
    rw [h.peakBps]
    exact isGreatest_sup_range hbytes
  · exact h.burstSeconds.trans (ncard_eq_card_filter_range _ hpackets).symm

/-- The seconds leave one account of the traffic. -/
theorem OnGrid.unique {ps : List Observed} {t t' : Traffic} (h : OnGrid init ps t) (h' : OnGrid init ps t') : t = t' := by
  obtain ⟨hpps, hbps, hburst, hcount, hsum⟩ := h
  obtain ⟨hpps', hbps', hburst', hcount', hsum'⟩ := h'
  cases t
  cases t'
  congr 1
  · exact hpps.unique hpps'
  · exact hbps.unique hbps'
  · exact hburst.trans hburst'.symm
  · exact hcount.trans hcount'.symm
  · exact hsum.trans hsum'.symm

theorem measured_onGrid (rateBps maxDelayMs : U32) {ops : List MeasureOp} {final : U64} (hops : InTime init ops final)
    (hlast : ∀ p ∈ packetsOf ops, p.time.toNat + 1000 ≤ final.toNat) (hfit : SecondsFit init (packetsOf ops)) :
    OnGrid init (packetsOf ops) (measured rateBps maxDelayMs init ops final).traffic := by
  rw [InTime, ← List.cons_append, List.pairwise_append] at hops
  obtain ⟨hbefore, -, hfinal⟩ := hops
  have hle : ∀ t ∈ init :: ops.map MeasureOp.time, t.toNat ≤ final.toNat :=
    fun t ht => hfinal t ht _ (List.mem_singleton_self _)
  have hinit := hle init List.mem_cons_self
  obtain ⟨k, hk, hstart⟩ := measure_metered rateBps maxDelayMs hbefore hfit
  have hnow := hstart final hinit fun o ho => hle _ (List.mem_cons_of_mem _ (List.mem_map_of_mem ho))
  refine (paceTick_metered hk hnow).onGrid fun p hp => ?_
  obtain ⟨op, hop, hpop⟩ := List.mem_flatMap.mp hp
  have hafter := List.rel_of_pairwise_cons hbefore (List.mem_map_of_mem hop)
  rw [← op.time_packets p hpop] at hafter
  have hp := hlast p hp
  unfold secondOf
  omega

end Runs

/-- **The measurement is that of the seconds.** Two schedules of the same packets, with whatever ticks between them,
both ended by a tick a second after the last packet, show the same traffic: that of the seconds counted from the
initialisation. -/
theorem pace_measure_grid (rateBps maxDelayMs : U32) (init final : U64) (ops ops' : List MeasureOp)
    (hsame : packetsOf ops' = packetsOf ops) (hops : InTime init ops final) (hops' : InTime init ops' final)
    (hlast : ∀ p ∈ packetsOf ops, p.time.toNat + 1000 ≤ final.toNat) (hfit : SecondsFit init (packetsOf ops)) :
    OnGrid init (packetsOf ops) (measured rateBps maxDelayMs init ops final).traffic ∧
      (measured rateBps maxDelayMs init ops' final).traffic = (measured rateBps maxDelayMs init ops final).traffic := by
  have h := measured_onGrid rateBps maxDelayMs hops hlast hfit
  have h' := measured_onGrid rateBps maxDelayMs hops' (hsame ▸ hlast) (hsame ▸ hfit)
  rw [hsame] at h'
  exact ⟨h, h'.unique h⟩

theorem pace_measure_grid_two :
    (measured 0 20 1000 [.observe 300 1000, .tick 1700, .observe 200 2100, .tick 2900] 4000).traffic =
      (measured 0 20 1000 [.observe 300 1000, .observe 200 2100] 4000).traffic := by
  exact (pace_measure_grid 0 20 1000 4000 [.observe 300 1000, .observe 200 2100]
    [.observe 300 1000, .tick 1700, .observe 200 2100, .tick 2900] rfl (by decide) (by decide) (by decide)
    (SecondsFit.of_total (by decide) (by decide))).2

end BzNet
