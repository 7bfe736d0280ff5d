import BzNet.Dampen.Epoch
import BzNet.Lib.Smoothing
import BzNet.Rtt.Totals
import Mathlib.Data.Nat.Dist

/-!
# From the samples to the suppression window

The smoothed round trip of a record, and the window that the suppressor takes from it.

* `Smoothed.Within` : the estimates stay within bounds of the values, in 32 bits, and settle on a value that repeats
  (`smoothed_settles`);
* `rttToDamper` : the governor thread's hand-over of the estimates, and `rttToDamper_record` what it does to a
  tracked peer;
* `rtt_smoothed_fed` : the chain from any run of the sampler to any reachable state of the suppressor.
-/

namespace BzNet

open Machine Smoothing

/-! ## The estimates -/

/-- The sums and products of the next update fit 32 bits. -/
structure Smoothed.Fits (e : Smoothed) (r : U32) : Prop where
  srtt : 7 * e.srtt.toNat + r.toNat < 2 ^ 32
  var : 3 * e.var.toNat + Nat.dist e.srtt.toNat r.toNat < 2 ^ 32

/-- A value was smoothed, and the estimates are within the bounds of the values. -/
structure Smoothed.Within (e : Smoothed) (lo hi : Nat) : Prop where
  init : e.init = true
  ge : lo ≤ e.srtt.toNat
  le : e.srtt.toNat ≤ hi
  var_le : e.var.toNat ≤ hi

section Smoothed
variable {e : Smoothed} {r : U32} {lo hi : Nat}

theorem dist_le {a b : Nat} (ha : a ≤ hi) (hb : b ≤ hi) : Nat.dist a b ≤ hi := by
  unfold Nat.dist
  omega

theorem Smoothed.fits (hs : e.srtt.toNat ≤ kRttMaxSampleMs.toNat) (hv : e.var.toNat ≤ kRttMaxSampleMs.toNat)
    (hr : r.toNat ≤ kRttMaxSampleMs.toNat) : e.Fits r := by
  have hdist := dist_le hs hr
  have hmax : kRttMaxSampleMs.toNat = 30000 := rfl
  constructor <;> omega

theorem toNat_distance (s r : U32) : (if r > s then r - s else s - r).toNat = Nat.dist s.toNat r.toNat := by
  unfold Nat.dist
  split
  · next h =>
    have hlt := BitVec.lt_def.mp h
    rw [BitVec.toNat_sub_of_le (BitVec.le_of_lt h)]
    omega
  · next h =>
    have hle := BitVec.not_lt.mp h
    rw [BitVec.toNat_sub_of_le hle]
    have hle' := BitVec.le_def.mp hle
    omega

/-- An update of the estimates that fits is two steps of smoothing. -/
theorem Smoothed.add_toNat (hinit : e.init = true) (h : e.Fits r) :
    (e.add r).srtt.toNat = smooth 7 e.srtt.toNat r.toNat ∧
      (e.add r).var.toNat = smooth 3 e.var.toNat (Nat.dist e.srtt.toNat r.toNat) := by
  have hsrtt : (7 * e.srtt).toNat = 7 * e.srtt.toNat := by
    rw [BitVec.toNat_mul]
    exact Nat.mod_eq_of_lt (Nat.lt_of_le_of_lt (Nat.le_add_right _ _) h.srtt)
  have hvar : (3 * e.var).toNat = 3 * e.var.toNat := by
    rw [BitVec.toNat_mul]
    exact Nat.mod_eq_of_lt (Nat.lt_of_le_of_lt (Nat.le_add_right _ _) h.var)
  simp only [Smoothed.add, hinit, Bool.not_true, Bool.false_eq_true, if_false]
  constructor
  · rw [BitVec.toNat_udiv, BitVec.toNat_add, hsrtt, Nat.mod_eq_of_lt h.srtt]
    rfl
  · rw [BitVec.toNat_udiv, BitVec.toNat_add, hvar, toNat_distance, Nat.mod_eq_of_lt h.var]
    rfl

/-- **One more value.** -/
theorem Smoothed.Within.add (h : e.Within lo hi) (hhi : hi ≤ kRttMaxSampleMs.toNat) (hlo : lo ≤ r.toNat)
    (hr : r.toNat ≤ hi) : (e.add r).Within lo hi := by
  have hfits : e.Fits r := Smoothed.fits (Nat.le_trans h.le hhi) (Nat.le_trans h.var_le hhi) (Nat.le_trans hr hhi)
  obtain ⟨hsrtt, hvar⟩ := Smoothed.add_toNat h.init hfits
  refine ⟨rfl, ?_, ?_, ?_⟩
  · rw [hsrtt]
    exact le_smooth h.ge hlo
  · rw [hsrtt]
    exact smooth_le h.le hr
  · rw [hvar]
    exact smooth_le h.var_le (dist_le h.le hr)

theorem Smoothed.within_first (hlo : lo ≤ r.toNat) (hr : r.toNat ≤ hi) : (Smoothed.zero.add r).Within lo hi := by
  refine ⟨rfl, hlo, hr, ?_⟩
  change (r / 2).toNat ≤ hi
  rw [BitVec.toNat_udiv]
  exact Nat.le_trans (Nat.div_le_self _ _) hr

/-- **The estimates are between the values.** -/
theorem smoothed_within {values : List U32} (hne : values ≠ []) (hhi : hi ≤ kRttMaxSampleMs.toNat)
    (h : ∀ v ∈ values, lo ≤ v.toNat ∧ v.toNat ≤ hi) : (values.foldl Smoothed.add .zero).Within lo hi := by
  induction values using List.reverseRecOn with
  | nil => exact absurd rfl hne
  | append_singleton values r ih =>
    obtain ⟨hlo, hr⟩ := h r (List.mem_append_right _ (List.mem_singleton_self r))
    rw [List.foldl_append, List.foldl_cons, List.foldl_nil]
    by_cases hnil : values = []
    · subst hnil
      exact Smoothed.within_first hlo hr
    · exact (ih hnil fun v hv => h v (List.mem_append_left _ hv)).add hhi hlo hr

theorem smoothed_le {values : List U32} (h : ∀ v ∈ values, v.toNat ≤ kRttMaxSampleMs.toNat) :
    (values.foldl Smoothed.add .zero).srtt.toNat ≤ kRttMaxSampleMs.toNat ∧
      (values.foldl Smoothed.add .zero).var.toNat ≤ kRttMaxSampleMs.toNat := by
  by_cases hnil : values = []
  · subst hnil
    exact ⟨Nat.zero_le _, Nat.zero_le _⟩
  · have hwithin := smoothed_within hnil (Nat.le_refl _) fun v hv => ⟨Nat.zero_le _, h v hv⟩
    exact ⟨hwithin.le, hwithin.var_le⟩

theorem smoothed_init {values : List U32} (hs : (values.foldl Smoothed.add .zero).srtt ≠ 0) :
    (values.foldl Smoothed.add .zero).init = true := by
  induction values using List.reverseRecOn with
  | nil => exact absurd rfl hs
  | append_singleton values r _ =>
    rw [List.foldl_append]
    rfl

theorem foldl_replicate_srtt (h : e.Within 0 kRttMaxSampleMs.toNat) (hr : r.toNat ≤ kRttMaxSampleMs.toNat) (n : Nat) :
    ((List.replicate n r).foldl Smoothed.add e).srtt.toNat =
      (List.replicate n r.toNat).foldl (smooth 7) e.srtt.toNat := by
  induction n generalizing e with
  | zero => rfl
  | succ n ih =>
    have hstep := (Smoothed.add_toNat h.init (Smoothed.fits h.le h.var_le hr)).1
    rw [List.replicate_succ, List.foldl_cons, ih (h.add (Nat.le_refl _) (Nat.zero_le _) hr), hstep,
      List.replicate_succ, List.foldl_cons]

/-- **A value that repeats**: whatever came before, the estimate settles on it. -/
theorem smoothed_settles {pre : List U32} {n : Nat} (hn : kRttMaxSampleMs.toNat ≤ n)
    (h : ∀ v ∈ pre ++ List.replicate n r, v.toNat ≤ kRttMaxSampleMs.toNat) :
    Settled 7 ((pre ++ List.replicate n r).foldl Smoothed.add .zero).srtt.toNat r.toNat := by
  have hmax : kRttMaxSampleMs.toNat = 30000 := rfl
  have hr : r.toNat ≤ kRttMaxSampleMs.toNat :=
    h r (List.mem_append_right _ (List.mem_replicate.mpr ⟨by omega, rfl⟩))
  by_cases hnil : pre = []
  · obtain ⟨m, rfl⟩ : ∃ m, n = m + 1 := ⟨n - 1, by omega⟩
    subst hnil
    rw [List.nil_append, List.replicate_succ, List.foldl_cons,
      foldl_replicate_srtt (Smoothed.within_first (Nat.zero_le _) hr) hr]
    exact settled_repeated (by unfold gap; change r.toNat - r.toNat + (r.toNat - (r.toNat + 7)) ≤ m; omega)
  · have hpre : (pre.foldl Smoothed.add .zero).Within 0 kRttMaxSampleMs.toNat :=
      smoothed_within hnil (Nat.le_refl _) fun v hv => ⟨Nat.zero_le _, h v (List.mem_append_left _ hv)⟩
    rw [List.foldl_append, foldl_replicate_srtt hpre hr]
    apply settled_repeated
    have hle := hpre.le
    unfold gap
    omega

end Smoothed

/-! ## The window -/

/-- **The suppression window**, where twelve times the estimate fits 32 bits. -/
theorem dampenWindowFor_toNat (q : DampenPeer) (h : q.rttEwmaMs.toNat * 12 < 2 ^ 32) :
    (dampenWindowFor q).toNat = max 60 (min 400 (6 * q.rttEwmaMs.toNat / 5)) := by
  have hfloor : kDampenFloorMs.toNat = 60 := rfl
  have hmax : kDampenMaxMs.toNat = 400 := rfl
  have hw : (q.rttEwmaMs * 12 / 10).toNat = 6 * q.rttEwmaMs.toNat / 5 := by
    rw [BitVec.toNat_udiv, BitVec.toNat_mul]
    change q.rttEwmaMs.toNat * 12 % 2 ^ 32 / 10 = _
    rw [Nat.mod_eq_of_lt h]
    omega
  unfold dampenWindowFor
  generalize q.rttEwmaMs * 12 / 10 = w at hw
  simp only [gt_iff_lt, BitVec.lt_def, apply_ite BitVec.toNat, hfloor, hmax, hw]
  split <;> split <;> omega

/-! ## The hand-over -/

def rttEstimates (c : RttCtx) : List (U32 × U32) :=
  (List.range kRttPeers).filterMap fun i =>
    if (c.peers i).addr ≠ 0 ∧ (c.peers i).srttInit = true then some ((c.peers i).addr, (c.peers i).srttMs) else none

/-- The governor thread's round: every estimate goes to the suppressor. -/
def rttToDamper (c : RttCtx) (d : DampenCtx) : DampenCtx :=
  if c.enabled && d.enabled then (rttEstimates c).foldl (fun d f => dampenSetRtt d f.1 f.2) d else d

section HandOver
variable {c : RttCtx} {d : DampenCtx} {addr : U32} {q : DampenPeer}

theorem dampenSetRtt_tableOk (h : TableOk d) (a s : U32) : TableOk (dampenSetRtt d a s) :=
  @dampenStep_tableOk d (.setRtt a s) h

/-- The record of a tracked peer after an estimate is set. -/
theorem dampenSetRtt_record (h : TableOk d) (hne : addr ≠ 0) (hq : dampenRecord d addr = some q) (a s : U32) :
    dampenRecord (dampenSetRtt d a s) addr = some (if a = addr ∧ s ≠ 0 then { q with rttEwmaMs := s } else q) := by
  have hen := (h.records addr hne q hq).1
  unfold dampenSetRtt
  by_cases hs : s = 0
  · rw [if_pos (by simp [hs]), if_neg (fun hc => hc.2 hs)]
    exact hq
  · have hkey : ∀ r : DampenPeer, KeyedRecord.key { r with rttEwmaMs := s } = KeyedRecord.key r := fun _ => rfl
    rw [if_neg (by simpa [hen] using hs)]
    change LruTable.lookup kDampenPeers (LruTable.modify kDampenPeers d.peers a ({ · with rttEwmaMs := s })) addr = _
    by_cases ha : a = addr
    · subst ha
      rw [LruTable.lookup_modify_self h.distinct hne hkey, if_pos ⟨rfl, hs⟩]
      exact congrArg (Option.map _) hq
    · rw [LruTable.lookup_modify_of_ne hkey (Ne.symm ha), if_neg (fun hc => ha hc.1)]
      exact hq

theorem foldl_dampenSetRtt_record {s : U32} (hne : addr ≠ 0) (hs : s ≠ 0) (fs : List (U32 × U32))
    (hall : ∀ f ∈ fs, f.1 = addr → f.2 = s) (h : TableOk d) (hq : dampenRecord d addr = some q)
    (hset : (addr, s) ∈ fs ∨ q.rttEwmaMs = s) :
    dampenRecord (fs.foldl (fun d f => dampenSetRtt d f.1 f.2) d) addr = some { q with rttEwmaMs := s } := by
  induction fs generalizing d q with
  | nil =>
    rcases hset with hmem | heq
    · exact absurd hmem List.not_mem_nil
    · rw [List.foldl_nil, hq, ← heq]
  | cons f fs ih =>
    have hrest : ∀ g ∈ fs, g.1 = addr → g.2 = s := fun g hg => hall g (List.mem_cons_of_mem _ hg)
    have hstep := dampenSetRtt_record h hne hq f.1 f.2
    rw [List.foldl_cons]
    by_cases hf : f.1 = addr
    · have hval := hall f List.mem_cons_self hf
      rw [if_pos ⟨hf, by rwa [hval]⟩, hval] at hstep
      rw [hval]
      have hdone := ih hrest (dampenSetRtt_tableOk h f.1 s) hstep (Or.inr rfl)
      exact hdone
    · rw [if_neg fun hc => hf hc.1] at hstep
      refine ih hrest (dampenSetRtt_tableOk h f.1 f.2) hstep (hset.imp_left fun hmem => ?_)
      rcases List.mem_cons.mp hmem with heq | hmem
      · exact absurd (congrArg Prod.fst heq).symm hf
      · exact hmem

theorem mem_rttEstimates {f : U32 × U32} :
    f ∈ rttEstimates c ↔ ∃ i, i < kRttPeers ∧ (c.peers i).addr ≠ 0 ∧ (c.peers i).srttInit = true ∧
      f = ((c.peers i).addr, (c.peers i).srttMs) := by
  unfold rttEstimates
  rw [List.mem_filterMap]
  constructor
  · rintro ⟨i, hi, hf⟩
    split at hf
    · next hin => exact ⟨i, List.mem_range.mp hi, hin.1, hin.2, (Option.some.inj hf).symm⟩
    · cases hf
  · rintro ⟨i, hi, haddr, hinit, rfl⟩
    exact ⟨i, List.mem_range.mpr hi, if_pos ⟨haddr, hinit⟩⟩

/-- **The hand-over** gives a tracked peer the estimate of its record. -/
theorem rttToDamper_record {p : RttPeer} (hc : c.Distinct) (hen : c.enabled = true) (hne : addr ≠ 0)
    (hp : rttRecord c addr = some p) (hinit : p.srttInit = true) (hs : p.srttMs ≠ 0) (h : TableOk d)
    (hq : dampenRecord d addr = some q) :
    dampenRecord (rttToDamper c d) addr = some { q with rttEwmaMs := p.srttMs } := by
  have hden := (h.records addr hne q hq).1
  obtain ⟨i, hi, rfl, hkey⟩ := (LruTable.lookup_eq_some hc hne).mp hp
  change (c.peers i).addr = addr at hkey
  subst hkey
  rw [rttToDamper, hen, hden, Bool.and_self, if_pos rfl]
  refine foldl_dampenSetRtt_record hne hs _ (fun f hf haddr => ?_) h hq (Or.inl ?_)
  · obtain ⟨j, hj, -, -, rfl⟩ := mem_rttEstimates.mp hf
    rw [hc j i hj hi haddr fun h0 => hne (haddr.symm.trans h0)]
  · exact mem_rttEstimates.mpr ⟨i, hi, hne, hinit, rfl⟩

end HandOver

/-! ## The chain -/

theorem rttLog_enabled {enabled : Bool} {calls : List RttCall} {addr : U32} (hne : addr ≠ 0) {p : RttPeer}
    (hp : rttRecord (rttLogAfter enabled calls).ctx addr = some p) :
    (rttLogAfter enabled calls).ctx.enabled = true := by
  by_contra hoff
  have hinv : (rttLogAfter enabled calls).ctx.Distinct ∧ ((rttLogAfter enabled calls).ctx.enabled = false →
      ∀ a, a ≠ 0 → rttRecord (rttLogAfter enabled calls).ctx a = none) := by
    refine final_inv (P := fun l : RttLog => l.ctx.Distinct ∧ (l.ctx.enabled = false →
      ∀ a, a ≠ 0 → rttRecord l.ctx a = none)) ⟨rttInit_distinct enabled, fun _ a ha => rttRecord_init enabled ha⟩
      (fun l call h => ?_) calls
    cases call with
    | call op =>
      refine ⟨rttStep_distinct h.1, fun hen a ha => ?_⟩
      have hen : l.ctx.enabled = false := rttStep_enabled.symm.trans hen
      have hnone := h.2 hen
      change rttRecord (rttStep l.ctx op).1 a = none
      by_cases hop : a = op.addr
      · subst hop
        rw [rttStep_record h.1 ha, hnone _ ha, hen]
        cases op <;> rfl
      · rcases rttStep_record_of_ne h.1 ha hop with hsame | hgone
        · rw [hsame, hnone a ha]
        · exact hgone
    | windowReset =>
      refine ⟨LruTable.rewriteAll_distinct (fun _ => rfl) h.1, fun hen a ha => ?_⟩
      change rttRecord (rttWindowReset l.ctx) a = none
      rw [rttRecord_windowReset, h.2 hen a ha]
      rfl
  have hnone := hinv.2 (Bool.not_eq_true _ ▸ hoff) addr hne
  rw [hnone] at hp
  cases hp

/-- The peer's window is six fifths of the estimate, within its bounds. -/
def WindowSet (d : DampenCtx) (addr srtt : U32) : Prop :=
  ∃ q, dampenRecord d addr = some q ∧ (dampenWindowFor q).toNat = max 60 (min 400 (6 * srtt.toNat / 5))

theorem windowSet_of_record {d : DampenCtx} {addr srtt : U32} {q : DampenPeer}
    (h : dampenRecord d addr = some { q with rttEwmaMs := srtt }) (hs : srtt.toNat * 12 < 2 ^ 32) :
    WindowSet d addr srtt :=
  ⟨_, h, dampenWindowFor_toNat { q with rttEwmaMs := srtt } hs⟩

/-- **From the samples to the window.** After every run of the sampler the estimates of a record are between the
values measured since it was created, its next update fits 32 bits, and a value that repeats is settled on; in every
reachable state of the suppressor a tracked peer that is given an estimate other than `0` has the window it calls for,
set alone or with the others by the governor thread. -/
theorem rtt_smoothed_fed (enabled : Bool) (calls : List RttCall) (addr : U32) (hne : addr ≠ 0) (p : RttPeer)
    (hp : rttRecord (rttLogAfter enabled calls).ctx addr = some p) :
    let since := (rttLogAfter enabled calls).since addr
    (∀ lo hi, IsLeast {v | v ∈ since.map BitVec.toNat} lo → IsGreatest {v | v ∈ since.map BitVec.toNat} hi →
      lo ≤ p.srttMs.toNat ∧ p.srttMs.toNat ≤ hi ∧ p.rttvarMs.toNat ≤ hi) ∧
    (∀ r : U32, r.toNat ≤ kRttMaxSampleMs.toNat → p.smoothed.Fits r) ∧
    (∀ pre n r, since = pre ++ List.replicate n r → kRttMaxSampleMs.toNat ≤ n →
      Settled 7 p.srttMs.toNat r.toNat) ∧
    ∀ damping ops,
      let d := final dampenStep (dampenInit damping) ops
      dampenRecord d addr ≠ none → p.srttMs ≠ 0 →
        p.srttMs.toNat * 12 < 2 ^ 32 ∧ WindowSet (dampenSetRtt d addr p.srttMs) addr p.srttMs ∧
          WindowSet (rttToDamper (rttLogAfter enabled calls).ctx d) addr p.srttMs := by
  have hok := rttLog_ok enabled calls
  have hen := rttLog_enabled hne hp
  generalize rttLogAfter enabled calls = l at hp hok hen ⊢
  intro since
  have htotals := hok.totals addr hne
  rw [hp] at htotals
  have hsmoothed : p.smoothed = since.foldl Smoothed.add .zero := htotals.smoothed
  have hrange : ∀ v ∈ since, v.toNat ≤ kRttMaxSampleMs.toNat := hok.range addr
  have hsrtt := smoothed_le hrange
  rw [← hsmoothed] at hsrtt
  refine ⟨fun lo hi hlo hhi => ?_, fun r hr => Smoothed.fits hsrtt.1 hsrtt.2 hr, fun pre n r hpre hn => ?_, ?_⟩
  · obtain ⟨v, hv, hvhi⟩ := List.mem_map.mp hhi.1
    have hbounds : ∀ v ∈ since, lo ≤ v.toNat ∧ v.toNat ≤ hi := fun v hv =>
      ⟨hlo.2 (List.mem_map_of_mem hv), hhi.2 (List.mem_map_of_mem hv)⟩
    have h := smoothed_within (List.ne_nil_of_mem hv) (hvhi ▸ hrange v hv) hbounds
    rw [← hsmoothed] at h
    exact ⟨h.ge, h.le, h.var_le⟩
  · have h := smoothed_settles hn (hpre ▸ hrange)
    rw [← hpre, ← hsmoothed] at h
    exact h
  · intro damping ops d hd hs
    have hd' : TableOk d := final_tableOk damping ops
    obtain ⟨q, hq⟩ := Option.ne_none_iff_exists'.mp hd
    have hfits : p.srttMs.toNat * 12 < 2 ^ 32 := by
      have hle : p.srttMs.toNat ≤ kRttMaxSampleMs.toNat := hsrtt.1
      have hmax : kRttMaxSampleMs.toNat = 30000 := rfl
      omega
    have hinit : p.smoothed.init = true := by
      have hs : p.smoothed.srtt ≠ 0 := hs
      rw [hsmoothed] at hs ⊢
      exact smoothed_init hs
    have hset := dampenSetRtt_record hd' hne hq addr p.srttMs
    rw [if_pos ⟨rfl, hs⟩] at hset
    exact ⟨hfits, windowSet_of_record hset hfits,
      windowSet_of_record (rttToDamper_record hok.distinct hen hne hp hinit hs hd' hq) hfits⟩

theorem rtt_smoothed_fed_twoRoundTrips :
    ∃ p, rttRecord (rttLogAfter true (twoRoundTrips 40)).ctx 1 = some p ∧ p.smoothed.Fits 30000 ∧
      WindowSet (dampenSetRtt (dampenAdmit (dampenInit true) 1 (makePkt true 7 0) 1000).1 1 p.srttMs) 1 p.srttMs := by
  have hsome : (rttRecord (rttLogAfter true (twoRoundTrips 40)).ctx 1).isSome = true := by decide +kernel
  obtain ⟨p, hp⟩ := Option.isSome_iff_exists.mp hsome
  have hs : (rttRecord (rttLogAfter true (twoRoundTrips 40)).ctx 1).map RttPeer.srttMs = some 38 := by decide +kernel
  rw [hp] at hs
  have hs : p.srttMs = 38 := Option.some.inj hs
  obtain ⟨-, hfits, -, hwindow⟩ := rtt_smoothed_fed true (twoRoundTrips 40) 1 (by decide) p hp
  have htracked : (dampenRecord (dampenAdmit (dampenInit true) 1 (makePkt true 7 0) 1000).1 1).isSome = true := by
    decide +kernel
  refine ⟨p, hp, hfits 30000 (by decide), ?_⟩
  exact (hwindow true [.admission 1 (makePkt true 7 0) 1000] (Option.isSome_iff_ne_none.mp htracked)
    (by rw [hs]; decide)).2.1

end BzNet
