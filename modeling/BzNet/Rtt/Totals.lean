import BzNet.Lib.Extremes
import BzNet.Rtt.Record

/-!
# What a record adds up

Every sample is added to three things in a record: the totals of the session, those since the last window reset, and
the smoothed pair.

* `RttTally`, `Smoothed` : the three, apart from the rest of a record; `rttRecvPeer_measured` is what a receipt adds;
* `RttLog`, `rttLogStep` : the module with its window reset, and beside it the values measured for each address;
* `rttLog_ok` : every record is the fold of the values measured since it was created;
* `rtt_aggregates_iff` : when that is their count, sum, minimum and maximum. A minimum of `0` stands for "none yet",
  so a sample of `0 ms` is forgotten with the next one.
-/

namespace BzNet

open Machine Extremes

/-! ## The totals -/

/-- Count, sum, least and greatest. -/
structure RttTally where
  n : Nat
  sum : Nat
  lo : U32
  hi : U32

def RttTally.zero : RttTally := ⟨0, 0, 0, 0⟩

def RttTally.add (t : RttTally) (r : U32) : RttTally where
  n := t.n + 1
  sum := t.sum + r.toNat
  lo := if t.lo = 0 ∨ r < t.lo then r else t.lo
  hi := if r > t.hi then r else t.hi

/-- The smoothed round trip and its variation. -/
structure Smoothed where
  srtt : U32
  var : U32
  init : Bool

def Smoothed.zero : Smoothed := ⟨0, 0, false⟩

def Smoothed.add (e : Smoothed) (r : U32) : Smoothed where
  srtt := if !e.init then r else (7 * e.srtt + r) / 8
  var := if !e.init then r / 2 else (3 * e.var + if r > e.srtt then r - e.srtt else e.srtt - r) / 4
  init := true

def RttPeer.session (p : RttPeer) : RttTally := ⟨p.samples, p.sumMs, p.minMs, p.maxMs⟩

def RttPeer.window (p : RttPeer) : RttTally := ⟨p.winSamples, p.winSumMs, p.winMinMs, p.winMaxMs⟩

def RttPeer.smoothed (p : RttPeer) : Smoothed := ⟨p.srttMs, p.rttvarMs, p.srttInit⟩

/-- The totals are those of the values. -/
structure Aggregates (t : RttTally) (values : List U32) : Prop where
  count : t.n = values.length
  sum : t.sum = (values.map BitVec.toNat).sum
  empty : values = [] → t.lo = 0 ∧ t.hi = 0
  least : values ≠ [] → IsLeast {v | v ∈ values.map BitVec.toNat} t.lo.toNat
  greatest : values ≠ [] → IsGreatest {v | v ∈ values.map BitVec.toNat} t.hi.toNat

theorem foldl_rttTally (values : List U32) (t : RttTally) :
    (values.foldl RttTally.add t).n = t.n + values.length ∧
      (values.foldl RttTally.add t).sum = t.sum + (values.map BitVec.toNat).sum ∧
      (values.foldl RttTally.add t).lo.toNat = (values.map BitVec.toNat).foldl (markedMin 0) t.lo.toNat ∧
      (values.foldl RttTally.add t).hi.toNat = (values.map BitVec.toNat).foldl keepMax t.hi.toNat := by
  induction values generalizing t with
  | nil => simp
  | cons r values ih =>
    obtain ⟨hn, hsum, hlo, hhi⟩ := ih (t.add r)
    have hmin : (t.add r).lo.toNat = markedMin 0 t.lo.toNat r.toNat := by
      have hzero : t.lo = 0 ↔ t.lo.toNat = 0 := BitVec.toNat_inj.symm
      simp only [RttTally.add, markedMin, hzero, BitVec.lt_def]
      exact apply_ite BitVec.toNat _ _ _
    have hmax : (t.add r).hi.toNat = keepMax t.hi.toNat r.toNat := by
      simp only [RttTally.add, keepMax, gt_iff_lt, BitVec.lt_def]
      exact apply_ite BitVec.toNat _ _ _
    simp only [List.foldl_cons, List.map_cons, List.length_cons, List.sum_cons]
    refine ⟨?_, ?_, ?_, ?_⟩
    · rw [hn]
      change t.n + 1 + _ = _
      omega
    · rw [hsum]
      change t.sum + r.toNat + _ = _
      omega
    · rw [hlo, hmin]
    · rw [hhi, hmax]

/-- **Totals from zero** are those of the values exactly when none is `0` or the last one is. -/
theorem aggregates_iff (values : List U32) :
    Aggregates (values.foldl RttTally.add .zero) values ↔ (0 ∈ values → values.getLast? = some 0) := by
  obtain ⟨hn, hsum, hlo, hhi⟩ := foldl_rttTally values .zero
  have hbot : ∀ a : Nat, 0 ≤ a := Nat.zero_le
  have hzero : ∀ v : U32, v.toNat = 0 ↔ v = 0 := fun v => @BitVec.toNat_inj 32 v 0
  have hmem : 0 ∈ values.map BitVec.toNat ↔ 0 ∈ values := by simp [hzero]
  have hlast : (values.map BitVec.toNat).getLast? = some 0 ↔ values.getLast? = some 0 := by
    rw [List.getLast?_map, Option.map_eq_some_iff]
    simp [hzero]
  constructor
  · intro h h0
    have hne : values ≠ [] := List.ne_nil_of_mem h0
    have hleast := h.least hne
    rw [hlo] at hleast
    exact hlast.mp ((isLeast_markedMin_iff hbot (by simpa using hne)).mp hleast (hmem.mpr h0))
  · intro h
    refine ⟨hn.trans (Nat.zero_add _), hsum.trans (Nat.zero_add _), ?_, fun hne => ?_, fun hne => ?_⟩
    · rintro rfl
      exact ⟨rfl, rfl⟩
    · rw [hlo]
      exact (isLeast_markedMin_iff hbot (by simpa using hne)).mpr fun h0 => hlast.mpr (h (hmem.mp h0))
    · rw [hhi]
      exact isGreatest_keepMax (by simpa using hne) fun a _ => hbot a

/-! ## One call on a record -/

/-- `q` is `p` with the values added. -/
structure Measured (p q : RttPeer) (values : List U32) : Prop where
  session : q.session = values.foldl RttTally.add p.session
  window : q.window = values.foldl RttTally.add p.window
  smoothed : q.smoothed = values.foldl Smoothed.add p.smoothed

theorem Measured.trans {p q r : RttPeer} {values values' : List U32} (h : Measured p q values)
    (h' : Measured q r values') : Measured p r (values ++ values') where
  session := by rw [h'.session, h.session, List.foldl_append]
  window := by rw [h'.window, h.window, List.foldl_append]
  smoothed := by rw [h'.smoothed, h.smoothed, List.foldl_append]

def RttOutcome.samples : RttOutcome → List U32
  | .sample ms => [ms]
  | _ => []

theorem rttSendPeer_measured (p : RttPeer) (seq : U32) (now : U64) : Measured p (rttSendPeer p seq now).peer [] := by
  unfold rttSendPeer
  split <;> exact ⟨rfl, rfl, rfl⟩

/-- **A receipt** adds the value it measures. -/
theorem rttRecvPeer_measured (p : RttPeer) (ack : U32) (now : U64) :
    Measured p (rttRecvPeer p ack now).1 (rttRecvPeer p ack now).2.samples := by
  unfold rttRecvPeer
  dsimp only
  repeat' split
  all_goals exact ⟨rfl, rfl, rfl⟩

/-- What is measured is at most thirty seconds. -/
theorem rttRecvPeer_le (p : RttPeer) (ack : U32) (now : U64) :
    ∀ ms ∈ (rttRecvPeer p ack now).2.samples, ms.toNat ≤ kRttMaxSampleMs.toNat := by
  unfold rttRecvPeer
  dsimp only
  split
  · exact fun _ h => absurd h List.not_mem_nil
  split
  · exact fun _ h => absurd h List.not_mem_nil
  split
  · exact fun _ h => absurd h List.not_mem_nil
  split
  · exact fun _ h => absurd h List.not_mem_nil
  split
  · exact fun _ h => absurd h List.not_mem_nil
  · next hrange =>
    intro ms hms
    rw [List.mem_singleton.mp hms, BitVec.toNat_setWidth]
    exact Nat.le_trans (Nat.mod_le _ _) (BitVec.le_def.mp (BitVec.not_lt.mp hrange))

theorem renew_measured (r : Option RttPeer) (addr : U32) (now : U64) :
    Measured (r.getD RttPeer.zero) (LruTable.renew r addr now) [] := by
  cases r <;> exact ⟨rfl, rfl, rfl⟩

def rttMeasured (o : Option RttOutcome) : List U32 := o.elim [] RttOutcome.samples

/-- A record against the values measured since it was created, and those of them since the last reset. -/
structure RecordTotals (r : Option RttPeer) (since kept : List U32) : Prop where
  absent : r = none → since = [] ∧ kept = []
  session : (r.getD RttPeer.zero).session = since.foldl RttTally.add .zero
  window : (r.getD RttPeer.zero).window = kept.foldl RttTally.add .zero
  smoothed : (r.getD RttPeer.zero).smoothed = since.foldl Smoothed.add .zero

theorem recordTotals_none : RecordTotals none [] [] := ⟨fun _ => ⟨rfl, rfl⟩, rfl, rfl, rfl⟩

theorem RecordTotals.add {r : Option RttPeer} {since kept values : List U32} (h : RecordTotals r since kept) {q : RttPeer}
    (hq : Measured (r.getD RttPeer.zero) q values) : RecordTotals (some q) (since ++ values) (kept ++ values) where
  absent h := by cases h
  session := by rw [Option.getD_some, hq.session, h.session, List.foldl_append]
  window := by rw [Option.getD_some, hq.window, h.window, List.foldl_append]
  smoothed := by rw [Option.getD_some, hq.smoothed, h.smoothed, List.foldl_append]

/-- **One call** about a record. -/
theorem RecordTotals.access {r : Option RttPeer} {since kept : List U32} (h : RecordTotals r since kept) (enabled : Bool)
    (op : RttOp) :
    (∃ q, (rttAccess enabled op).onRecord r = some q ∧
      RecordTotals (some q) (since ++ rttMeasured (rttAnswer enabled r op)) (kept ++ rttMeasured (rttAnswer enabled r op))) ∨
    (rttAccess enabled op).onRecord r = none := by
  have hidle : (rttMeasured (rttAnswer enabled r op) = []) → (rttAccess enabled op).onRecord r = r →
      (∃ q, (rttAccess enabled op).onRecord r = some q ∧
        RecordTotals (some q) (since ++ rttMeasured (rttAnswer enabled r op))
          (kept ++ rttMeasured (rttAnswer enabled r op))) ∨ (rttAccess enabled op).onRecord r = none := by
    intro hnil hsame
    rw [hnil, hsame, List.append_nil, List.append_nil]
    cases r with
    | none => exact Or.inr rfl
    | some p => exact Or.inl ⟨p, rfl, h⟩
  cases op with
  | send addr pay now =>
    by_cases hgate : enabled = true ∧ addr ≠ 0 ∧ Sequenced pay
    · left
      simp only [rttAccess, if_pos hgate]
      exact ⟨_, rfl, h.add ((renew_measured r addr now).trans (rttSendPeer_measured _ _ now))⟩
    · refine hidle rfl ?_
      simp only [rttAccess, if_neg hgate]
      rfl
  | recv addr pay now =>
    by_cases hgate : enabled = true ∧ addr ≠ 0 ∧ kReorderSeqMinPay ≤ pay.length
    · left
      simp only [rttAccess, rttAnswer, if_pos hgate]
      exact ⟨_, rfl, h.add ((renew_measured r addr now).trans (rttRecvPeer_measured _ _ now))⟩
    · refine hidle ?_ ?_
      · simp only [rttAnswer, if_neg hgate]
        rfl
      · simp only [rttAccess, if_neg hgate]
        rfl
  | purge addr => exact Or.inr rfl

theorem rttAnswer_le (enabled : Bool) (r : Option RttPeer) (op : RttOp) :
    ∀ ms ∈ rttMeasured (rttAnswer enabled r op), ms.toNat ≤ kRttMaxSampleMs.toNat := by
  cases op with
  | send addr pay now => exact fun _ h => absurd h List.not_mem_nil
  | recv addr pay now =>
    by_cases hgate : enabled = true ∧ addr ≠ 0 ∧ kReorderSeqMinPay ≤ pay.length
    · rw [rttAnswer, if_pos hgate]
      exact rttRecvPeer_le _ _ now
    · rw [rttAnswer, if_neg hgate]
      exact fun _ h => absurd h List.not_mem_nil
  | purge addr => exact fun _ h => absurd h List.not_mem_nil

/-! ## Runs -/

inductive RttCall where
  | call (op : RttOp)
  | windowReset

/-- The module, and the values measured for each address: since its record was created, since the last window reset,
and since both. -/
structure RttLog where
  ctx : RttCtx
  since : U32 → List U32
  window : U32 → List U32
  kept : U32 → List U32

def rttLogInit (enabled : Bool) : RttLog := ⟨rttInit enabled, fun _ => [], fun _ => [], fun _ => []⟩

def rttLogStep (l : RttLog) : RttCall → RttLog × Option RttOutcome
  | .call op =>
    let r := rttStep l.ctx op
    let measured (addr : U32) : List U32 := if addr = op.addr then rttMeasured r.2 else []
    let alive (addr : U32) : Bool := (rttRecord r.1 addr).isSome
    ({ ctx := r.1
       since := fun addr => if alive addr then l.since addr ++ measured addr else []
       window := fun addr => l.window addr ++ measured addr
       kept := fun addr => if alive addr then l.kept addr ++ measured addr else [] }, r.2)
  | .windowReset => (⟨rttWindowReset l.ctx, l.since, fun _ => [], fun _ => []⟩, none)

/-- What holds after every call. -/
structure RttLogOk (l : RttLog) : Prop where
  distinct : l.ctx.Distinct
  totals : ∀ addr, addr ≠ 0 → RecordTotals (rttRecord l.ctx addr) (l.since addr) (l.kept addr)
  /-- What the window has lost was measured on an earlier record. -/
  suffix : ∀ addr, l.kept addr <:+ l.window addr
  range : ∀ addr, ∀ ms ∈ l.since addr, ms.toNat ≤ kRttMaxSampleMs.toNat

theorem rttLogInit_ok (enabled : Bool) : RttLogOk (rttLogInit enabled) where
  distinct := rttInit_distinct enabled
  totals addr hne := by
    change RecordTotals (rttRecord (rttInit enabled) addr) [] []
    rw [rttRecord_init enabled hne]
    exact recordTotals_none
  suffix _ := List.suffix_refl []
  range _ _ h := absurd h List.not_mem_nil

theorem rttRecord_windowReset (c : RttCtx) (addr : U32) :
    rttRecord (rttWindowReset c) addr = (rttRecord c addr).map RttPeer.resetWindow :=
  LruTable.lookup_rewriteAll fun _ => rfl

theorem RttLogOk.record {l : RttLog} (h : RttLogOk l) (op : RttOp) {addr : U32} (hne : addr ≠ 0) :
    RecordTotals (rttRecord (rttLogStep l (.call op)).1.ctx addr) ((rttLogStep l (.call op)).1.since addr)
      ((rttLogStep l (.call op)).1.kept addr) := by
  have htotals := h.totals addr hne
  simp only [rttLogStep]
  by_cases hop : addr = op.addr
  · subst hop
    rw [rttStep_record h.distinct hne, (rttStep_access l.ctx op).2]
    rcases htotals.access l.ctx.enabled op with ⟨q, hq, hadded⟩ | hgone
    · rw [hq]
      simpa using hadded
    · rw [hgone]
      exact recordTotals_none
  · rw [if_neg hop, List.append_nil, List.append_nil]
    rcases rttStep_record_of_ne h.distinct hne hop with hsame | hgone
    · rw [hsame]
      cases hr : rttRecord l.ctx addr with
      | none => exact recordTotals_none
      | some p =>
        rw [hr] at htotals
        exact htotals
    · rw [hgone]
      exact recordTotals_none

/-- **One call.** -/
theorem rttLogStep_ok {l : RttLog} (h : RttLogOk l) (call : RttCall) : RttLogOk (rttLogStep l call).1 := by
  cases call with
  | call op =>
    refine ⟨rttStep_distinct h.distinct, fun addr hne => h.record op hne, fun addr => ?_, fun addr ms hms => ?_⟩
    · simp only [rttLogStep]
      split
      · obtain ⟨lost, hlost⟩ := h.suffix addr
        exact ⟨lost, by rw [← List.append_assoc, hlost]⟩
      · exact List.nil_suffix
    · simp only [rttLogStep] at hms
      split at hms
      · rcases List.mem_append.mp hms with hms | hms
        · exact h.range addr ms hms
        · split at hms
          · rw [(rttStep_access l.ctx op).2] at hms
            exact rttAnswer_le _ _ op ms hms
          · cases hms
      · cases hms
  | windowReset =>
    refine ⟨LruTable.rewriteAll_distinct (fun _ => rfl) h.distinct, fun addr hne => ?_, fun _ => List.suffix_refl [],
      h.range⟩
    have htotals := h.totals addr hne
    change RecordTotals (rttRecord (rttWindowReset l.ctx) addr) (l.since addr) []
    rw [rttRecord_windowReset]
    cases hr : rttRecord l.ctx addr with
    | none =>
      rw [hr] at htotals
      rw [(htotals.absent rfl).1]
      exact recordTotals_none
    | some p =>
      rw [hr] at htotals
      exact ⟨fun h => (by cases h), htotals.session, rfl, htotals.smoothed⟩

/-- The module after a run, with the values measured. -/
def rttLogAfter (enabled : Bool) (calls : List RttCall) : RttLog := final rttLogStep (rttLogInit enabled) calls

theorem rttLog_ok (enabled : Bool) (calls : List RttCall) : RttLogOk (rttLogAfter enabled calls) :=
  final_inv (rttLogInit_ok enabled) (fun _ call h => rttLogStep_ok h call) calls

/-- **The totals of a record.** After every run of sends, receipts, purges and window resets the session totals of a
record are those of the values measured for its address since it was created exactly when none of them is `0` or the
last one is; and the window totals those of the values measured since the last window reset exactly when besides all
of these were measured since the record was created. -/
theorem rtt_aggregates_iff (enabled : Bool) (calls : List RttCall) (addr : U32) (hne : addr ≠ 0) (p : RttPeer)
    (hp : rttRecord (rttLogAfter enabled calls).ctx addr = some p) :
    (Aggregates p.session ((rttLogAfter enabled calls).since addr) ↔
      (0 ∈ (rttLogAfter enabled calls).since addr → ((rttLogAfter enabled calls).since addr).getLast? = some 0)) ∧
    (Aggregates p.window ((rttLogAfter enabled calls).window addr) ↔
      (rttLogAfter enabled calls).kept addr = (rttLogAfter enabled calls).window addr ∧
      (0 ∈ (rttLogAfter enabled calls).window addr →
        ((rttLogAfter enabled calls).window addr).getLast? = some 0)) := by
  have hok := rttLog_ok enabled calls
  generalize rttLogAfter enabled calls = l at hp hok ⊢
  have htotals := hok.totals addr hne
  rw [hp] at htotals
  have hsession : p.session = (l.since addr).foldl RttTally.add .zero := htotals.session
  have hwindow : p.window = (l.kept addr).foldl RttTally.add .zero := htotals.window
  refine ⟨?_, ?_⟩
  · rw [hsession]
    exact aggregates_iff (l.since addr)
  · rw [hwindow]
    constructor
    · intro h
      have hn := h.count
      rw [(foldl_rttTally (l.kept addr) .zero).1] at hn
      have hlen : (l.kept addr).length = (l.window addr).length := (Nat.zero_add _).symm.trans hn
      have hkept := (hok.suffix addr).eq_of_length hlen
      rw [hkept] at h
      exact ⟨hkept, (aggregates_iff _).mp h⟩
    · rintro ⟨hkept, hlast⟩
      rw [hkept]
      exact (aggregates_iff _).mpr hlast

/-- Two round trips, of `first` milliseconds and of thirty, the window reset between them. -/
def twoRoundTrips (first : U64) : List RttCall :=
  [.call (.send 1 (makePkt true 10 0) 1000), .call (.recv 1 (makePkt true 1 10) (1000 + first)), .windowReset,
    .call (.send 1 (makePkt true 11 0) 2000), .call (.recv 1 (makePkt true 2 11) 2030)]

theorem rtt_aggregates_iff_twoRoundTrips :
    let l := rttLogAfter true (twoRoundTrips 40)
    ∃ p, rttRecord l.ctx 1 = some p ∧ Aggregates p.session [40, 30] ∧ Aggregates p.window [30] := by
  intro l
  have hsome : (rttRecord l.ctx 1).isSome = true := by decide +kernel
  obtain ⟨p, hp⟩ := Option.isSome_iff_exists.mp hsome
  have hsince : l.since 1 = [40, 30] := by decide +kernel
  have hkept : l.kept 1 = [30] := by decide +kernel
  have hwindow : l.window 1 = [30] := by decide +kernel
  obtain ⟨hsession, hwin⟩ := rtt_aggregates_iff true (twoRoundTrips 40) 1 (by decide) p hp
  refine ⟨p, hp, ?_, ?_⟩
  · rw [← hsince]
    exact hsession.mpr (by rw [show (rttLogAfter true (twoRoundTrips 40)).since 1 = [40, 30] from hsince]; decide)
  · rw [← hwindow]
    refine hwin.mpr ⟨hkept.trans hwindow.symm, ?_⟩
    rw [show (rttLogAfter true (twoRoundTrips 40)).window 1 = [30] from hwindow]
    decide

/-- A round trip within the tick of the clock measures `0`, which the minimum of the session forgets. -/
theorem rtt_aggregates_zeroSample :
    let l := rttLogAfter true (twoRoundTrips 0)
    ∃ p, rttRecord l.ctx 1 = some p ∧ l.since 1 = [0, 30] ∧ p.minMs = 30 ∧ ¬ Aggregates p.session (l.since 1) := by
  intro l
  have hsome : (rttRecord l.ctx 1).isSome = true := by decide +kernel
  obtain ⟨p, hp⟩ := Option.isSome_iff_exists.mp hsome
  have hsince : l.since 1 = [0, 30] := by decide +kernel
  have hmin : (rttRecord l.ctx 1).map RttPeer.minMs = some 30 := by decide +kernel
  rw [hp] at hmin
  have hlo : p.minMs = 30 := Option.some.inj hmin
  refine ⟨p, hp, hsince, hlo, fun h => ?_⟩
  rw [hsince] at h
  have hleast := (h.least (List.cons_ne_nil _ _)).2 (show 0 ∈ [(0 : U32), 30].map BitVec.toNat by decide)
  change p.minMs.toNat ≤ 0 at hleast
  rw [hlo] at hleast
  exact absurd hleast (by decide)

end BzNet
