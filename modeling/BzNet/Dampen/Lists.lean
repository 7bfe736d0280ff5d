import BzNet.Dampen.Epoch
import BzNet.Dampen.Suppression

/-!
# What the suppressor's table stands for

A record of the table is a peer's estimate and a list of its latest sends; the table is a map from addresses to such
lists with room for `kDampenPeers` of them.

* `DampenList` : one peer's list, with `DampenList.offer` the decision as the list makes it;
* `DampenMapStep` : a call on the map of lists, `dampenStep_map` that the table makes this step;
* `firstAdmits` : the first copies in a history of admits, `retained_firstAdmits` that a ring holds the latest of them;
* `dampen_lists` : **the table refines the map of lists**, over every run.
-/

namespace BzNet

open Machine

/-! ## One peer as a list -/

/-- What is kept of one peer; `entries` are its latest sends, the first of them first. -/
structure DampenList where
  rttMs : U32
  lastUseMs : U64
  entries : List DampenEntry

namespace DampenList
variable (l : DampenList)

def new : DampenList := ⟨0, 0, []⟩

def window : U32 := dampenWindowFor { DampenPeer.zero with rttEwmaMs := l.rttMs }

def first (seq : U32) (now : U64) : DampenEntry := ⟨seq, now, l.window⟩

def append (seq : U32) (now : U64) : DampenList :=
  { l with entries := (l.entries ++ [l.first seq now]).rtake kDampenSlots }

/-- Back off in place. -/
def backOff (seq : U32) (now : U64) : DampenList :=
  { l with
    entries := l.entries.map fun e =>
      if e.seq = seq then { e with lastSentMs := now, windowMs := backedOff e.windowMs } else e }

/-- A restarted peer has nothing sent. -/
def restart (seq : U32) : DampenList :=
  if belowOldest (l.entries.map DampenEntry.seq) seq then { l with entries := [] } else l

def offer (seq : U32) (now : U64) : DampenList × DampenDecision :=
  match (l.restart seq).entries.find? fun e => e.seq == seq with
  | none => ((l.restart seq).append seq now, .send)
  | some e =>
    if Serial.elapsed now e.lastSentMs < e.windowMs.toNat then (l.restart seq, .suppress)
    else ((l.restart seq).backOff seq now, .send)

def sample (ackedSeq : U32) (now : U64) : DampenList :=
  match l.entries.find? fun e => e.seq == ackedSeq with
  | none => l
  | some e =>
    let sample : U32 := if now > e.lastSentMs then (now - e.lastSentMs).setWidth 32 else 0
    if l.rttMs = 0 then { l with rttMs := sample }
    else { l with rttMs := l.rttMs + (sample - l.rttMs).sshiftRight kDampenRttShift }

/-- A call about a peer, which may have no list yet. -/
def step (enabled : Bool) (r : Option DampenList) : DampenOp → Option DampenList × Option DampenDecision
  | .admission _ pay now =>
    if enabled = true ∧ Sequenced pay then
      let a := offer { r.getD new with lastUseMs := now } (reorderSeqFromPayload pay) now
      (some a.1, some a.2)
    else (r, some .send)
  | .observeAck _ ack now => (if enabled then r.map (sample · ack now) else r, none)
  | .setRtt _ rtt => (if enabled = true ∧ rtt ≠ 0 then r.map ({ · with rttMs := rtt }) else r, none)
  | .purgePeer _ => (none, none)

end DampenList

/-! ## The record as a list -/

/-- The list a record stands for: its ring read from `head` on. -/
def DampenPeer.asList (p : DampenPeer) : DampenList := ⟨p.rttEwmaMs, p.lastUseMs, p.ring.toList⟩

theorem set_retained {l : List DampenEntry} (hl : (l.map DampenEntry.seq).Nodup) {i : Nat} {e : DampenEntry}
    (hi : l[i]? = some e) (f : DampenEntry → DampenEntry) :
    l.set i (f e) = l.map fun x => if x.seq = e.seq then f x else x := by
  obtain ⟨hlt, rfl⟩ := List.getElem?_eq_some_iff.mp hi
  apply List.ext_getElem
  · simp
  · intro j hj _
    rw [List.length_set] at hj
    rw [List.getElem_set, List.getElem_map]
    by_cases hij : i = j
    · subst hij
      rw [if_pos rfl, if_pos rfl]
    · rw [if_neg hij, if_neg]
      intro hseq
      have hsame : l[j] = l[i] := List.inj_on_of_nodup_map hl (List.getElem_mem hj) (List.getElem_mem hlt) hseq
      exact hij ((List.Nodup.of_map _ hl).getElem_inj_iff.mp hsame).symm

section Record
variable {p : DampenPeer}

theorem DampenPeer.raiseHigh_asList (p : DampenPeer) (seq : U32) : (p.raiseHigh seq).asList = p.asList := by
  unfold DampenPeer.raiseHigh
  split <;> rfl

theorem asList_append (p : DampenPeer) (seq : U32) (now : U64) :
    (dampenAddSlot p ⟨seq, now, dampenWindowFor p⟩).asList = p.asList.append seq now := by
  have hfirst : p.asList.first seq now = ⟨seq, now, dampenWindowFor p⟩ := rfl
  rw [DampenPeer.asList, dampenAddSlot, RingBuffer.toList_push_rtake, DampenList.append, hfirst, DampenPeer.asList]

theorem asList_restart (p : DampenPeer) (seq : U32) :
    p.asList.restart seq = if dampenIsRestart p seq then (p.newEpoch seq).asList else p.asList := by
  have hclear : (p.newEpoch seq).asList = { p.asList with entries := [] } := by
    rw [DampenPeer.asList, DampenPeer.newEpoch, RingBuffer.toList_clear]
    rfl
  rw [isRestart_eq, hclear]
  rfl

/-- **One decision**: the record makes it as its list does. -/
theorem asList_offer (hp : RetainedOk p.retained) (seq : U32) (now : U64) :
    ((dampenAdmitPeer p seq now).peer.asList, (dampenAdmitPeer p seq now).decision) = p.asList.offer seq now := by
  rw [DampenList.offer, asList_restart]
  cases h : dampenIsRestart p seq with
  | true =>
    have hnil : (p.newEpoch seq).asList.entries = [] := RingBuffer.toList_clear p.ring
    rw [if_pos rfl, hnil, List.find?_nil]
    simp only [dampenAdmitPeer, h, if_true]
    rw [asList_append, DampenPeer.raiseHigh_asList]
  | false =>
    rw [if_neg Bool.false_ne_true]
    have hfind := p.ring.find?_toList fun e => e.seq == seq
    cases hf : p.ring.find? (fun e => e.seq == seq) with
    | none =>
      rw [hf] at hfind
      have hnone : p.asList.entries.find? (fun e => e.seq == seq) = none := hfind
      rw [hnone]
      simp only [dampenAdmitPeer, h, hf, Bool.false_eq_true, if_false]
      rw [asList_append, DampenPeer.raiseHigh_asList]
    | some i =>
      rw [hf] at hfind
      have hsome : p.asList.entries.find? (fun e => e.seq == seq) = some (p.ring.get i) := hfind
      obtain ⟨hi, hseq⟩ := RingBuffer.find?_some hf
      have hseq : (p.ring.get i).seq = seq := beq_iff_eq.mp hseq
      have hwin : Serial.elapsed now (p.ring.get i).lastSentMs < (p.ring.get i).windowMs.toNat ↔
          now - (p.ring.get i).lastSentMs < (p.ring.get i).windowMs.setWidth 64 := by
        rw [BitVec.lt_def, BitVec.toNat_setWidth_of_le (by decide)]
        rfl
      rw [hsome]
      simp only [dampenAdmitPeer, h, hf, Bool.false_eq_true, if_false, DampenPeer.raiseHigh_ring, hwin]
      by_cases hw : now - (p.ring.get i).lastSentMs < (p.ring.get i).windowMs.setWidth 64
      · rw [if_pos hw, if_pos hw]
        exact congrArg (·, DampenDecision.suppress) (p.raiseHigh_asList seq)
      · rw [if_neg hw, if_neg hw]
        refine congrArg (·, DampenDecision.send) ?_
        have hset := set_retained hp.nodup (RingBuffer.getElem?_toList p.ring hi)
          fun e => { e with lastSentMs := now, windowMs := backedOff e.windowMs }
        rw [hseq] at hset
        have hrtt := congrArg DampenList.rttMs (p.raiseHigh_asList seq)
        have huse := congrArg DampenList.lastUseMs (p.raiseHigh_asList seq)
        rw [DampenPeer.asList, RingBuffer.toList_set _ _ hi, DampenList.backOff, hseq]
        exact congr (congr (congrArg DampenList.mk hrtt) huse) hset

theorem asList_sample (p : DampenPeer) (ack : U32) (now : U64) :
    (dampenSamplePeer p ack now).asList = p.asList.sample ack now := by
  have hfind := p.ring.find?_toList fun e => e.seq == ack
  unfold dampenSamplePeer DampenList.sample
  cases hf : p.ring.find? (fun e => e.seq == ack) with
  | none =>
    rw [hf] at hfind
    have hnone : p.asList.entries.find? (fun e => e.seq == ack) = none := hfind
    rw [hnone]
  | some i =>
    rw [hf] at hfind
    have hsome : p.asList.entries.find? (fun e => e.seq == ack) = some (p.ring.get i) := hfind
    rw [hsome]
    by_cases hzero : p.rttEwmaMs = 0
    · have hzero' : p.asList.rttMs = 0 := hzero
      simp only [if_pos hzero, if_pos hzero']
      rfl
    · have hzero' : ¬ p.asList.rttMs = 0 := hzero
      simp only [if_neg hzero, if_neg hzero']
      rfl

theorem asList_step (enabled : Bool) {r : Option DampenPeer} (hr : ∀ p, r = some p → RetainedOk p.retained)
    (op : DampenOp) :
    ((dampenRecordStep enabled r op).1.map DampenPeer.asList, (dampenRecordStep enabled r op).2) =
      DampenList.step enabled (r.map DampenPeer.asList) op := by
  cases op with
  | admission addr pay now =>
    by_cases hs : enabled = true ∧ Sequenced pay
    · have hrenew : (LruTable.renew r addr now).asList =
          { (r.map DampenPeer.asList).getD DampenList.new with lastUseMs := now } := by
        cases r with
        | none => rfl
        | some p => rfl
      have hoffer := asList_offer (renew_retained_ok hr addr now) (reorderSeqFromPayload pay) now
      rw [hrenew] at hoffer
      simp only [dampenRecordStep, dampenAccess, dampenAnswer, DampenList.step, if_pos hs, LruTable.Access.onRecord,
        Option.map_some, ← hoffer]
    · simp only [dampenRecordStep, dampenAccess, dampenAnswer, DampenList.step, if_neg hs, LruTable.Access.onRecord]
  | observeAck addr ack now =>
    have hmap : (r.map (dampenSamplePeer · ack now)).map DampenPeer.asList =
        (r.map DampenPeer.asList).map (DampenList.sample · ack now) := by
      rw [Option.map_map, Option.map_map]
      exact congrArg (Option.map · r) (funext fun p => asList_sample p ack now)
    cases enabled with
    | false => rfl
    | true => exact congrArg (·, none) hmap
  | setRtt addr rtt =>
    simp only [dampenRecordStep, dampenAccess, dampenAnswer, DampenList.step]
    by_cases hs : enabled = true ∧ rtt ≠ 0
    · rw [if_pos hs, if_pos hs]
      simp only [LruTable.Access.onRecord, Option.map_map]
      rfl
    · rw [if_neg hs, if_neg hs]
      rfl
  | purgePeer addr => rfl

end Record

/-! ## The table as a map of lists -/

abbrev DampenMap := U32 → Option DampenList

/-- A call on the map: the list of its address goes through `DampenList.step`, and a list made in a full map takes the
place of a least recently used one. -/
structure DampenMapStep (enabled : Bool) (m : DampenMap) (op : DampenOp) (m' : DampenMap) (d : Option DampenDecision) :
    Prop where
  self : (m' op.addr, d) = DampenList.step enabled (m op.addr) op
  others : LruTable.OthersAfter kDampenPeers (fun l => l.lastUseMs.toNat) m op.addr m'

def dampenMap (c : DampenCtx) : DampenMap :=
  fun addr => (LruTable.view kDampenPeers c.peers addr).map DampenPeer.asList

theorem dampenMap_of_ne {c : DampenCtx} {addr : U32} (hne : addr ≠ 0) :
    dampenMap c addr = (dampenRecord c addr).map DampenPeer.asList := by
  rw [dampenMap, LruTable.view_of_ne hne]
  rfl

theorem dampenMap_init (enabled : Bool) : dampenMap (dampenInit enabled) = fun _ => none := by
  funext addr
  by_cases hne : addr = 0
  · rw [hne]
    rfl
  · rw [dampenMap_of_ne hne, dampenRecord_init enabled hne]
    rfl

/-- **One call.** -/
theorem dampenStep_map {c : DampenCtx} (h : TableOk c) {op : DampenOp} (hne : op.addr ≠ 0) :
    DampenMapStep c.enabled (dampenMap c) op (dampenMap (dampenStep c op).1) (dampenStep c op).2 := by
  constructor
  · obtain ⟨hrec, hans⟩ := dampenStep_record h.distinct hne
    rw [dampenMap_of_ne hne, dampenMap_of_ne hne, hrec, hans]
    exact asList_step c.enabled (fun p hp => (h.records op.addr hne p hp).2) op
  · have hkey : (dampenAccess c.enabled op).key ≠ 0 := by rwa [dampenAccess_key]
    have hview := (LruTable.Access.view_apply BitVec.toNat (dampenAccess_lawful c.enabled op) h.distinct
      (n := kDampenPeers) (by decide) hkey fun _ _ => BitVec.lt_def).2
    rw [dampenAccess_key, ← (dampenStep_access c op).1] at hview
    exact hview.map DampenPeer.asList fun _ => rfl

/-! ## The first copies in a history -/

/-- The latest sequences of a history, as many as a ring holds. -/
def latest (log : List U32) : List U32 := log.rtake kDampenSlots

/-- One more admit: a sequence below the oldest of the latest ones starts anew, one that is not among them counts as a
first copy. -/
def firstAdmit (log : List U32) (seq : U32) : List U32 :=
  if belowOldest (latest log) seq then [seq] else if (latest log).contains seq then log else log ++ [seq]

/-- The first copies since the last restart. -/
def firstAdmits (seqs : List U32) : List U32 := seqs.foldl firstAdmit []

/-- The sequences of the reliable datagrams offered to an address. -/
def offered (addr : U32) (ops : List DampenOp) : List U32 :=
  ops.filterMap fun op =>
    match op with
    | .admission a pay _ => if a = addr ∧ Sequenced pay then some (reorderSeqFromPayload pay) else none
    | _ => none

theorem rtake_append_singleton {n : Nat} (hn : 0 < n) (log : List U32) (seq : U32) :
    (if (log.rtake n).length < n then log.rtake n else (log.rtake n).tail) ++ [seq] = (log ++ [seq]).rtake n := by
  have hlen : (log.rtake n).length = log.length - (log.length - n) := by rw [List.rtake, List.length_drop]
  have hsucc : (log ++ [seq]).rtake n = log.rtake (n - 1) ++ [seq] := by
    conv_lhs => rw [← Nat.sub_add_cancel hn]
    exact List.rtake_concat_succ log _ seq
  rw [hsucc, hlen]
  by_cases hroom : log.length < n
  · have hall : log.length - n = 0 ∧ log.length - (n - 1) = 0 := by omega
    rw [if_pos (by omega), List.rtake, List.rtake, hall.1, hall.2]
  · have hone : log.length - n + 1 = log.length - (n - 1) := by omega
    rw [if_neg (by omega), List.rtake, List.tail_drop, hone, List.rtake]

@[simp] theorem latest_nil : latest [] = [] := List.rtake_nil kDampenSlots

theorem latest_singleton (seq : U32) : latest [seq] = [seq] := by
  have hle : 1 ≤ kDampenSlots := by decide
  rw [latest, List.rtake, List.length_singleton, Nat.sub_eq_zero_of_le hle, List.drop_zero]

/-- An admit to a ring that holds the latest first copies. -/
theorem admitSeqs_latest (log : List U32) (seq : U32) : admitSeqs (latest log) seq = latest (firstAdmit log seq) := by
  unfold admitSeqs firstAdmit
  by_cases hlow : belowOldest (latest log) seq = true
  · rw [if_pos hlow, if_pos hlow, latest_singleton]
  · rw [if_neg hlow, if_neg hlow]
    by_cases hmem : seq ∈ latest log
    · rw [if_pos hmem, if_pos (List.contains_iff_mem.mpr hmem)]
    · rw [if_neg hmem, if_neg (fun h => hmem (List.contains_iff_mem.mp h))]
      exact rtake_append_singleton (by decide) log seq

theorem foldl_admitSeqs_latest (seqs log : List U32) :
    seqs.foldl admitSeqs (latest log) = latest (seqs.foldl firstAdmit log) := by
  induction seqs generalizing log with
  | nil => rw [List.foldl_nil, List.foldl_nil]
  | cons s seqs ih => rw [List.foldl_cons, List.foldl_cons, admitSeqs_latest, ih]

section Run
variable {enabled : Bool} {ops : List DampenOp} {addr : U32}

theorem dampenStep_offered {c : DampenCtx} (h : TableOk c) (hne : addr ≠ 0) {op : DampenOp}
    (hleft : dampenRecord (dampenStep c op).1 addr ≠ none) :
    retainedSeqs (dampenStep c op).1 addr = (offered addr [op]).foldl admitSeqs (retainedSeqs c addr) := by
  by_cases hop : op.addr = addr
  · subst hop
    have hen : c.enabled = true := by
      obtain ⟨p, hp⟩ := Option.ne_none_iff_exists'.mp hleft
      have := ((@dampenStep_tableOk c op h).records _ hne p hp).1
      rwa [dampenStep_enabled] at this
    rcases dampenStep_seqs_self h hne with ⟨pay, now, hadm, -, hs, hseqs⟩ | ⟨hnot, hsame | hgone⟩
    · rw [hseqs, hadm]
      simp [offered, hs, DampenOp.addr]
    · rw [hsame]
      cases op with
      | admission a pay now =>
        have hs : ¬ Sequenced pay := fun hs => hnot pay now rfl ⟨hen, hs⟩
        simp [offered, hs]
      | observeAck => rfl
      | setRtt => rfl
      | purgePeer => rfl
    · exact absurd hgone hleft
  · rcases dampenStep_record_of_ne h.distinct hne (Ne.symm hop) with hsame | hgone
    · have hnone : offered addr [op] = [] := by
        cases op with
        | admission a pay now =>
          have ha : a ≠ addr := hop
          simp [offered, ha]
        | observeAck => rfl
        | setRtt => rfl
        | purgePeer => rfl
      rw [hnone, List.foldl_nil, retainedSeqs, retainedSeqs, retainedOf, retainedOf, hsame]
    · exact absurd hgone hleft

/-- **A ring holds the latest first copies** since its record was created or last restarted. -/
theorem retained_firstAdmits (enabled : Bool) (ops : List DampenOp) (hne : addr ≠ 0) {n : Nat} (hn : n ≤ ops.length) :
    ∃ b, b ≤ n ∧ recordAt enabled ops b addr = none ∧ (∀ k, b < k → k ≤ n → recordAt enabled ops k addr ≠ none) ∧
      retainedSeqs (dampenAt enabled ops n) addr = latest (firstAdmits (offered addr ((ops.take n).drop b))) := by
  induction n with
  | zero =>
    have hzero := @recordAt_zero enabled ops _ hne
    refine ⟨0, Nat.le_refl 0, hzero, fun k h1 h2 => by omega, ?_⟩
    rw [retainedSeqs_none hzero]
    exact latest_nil.symm
  | succ n ih =>
    obtain ⟨b, hb, hnone, hkept, hseqs⟩ := ih (by omega)
    have hop := List.getElem?_eq_getElem (show n < ops.length by omega)
    by_cases hgone : recordAt enabled ops (n + 1) addr = none
    · refine ⟨n + 1, Nat.le_refl _, hgone, fun k h1 h2 => by omega, ?_⟩
      rw [retainedSeqs_none hgone, List.drop_eq_nil_of_le (by rw [List.length_take]; omega)]
      exact latest_nil.symm
    · refine ⟨b, by omega, hnone, fun k h1 h2 => ?_, ?_⟩
      · rcases Nat.le_succ_iff.mp h2 with hle | rfl
        · exact hkept k h1 hle
        · exact hgone
      · have hok : TableOk (dampenAt enabled ops n) := final_tableOk enabled (ops.take n)
        rw [recordAt, dampenAt_succ hop] at hgone
        have hstep := dampenStep_offered hok hne hgone
        rw [← dampenAt_succ hop, hseqs, foldl_admitSeqs_latest] at hstep
        have htake : (ops.take (n + 1)).drop b = (ops.take n).drop b ++ [ops[n]] := by
          rw [List.take_add_one, hop, List.drop_append_of_le_length (by rw [List.length_take]; omega)]
          rfl
        rw [hstep, htake, firstAdmits, firstAdmits, offered, offered, offered, List.filterMap_append, List.foldl_append]

end Run

/-! ## The refinement -/

/-- The table holds exactly the lists of `m`, each in one record. -/
structure Represents (c : DampenCtx) (m : DampenMap) : Prop where
  distinct : c.Distinct
  record : ∀ i, i < kDampenPeers → (c.peers i).addr ≠ 0 → m (c.peers i).addr = some (c.peers i).asList
  none : ∀ addr, (∀ i, i < kDampenPeers → (c.peers i).addr = addr → addr = 0) → m addr = none

/-- The retained sequences are the latest first copies since the call that created the record, or restarted it. -/
structure RingHistory (enabled : Bool) (ops : List DampenOp) (p : DampenPeer) : Prop where
  nodup : p.seqs.Nodup
  created : ∃ b, b < ops.length ∧ recordAt enabled ops b p.addr = none ∧
    (∀ k, b < k → k ≤ ops.length → recordAt enabled ops k p.addr ≠ none) ∧
    p.seqs = latest (firstAdmits (offered p.addr (ops.drop b)))

theorem dampenMap_represents {c : DampenCtx} (hd : c.Distinct) : Represents c (dampenMap c) where
  distinct := hd
  record i hi hne := by
    rw [dampenMap]
    have hview := LruTable.view_record hd hi hne
    exact congrArg (Option.map DampenPeer.asList) hview
  none addr hfree := by
    by_cases hne : addr = 0
    · rw [hne]
      rfl
    · rw [dampenMap_of_ne hne, dampenRecord, LruTable.lookup_eq_none.mpr, Option.map_none]
      exact fun i hi he => hne (hfree i hi he)

theorem ringHistory (enabled : Bool) (ops : List DampenOp) {i : Nat} (hi : i < kDampenPeers)
    (hne : ((final dampenStep (dampenInit enabled) ops).peers i).addr ≠ 0) :
    RingHistory enabled ops ((final dampenStep (dampenInit enabled) ops).peers i) := by
  have hok := final_tableOk enabled ops
  have hrec : dampenRecord (final dampenStep (dampenInit enabled) ops)
      ((final dampenStep (dampenInit enabled) ops).peers i).addr =
        some ((final dampenStep (dampenInit enabled) ops).peers i) :=
    (LruTable.lookup_eq_some hok.distinct hne).mpr ⟨i, hi, rfl, rfl⟩
  refine ⟨(hok.records _ hne _ hrec).2.nodup, ?_⟩
  obtain ⟨b, hb, hnone, hkept, hseqs⟩ := retained_firstAdmits enabled ops hne (Nat.le_refl ops.length)
  have hend : dampenAt enabled ops ops.length = final dampenStep (dampenInit enabled) ops := stateAt_length _ _ ops
  rw [hend, retainedSeqs_some hrec, List.take_length] at hseqs
  refine ⟨b, Nat.lt_of_le_of_ne hb ?_, hnone, hkept, hseqs⟩
  rintro rfl
  rw [recordAt, hend, hrec] at hnone
  cases hnone

/-- **The table and its rings.** A run of calls with addresses is a run on the map of lists with the same answers. At
its end the occupied records have distinct addresses and hold the lists of the map, ring by ring from `head` on, and
every ring holds the latest `kDampenSlots` first copies since its record was created or last restarted. -/
theorem dampen_lists (enabled : Bool) (ops : List DampenOp) (hops : ∀ op ∈ ops, op.addr ≠ 0) :
    (∃ m, Follows (DampenMapStep enabled) (fun _ => none) ops (dampenAnswers enabled ops) m ∧
      Represents (final dampenStep (dampenInit enabled) ops) m) ∧
    ∀ i, i < kDampenPeers → ((final dampenStep (dampenInit enabled) ops).peers i).addr ≠ 0 →
      RingHistory enabled ops ((final dampenStep (dampenInit enabled) ops).peers i) := by
  refine ⟨⟨dampenMap (final dampenStep (dampenInit enabled) ops), ?_, ?_⟩,
    fun i hi hne => ringHistory enabled ops hi hne⟩
  · rw [← dampenMap_init enabled]
    refine @follows _ _ _ _ dampenStep dampenMap (fun c => TableOk c ∧ c.enabled = enabled) (fun op => op.addr ≠ 0)
      (DampenMapStep enabled) ?_ ?_ (dampenInit enabled) ⟨tableOk_init enabled, rfl⟩ ops hops
    · intro c op hc _
      exact ⟨dampenStep_tableOk hc.1, dampenStep_enabled.trans hc.2⟩
    · intro c op hc hne
      rw [← hc.2]
      exact dampenStep_map hc.1 hne
  · exact dampenMap_represents (final_tableOk enabled ops).distinct

def sampleCalls : List DampenOp :=
  [.admission 1 (makePkt true 5 0) 1000, .setRtt 1 100, .admission 1 (makePkt true 5 0) 1010,
    .admission 2 (makePkt true 7 0) 1020, .purgePeer 1]

theorem dampen_lists_calls :
    (∃ m, Follows (DampenMapStep true) (fun _ => none) sampleCalls (dampenAnswers true sampleCalls) m ∧
      Represents (final dampenStep (dampenInit true) sampleCalls) m) ∧
    ∀ i, i < kDampenPeers → ((final dampenStep (dampenInit true) sampleCalls).peers i).addr ≠ 0 →
      RingHistory true sampleCalls ((final dampenStep (dampenInit true) sampleCalls).peers i) :=
  dampen_lists true sampleCalls (by decide)

end BzNet
