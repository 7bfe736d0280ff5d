import BzNet.Reorder.Machine

/-!
# The order of releases

The buffer as the hooks drive it, with no arrival while a ring is full.

* `recvRun_core` : every run of receive calls is a run of `coreStep`;
* `EntryStep` : what one operation does to the cursor of an entry that it does not replace;
* `reorder_release_ascending` : within the life of an entry the releases ascend, its cursor never moves
  back, and its first release is the serial minimum of what is held.
-/

namespace BzNet

variable {c : ReorderCtx} {i : Nat}

/-! ## One entry -/

/-- What an operation does to an entry in use after it: its cursor rests, or it releases `s` and the cursor
moves there, which is ahead of where it was, or the entry is new and has no cursor. -/
inductive EntryStep (pb pb' : PeerBuf) : Option ReorderSlot → Prop
  | same : pb'.key = pb.key → pb'.seqInit = pb.seqInit → pb'.lastSeq = pb.lastSeq → EntryStep pb pb' none
  | took (s : ReorderSlot) : pb'.key = pb.key → pb'.seqInit = true → pb'.lastSeq = s.seq →
      (pb.seqInit = true → 0 < seqCmp s.seq pb.lastSeq) → EntryStep pb pb' (some s)
  | born : pb'.key ≠ pb.key → pb'.seqInit = false → EntryStep pb pb' none

theorem EntryStep.refl (pb : PeerBuf) : EntryStep pb pb none := .same rfl rfl rfl

def takenAt (i : Nat) (took : Option (Nat × ReorderSlot)) : Option ReorderSlot :=
  (took.filter (·.1 = i)).map Prod.snd

theorem Enters.entryStep {k : U64} {pb pb' : PeerBuf} {lost : Nat} (h : Enters c k i pb lost) (hi : i < c.cfg.peers)
    (hne : k ≠ 0) (hkey : pb'.key = pb.key) (hinit : pb'.seqInit = pb.seqInit) (hlast : pb'.lastSeq = pb.lastSeq) :
    EntryStep (c.tbl i) pb' none := by
  have hk : pb'.key = k := hkey.trans h.key
  cases h with
  | found hfound hs =>
    exact .same (hk.trans hfound.symm) (hinit.trans hs.seqInit) (hlast.trans hs.lastSeq)
  | created now hno hz hs => exact .born (by rw [hk, hz]; exact hne) (hinit.trans hs.seqInit)
  | reclaimed now hfull hidle hs => exact .born (by rw [hk]; exact Ne.symm (hfull i hi).1) (hinit.trans hs.seqInit)

theorem ArriveStep.entry {d : Datagram} {t : U64} {a : Arrived} (h : ArriveStep c d t a)
    (hlive : (a.ctx.tbl i).key ≠ 0) : EntryStep (c.tbl i) (a.ctx.tbl i) none := by
  have hput : ∀ j pb', (i = j → pb'.key ≠ 0 → EntryStep (c.tbl i) pb' none) →
      (Function.update c.tbl j pb' i).key ≠ 0 → EntryStep (c.tbl i) (Function.update c.tbl j pb' i) none := by
    intro j pb' h hne
    by_cases hij : i = j
    · subst hij
      rw [Function.update_self] at hne ⊢
      exact h rfl hne
    · rw [Function.update_of_ne hij]
      exact .refl _
  cases h with
  | bypass st => exact .refl _
  | pass j pb lost st hk hj hent hst hwhy =>
    refine hput j pb ?_ hlive
    rintro rfl -
    exact hent.entryStep hj hk rfl rfl rfl
  | hold j pb lost st l hk hj hent hst hahead hnew hl hfree =>
    refine hput j (pb.fill l ⟨t, d.seq, true, d⟩) ?_ hlive
    rintro rfl -
    exact hent.entryStep hj hk rfl rfl rfl
  | keyless j pb pb' lost st out hk hj hent hst hkey =>
    exact hput j pb' (fun _ hne => absurd hkey hne) hlive

theorem coreStep_entry (hok : RxOk c) (op : ReorderOp) (hlive : ((coreStep c op).1.tbl i).key ≠ 0) :
    EntryStep (c.tbl i) ((coreStep c op).1.tbl i) (takenAt i (coreStep c op).2) := by
  cases op with
  | arrive d t =>
    rw [coreStep_arrive] at hlive ⊢
    cases hsat : reorderDrainSaturated c with
    | true => exact .refl _
    | false =>
      simp only [hsat] at hlive
      exact (rxArrive_step hok hsat d t).entry hlive
  | release t =>
    have hstep := rxRelease_step c t
    rw [coreStep_release]
    generalize rxRelease c t = r at hstep ⊢
    cases hstep with
    | nothing => exact .refl _
    | take j slot kind hj hkey hpick hslot hu =>
      by_cases hji : j = i
      · subst hji
        have hpk := hok.entries j hj hkey
        obtain ⟨hsame, hinit, hlast, -⟩ := reorderTakePeer_spec hpk hslot hu t
        simp only [Function.update_self, takenAt, Option.filter_some, decide_true, if_true, Option.map_some]
        exact .took _ hsame hinit hlast fun hwas => hpk.ahead hwas _ (Slots.mem_held_of hslot hu)
      · simp only [Function.update_of_ne (Ne.symm hji), takenAt, Option.filter_some, hji, decide_false,
          Bool.false_eq_true, if_false, Option.map_none]
        exact .refl _
  | nextReady t =>
    obtain ⟨htbl, htook⟩ := coreStep_nextReady c t
    rw [htbl, htook]
    exact .refl _
  | reset => exact absurd rfl hlive
  | count st => exact .refl _

/-! ## The life of an entry -/

section Life
variable (cfg : ReorderCfg) (ops : List ReorderOp)

def coreAt (k : Nat) : ReorderCtx := Machine.stateAt coreStep (reorderInit cfg) ops k

def Lives (i m n : Nat) : Prop :=
  ((coreAt cfg ops m).tbl i).key ≠ 0 ∧
    ∀ k, m ≤ k → k ≤ n → ((coreAt cfg ops k).tbl i).key = ((coreAt cfg ops m).tbl i).key

def releasedAt (k i : Nat) : Option ReorderSlot :=
  takenAt i (Machine.outputs coreStep (reorderInit cfg) ops)[k]?.join

end Life

section
variable {cfg : ReorderCfg} {ops : List ReorderOp} {k m n : Nat} {s s' : ReorderSlot}

theorem coreAt_ok (cfg : ReorderCfg) (ops : List ReorderOp) (k : Nat) :
    (coreAt cfg ops k).cfg = cfg ∧ RxOk (coreAt cfg ops k) :=
  Machine.stateAt_inv (P := fun c => c.cfg = cfg ∧ RxOk c) ⟨rfl, reorderInit_ok cfg⟩
    (fun _ op h => ⟨(coreStep_cfg op).trans h.1, coreStep_ok h.2 op⟩) ops k

/-- One operation of a run, seen from one entry. -/
theorem coreAt_entry (hlive : ((coreAt cfg ops (k + 1)).tbl i).key ≠ 0) :
    EntryStep ((coreAt cfg ops k).tbl i) ((coreAt cfg ops (k + 1)).tbl i) (releasedAt cfg ops k i) := by
  cases hop : ops[k]? with
  | none =>
    have hlen := List.getElem?_eq_none_iff.mp hop
    have hstay : coreAt cfg ops (k + 1) = coreAt cfg ops k := by
      rw [coreAt, coreAt, Machine.stateAt, Machine.stateAt, List.take_of_length_le hlen,
        List.take_of_length_le (Nat.le_succ_of_le hlen)]
    have hnone : (Machine.outputs coreStep (reorderInit cfg) ops)[k]? = none := by
      rwa [List.getElem?_eq_none_iff, Machine.length_outputs]
    rw [hstay, releasedAt, hnone]
    exact .refl _
  | some op =>
    have hnext : coreAt cfg ops (k + 1) = (coreStep (coreAt cfg ops k) op).1 := Machine.stateAt_succ _ _ hop
    rw [hnext] at hlive ⊢
    rw [releasedAt, Machine.outputs_getElem? _ _ hop]
    exact coreStep_entry (coreAt_ok cfg ops k).2 op hlive

theorem Lives.key_ne (h : Lives cfg ops i m n) (hmk : m ≤ k) (hkn : k ≤ n) : ((coreAt cfg ops k).tbl i).key ≠ 0 := by
  rw [h.2 k hmk hkn]
  exact h.1

theorem Lives.rests (h : Lives cfg ops i m n) (hmk : m ≤ k) (hkn : k ≤ n)
    (hno : ∀ l, k ≤ l → l < n → releasedAt cfg ops l i = none) :
    ((coreAt cfg ops n).tbl i).seqInit = ((coreAt cfg ops k).tbl i).seqInit ∧
      ((coreAt cfg ops n).tbl i).lastSeq = ((coreAt cfg ops k).tbl i).lastSeq := by
  induction n, hkn using Nat.le_induction with
  | base => exact ⟨rfl, rfl⟩
  | succ n hkn ih =>
    have hprev := ih ⟨h.1, fun l h1 h2 => h.2 l h1 (by omega)⟩ fun l h1 h2 => hno l h1 (by omega)
    have hstep := coreAt_entry (h.key_ne (show m ≤ n + 1 by omega) (Nat.le_refl _))
    rw [hno n hkn (Nat.lt_succ_self n)] at hstep
    cases hstep with
    | same _ hinit hlast => exact ⟨hinit.trans hprev.1, hlast.trans hprev.2⟩
    | born hkey _ =>
      have := h.2 n (by omega) (by omega)
      exact absurd ((h.2 (n + 1) (by omega) (Nat.le_refl _)).trans this.symm) hkey

theorem releasedAt_pick (h : releasedAt cfg ops k i = some s) :
    ∃ slot kind now, i < cfg.peers ∧ ((coreAt cfg ops k).tbl i).key ≠ 0 ∧
      reorderPick cfg ((coreAt cfg ops k).tbl i) now = some (slot, kind) ∧
      ((coreAt cfg ops k).tbl i).slots slot = s := by
  obtain ⟨⟨j, s'⟩, hmine, rfl⟩ := Option.map_eq_some_iff.mp h
  obtain ⟨hout, hj⟩ := Option.filter_eq_some_iff.mp hmine
  obtain rfl : j = i := by simpa using hj
  obtain ⟨op, -, htook⟩ := Machine.exists_input _ _ (Option.join_eq_some_iff.mp hout)
  cases op with
  | arrive d t =>
    rw [coreStep_arrive] at htook
    cases htook
  | nextReady t => cases htook
  | reset => cases htook
  | count st => cases htook
  | release t =>
    have hcfg := (coreAt_ok cfg ops k).1
    have hstep := rxRelease_step (coreAt cfg ops k) t
    change (rxRelease (coreAt cfg ops k) t).took = _ at htook
    generalize rxRelease (coreAt cfg ops k) t = r at hstep htook
    cases hstep with
    | nothing => cases htook
    | take j' slot kind hj' hkey hpick hslot hu =>
      cases htook
      rw [hcfg] at hj' hpick
      exact ⟨slot, kind, t, hj', hkey, hpick, rfl⟩

theorem releasedAt_ahead (h : releasedAt cfg ops k i = some s) :
    s ∈ ((coreAt cfg ops k).tbl i).held cfg ∧
      (((coreAt cfg ops k).tbl i).seqInit = true → 0 < seqCmp s.seq ((coreAt cfg ops k).tbl i).lastSeq) := by
  obtain ⟨slot, kind, now, hi, hkey, hpick, rfl⟩ := releasedAt_pick h
  obtain ⟨hcfg, hok⟩ := coreAt_ok cfg ops k
  obtain ⟨hslot, hu, -⟩ := reorderPick_cases hpick
  have hmem : ((coreAt cfg ops k).tbl i).slots slot ∈ ((coreAt cfg ops k).tbl i).held cfg :=
    Slots.mem_held_of (hcfg ▸ hslot) hu
  have hpk := hok.entries i (by rwa [hcfg]) hkey
  rw [hcfg] at hpk
  exact ⟨hmem, fun hinit => hpk.ahead hinit _ hmem⟩

theorem Lives.after_release (h : Lives cfg ops i m n) (hmk : m ≤ k) (hkn : k < n)
    (hs : releasedAt cfg ops k i = some s) :
    ((coreAt cfg ops (k + 1)).tbl i).seqInit = true ∧ ((coreAt cfg ops (k + 1)).tbl i).lastSeq = s.seq := by
  have hstep := coreAt_entry (h.key_ne (show m ≤ k + 1 by omega) (by omega))
  rw [hs] at hstep
  cases hstep with
  | took s _ hinit hlast _ => exact ⟨hinit, hlast⟩

theorem Lives.newborn {b : Nat} (h : Lives cfg ops i (b + 1) n)
    (hborn : ((coreAt cfg ops b).tbl i).key ≠ ((coreAt cfg ops (b + 1)).tbl i).key) :
    ((coreAt cfg ops (b + 1)).tbl i).seqInit = false := by
  have hstep := coreAt_entry h.1
  generalize releasedAt cfg ops b i = took at hstep
  cases hstep with
  | same hkey _ _ => exact absurd hkey.symm hborn
  | took s hkey _ _ _ => exact absurd hkey.symm hborn
  | born _ hinit => exact hinit

/-- The first release of a life is the serial minimum of what is held then. -/
theorem Lives.first_least {b : Nat} {base : U32} (h : Lives cfg ops i (b + 1) n) (hbn : b < n)
    (hborn : ((coreAt cfg ops b).tbl i).key ≠ ((coreAt cfg ops (b + 1)).tbl i).key)
    (hfirst : ∀ k, b < k → k < n → releasedAt cfg ops k i = none) (hs : releasedAt cfg ops n i = some s)
    (hspan : ((coreAt cfg ops n).tbl i).SpansFrom cfg base) :
    ∀ s' ∈ ((coreAt cfg ops n).tbl i).held cfg, 0 ≤ seqCmp s'.seq s.seq := by
  have hno : ((coreAt cfg ops n).tbl i).seqInit = false := by
    rw [(h.rests (Nat.le_refl _) hbn fun l h1 h2 => hfirst l h1 h2).1]
    exact h.newborn hborn
  obtain ⟨slot, kind, now, -, -, hpick, rfl⟩ := releasedAt_pick hs
  obtain ⟨-, -, ⟨-, -, hpf⟩ | ⟨-, hinit, -⟩ | ⟨-, hinit, -⟩⟩ := reorderPick_cases hpick
  · exact reorderPickFirst_least hpf hspan
  · rw [hno] at hinit
    cases hinit
  · rw [hno] at hinit
    cases hinit

/-- The cursor of an entry in use never moves back. -/
theorem Lives.cursor_forward (h : Lives cfg ops i k (k + 1)) (hinit : ((coreAt cfg ops k).tbl i).seqInit = true) :
    ((coreAt cfg ops (k + 1)).tbl i).seqInit = true ∧
      0 ≤ seqCmp ((coreAt cfg ops (k + 1)).tbl i).lastSeq ((coreAt cfg ops k).tbl i).lastSeq := by
  have hstep := coreAt_entry (h.key_ne (Nat.le_succ k) (Nat.le_refl _))
  generalize releasedAt cfg ops k i = took at hstep
  cases hstep with
  | same _ hi hl =>
    rw [hi, hl, seqCmp, Serial.cmp_self]
    exact ⟨hinit, Int.le_refl 0⟩
  | took s _ hi hl hahead =>
    rw [hl]
    exact ⟨hi, Int.le_of_lt (hahead hinit)⟩
  | born hkey _ => exact absurd (h.2 (k + 1) (Nat.le_succ k) (Nat.le_refl _)) hkey

end

/-- **Releases ascend.** In every run, during the life of an entry: each release is strictly ahead of the one
before it; the cursor never moves back, and every release takes something held that is ahead of it; and
when what is held at the first release spans less than half the circle, that release is its serial
minimum. -/
theorem reorder_release_ascending (cfg : ReorderCfg) (ops : List ReorderOp) (i : Nat) :
    (∀ m n s s', m < n → Lives cfg ops i m n → releasedAt cfg ops m i = some s → releasedAt cfg ops n i = some s' →
        (∀ k, m < k → k < n → releasedAt cfg ops k i = none) → 0 < seqCmp s'.seq s.seq) ∧
      (∀ k, Lives cfg ops i k (k + 1) → ((coreAt cfg ops k).tbl i).seqInit = true →
        ((coreAt cfg ops (k + 1)).tbl i).seqInit = true ∧
          0 ≤ seqCmp ((coreAt cfg ops (k + 1)).tbl i).lastSeq ((coreAt cfg ops k).tbl i).lastSeq) ∧
      (∀ k s, releasedAt cfg ops k i = some s → s ∈ ((coreAt cfg ops k).tbl i).held cfg ∧
        (((coreAt cfg ops k).tbl i).seqInit = true → 0 < seqCmp s.seq ((coreAt cfg ops k).tbl i).lastSeq)) ∧
      ∀ b n s base, b < n → ((coreAt cfg ops b).tbl i).key ≠ ((coreAt cfg ops (b + 1)).tbl i).key →
        Lives cfg ops i (b + 1) n → (∀ k, b < k → k < n → releasedAt cfg ops k i = none) →
          releasedAt cfg ops n i = some s → ((coreAt cfg ops n).tbl i).SpansFrom cfg base →
            ∀ s' ∈ ((coreAt cfg ops n).tbl i).held cfg, 0 ≤ seqCmp s'.seq s.seq := by
  refine ⟨fun m n s s' hmn hlife hs hs' hno => ?_, fun k => Lives.cursor_forward, fun k s => releasedAt_ahead,
    fun b n s base hbn hborn hlife => hlife.first_least hbn hborn⟩
  obtain ⟨hinit, hlast⟩ := hlife.after_release (Nat.le_refl m) hmn hs
  have hrest := hlife.rests (show m ≤ m + 1 by omega) hmn fun l h1 h2 => hno l h1 h2
  have hahead := (releasedAt_ahead hs').2 (hrest.1.trans hinit)
  rwa [hrest.2, hlast] at hahead

/-! ## The hooks drive the buffer so -/

/-- Every run of receive calls is a run of the buffer, and what that releases is handed to the game. -/
theorem recvRun_core (cfg : ReorderCfg) (drain : Nat) (calls : List RecvCall) :
    ∃ ops, (Machine.final hookedWSARecvFrom (rxInit cfg drain) calls).rx = Machine.final coreStep (reorderInit cfg) ops ∧
      List.Sublist ((Machine.outputs coreStep (reorderInit cfg) ops).filterMap fun r => r.map fun s => s.2.pkt)
        (handedOf (Machine.outputs hookedWSARecvFrom (rxInit cfg drain) calls)) := by
  have hkept : Kept (fun _ _ => True) fun c _ H => ∃ ops, c = Machine.final coreStep (reorderInit cfg) ops ∧
      List.Sublist ((Machine.outputs coreStep (reorderInit cfg) ops).filterMap fun r => r.map fun s => s.2.pkt) H := by
    constructor
    · rintro _ T H st - - - - ⟨ops, rfl, hsub⟩
      exact ⟨ops ++ [.count st], by rw [Machine.final_concat]; rfl, by
        rw [Machine.outputs_concat, List.filterMap_append]
        simpa using hsub⟩
    · rintro c T H d - - ⟨ops, hc, hsub⟩
      exact ⟨ops, hc, hsub.trans (List.sublist_append_left _ _)⟩
    · rintro _ T H d t - - hsat ⟨ops, rfl, hsub⟩
      refine ⟨ops ++ [.arrive d t], ?_, ?_⟩
      · rw [Machine.final_concat, coreStep_arrive, hsat]
        rfl
      · rw [Machine.outputs_concat, List.filterMap_append]
        simpa using hsub.trans (List.sublist_append_left _ _)
    · rintro _ T H t ⟨ops, rfl, hsub⟩
      refine ⟨ops ++ [.release t], ?_, ?_⟩
      · rw [Machine.final_concat]
        rfl
      · rw [Machine.outputs_concat, List.filterMap_append]
        have hout : ∀ r : Released, List.filterMap (fun r => r.map fun s : Nat × ReorderSlot => s.2.pkt) [r.took] =
            r.out.toList := by
          rintro ⟨c, took⟩
          cases took <;> rfl
        exact hsub.append ((hout _).symm ▸ List.Sublist.refl _)
  have hrun := recvRun_inv hkept calls (rxInit cfg drain) (fun _ _ => trivial) (T := []) (H := [])
    ⟨[], rfl, List.nil_sublist _⟩
  simpa using hrun

end BzNet
