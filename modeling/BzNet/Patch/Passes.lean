import BzNet.Globals.Band
import BzNet.Patch.Threads

/-!
# The thread of the table makes passes

Whatever the game does in between, the thread of the table goes through a run of `netPatchPoll`, each pass on the values
that it has loaded one after the other. No memory need ever have held these values together.

* `netAccesses` : the accesses for a list of passes;
* `PassesOk`, `netMove_ok` : what the thread has done in each phase, up to a part of the last pass;
* `mem_netAccesses`, `firstBy_netAccesses`, `lastBy_netAccesses` : what it stores, what it has loaded first, and with what
  it ends.
-/

namespace BzNet

open Machine (final outputs)

variable {c : PatchCfg} {t : List NetGlobal} {g : NetGlobal} {m : Memory}

/-! ## The accesses -/

/-- The accesses of a pass to an entry that has `live` at its address. -/
def ngAccesses (g : NetGlobal) (live : U32) : List PatchAccess :=
  if g.want = 0 ∨ g.state = .vetoed then []
  else ⟨.net, false, g.va, live⟩ :: if (ngAssert g live).2.isSome then [⟨.net, true, g.va, g.want⟩] else []

theorem not_idle {live : U32} (h : (ngAssert g live).2.isSome = true) : ¬ (g.want = 0 ∨ g.state = .vetoed) := fun hidle => by
  rw [ngAssert_idle hidle] at h
  exact Bool.false_ne_true h

theorem ngAssert_differs {live : U32} (h : (ngAssert g live).2.isSome = true) : live ≠ g.want := by
  intro heq
  unfold ngAssert at h
  rw [if_neg (not_idle h)] at h
  split at h
  · exact Bool.false_ne_true h
  · dsimp only at h
    rw [if_neg (not_not_intro heq)] at h
    exact Bool.false_ne_true h

theorem ngAccesses_stores {live : U32} (h : (ngAssert g live).2.isSome = true) :
    ngAccesses g live = [⟨.net, false, g.va, live⟩, ⟨.net, true, g.va, g.want⟩] := by
  rw [ngAccesses, if_neg (not_idle h), if_pos h]

/-- The accesses of a pass that loads the words as in `m`. -/
def passAccesses (t : List NetGlobal) (m : Memory) : List PatchAccess := t.flatMap fun g => ngAccesses g (m g.va)

def netAccesses (t : List NetGlobal) : List Memory → List PatchAccess
  | [] => []
  | m :: ms => passAccesses t m ++ netAccesses (netPatchPoll t m).1 ms

theorem netAccesses_concat (t : List NetGlobal) (ms : List Memory) (m : Memory) :
    netAccesses t (ms ++ [m]) = netAccesses t ms ++ passAccesses (final netPatchPoll t ms) m := by
  induction ms generalizing t with
  | nil => exact (List.append_nil _).trans (List.nil_append _).symm
  | cons m' ms ih =>
    rw [List.cons_append, netAccesses, ih, netAccesses, List.append_assoc, Machine.final_cons]

theorem passAccesses_concat (t : List NetGlobal) (g : NetGlobal) (m : Memory) :
    passAccesses (t ++ [g]) m = passAccesses t m ++ ngAccesses g (m g.va) := by
  rw [passAccesses, List.flatMap_append, List.flatMap_singleton]
  rfl

/-- Only the words of the entries matter. -/
theorem passAccesses_congr {m m' : Memory} (h : ∀ g ∈ t, m g.va = m' g.va) : passAccesses t m = passAccesses t m' :=
  List.flatMap_congr fun g hg => by rw [h g hg]

/-! ## The table of a pass -/

/-- Where an entry stands, and what is requested of it. -/
def NetGlobal.request (g : NetGlobal) : U32 × U32 := (g.va, g.want)

theorem netGlobalsApply_request (t : List NetGlobal) (m : Memory) :
    (netGlobalsApply t m).entries.map NetGlobal.request = t.map NetGlobal.request := by
  induction t generalizing m with
  | nil => rfl
  | cons g t ih =>
    obtain ⟨hva, hwant⟩ := ngAssert_keeps g (m g.va)
    rw [netGlobalsApply, List.map_cons, ih, List.map_cons, NetGlobal.request, hva, hwant]
    rfl

theorem netGlobalsApply_notable (t : List NetGlobal) (m : Memory) :
    (netGlobalsApply t m).notable = (t.filter ngNotable).length := by
  induction t generalizing m with
  | nil => rfl
  | cons g t ih =>
    rw [netGlobalsApply, List.filter_cons]
    dsimp only
    rw [ih]
    cases ngNotable g with
    | true =>
      rw [if_pos rfl, if_pos rfl, List.length_cons]
      omega
    | false =>
      rw [if_neg Bool.false_ne_true, if_neg Bool.false_ne_true]
      omega

theorem netPatchPoll_request (t : List NetGlobal) (m : Memory) :
    (netPatchPoll t m).1.map NetGlobal.request = t.map NetGlobal.request := by
  unfold netPatchPoll
  dsimp only
  split
  · rw [List.map_map]
    exact netGlobalsApply_request t m
  · exact netGlobalsApply_request t m

theorem final_request (t : List NetGlobal) (ms : List Memory) :
    (final netPatchPoll t ms).map NetGlobal.request = t.map NetGlobal.request :=
  Machine.final_inv (P := fun u => u.map NetGlobal.request = t.map NetGlobal.request) rfl
    (fun u m hu => (netPatchPoll_request u m).trans hu) ms

theorem final_va (t : List NetGlobal) (ms : List Memory) :
    (final netPatchPoll t ms).map NetGlobal.va = t.map NetGlobal.va := by
  have h := congrArg (List.map Prod.fst) (final_request t ms)
  rwa [List.map_map, List.map_map] at h

theorem mem_final {ms : List Memory} (hg : g ∈ final netPatchPoll t ms) : ∃ g' ∈ t, g'.va = g.va ∧ g'.want = g.want := by
  have hmem := List.mem_map_of_mem (f := NetGlobal.request) hg
  rw [final_request] at hmem
  obtain ⟨g', hg', heq⟩ := List.mem_map.mp hmem
  exact ⟨g', hg', congrArg Prod.fst heq, congrArg Prod.snd heq⟩

theorem netPatchPoll_eq (hd : (t.map NetGlobal.va).Nodup) (m : Memory) :
    (netPatchPoll t m).1 =
      if 0 < (t.filter ngNotable).length then (t.map fun g => (ngAssert g (m g.va)).1).map ({ · with changed := false })
      else t.map fun g => (ngAssert g (m g.va)).1 := by
  obtain ⟨hentries, -⟩ := netGlobalsApply_pointwise hd m
  unfold netPatchPoll
  dsimp only
  rw [hentries, netGlobalsApply_notable]

/-! ## The phases -/

/-- What the thread of the table has done by each phase. -/
def PassesOk (c : PatchCfg) (mine : List PatchAccess) : NetPhase → Prop
  | .asleep => mine = []
  | .polling t => ∃ ms, t = final netPatchPoll c.table ms ∧ mine = netAccesses c.table ms
  | .walking done rest notable => ∃ ms pre m, final netPatchPoll c.table ms = pre ++ rest ∧
      done = pre.map (fun g => (ngAssert g (m g.va)).1) ∧ notable = (pre.filter ngNotable).length ∧
      mine = netAccesses c.table ms ++ passAccesses pre m
  | .storing done g rest notable => ∃ ms pre g₀ m, final netPatchPoll c.table ms = pre ++ g₀ :: rest ∧
      done = pre.map (fun g => (ngAssert g (m g.va)).1) ∧ g = (ngAssert g₀ (m g₀.va)).1 ∧
      notable = ((pre ++ [g₀]).filter ngNotable).length ∧ (ngAssert g₀ (m g₀.va)).2.isSome = true ∧
      mine = netAccesses c.table ms ++ passAccesses pre m ++ [⟨.net, false, g₀.va, m g₀.va⟩]
  | .returned => ∃ ms, mine = netAccesses c.table ms

theorem seen_extend {pre rest : List NetGlobal} {g : NetGlobal} (hd : ((pre ++ g :: rest).map NetGlobal.va).Nodup)
    (m : Memory) (live : U32) :
    ∃ m' : Memory, m' g.va = live ∧ ∀ g' ∈ pre, m' g'.va = m g'.va := by
  refine ⟨Function.update m g.va live, Function.update_self _ _ _, fun g' hg' => Function.update_of_ne ?_ _ _⟩
  rw [List.map_append, List.map_cons] at hd
  intro heq
  exact (List.nodup_append.mp hd).2.2 _ (List.mem_map_of_mem hg') _ List.mem_cons_self heq

theorem count_notable_concat (pre : List NetGlobal) (g : NetGlobal) :
    ((pre ++ [g]).filter ngNotable).length = (pre.filter ngNotable).length + if ngNotable g then 1 else 0 := by
  rw [List.filter_append, List.length_append, List.filter_singleton]
  cases ngNotable g <;> rfl

/-- **A move of the thread of the table.** -/
theorem netMove_ok {mine : List PatchAccess} {phase : NetPhase} (hd : (c.table.map NetGlobal.va).Nodup)
    (h : PassesOk c mine phase) (main : Option PeImage) (stop : Bool) (m₀ : Memory) :
    PassesOk c (mine ++ (netMove c main stop m₀ phase).2.toList) (netMove c main stop m₀ phase).1 := by
  have hva : ∀ ms, ((final netPatchPoll c.table ms).map NetGlobal.va).Nodup := fun ms => by rwa [final_va]
  cases phase with
  | asleep =>
    have hnone : mine ++ [] = netAccesses c.table [] := (List.append_nil mine).trans h
    rw [netMove]
    split
    · exact ⟨[], hnone⟩
    · split
      · exact ⟨[], rfl, hnone⟩
      · exact ⟨[], hnone⟩
  | polling t =>
    obtain ⟨ms, ht, hmine⟩ := h
    have hnone : mine ++ [] = netAccesses c.table ms := (List.append_nil mine).trans hmine
    rw [netMove]
    split
    · exact ⟨ms, hnone⟩
    · exact ⟨ms, [], m₀, ht.symm, rfl, rfl, hnone.trans (List.append_nil _).symm⟩
  | walking done rest notable =>
    obtain ⟨ms, pre, m, htable, hdone, hnotable, hmine⟩ := h
    have hnone : mine ++ [] = netAccesses c.table ms ++ passAccesses pre m := (List.append_nil mine).trans hmine
    cases rest with
    | nil =>
      rw [List.append_nil] at htable
      refine ⟨ms ++ [m], ?_, ?_⟩
      · rw [Machine.final_concat, netPatchPoll_eq (hva ms), htable, hnotable, hdone]
      · rw [netAccesses_concat, htable]
        exact hnone
    | cons g rest =>
      have hnext : final netPatchPoll c.table ms = (pre ++ [g]) ++ rest := by
        rw [htable, List.append_assoc, List.singleton_append]
      rw [netMove]
      by_cases hidle : g.want = 0 ∨ g.state = .vetoed
      · rw [if_pos hidle]
        have hquiet : ngNotable g = false := decide_eq_false fun hn => by
          rcases hidle with hw | hv
          · exact hn.1 hw
          · exact absurd (hn.2.symm.trans hv) (by decide)
        refine ⟨ms, pre ++ [g], m, hnext, ?_, ?_, ?_⟩
        · rw [List.map_append, ← hdone, List.map_singleton, ngAssert_idle hidle]
        · rw [count_notable_concat, hquiet, hnotable]
          rfl
        · rw [passAccesses_concat, ngAccesses, if_pos hidle, List.append_nil]
          exact hnone
      · rw [if_neg hidle]
        obtain ⟨m', hlive, hsame⟩ := seen_extend (htable ▸ hva ms) m (m₀ g.va)
        have hdone' : done = pre.map fun g => (ngAssert g (m' g.va)).1 := by
          rw [hdone]
          exact List.map_congr_left fun g' hg' => by rw [hsame g' hg']
        have hmine' : mine = netAccesses c.table ms ++ passAccesses pre m' := by
          rw [hmine, passAccesses_congr hsame]
        have hcount := count_notable_concat pre g
        rw [← hnotable] at hcount
        dsimp only
        by_cases hstores : (ngAssert g (m₀ g.va)).2.isSome = true
        · rw [if_pos hstores]
          exact ⟨ms, pre, g, m', htable, hdone', by rw [hlive], hcount.symm, by rwa [hlive],
            by rw [hlive, ← hmine']; rfl⟩
        · rw [if_neg hstores]
          refine ⟨ms, pre ++ [g], m', hnext, ?_, hcount.symm, ?_⟩
          · rw [List.map_append, ← hdone', List.map_singleton, hlive]
          · rw [passAccesses_concat, ngAccesses, if_neg hidle, hlive, if_neg hstores, ← List.append_assoc, ← hmine']
            rfl
  | storing done g rest notable =>
    obtain ⟨ms, pre, g₀, m, htable, hdone, hg, hnotable, hstores, hmine⟩ := h
    refine ⟨ms, pre ++ [g₀], m, ?_, ?_, hnotable, ?_⟩
    · rw [htable, List.append_assoc, List.singleton_append]
    · rw [List.map_append, ← hdone, List.map_singleton, hg]
    · obtain ⟨hgva, hgwant⟩ := ngAssert_keeps g₀ (m g₀.va)
      rw [passAccesses_concat, ngAccesses_stores hstores, hmine, hg, netMove, hgva, hgwant]
      simp only [Option.toList_some, List.append_assoc, List.cons_append, List.nil_append]
  | returned =>
    obtain ⟨ms, hmine⟩ := h
    exact ⟨ms, (List.append_nil mine).trans hmine⟩

/-! ## What the passes come to -/

/-- At each phase the accesses are the beginning of those of some passes. -/
theorem PassesOk.prefix {mine : List PatchAccess} {phase : NetPhase} (h : PassesOk c mine phase) :
    ∃ ms, mine <+: netAccesses c.table ms := by
  cases phase with
  | asleep => exact ⟨[], h ▸ List.nil_prefix⟩
  | polling t =>
    obtain ⟨ms, -, hmine⟩ := h
    exact ⟨ms, hmine ▸ List.prefix_rfl⟩
  | walking done rest notable =>
    obtain ⟨ms, pre, m, htable, -, -, hmine⟩ := h
    refine ⟨ms ++ [m], ?_⟩
    rw [netAccesses_concat, htable, hmine, passAccesses, passAccesses, List.flatMap_append, ← List.append_assoc]
    exact List.prefix_append _ _
  | storing done g rest notable =>
    obtain ⟨ms, pre, g₀, m, htable, -, -, -, hstores, hmine⟩ := h
    refine ⟨ms ++ [m], [⟨.net, true, g₀.va, g₀.want⟩] ++ passAccesses rest m, ?_⟩
    rw [netAccesses_concat, htable, hmine]
    unfold passAccesses
    rw [List.flatMap_append, List.flatMap_cons, ngAccesses_stores hstores]
    simp only [List.append_assoc, List.cons_append, List.nil_append]
  | returned =>
    obtain ⟨ms, hmine⟩ := h
    exact ⟨ms, hmine ▸ List.prefix_rfl⟩

theorem mem_ngAccesses {live : U32} {x : PatchAccess} (h : x ∈ ngAccesses g live) :
    x.who = .net ∧ x.addr = g.va ∧ g.want ≠ 0 ∧
      (x.store = true → (ngAssert g live).2.isSome = true ∧ x.value = g.want) := by
  unfold ngAccesses at h
  split at h
  · exact absurd h List.not_mem_nil
  · next hbusy =>
    have hw := (not_or.mp hbusy).1
    rcases List.mem_cons.mp h with rfl | h
    · exact ⟨rfl, rfl, hw, fun hstore => absurd hstore Bool.false_ne_true⟩
    · split at h
      · next hstores =>
        obtain rfl := List.mem_singleton.mp h
        exact ⟨rfl, rfl, hw, fun _ => ⟨hstores, rfl⟩⟩
      · exact absurd h List.not_mem_nil

theorem passAccesses_at (hd : (t.map NetGlobal.va).Nodup) (hg : g ∈ t) (m : Memory) :
    (passAccesses t m).filter (fun x => x.addr = g.va) = ngAccesses g (m g.va) := by
  have hother : ∀ u : List NetGlobal, (∀ g' ∈ u, g'.va ≠ g.va) →
      (passAccesses u m).filter (fun x => x.addr = g.va) = [] := by
    intro u hu
    rw [List.filter_eq_nil_iff]
    intro x hx haddr
    obtain ⟨g', hg', hin⟩ := List.mem_flatMap.mp hx
    exact hu g' hg' ((mem_ngAccesses hin).2.1.symm.trans (of_decide_eq_true haddr))
  obtain ⟨pre, post, rfl⟩ := List.append_of_mem hg
  rw [List.map_append, List.map_cons, List.nodup_append, List.nodup_cons] at hd
  have hpre := hother pre fun g' hg' heq => hd.2.2 _ (List.mem_map_of_mem hg') _ List.mem_cons_self heq
  have hpost := hother post fun g' hg' heq => hd.2.1.1 (heq ▸ List.mem_map_of_mem hg')
  unfold passAccesses at hpre hpost ⊢
  rw [List.flatMap_append, List.flatMap_cons, List.filter_append, List.filter_append, hpre, hpost, List.nil_append,
    List.append_nil, List.filter_eq_self]
  exact fun x hx => decide_eq_true (mem_ngAccesses hx).2.1

variable {first : Memory} {rest : List Memory}

/-- After the first pass the table does not change any more. -/
theorem netAccesses_settled (hd : (t.map NetGlobal.va).Nodup) (hf : ∀ g ∈ t, g.Fresh) (first : Memory) (rest : List Memory) :
    netAccesses t (first :: rest) =
      passAccesses t first ++ rest.flatMap fun m => passAccesses (t.map (ngSettle first)) m := by
  rw [netAccesses, poll_first hd hf]
  congr 1
  induction rest with
  | nil => rfl
  | cons m rest ih => rw [netAccesses, poll_settled hd hf, ih, List.flatMap_cons]

/-- What the passes store: the requested value, to an entry that was found plausible. -/
theorem mem_netAccesses (hd : (t.map NetGlobal.va).Nodup) (hf : ∀ g ∈ t, g.Fresh) {x : PatchAccess}
    (hx : x ∈ netAccesses t (first :: rest)) :
    x.who = .net ∧ ∃ g ∈ t, x.addr = g.va ∧ g.want ≠ 0 ∧ (x.store = true → Asserted first g ∧ x.value = g.want) := by
  rw [netAccesses_settled hd hf, List.mem_append, List.mem_flatMap] at hx
  rcases hx with hx | ⟨m, -, hx⟩
  · obtain ⟨g, hg, hx⟩ := List.mem_flatMap.mp hx
    obtain ⟨hwho, haddr, hw, hstore⟩ := mem_ngAccesses hx
    refine ⟨hwho, g, hg, haddr, hw, fun hs => ?_⟩
    obtain ⟨hsome, hvalue⟩ := hstore hs
    rw [ngAssert_fresh (hf g hg).1] at hsome
    split at hsome
    · next hc => exact ⟨hc.1, hvalue⟩
    · cases hsome
  · obtain ⟨g', hg', hx⟩ := List.mem_flatMap.mp hx
    obtain ⟨g, hg, rfl⟩ := List.mem_map.mp hg'
    obtain ⟨hwho, haddr, hw, hstore⟩ := mem_ngAccesses hx
    refine ⟨hwho, g, hg, haddr.trans (ngSettle_va first g), (ngAssert_keeps g _).2 ▸ hw, fun hs => ?_⟩
    obtain ⟨hsome, hvalue⟩ := hstore hs
    rw [ngAssert_settled (hf g hg).1] at hsome
    split at hsome
    · next hc => exact ⟨hc.1, hvalue.trans (ngAssert_keeps g _).2⟩
    · cases hsome

theorem firstBy_netAccesses (hd : (t.map NetGlobal.va).Nodup) (hf : ∀ g ∈ t, g.Fresh) (hg : g ∈ t) (hw : g.want ≠ 0) :
    Shared.firstBy .net g.va (netAccesses t (first :: rest)) = some ⟨.net, false, g.va, first g.va⟩ := by
  have hmine : ∀ x ∈ netAccesses t (first :: rest), x.who = .net := fun x hx => (mem_netAccesses hd hf hx).1
  have hfilter : (netAccesses t (first :: rest)).filter (fun x => x.who = .net ∧ x.addr = g.va) =
      (netAccesses t (first :: rest)).filter fun x => x.addr = g.va :=
    List.filter_congr fun x hx => by rw [hmine x hx, decide_eq_decide]; exact and_iff_right rfl
  have hbusy : ¬ (g.want = 0 ∨ g.state = .vetoed) :=
    not_or.mpr ⟨hw, fun hv => absurd ((hf g hg).1.symm.trans hv) (by decide)⟩
  rw [Shared.firstBy_eq_head?, hfilter, netAccesses, List.filter_append, passAccesses_at hd hg, ngAccesses, if_neg hbusy,
    List.cons_append, List.head?_cons]

theorem lastBy_netAccesses (hd : (t.map NetGlobal.va).Nodup) (hf : ∀ g ∈ t, g.Fresh) (hg : g ∈ t) (ha : Asserted first g) :
    ∃ x, Shared.lastBy .net g.va (netAccesses t (first :: rest)) = some x ∧ x.value = g.want := by
  have hmine : ∀ x ∈ netAccesses t (first :: rest), x.who = .net := fun x hx => (mem_netAccesses hd hf hx).1
  have hfilter : (netAccesses t (first :: rest)).filter (fun x => x.who = .net ∧ x.addr = g.va) =
      (netAccesses t (first :: rest)).filter fun x => x.addr = g.va :=
    List.filter_congr fun x hx => by rw [hmine x hx, decide_eq_decide]; exact and_iff_right rfl
  have hlast : ∀ g' live, g'.want = g.want → ¬ (g'.want = 0 ∨ g'.state = .vetoed) →
      (ngAssert g' live).2 = (if Asserted first g ∧ live ≠ g.want then some g.want else none) →
      ∃ x, (ngAccesses g' live).getLast? = some x ∧ x.value = g.want := by
    intro g' live hwant hbusy hans
    by_cases hlive : live = g.want
    · rw [if_neg fun hc => hc.2 hlive] at hans
      rw [ngAccesses, if_neg hbusy, hans]
      exact ⟨_, rfl, hlive⟩
    · rw [if_pos ⟨ha, hlive⟩] at hans
      rw [ngAccesses, if_neg hbusy, hans]
      exact ⟨_, rfl, hwant⟩
  rw [Shared.lastBy_eq_getLast?, hfilter, netAccesses_settled hd hf, List.filter_append]
  rcases List.eq_nil_or_concat rest with rfl | ⟨rest, m, rfl⟩
  · rw [List.flatMap_nil, List.filter_nil, List.append_nil, passAccesses_at hd hg]
    exact hlast g _ rfl (not_or.mpr ⟨ha.1, fun hv => absurd ((hf g hg).1.symm.trans hv) (by decide)⟩)
      (ngAssert_fresh (hf g hg).1)
  · have hd' : ((t.map (ngSettle first)).map NetGlobal.va).Nodup := by
      rw [List.map_map]
      rwa [List.map_congr_left fun g _ => show (NetGlobal.va ∘ ngSettle first) g = g.va from ngSettle_va first g]
    have hat := passAccesses_at hd' (List.mem_map_of_mem hg) m
    rw [ngSettle_va] at hat
    have hwant : (ngSettle first g).want = g.want := (ngAssert_keeps g _).2
    have hstate : (ngSettle first g).state = .applied := by rw [ngSettle, ngAssert_accept (hf g hg).1 ha]
    have hsettled := congrArg Prod.snd (@ngAssert_settled _ first (hf g hg).1 (m g.va))
    obtain ⟨x, hx, hvalue⟩ := hlast (ngSettle first g) (m g.va) hwant
      (not_or.mpr ⟨hwant ▸ ha.1, fun hv => absurd (hstate.symm.trans hv) (by decide)⟩) hsettled
    refine ⟨x, ?_, hvalue⟩
    rw [List.concat_eq_append, List.flatMap_append, List.flatMap_singleton, List.filter_append, hat, ← List.append_assoc,
      List.getLast?_append, hx]
    rfl

/-- **Whatever the thread accesses** is an entry of the table that a value is requested of, and it stores nothing but that,
and only where the value it loaded first was plausible. -/
theorem PassesOk.access {mine : List PatchAccess} {phase : NetPhase} (h : PassesOk c mine phase)
    (hd : (c.table.map NetGlobal.va).Nodup) (hf : ∀ g ∈ c.table, g.Fresh) {x : PatchAccess} (hx : x ∈ mine) :
    ∃ g ∈ c.table, ∃ v, x.addr = g.va ∧ g.want ≠ 0 ∧
      Shared.firstBy .net g.va mine = some ⟨.net, false, g.va, v⟩ ∧
      (x.store = true → g.lo ≤ v ∧ v ≤ g.hi ∧ x.value = g.want) := by
  obtain ⟨ms, more, hall⟩ := h.prefix
  have hmem : x ∈ netAccesses c.table ms := hall ▸ List.mem_append_left more hx
  cases ms with
  | nil => exact absurd hmem List.not_mem_nil
  | cons first rest =>
    obtain ⟨hwho, g, hg, haddr, hw, hstore⟩ := mem_netAccesses hd hf hmem
    refine ⟨g, hg, first g.va, haddr, hw, ?_, fun hs => ?_⟩
    · have hfirst : Shared.firstBy .net g.va (netAccesses c.table (first :: rest)) = some ⟨.net, false, g.va, first g.va⟩ :=
        firstBy_netAccesses hd hf hg hw
      obtain ⟨y, hy⟩ : ∃ y, Shared.firstBy .net g.va mine = some y :=
        Option.isSome_iff_exists.mp (List.find?_isSome.mpr ⟨x, hx, decide_eq_true ⟨hwho, haddr⟩⟩)
      rw [← hall, Shared.firstBy, List.find?_append] at hfirst
      rw [Shared.firstBy] at hy ⊢
      rwa [hy, Option.some_or, ← hy] at hfirst
    · obtain ⟨⟨-, hlo, hhi⟩, hvalue⟩ := hstore hs
      exact ⟨hlo, hhi, hvalue⟩

end BzNet
