import BzNet.Reorder.Ready

/-!
# Nobody starves

The scan for a packet to release starts behind the entry served last. The distance from there to an entry that has
something to release shrinks with every release that serves another one (`release_distance`), so no more releases
than that can pass it by.
-/

namespace BzNet

open Machine

variable {c : ReorderCtx} {i : Nat}

/-! ## The distance -/

section Distance
variable {p rr : Nat}

theorem scanDistance_lt (rr i : Nat) (hp : 0 < p) : scanDistance p rr i < p := Nat.mod_lt _ hp

theorem scanDistance_unique (hi : i < p) {n : Nat} (hn : n < p) (h : (rr + n) % p = i) : scanDistance p rr i = n := by
  have hlt := scanDistance_lt rr i (Nat.lt_of_le_of_lt (Nat.zero_le n) hn)
  have hmod : scanDistance p rr i ≡ n [MOD p] :=
    Nat.ModEq.add_left_cancel' rr ((scanDistance_reaches rr hi).trans h.symm)
  rwa [Nat.ModEq, Nat.mod_eq_of_lt hlt, Nat.mod_eq_of_lt hn] at hmod

theorem scanDistance_next (hi : i < p) {n : Nat} (hn : n < scanDistance p rr i) :
    scanDistance p (((rr + n) % p + 1) % p) i = scanDistance p rr i - (n + 1) := by
  have hlt := scanDistance_lt rr i (Nat.lt_of_le_of_lt (Nat.zero_le i) hi)
  refine scanDistance_unique hi (by omega) ?_
  have hnext : ((rr + n) % p + 1) % p = (rr + (n + 1)) % p := by rw [Nat.mod_add_mod, Nat.add_assoc]
  have hsum : rr + (n + 1) + (scanDistance p rr i - (n + 1)) = rr + scanDistance p rr i := by omega
  rw [hnext, Nat.mod_add_mod, hsum]
  exact scanDistance_reaches rr hi

end Distance

/-! ## One operation -/

/-- An entry that has something to release is served, or another one is and this one is nearer. -/
theorem release_distance (hi : i < c.cfg.peers) (hkey : (c.tbl i).key ≠ 0) {t : U64}
    (hready : (reorderPick c.cfg (c.tbl i) t).isSome = true) :
    ∃ j s, (rxRelease c t).took = some (j, s) ∧
      (j = i ∨ scanDistance c.cfg.peers (rxRelease c t).ctx.rr i < scanDistance c.cfg.peers c.rr i) := by
  obtain ⟨pick, hpick⟩ := Option.isSome_iff_exists.mp hready
  have hd := scanDistance_lt c.rr i c.cfg.peers_pos
  cases hscan : reorderNextReady c t with
  | none =>
    have hnone := List.findSome?_eq_none_iff.mp hscan _ (List.mem_range.mpr hd)
    dsimp only at hnone
    rw [scanDistance_reaches c.rr hi, if_neg hkey, hpick] at hnone
    cases hnone
  | some r =>
    obtain ⟨c', j, slot, kind⟩ := r
    obtain ⟨n, -, hn, hbefore⟩ := Slots.scan_some hscan
    -- entry `i` would have been found had the scan gone past it
    have hle : n ≤ scanDistance c.cfg.peers c.rr i := by
      by_contra hgt
      have hnone := hbefore _ (Nat.lt_of_not_le hgt)
      rw [scanDistance_reaches c.rr hi, if_neg hkey, hpick] at hnone
      cases hnone
    obtain ⟨hctx, -, -, -⟩ := reorderNextReady_eq hscan
    have hj : j = (c.rr + n) % c.cfg.peers := by
      dsimp only at hn
      split at hn
      · cases hn
      · obtain ⟨s', -, heq⟩ := Option.map_eq_some_iff.mp hn
        cases heq
        rfl
    unfold rxRelease
    rw [hscan]
    refine ⟨j, _, rfl, ?_⟩
    rcases Nat.lt_or_eq_of_le hle with hlt | heq
    · right
      change scanDistance c.cfg.peers c'.rr i < _
      rw [hctx]
      change scanDistance c.cfg.peers ((j + 1) % c.cfg.peers) i < _
      rw [hj, scanDistance_next hi hlt]
      omega
    · left
      rw [hj, heq]
      exact scanDistance_reaches c.rr hi

theorem rxArrive_rr (c : ReorderCtx) (d : Datagram) (t : U64) : (rxArrive c d t).ctx.rr = c.rr := by
  rcases reorderGetPeer_cases c d.src t with ⟨-, hget⟩ | ⟨i, pb, lost, st, -, -, hget, -⟩
  · unfold rxArrive
    rw [hget]
  · unfold rxArrive
    rw [hget]
    simp only
    split
    · rfl
    · rfl

/-! ## A stretch of releases -/

/-- Arrivals, releases and counting: what may happen between two resets. -/
def ReorderOp.isTraffic : ReorderOp → Bool
  | .arrive _ _ => true
  | .release _ => true
  | .nextReady _ => false
  | .reset => false
  | .count _ => true

def ReorderOp.isRelease : ReorderOp → Bool
  | .release _ => true
  | _ => false

def AlwaysReady (i : Nat) (c : ReorderCtx) (ops : List ReorderOp) : Prop :=
  ∀ k t, ops[k]? = some (.release t) →
    ((stateAt reorderStep c ops k).tbl i).key ≠ 0 ∧
      (reorderPick (stateAt reorderStep c ops k).cfg ((stateAt reorderStep c ops k).tbl i) t).isSome = true

theorem AlwaysReady.tail {op : ReorderOp} {ops : List ReorderOp} (h : AlwaysReady i c (op :: ops)) :
    AlwaysReady i (reorderStep c op).1 ops :=
  fun k t hk => h (k + 1) t hk

/-- Without a release of entry `i` there are no more releases than the distance of the scan to it. -/
theorem releases_le_distance {ops : List ReorderOp} (hi : i < c.cfg.peers) (htraffic : ∀ op ∈ ops, op.isTraffic = true)
    (hready : AlwaysReady i c ops)
    (hother : ∀ j s, some (j, s) ∈ outputs reorderStep c ops → j ≠ i) :
    (ops.filter ReorderOp.isRelease).length ≤ scanDistance c.cfg.peers c.rr i := by
  induction ops generalizing c with
  | nil => exact Nat.zero_le _
  | cons op ops ih =>
    have hrest := @ih (reorderStep c op).1 (by rwa [reorderStep_cfg])
      (fun o ho => htraffic o (List.mem_cons_of_mem _ ho)) hready.tail
      fun j s hs => hother j s (List.mem_cons_of_mem _ hs)
    rw [reorderStep_cfg] at hrest
    cases op with
    | arrive d t =>
      change _ ≤ scanDistance c.cfg.peers (rxArrive c d t).ctx.rr i at hrest
      rwa [rxArrive_rr] at hrest
    | release t =>
      obtain ⟨hkey, hpick⟩ := hready 0 t rfl
      rw [stateAt_zero] at hkey hpick
      obtain ⟨j, s, htook, hserved⟩ := release_distance hi hkey hpick
      have hne : j ≠ i := hother j s (by rw [outputs]; exact List.mem_cons.mpr (Or.inl htook.symm))
      have hnear := hserved.resolve_left hne
      change _ ≤ scanDistance c.cfg.peers (rxRelease c t).ctx.rr i at hrest
      rw [List.filter_cons_of_pos rfl, List.length_cons]
      omega
    | nextReady t => exact absurd (htraffic _ List.mem_cons_self) Bool.false_ne_true
    | reset => exact absurd (htraffic _ List.mem_cons_self) Bool.false_ne_true
    | count st => exact hrest

/-- **Round robin.** From any reachable state, in a stretch of at least as many releases as there are entries, with
any arrivals between them and no reset, an entry that is in use and has something to release at every one of the
releases is served. -/
theorem reorder_roundRobin (cfg : ReorderCfg) (before stretch : List ReorderOp) (i : Nat) (hi : i < cfg.peers)
    (htraffic : ∀ op ∈ stretch, op.isTraffic = true)
    (hmany : cfg.peers ≤ (stretch.filter ReorderOp.isRelease).length)
    (hready : AlwaysReady i (final reorderStep (reorderInit cfg) before) stretch) :
    ∃ s, some (i, s) ∈ outputs reorderStep (final reorderStep (reorderInit cfg) before) stretch := by
  have hcfg := (reorder_reachable_ok cfg before).1
  by_contra hno
  have hother : ∀ j s, some (j, s) ∈ outputs reorderStep (final reorderStep (reorderInit cfg) before) stretch →
      j ≠ i := by
    rintro j s hs rfl
    exact hno ⟨s, hs⟩
  have hle := releases_le_distance (by rwa [hcfg]) htraffic hready hother
  rw [hcfg] at hle
  have hlt := scanDistance_lt (final reorderStep (reorderInit cfg) before).rr i cfg.peers_pos
  omega

/-- Two sources, each of which holds the successor of its cursor after the first release of each. -/
theorem reorder_roundRobin_two :
    let cfg : ReorderCfg := { ReorderCfg.default with peers := 2, peers_pos := by decide, peers_le := by decide }
    let pkt (addr seq : U32) : Datagram := ⟨⟨afInet, addr, 17770⟩, makePkt true seq 0, by simp [makePkt, kReorderMaxPktBytes]⟩
    ∃ s, some (1, s) ∈ outputs reorderStep (final reorderStep (reorderInit cfg) [.arrive (pkt 1 5) 10, .arrive (pkt 2 5) 11])
      [.release 12, .arrive (pkt 1 6) 13, .release 14] := by
  intro cfg pkt
  refine reorder_roundRobin cfg _ _ 1 (by decide) (by decide) (by decide) fun k t hk => ?_
  have hlt : k < 3 := (List.getElem?_eq_some_iff.mp hk).1
  have hcase : k = 0 ∨ k = 1 ∨ k = 2 := by omega
  rcases hcase with rfl | rfl | rfl
  · cases hk
    exact ⟨by decide +kernel, by decide +kernel⟩
  · cases hk
  · cases hk
    exact ⟨by decide +kernel, by decide +kernel⟩

end BzNet
