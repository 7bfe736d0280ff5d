import BzNet.Lib.Ledger
import BzNet.Link.Core

/-!
# What the receive side of a machine has

* `hookedWSARecvFrom_le` : a receive through the buffer hands over and holds nothing but what was held and what it
  takes, whatever it drops;
* `WakeSys.stock` : how often a machine has a datagram, on its sockets, in the buffer or handed to its game;
* `wakeStep_stock` : no receive makes more of it, unless it peeks, and the wake thread only of its own.
-/

namespace BzNet

/-! ## The reorder buffer -/

def SockAddr.Real (a : SockAddr) : Prop := a.addr ≠ 0 ∨ a.port ≠ 0

section Buffer
variable {c : ReorderCtx} {d : Datagram}

theorem Enters.packets_le {k : U64} {i : Nat} {pb : PeerBuf} {lost : Nat} (h : Enters c k i pb lost) :
    pb.packets c.cfg ≤ (c.tbl i).packets c.cfg := by
  cases h with
  | found hkey hs =>
    rw [PeerBuf.packets, PeerBuf.packets, hs.held]
  | created now hno hz hs =>
    rw [PeerBuf.packets, hs.held, reorderFresh_held]
    exact Multiset.zero_le _
  | reclaimed now hfull hidle hs =>
    rw [PeerBuf.packets, hs.held, reorderFresh_held]
    exact Multiset.zero_le _

theorem ArriveStep.le {t : U64} {a : Arrived} (h : ArriveStep c d t a) (hne : reorderKey d.src ≠ 0) :
    (a.out.toList : Multiset Datagram) + rxBuffered a.ctx ≤ d ::ₘ rxBuffered c := by
  cases h with
  | bypass st hfull hst => exact le_of_eq rfl
  | pass i pb lost st hk hi hent hst hwhy =>
    have hput := rxBuffered_put hi pb c.rr st
    have hle := hent.packets_le
    refine (Multiset.cons_le_cons_iff d).mpr (le_of_add_le_add_right (a := (c.tbl i).packets c.cfg) ?_)
    rw [hput]
    exact add_le_add_right hle _
  | hold i pb lost st j hk hi hent hst hahead hnew hj hfree =>
    have hput := rxBuffered_put hi (pb.fill j ⟨t, d.seq, true, d⟩) c.rr st
    have hfill : (pb.fill j ⟨t, d.seq, true, d⟩).packets c.cfg = d ::ₘ pb.packets c.cfg :=
      Multiset.coe_eq_coe.mpr ((fill_held hj hfree).map ReorderSlot.pkt)
    rw [Option.toList_none, Multiset.coe_nil, zero_add]
    refine le_of_add_le_add_right (a := (c.tbl i).packets c.cfg) ?_
    rw [hput, hfill, Multiset.add_cons, Multiset.cons_add]
    exact (Multiset.cons_le_cons_iff d).mpr (add_le_add_right hent.packets_le _)
  | keyless i pb pb' lost st out hk => exact absurd hk hne

theorem ReleaseStep.le {t : U64} {r : Released} (hok : RxOk c) (h : ReleaseStep c t r) :
    (r.out.toList : Multiset Datagram) + rxBuffered r.ctx ≤ rxBuffered c := by
  obtain ⟨overtaken, hbal, -⟩ := h.balance hok
  rw [hbal]
  exact Multiset.le_add_right _ _

/-- **One receive through the buffer** hands over and holds nothing but what was held and what it takes. -/
theorem hookedWSARecvFrom_le {s : RxState} (hok : RxOk s.rx) (call : RecvCall)
    (hsrc : ∀ m ∈ (hookedWSARecvFrom s call).2.taken, m.pkt.src.Real) :
    RxOk (hookedWSARecvFrom s call).1.rx ∧
      ((hookedWSARecvFrom s call).2.handed.toList : Multiset Datagram) + rxBuffered (hookedWSARecvFrom s call).1.rx ≤
        rxBuffered s.rx + ((hookedWSARecvFrom s call).2.taken.map Taken.pkt : List Datagram) := by
  have hkept : Kept (fun _ d => d.src.Real) fun c T H => RxOk c ∧
      (H : Multiset Datagram) + rxBuffered c ≤ rxBuffered s.rx + (T : Multiset Datagram) := by
    constructor
    · rintro c T H st - - - - ⟨hok, hle⟩
      exact ⟨hok.stats st, hle⟩
    · rintro c T H d - - ⟨hok, hle⟩
      refine ⟨hok, ?_⟩
      rw [← Multiset.coe_add, ← Multiset.coe_add, add_right_comm, ← add_assoc]
      exact add_le_add_left hle _
    · rintro c T H d t hd - hsat ⟨hok, hle⟩
      have hstep := rxArrive_step hok hsat d t
      refine ⟨hstep.ok hok, ?_⟩
      rw [← Multiset.coe_add, ← Multiset.coe_add, add_assoc]
      calc (H : Multiset Datagram) + ((rxArrive c d t).out.toList + rxBuffered (rxArrive c d t).ctx)
          ≤ H + (d ::ₘ rxBuffered c) := add_le_add_right (hstep.le (reorderKey_ne_zero hd)) _
        _ = H + rxBuffered c + ([d] : List Datagram) := by
          rw [Multiset.add_cons, Multiset.coe_singleton, ← Multiset.singleton_add, add_comm]
        _ ≤ rxBuffered s.rx + (T : Multiset Datagram) + ([d] : List Datagram) := add_le_add_left hle _
        _ = rxBuffered s.rx + (T + ([d] : List Datagram)) := add_assoc _ _ _
    · rintro c T H t ⟨hok, hle⟩
      have hstep := rxRelease_step c t
      refine ⟨hstep.ok hok, ?_⟩
      rw [← Multiset.coe_add, add_assoc]
      exact (add_le_add_right (hstep.le hok) _).trans hle
  have hcall := hookedWSARecvFrom_inv hkept s call hsrc (T := []) (H := []) ⟨hok, by simp⟩
  simpa using hcall

end Buffer

/-! ## The receive side -/

/-- The call leaves on the socket what it returns. -/
def WakeOp.peeks : WakeOp → Bool
  | .recvfrom _ _ peek _ _ _ => peek
  | .wsaRecvFrom _ _ peek _ _ _ _ => peek
  | _ => false

section Receive

instance : Finite Socket := Finite.of_injective BitVec.toFin fun _ _ h => BitVec.toFin_inj.mp h

noncomputable local instance socketFintype : Fintype Socket := Fintype.ofFinite Socket

/-- How often a machine has a datagram: on its sockets, in the buffer, or handed to its game. -/
noncomputable def WakeSys.stock (s : WakeSys) (p : Packet) : Nat :=
  ∑ sock, (s.queue sock).countP (fun d => d.pkt = p) + (rxBuffered s.proxy.rx.rx).countP (fun d => d.packet = p) +
    s.handed.count p

/-- What the buffer relies on. -/
structure InboxOk (s : WakeSys) : Prop where
  ok : RxOk s.proxy.rx.rx
  real : ∀ sock, ∀ d ∈ s.queue sock, d.pkt.data = kWakeMagic ∨ d.pkt.src.Real

variable {s : WakeSys} {p : Packet}

/-- What is passed on was read, or only looked at. -/
def Taking.Reads (peek : Bool) (ds : List Queued) (t : Taking) : Prop :=
  t.passed.Sublist (if peek then ds else ds.take t.reads)

theorem recvfromTaking_reads (len : Nat) (peek : Bool) (ds : List Queued) : (recvfromTaking len peek ds).Reads peek ds := by
  unfold Taking.Reads
  induction ds with
  | nil => cases peek <;> exact List.nil_sublist _
  | cons d ds ih =>
    unfold recvfromTaking
    split
    · cases peek <;> exact ih.cons d
    · cases peek
      · exact List.Sublist.refl _
      · exact List.singleton_sublist.mpr List.mem_cons_self

theorem bypassTaking_reads (peek : Bool) (ds : List Queued) : (bypassTaking peek ds).Reads peek ds := by
  unfold Taking.Reads
  cases ds with
  | nil => exact List.nil_sublist _
  | cons d ds => cases peek <;> exact List.singleton_sublist.mpr List.mem_cons_self

theorem timed_fst (clock : Nat → U64) (ds : List Queued) : (timed clock ds).map Prod.fst = ds := by
  rw [timed, List.map_map]
  exact List.zipIdx_map_fst 0 ds

theorem drainTaking_reads (n : Nat) (c : ReorderCtx) (clock : Nat → U64) (ds : List Queued) :
    (drainTaking n c (timed clock ds)).Reads false ds := by
  have hread : drainRead n c (timed clock ds) = ds.take (drainReads n c (timed clock ds)) := by
    rw [drainRead, List.map_take, timed_fst]
  change ((drainRead n c (timed clock ds)).filter fun d => !d.drops).Sublist (ds.take (drainReads n c (timed clock ds)))
  exact hread ▸ List.filter_sublist

/-- What is read of the part of a socket that is found is read of the socket. -/
theorem Taking.Reads.queue {peek : Bool} {sock : Socket} {avail : Nat} {t : Taking}
    (h : t.Reads peek (s.found sock avail)) : t.Reads peek (s.queue sock) := by
  unfold Taking.Reads at h ⊢
  cases peek with
  | true => exact h.trans (List.take_sublist avail _)
  | false =>
    refine h.trans ?_
    rw [WakeSys.found, if_neg Bool.false_ne_true, if_neg Bool.false_ne_true, List.take_take]
    exact List.take_sublist_take_left (Nat.min_le_left t.reads avail)

/-- How much more of a datagram there may be after a receive: one that peeks leaves what it returns. -/
def peekFactor (peek : Bool) : Nat := if peek then 2 else 1

theorem peekFactor_pos (peek : Bool) : 1 ≤ peekFactor peek := by
  cases peek <;> decide

/-- A receive that passes on what it reads or looks at, and hands over or holds no more than it had and passes on. -/
theorem receive_stock {peek : Bool} {sock : Socket} {p' : Proxy} {t : Taking} {handed : Option Packet}
    (hreads : t.Reads peek (s.queue sock))
    (hbuf : handed.toList.count p + (rxBuffered p'.rx.rx).countP (fun d => d.packet = p) ≤
      (rxBuffered s.proxy.rx.rx).countP (fun d => d.packet = p) + (t.passed.map Queued.pkt).count p) :
    (s.receive sock p' t handed).stock p ≤ peekFactor peek * s.stock p := by
  have hqueue := Ledger.stock_update (fun _ ds => ds.countP fun d : Queued => d.pkt = p) s.queue sock
    ((s.queue sock).drop t.reads)
  have hsplit : (s.queue sock).countP (fun d => d.pkt = p) =
      ((s.queue sock).take t.reads).countP (fun d => d.pkt = p) +
        ((s.queue sock).drop t.reads).countP (fun d => d.pkt = p) := by
    rw [← List.countP_append, List.take_append_drop]
  have hle := List.Sublist.countP_le (p := fun d => d.pkt = p) hreads
  have hcount : (t.passed.map Queued.pkt).count p = t.passed.countP (fun d => d.pkt = p) := by
    rw [List.count, List.countP_map]
    rfl
  have hself : (s.queue sock).countP (fun d => d.pkt = p) ≤ ∑ k, (s.queue k).countP (fun d => d.pkt = p) :=
    Ledger.le_stock (fun _ ds => ds.countP fun d : Queued => d.pkt = p) s.queue sock
  rw [WakeSys.stock, WakeSys.stock, WakeSys.receive, List.count_append]
  cases peek with
  | true =>
    rw [peekFactor, if_pos rfl]
    rw [if_pos rfl] at hle
    simp only
    omega
  | false =>
    rw [peekFactor, if_neg Bool.false_ne_true]
    rw [if_neg Bool.false_ne_true] at hle
    simp only
    omega

theorem count_handed {handed : Option Packet} {ds : List Queued} (h : ∀ q ∈ handed, ∃ d ∈ ds, d.pkt = q) :
    handed.toList.count p ≤ (ds.map Queued.pkt).count p := by
  cases handed with
  | none => exact Nat.zero_le _
  | some q =>
    rw [Option.toList_some, List.count_singleton]
    split
    · next heq =>
      obtain ⟨d, hd, rfl⟩ := h q rfl
      exact List.count_pos_iff.mpr (beq_iff_eq.mp heq ▸ List.mem_map_of_mem hd)
    · exact Nat.zero_le _

theorem receive_stock_past {peek : Bool} {sock : Socket} {op : Option RttOp} {t : Taking} {handed : Option Packet}
    (hreads : t.Reads peek (s.queue sock)) (hhanded : ∀ q ∈ handed, ∃ d ∈ t.passed, d.pkt = q) :
    (s.receive sock (s.proxy.rttCall op).1 t handed).stock p ≤ peekFactor peek * s.stock p := by
  refine receive_stock hreads ?_
  rw [rttCall_rx, Nat.add_comm]
  exact Nat.add_le_add_left (count_handed hhanded) _

theorem receive_stock_drain (h : InboxOk s) (sock : Socket) (avail : Nat) (pollMs nowMs : U64) (clock : Nat → U64)
    (op : Option RttOp) (p : Packet) :
    let ds := timed clock (s.found sock avail)
    let r := hookedWSARecvFrom s.proxy.rx ⟨sock, pollMs, ds.map fun x => (x.1.real, x.2), nowMs⟩
    let p' := ({ s.proxy with rx := r.1 }.rttCall op).1
    RxOk p'.rx.rx ∧
      (s.receive sock p' (drainTaking s.proxy.rx.drain s.proxy.rx.rx ds) (r.2.handed.map Datagram.packet)).stock p ≤
        s.stock p := by
  intro ds r p'
  have htaken : r.2.taken.map (fun m => m.pkt.packet) = _ := hookedWSARecvFrom_taken s.proxy.rx sock pollMs nowMs ds
  have hreads := (drainTaking_reads s.proxy.rx.drain s.proxy.rx.rx clock (s.found sock avail)).queue
  have hsrc : ∀ m ∈ r.2.taken, m.pkt.src.Real := by
    intro m hm
    have hmem : m.pkt.packet ∈ _ := List.mem_map_of_mem (f := fun m : Taken => m.pkt.packet) hm
    rw [htaken] at hmem
    obtain ⟨d, hd, hpkt⟩ := List.mem_map.mp hmem
    have hreal := h.real sock d (List.mem_of_mem_take (List.Sublist.subset hreads hd))
    rw [hpkt] at hreal
    refine hreal.resolve_left fun hmagic => ?_
    have hkeep := (List.mem_filter.mp hd).2
    rw [Queued.drops, hpkt, hmagic] at hkeep
    simp at hkeep
  obtain ⟨hok, hle⟩ := hookedWSARecvFrom_le h.ok _ hsrc
  have hrx : p'.rx = r.1 := rttCall_rx _ op
  refine ⟨hrx ▸ hok, (receive_stock hreads ?_).trans_eq (Nat.one_mul _)⟩
  have hcount := Multiset.countP_le_of_le (fun d : Datagram => d.packet = p) hle
  rw [Multiset.countP_add, Multiset.countP_add, Multiset.coe_countP, Multiset.coe_countP, List.countP_map] at hcount
  have hhanded : (r.2.handed.map Datagram.packet).toList.count p =
      r.2.handed.toList.countP fun d => d.packet = p := by
    cases r.2.handed with
    | none => rfl
    | some d => simp [List.count_singleton]
  have hmap : (r.2.taken.map fun m => m.pkt.packet).count p =
      r.2.taken.countP ((fun d => decide (d.packet = p)) ∘ Taken.pkt) := by
    rw [List.count, List.countP_map]
    rfl
  rw [hrx, ← htaken, hhanded, hmap]
  exact hcount

theorem InboxOk.receive (h : InboxOk s) {sock : Socket} {p' : Proxy} {t : Taking} {handed : Option Packet}
    (hok : RxOk p'.rx.rx) : InboxOk (s.receive sock p' t handed) where
  ok := hok
  real k d hd := by
    by_cases hk : k = sock
    · subst hk
      simp only [WakeSys.receive, Function.update_self] at hd
      exact h.real k d (List.mem_of_mem_drop hd)
    · simp only [WakeSys.receive, Function.update_of_ne hk] at hd
      exact h.real k d hd

theorem InboxOk.of_eq {s' : WakeSys} (h : InboxOk s) (hproxy : s'.proxy = s.proxy) (hqueue : s'.queue = s.queue) :
    InboxOk s' where
  ok := hproxy ▸ h.ok
  real := hqueue ▸ h.real

theorem InboxOk.append (h : InboxOk s) {s' : WakeSys} {sock : Socket} {d : Queued}
    (hd : d.pkt.data = kWakeMagic ∨ d.pkt.src.Real) (hproxy : s'.proxy = s.proxy)
    (hqueue : s'.queue = Function.update s.queue sock (s.queue sock ++ [d])) : InboxOk s' where
  ok := hproxy ▸ h.ok
  real k e he := by
    rw [hqueue] at he
    by_cases hk : k = sock
    · subst hk
      rw [Function.update_self] at he
      rcases List.mem_append.mp he with he | he
      · exact h.real k e he
      · exact List.mem_singleton.mp he ▸ hd
    · rw [Function.update_of_ne hk] at he
      exact h.real k e he

theorem stock_append (s : WakeSys) {s' : WakeSys} {sock : Socket} {d : Queued} (hproxy : s'.proxy = s.proxy)
    (hqueue : s'.queue = Function.update s.queue sock (s.queue sock ++ [d])) (hhanded : s'.handed = s.handed) :
    s'.stock p = s.stock p + if d.pkt = p then 1 else 0 := by
  have hsum := Ledger.stock_update (fun _ ds => ds.countP fun d : Queued => d.pkt = p) s.queue sock
    (s.queue sock ++ [d])
  rw [List.countP_append, List.countP_singleton] at hsum
  rw [WakeSys.stock, WakeSys.stock, hproxy, hqueue, hhanded]
  simp only [decide_eq_true_eq] at hsum
  omega

/-- **One step** of the receives and of the wake thread leaves no more of a datagram than there was, unless it peeks, or
sends a wake datagram. -/
theorem wakeStep_stock (h : InboxOk s) {op : WakeOp} (hown : op.own = true) (hp : p.data ≠ kWakeMagic ∨ s.aim = none) :
    InboxOk (wakeStep s op) ∧ (wakeStep s op).stock p ≤ peekFactor op.peeks * s.stock p := by
  have hgrow : ∀ {n : Nat}, n ≤ s.stock p → n ≤ peekFactor op.peeks * s.stock p :=
    fun hn => hn.trans (Nat.le_mul_of_pos_left _ (peekFactor_pos _))
  cases op with
  | arrive sock pkt => cases hown
  | look now =>
    obtain ⟨hqueue, -, -, hproxy, hhanded⟩ := wakeLook_log s now
    refine ⟨h.of_eq hproxy hqueue, hgrow ?_⟩
    rw [wakeStep, WakeSys.stock, WakeSys.stock, hqueue, hproxy, hhanded]
  | wake sender bound arrives =>
    obtain ⟨hqueue, -, -, hproxy, hhanded⟩ := wakeSend_log s sender bound arrives
    rcases hp with hp | hp
    · rcases hqueue with hqueue | ⟨target, src, hqueue⟩
      · refine ⟨h.of_eq hproxy hqueue, hgrow ?_⟩
        rw [wakeStep, WakeSys.stock, WakeSys.stock, hqueue, hproxy, hhanded]
      · refine ⟨h.append (Or.inl rfl) hproxy hqueue, hgrow ?_⟩
        have hne : (⟨⟨src, kWakeMagic⟩, true⟩ : Queued).pkt ≠ p := by
          rintro rfl
          exact hp rfl
        rw [wakeStep, stock_append s hproxy hqueue hhanded, if_neg hne, Nat.add_zero]
    · have hnone : wakeSend s sender bound arrives = { s with aim := none } := by
        unfold wakeSend
        rw [hp]
      rw [wakeStep, hnone]
      exact ⟨h.of_eq rfl rfl, hgrow (Nat.le_refl _)⟩
  | recvfrom sock len peek wantsFrom avail feedMs =>
    refine ⟨h.receive (by rw [hookedRecvfrom, rttCall_rx]; exact h.ok), ?_⟩
    exact receive_stock_past (recvfromTaking_reads len peek (s.found sock avail)).queue
      fun q hq => skipWakes_passed len peek hq
  | wsaRecvFrom a sock peek avail pollMs clock nowMs =>
    simp only [wakeStep, wsaRecvFrom]
    by_cases hb : bypassesBuffer s.proxy a = true
    · have hb' : bypassesBuffer s.proxy { a with waiting := (s.found sock avail).head?.map Queued.pkt } = true := hb
      rw [if_pos hb', if_pos hb]
      refine ⟨h.receive (by rw [rttCall_rx]; exact h.ok), ?_⟩
      exact receive_stock_past (bypassTaking_reads peek (s.found sock avail)).queue fun q hq => head_passed peek hq
    · have hb' : ¬ bypassesBuffer s.proxy { a with waiting := (s.found sock avail).head?.map Queued.pkt } = true := hb
      rw [if_neg hb', if_neg hb]
      obtain ⟨hok, hle⟩ := receive_stock_drain h sock avail pollMs nowMs clock _ p
      exact ⟨h.receive hok, hgrow hle⟩
  | closesocket sock => cases hown

theorem rxBuffered_reset (c : ReorderCtx) : rxBuffered (reorderReset c) = 0 := by
  refine Finset.sum_eq_zero fun i _ => ?_
  change ((PeerBuf.zero.held c.cfg).map ReorderSlot.pkt : Multiset Datagram) = 0
  rw [zero_held]
  rfl

theorem stock_proxy {p' : Proxy} (hrx : p'.rx = s.proxy.rx) (p : Packet) :
    ({ s with proxy := p' } : WakeSys).stock p = s.stock p := by
  rw [WakeSys.stock, WakeSys.stock, hrx]

theorem stock_close (s : WakeSys) (sock : Socket) (p : Packet) :
    ({ s with
      proxy := { s.proxy with rx := closeReorder s.proxy.rx sock }
      queue := Function.update s.queue sock [] } : WakeSys).stock p ≤ s.stock p := by
  have hsum := Ledger.stock_update (fun _ ds => ds.countP fun d : Queued => d.pkt = p) s.queue sock []
  rw [WakeSys.stock, WakeSys.stock]
  simp only [closeReorder, rxBuffered_reset, Multiset.countP_zero, List.countP_nil] at hsum ⊢
  omega

theorem wakeInit_stock (cfg : ProxyCfg) (enabled : Bool) (p : Packet) : (wakeInit cfg enabled).stock p = 0 := by
  have hqueue : ∑ sock, ((wakeInit cfg enabled).queue sock).countP (fun d => d.pkt = p) = 0 :=
    Finset.sum_eq_zero fun _ _ => rfl
  have hheld : rxBuffered (wakeInit cfg enabled).proxy.rx.rx = 0 := rxBuffered_reset (reorderInit cfg.buffer)
  have hhanded : (wakeInit cfg enabled).handed = [] := rfl
  rw [WakeSys.stock, hqueue, hheld, hhanded, Multiset.countP_zero, List.count_nil]

theorem count_handed_le (s : WakeSys) (p : Packet) : s.handed.count p ≤ s.stock p := Nat.le_add_left _ _

end Receive

end BzNet
