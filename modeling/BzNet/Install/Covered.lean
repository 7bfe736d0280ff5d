import BzNet.Install.ByPointer

/-!
# The slots that the worker has been at

After the worker thread of the Linux proxy has looked the functions up and gone through a module, that module calls the
hooks and goes on calling them, whatever is loaded, unloaded and looked up in between.

* `hookedCode` : what a slot is to hold;
* `Covered`, `CoveredAt.run` : no slot is left that leads past a hook, and none comes back;
* `pointers_hooked` : the slots of a module that the worker has been at.
-/

namespace BzNet

/-! ## What the worker leaves -/

/-- The slots that the worker looks at. -/
def firstBlock (table : ImportTable) : List Thunk := ((table.find? (isWs2Name ·.dll)).map (·.thunks)).getD []

/-- A slot that can be written, and that the loader had go to the function. -/
def leadsTo (w : PointerCfg) (t : Thunk) (e : ExportSpec) : Bool :=
  t.writable ∧ (w.exported e).map .addr = some t.code

/-- What a slot of theirs holds once it has been there: the hook of the function that the loader had it go to. -/
def hookedCode (w : PointerCfg) (t : Thunk) : Code :=
  match exportSpecs.find? (leadsTo w t) with
  | some e => .hook e.fn
  | none => t.code

/-- No slot that can be written holds a function that the proxy knows. -/
def Covered (w : PointerCfg) (ts : List Thunk) : Prop :=
  ∀ t ∈ ts, t.writable = true → ∀ e ∈ exportSpecs, (w.exported e).map .addr ≠ some t.code

section Hooked
variable {w : PointerCfg} {s : Pointers} {real : HookFn → Option Code}

theorem firstBlock_patch (real : HookFn → Option Code) (table : ImportTable) :
    firstBlock (patchByPointer real table) = (firstBlock table).map (patchSlot real) := by
  induction table with
  | nil => rfl
  | cons d ds ih =>
    rw [patchByPointer]
    split
    · next hd =>
      simp only [firstBlock, List.find?_cons, hd]
      rfl
    · next hd =>
      simp only [firstBlock, List.find?_cons, hd]
      exact ih

theorem firstBlock_view (g : Code → Option Code) (table : ImportTable) :
    (firstBlock table).map (slotView g) = (((importView g table).find? (isWs2Name ·.1)).map (·.2)).getD [] := by
  rw [importView, List.find?_map, firstBlock]
  show _ = (((table.find? (isWs2Name ·.dll)).map _).map _).getD []
  cases table.find? (isWs2Name ·.dll) <;> rfl

theorem firstBlock_mem {table : ImportTable} {t : Thunk} (ht : t ∈ firstBlock table) : ∃ d ∈ table, t ∈ d.thunks := by
  rw [firstBlock] at ht
  cases hd : table.find? (isWs2Name ·.dll) with
  | none =>
    rw [hd] at ht
    exact absurd ht List.not_mem_nil
  | some d =>
    rw [hd] at ht
    exact ⟨d, List.mem_of_find?_eq_some hd, ht⟩

theorem covered_patch (hok : RealOk w real)
    (hset : ∀ e ∈ exportSpecs, ∀ a, w.exported e = some a → real e.fn = some (.addr a)) (ts : List Thunk) :
    Covered w (ts.map (patchSlot real)) := by
  intro t' ht' hw' e he hexp
  obtain ⟨t, -, rfl⟩ := List.mem_map.mp ht'
  obtain ⟨a, ha, hcode⟩ := Option.map_eq_some_iff.mp hexp
  have hreal := hset e he a ha
  rw [hcode] at hreal
  rcases patchSlot_cases hok exportSpecs t with hsame | ⟨f, hput, -⟩
  · rw [patchSlot, hsame] at hreal hw'
    obtain ⟨f, hf⟩ := patchSlot_bare hok he hw' hreal
    rw [hsame] at hf
    rw [patchSlot, hsame, hf] at hcode
    cases hcode
  · rw [patchSlot, hput] at hcode
    cases hcode

theorem Covered.patch (hok : RealOk w real) {ts : List Thunk} (h : Covered w ts) :
    Covered w (ts.map (patchSlot real)) := by
  intro t' ht' hw' e he hexp
  obtain ⟨t, ht, rfl⟩ := List.mem_map.mp ht'
  rcases patchSlot_cases hok exportSpecs t with hsame | ⟨f, hput, -⟩
  · rw [patchSlot, hsame] at hexp hw'
    exact h t ht hw' e he hexp
  · rw [patchSlot, hput] at hexp
    obtain ⟨a, -, hcode⟩ := Option.map_eq_some_iff.mp hexp
    cases hcode

theorem map_eq_of_map_eq {α β γ δ : Type} {f : α → γ} {g : β → γ} {h : α → δ} {k : β → δ} {xs : List α} {ys : List β}
    (heq : xs.map f = ys.map g) (himp : ∀ x ∈ xs, ∀ y ∈ ys, f x = g y → h x = k y) : xs.map h = ys.map k := by
  induction xs generalizing ys with
  | nil =>
    rw [List.map_eq_nil_iff.mp heq.symm]
    rfl
  | cons x xs ih =>
    obtain ⟨y, ys', rfl, hxy, hrest⟩ := List.map_eq_cons_iff.mp heq.symm
    rw [List.map_cons, List.map_cons, himp x List.mem_cons_self y List.mem_cons_self hxy.symm]
    exact congrArg _ (ih hrest.symm fun x hx y hy => himp x (List.mem_cons_of_mem _ hx) y (List.mem_cons_of_mem _ hy))

/-- A slot that is covered holds what `hookedCode` says. -/
theorem covered_slot (hok : RealOk w real)
    (hdist : ∀ e ∈ exportSpecs, ∀ e' ∈ exportSpecs, ∀ a, w.exported e = some a → w.exported e' = some a → e = e')
    {t t₀ : Thunk} (hslot : slotView (reach real) t = slotView some t₀)
    (hcov : t.writable = true → ∀ e ∈ exportSpecs, (w.exported e).map .addr ≠ some t.code)
    (hkept : t.writable = false → ∃ a, t.code = .addr a) : t.code = hookedCode w t₀ := by
  have hreach : reach real t.code = some t₀.code := congrArg (fun v => v.2.1) hslot
  have hwritable : t.writable = t₀.writable := congrArg (fun v => v.2.2) hslot
  rw [hookedCode]
  cases hcode : t.code with
  | addr n =>
    have h₀ : Code.addr n = t₀.code := by
      rw [hcode] at hreach
      exact Option.some.inj hreach
    cases hfind : exportSpecs.find? (leadsTo w t₀) with
    | none => exact h₀
    | some e =>
      have hleads : leadsTo w t₀ e = true := List.find?_some hfind
      obtain ⟨hw, hexp⟩ := of_decide_eq_true hleads
      refine absurd ?_ (hcov (hwritable.trans hw) e (List.mem_of_find?_eq_some hfind))
      rw [hexp, hcode, h₀]
  | hook f =>
    have hreal : real f = some t₀.code := by rwa [hcode] at hreach
    obtain ⟨e, he, rfl, hexp⟩ := hok f t₀.code hreal
    have hw : t₀.writable = true := by
      rw [← hwritable]
      refine (Bool.eq_false_or_eq_true t.writable).resolve_right fun hno => ?_
      obtain ⟨a, ha⟩ := hkept hno
      rw [hcode] at ha
      cases ha
    cases hfind : exportSpecs.find? (leadsTo w t₀) with
    | none => exact absurd (decide_eq_true ⟨hw, hexp⟩) (List.find?_eq_none.mp hfind e he)
    | some e' =>
      have hleads : leadsTo w t₀ e' = true := List.find?_some hfind
      obtain ⟨-, hexp'⟩ := of_decide_eq_true hleads
      obtain ⟨a, ha, hcode₀⟩ := Option.map_eq_some_iff.mp hexp
      obtain ⟨a', ha', hcode₀'⟩ := Option.map_eq_some_iff.mp hexp'
      obtain rfl := Code.addr.inj (hcode₀.trans hcode₀'.symm)
      rw [hdist e he e' (List.mem_of_find?_eq_some hfind) a ha ha']

theorem covered_codes (hok : RealOk w real)
    (hdist : ∀ e ∈ exportSpecs, ∀ e' ∈ exportSpecs, ∀ a, w.exported e = some a → w.exported e' = some a → e = e')
    {m : LoadedModule} (hm : ModuleOk real m) (hcov : Covered w (firstBlock m.table)) :
    (firstBlock m.table).map (·.code) = (firstBlock m.loaded).map (hookedCode w) := by
  have hview : (firstBlock m.table).map (slotView (reach real)) = (firstBlock m.loaded).map (slotView some) := by
    rw [firstBlock_view, firstBlock_view, hm.same]
  refine map_eq_of_map_eq hview fun t ht t₀ _ hslot => covered_slot hok hdist hslot (hcov t ht) ?_
  obtain ⟨d, hd, htd⟩ := firstBlock_mem ht
  exact hm.kept d hd t htd

/-- The module is in memory, and the worker has been at it. -/
def CoveredAt (w : PointerCfg) (s : Pointers) (id : Nat) : Prop :=
  ∃ m, s.modules id = some m ∧ Covered w (firstBlock m.table)

theorem CoveredAt.step (hw : w.Consistent) (hok : PointersOk w s) {id : Nat} (h : CoveredAt w s id) {e : PointerEvent}
    (hstay : ∀ id', e = .unload id' → id' ≠ id) : CoveredAt w (pointerStep w s e).1 id := by
  obtain ⟨m, hm, hcov⟩ := h
  cases e with
  | resolve =>
    refine ⟨m, ?_, hcov⟩
    rw [pointerStep, resolvePointers]
    split
    · exact hm
    · dsimp only
      split
      · exact hm
      · exact hm
  | patch id' =>
    by_cases hid : id = id'
    · subst hid
      refine ⟨{ m with table := patchByPointer s.real m.table }, ?_, ?_⟩
      · show Function.update s.modules id _ id = _
        rw [Function.update_self, hm]
        rfl
      · rw [firstBlock_patch]
        exact hcov.patch hok.real
    · exact ⟨m, (Function.update_of_ne hid _ _).trans hm, hcov⟩
  | load id' table =>
    refine ⟨m, ?_, hcov⟩
    rw [pointerStep]
    split
    · next hload =>
      have hid : id ≠ id' := by
        rintro rfl
        rw [hm] at hload
        exact absurd hload.2 Bool.false_ne_true
      exact (Function.update_of_ne hid _ _).trans hm
    · exact hm
  | unload id' => exact ⟨m, (Function.update_of_ne (hstay id' rfl).symm _ _).trans hm, hcov⟩
  | getProc m' proc =>
    refine ⟨m, ?_, hcov⟩
    obtain ⟨-, hmods, -⟩ := lookUp_ok hw hok m' proc
    rw [pointerStep]
    dsimp only
    split
    · exact (congrFun hmods id).trans hm
    · exact (congrFun hmods id).trans hm

theorem CoveredAt.run (hw : w.Consistent) (hok : PointersOk w s) {id : Nat} (h : CoveredAt w s id)
    {es : List PointerEvent} (hstay : .unload id ∉ es) : CoveredAt w (Machine.final (pointerStep w) s es) id := by
  induction es generalizing s with
  | nil => exact h
  | cons e es ih =>
    rw [Machine.final_cons]
    refine ih (pointerStep_ok hw hok e).1 (h.step hw hok ?_) fun hmem => hstay (List.mem_cons_of_mem e hmem)
    rintro id' rfl rfl
    exact hstay List.mem_cons_self

/-- All the functions that the library exports are known. -/
def Known (w : PointerCfg) (s : Pointers) : Prop :=
  ∀ e ∈ exportSpecs, ∀ a, w.exported e = some a → s.real e.fn = some (.addr a)

theorem resolve_known (hok : PointersOk w s) (htarget : w.target = true) (hres : w.resolves = true) :
    Known w (pointerStep w s .resolve).1 := by
  obtain ⟨-, -, hset⟩ := hok.real.resolve fun e (he : e ∈ exportSpecs) => he
  intro e he a ha
  rw [pointerStep, resolvePointers, htarget, hres]
  exact hset e he a ha

theorem known_after (hw : w.Consistent) (htarget : w.target = true) (hres : w.resolves = true)
    (es₀ es₁ : List PointerEvent) : Known w (pointerRun w (es₀ ++ .resolve :: es₁)) := by
  rw [pointerRun, Machine.final_append, Machine.final_cons]
  refine (Machine.final_inv (P := fun s => PointersOk w s ∧ Known w s) ?_ (fun s e h => ?_) es₁).2
  · have hok := pointerRun_ok hw es₀
    exact ⟨(pointerStep_ok hw hok .resolve).1, resolve_known hok htarget hres⟩
  · obtain ⟨hok, hsub⟩ := pointerStep_ok hw h.1 e
    exact ⟨hok, fun e he a ha => hsub _ _ (h.2 e he a ha)⟩

/-- **Nothing is missed.** Suppose the functions of the library have different addresses. Once the worker has looked them
up and has then come to a module that is in memory, and for as long as the module stays there, whatever else happens, every
slot of its block for the library that can be written and that the loader had go to one of the functions holds the hook of
that very function, and every other slot of the block holds what the loader put there. -/
theorem pointers_hooked (hw : w.Consistent)
    (hdist : ∀ e ∈ exportSpecs, ∀ e' ∈ exportSpecs, ∀ a, w.exported e = some a → w.exported e' = some a → e = e')
    (htarget : w.target = true) (hres : w.resolves = true) (es₀ es₁ es₂ : List PointerEvent) (id : Nat)
    (hin : ((pointerRun w (es₀ ++ .resolve :: es₁)).modules id).isSome = true) (hstay : .unload id ∉ es₂) :
    ∃ m, (pointerRun w (es₀ ++ .resolve :: es₁ ++ .patch id :: es₂)).modules id = some m ∧
      (firstBlock m.table).map (·.code) = (firstBlock m.loaded).map (hookedCode w) := by
  have hok₁ := pointerRun_ok hw (es₀ ++ .resolve :: es₁)
  have hcov₁ : CoveredAt w (pointerStep w (pointerRun w (es₀ ++ .resolve :: es₁)) (.patch id)).1 id := by
    obtain ⟨m, hm⟩ := Option.isSome_iff_exists.mp hin
    refine ⟨{ m with table := patchByPointer (pointerRun w (es₀ ++ .resolve :: es₁)).real m.table }, ?_, ?_⟩
    · show Function.update _ id _ id = _
      rw [Function.update_self, hm]
      rfl
    · rw [firstBlock_patch]
      exact covered_patch hok₁.real (known_after hw htarget hres es₀ es₁) _
  have hrun : pointerRun w (es₀ ++ .resolve :: es₁ ++ .patch id :: es₂) = Machine.final (pointerStep w)
      (pointerStep w (pointerRun w (es₀ ++ .resolve :: es₁)) (.patch id)).1 es₂ := by
    rw [pointerRun, Machine.final_append, Machine.final_cons]
    rfl
  have hok₂ := pointerRun_ok hw (es₀ ++ .resolve :: es₁ ++ .patch id :: es₂)
  rw [hrun] at hok₂ ⊢
  obtain ⟨m, hm, hcov⟩ := hcov₁.run hw (pointerStep_ok hw hok₁ (.patch id)).1 hstay
  exact ⟨m, hm, covered_codes hok₂.real hdist (hok₂.modules id m hm) hcov⟩

end Hooked

theorem pointers_hooked_twoFunctions :
    ∃ m, (pointerRun twoFunctions ([.load 7 twoImports] ++ .resolve :: [] ++ .patch 7 :: [.resolve, .patch 7])).modules 7 =
      some m ∧ (firstBlock m.table).map (·.code) = (firstBlock m.loaded).map (hookedCode twoFunctions) := by
  have hdist : ∀ e ∈ exportSpecs, ∀ e' ∈ exportSpecs, ∀ a, twoFunctions.exported e = some a →
      twoFunctions.exported e' = some a → e = e' := by
    have hall : ∀ e ∈ exportSpecs, ∀ e' ∈ exportSpecs, (twoFunctions.exported e).isSome →
        twoFunctions.exported e = twoFunctions.exported e' → e = e' := by decide +kernel
    exact fun e he e' he' a ha ha' => hall e he e' he' (by rw [ha]; rfl) (ha.trans ha'.symm)
  exact pointers_hooked twoFunctions_consistent hdist rfl (by decide +kernel) [.load 7 twoImports] []
    [.resolve, .patch 7] 7 (by decide +kernel) (by simp)

end BzNet
