import Taco.Tensor.Frame

/-! Evaluation ends where no tensor waits for itself. -/

namespace Taco.Tensor

variable {T Coord V E : Type} [DecidableEq T] [DecidableEq Coord] [AddCommMonoid V] {kernels : Kernels T Coord V E}
  {s s₀ : State T Coord V E} {t u : T} {sync : T → State T Coord V E → Except Fault (State T Coord V E)}

/-- A part of evaluation comes to an end, in a state or in a fault other than endless recursion. -/
def Returns (s : State T Coord V E) (x : Except Fault (State T Coord V E)) : Prop :=
  Outcome (Evolves s) (· ≠ .outOfDepth) x

omit [DecidableEq T] [DecidableEq Coord] [AddCommMonoid V] in
theorem returns_of_ne {x : Except Fault (State T Coord V E)} (hok : ∀ s', x = .ok s' → Evolves s s')
    (hne : x ≠ .error .outOfDepth) : Returns s x := by
  cases x with
  | ok s' => exact hok s' rfl
  | error e =>
    rintro rfl
    exact hne rfl

omit [DecidableEq T] [DecidableEq Coord] [AddCommMonoid V] in
theorem Returns.bind {x : Except Fault (State T Coord V E)} {f : State T Coord V E → Except Fault (State T Coord V E)}
    (h : Returns s x) (hf : ∀ s', Evolves s s' → Returns s' (f s')) : Returns s (x >>= f) :=
  Outcome.bind h fun s' hs' => (hf s' hs').mono (fun _ h' => hs'.trans h') fun _ he => he

omit [DecidableEq Coord] [AddCommMonoid V] in
theorem compile_returns (t : T) (s : State T Coord V E) : Returns s (compile t s) := by
  refine returns_of_ne (fun s' => compile_evolves) ?_
  cases hk : s t with
  | none => simp [compile, State.get, hk]
  | some k => cases hassign : k.assignment <;> simp [compile, State.get, hk, hassign]

theorem callAssemble_returns (t : T) (s : State T Coord V E) : Returns s (callAssemble kernels t s) := by
  refine returns_of_ne (fun s' => callAssemble_evolves) ?_
  cases hk : s t with
  | none => simp [callAssemble, State.get, hk]
  | some k => cases hmodule : k.module <;> simp [callAssemble, State.get, hk, hmodule]

theorem callCompute_returns (t : T) (s : State T Coord V E) : Returns s (callCompute kernels t s) := by
  refine returns_of_ne (fun s' => callCompute_evolves) ?_
  cases hk : s t with
  | none => simp [callCompute, State.get, hk]
  | some k =>
    cases hmodule : k.module with
    | none => simp [callCompute, State.get, hk, hmodule]
    | some e =>
      cases hcompute : kernels.compute e k.storage (packArguments kernels s k) <;>
        simp [callCompute, State.get, hk, hmodule, hcompute]

omit [DecidableEq Coord] [AddCommMonoid V] in
theorem removeDependentTensor_returns (ht : ¬ Pending s t) (u : T) : Returns s (removeDependentTensor u t s) := by
  refine returns_of_ne (fun s' => removeDependentTensor_evolves ht) ?_
  cases hu : s u <;> simp [removeDependentTensor, State.get, hu]

theorem pack_returns (t : T) (s : State T Coord V E) : Returns s (pack t s) := by
  refine returns_of_ne (fun s' => pack_evolves) ?_
  cases hk : s t with
  | none => simp [pack, State.get, hk]
  | some k =>
    have hpack := k.pack_outcome
    cases hk' : k.pack with
    | error e =>
      rw [hk'] at hpack
      simp [pack, State.get, hk, hk', show e = .outOfBounds from hpack]
    | ok k' => simp [pack, State.get, hk, hk']

section Parts

variable {k : Content T Coord V E} (hk : s t = some k)
  (hsync : ∀ u ∈ kernels.operandsOf k, ∀ s', Evolves s s' → Returns s' (sync u s'))

include hk hsync

theorem assemble_returns : Returns s (assemble kernels sync t s) := by
  have hget : s.get t = .ok k := State.get_eq_ok.mpr hk
  rw [assemble, hget, ok_bind]
  split_ifs
  · intro h
    cases h
  · refine Returns.bind ?_ fun s' _ => callAssemble_returns t s'
    refine Outcome.foldlM_of_forall (fun u hu s' hs' => ?_) (.refl s)
    exact (hsync u hu s' hs').mono (fun _ h => hs'.trans h) fun _ he => he
  · exact .refl s

theorem compute_returns : Returns s (compute kernels sync t s) := by
  have hget : s.get t = .ok k := State.get_eq_ok.mpr hk
  rw [compute, hget, ok_bind]
  split_ifs
  · intro h
    cases h
  · obtain ⟨hstart, hdone⟩ := clear_evolves hk
    have hfold : Returns (s.set t { k with needsCompute := false })
        ((kernels.operandsOf k).foldlM (fun s u => sync u s >>= removeDependentTensor u t)
          (s.set t { k with needsCompute := false })) := by
      refine Outcome.foldlM_of_forall (fun u hu s' hs' => ?_) (.refl _)
      have hu := (hsync u hu s' (hstart.trans hs')).bind fun s'' hs'' =>
        removeDependentTensor_returns (fun hp => hdone (hs'.pending (hs''.pending hp))) u
      exact hu.mono (fun _ h => hs'.trans h) fun _ he => he
    exact (hfold.bind fun s' _ => callCompute_returns t s').mono (fun _ h => hstart.trans h) fun _ he => he
  · exact .refl s

end Parts

/-- Syncing a tensor ends, to a depth that depends on the tensors it waits for only. -/
theorem syncValues_returns (h : Acc (Reads kernels s₀) t) :
    ∃ bound, ∀ s, Evolves s₀ s → ∀ fuel, bound ≤ fuel → Returns s (syncValues kernels fuel t s) := by
  induction h with
  | intro t _ ih =>
    have hoperands : ∃ bound, ∀ u, Reads kernels s₀ u t → ∀ s, Evolves s₀ s → ∀ fuel, bound ≤ fuel →
        Returns s (syncValues kernels fuel u s) := by
      cases hk : s₀ t with
      | none => exact ⟨0, fun u ⟨k, hk', _⟩ => by simp [hk] at hk'⟩
      | some k =>
        obtain ⟨bound, hbound⟩ := exists_bound (l := (kernels.operandsOf k).filter fun _ => k.needsCompute)
          (P := fun u fuel => ∀ s, Evolves s₀ s → Returns s (syncValues kernels fuel u s)) fun u hu => by
            rw [List.mem_filter] at hu
            obtain ⟨bound, hbound⟩ := ih u ⟨k, hk, hu.2, hu.1⟩
            exact ⟨bound, fun fuel hfuel s hs => hbound s hs fuel hfuel⟩
        refine ⟨bound, fun u hu s hs fuel hfuel => ?_⟩
        obtain ⟨k', hk', hneeds, hu⟩ := hu
        cases hk.symm.trans hk'
        exact hbound u (List.mem_filter.mpr ⟨hu, hneeds⟩) fuel hfuel s hs
    obtain ⟨bound, hbound⟩ := hoperands
    refine ⟨bound + 1, fun s hs fuel hfuel => ?_⟩
    obtain ⟨fuel, rfl⟩ := Nat.exists_eq_add_of_le' (Nat.le_trans (Nat.le_add_left 1 bound) hfuel)
    change Returns s (syncBody kernels (syncValues kernels fuel) t s)
    cases hst : s t with
    | none => simp [syncBody, State.get, hst, Returns]
    | some k =>
      have hget : s.get t = .ok k := State.get_eq_ok.mpr hst
      rw [syncBody, hget, ok_bind]
      split_ifs with hpack hneeds
      · have hpack := pack_returns t s
        rwa [pack, hget, ok_bind] at hpack
      · -- The operands of the tensor are those it had at first.
        have hsync : ∀ s', Evolves s s' → ∀ k', s' t = some k' → ∀ u ∈ kernels.operandsOf k', ∀ s'', Evolves s' s'' →
            Returns s'' (syncValues kernels fuel u s'') := by
          intro s' hs' k' hk' u hu s'' hs''
          obtain ⟨k₀, hk₀, hevolved⟩ := (hs.trans hs').exists_of_eq_some hk'
          refine hbound u ⟨k₀, hk₀, ?_, ?_⟩ s'' ((hs.trans hs').trans hs'') fuel (by omega)
          · obtain ⟨k₁, hk₁, hevolved₁⟩ := hs.exists_of_eq_some hst
            cases hk₀.symm.trans hk₁
            exact hevolved₁.needsCompute hneeds
          · exact hevolved.operandsOf kernels ▸ hu
        refine ((compile_returns t s).bind fun s' hs' => ?_).bind fun s' hs' => ?_
        · obtain ⟨k', hk', -⟩ := hs'.evolved t k hst
          exact assemble_returns hk' (hsync s' hs' k' hk')
        · obtain ⟨k', hk', -⟩ := hs'.evolved t k hst
          exact compute_returns hk' (hsync s' hs' k' hk')
      · exact .refl s

/-! ### Operations -/

/-- One depth for syncing some tensors in any states that evolve from this one. -/
theorem exists_depth (hacc : ∀ d, Acc (Reads kernels s) d) (l : List T) : ∃ bound, ∀ fuel, bound ≤ fuel → ∀ u ∈ l,
    ∀ s', Evolves s s' → Returns s' (syncValues kernels fuel u s') := by
  obtain ⟨bound, hbound⟩ := exists_bound (l := l)
    (P := fun u fuel => ∀ s', Evolves s s' → Returns s' (syncValues kernels fuel u s')) fun u _ => by
      obtain ⟨bound, hbound⟩ := syncValues_returns (hacc u)
      exact ⟨bound, fun fuel hfuel s' hs' => hbound s' hs' fuel hfuel⟩
  exact ⟨bound, fun fuel hfuel u hu => hbound u hu fuel hfuel⟩

theorem syncDependentTensors_halts (hacc : ∀ d, Acc (Reads kernels s) d) (t : T) : ∃ bound, ∀ fuel, bound ≤ fuel →
    Outcome (fun _ => True) (· ≠ .outOfDepth) (syncDependentTensors (syncValues kernels fuel) t s) := by
  cases hk : s t with
  | none => exact ⟨0, fun fuel _ => by simp [syncDependentTensors, State.get, hk]⟩
  | some k =>
    obtain ⟨bound, hbound⟩ := exists_depth hacc k.dependentTensors
    have hget : s.get t = .ok k := State.get_eq_ok.mpr hk
    refine ⟨bound, fun fuel hfuel => ?_⟩
    rw [syncDependentTensors, hget, ok_bind]
    have hfold : Outcome (Evolves s) (· ≠ Fault.outOfDepth)
        (k.dependentTensors.foldlM (fun s d => syncValues kernels fuel d s) s) := by
      refine Outcome.foldlM_of_forall (fun d hd s' hs' => ?_) (.refl s)
      exact (hbound fuel hfuel d hd s' hs').mono (fun _ h => hs'.trans h) fun _ he => he
    refine hfold.bind fun s' hs' => ?_
    obtain ⟨k', hk', -⟩ := hs'.evolved t k hk
    rw [State.get_eq_ok.mpr hk']
    trivial

theorem evaluate_halts (hacc : ∀ d, Acc (Reads kernels s) d) (t : T) : ∃ bound, ∀ fuel, bound ≤ fuel →
    Outcome (fun _ => True) (· ≠ .outOfDepth) (evaluate kernels (syncValues kernels fuel) t s) := by
  cases hk : s t with
  | none => exact ⟨0, fun fuel _ => by simp [evaluate, compile, State.get, hk]⟩
  | some k =>
    obtain ⟨bound, hbound⟩ := exists_depth hacc (kernels.operandsOf k)
    refine ⟨bound, fun fuel hfuel => ?_⟩
    have hsync : ∀ s', Evolves s s' → ∃ k', s' t = some k' ∧ ∀ u ∈ kernels.operandsOf k', ∀ s'', Evolves s' s'' →
        Returns s'' (syncValues kernels fuel u s'') := by
      intro s' hs'
      obtain ⟨k', hk', hevolved⟩ := hs'.evolved t k hk
      exact ⟨k', hk', fun u hu s'' hs'' => hbound fuel hfuel u (hevolved.operandsOf kernels ▸ hu) s''
        (hs'.trans hs'')⟩
    refine Outcome.bind (compile_returns t s) fun s₁ hs₁ => ?_
    obtain ⟨k₁, hk₁, hsync₁⟩ := hsync s₁ hs₁
    rw [State.get_eq_ok.mpr hk₁, ok_bind]
    split_ifs
    · exact (compute_returns hk₁ hsync₁).mono (fun _ _ => trivial) fun _ he => he
    · refine Outcome.bind (assemble_returns hk₁ hsync₁) fun s₂ hs₂ => ?_
      obtain ⟨k₂, hk₂, hsync₂⟩ := hsync s₂ (hs₁.trans hs₂)
      exact (compute_returns hk₂ hsync₂).mono (fun _ _ => trivial) fun _ he => he

variable [Fintype T] [DecidableEq E]

/-- Every operation on tensors none of which waits for itself comes to an end. -/
theorem step_halts (hs : Registered kernels s) (hacc : ∀ d, Acc (Reads kernels s) d) (op : Op T Coord V E) :
    ∃ bound, ∀ fuel, bound ≤ fuel → Outcome (fun _ => True) (· ≠ .outOfDepth) (step kernels fuel op s) := by
  by_cases hhandles : ∀ t ∈ op.tensors kernels, (s t).isSome
  · simp only [step, if_pos hhandles]
    have hliving := fun s₁ hevolves => living_of_evolves hhandles (show Evolves s s₁ from hevolves)
    cases op with
    | insert t component =>
      obtain ⟨bound, hbound⟩ := syncDependentTensors_halts hacc t
      refine ⟨bound, fun fuel hfuel => Outcome.bind (hbound fuel hfuel) fun s₁ _ => ?_⟩
      cases hk : s₁ t with
      | none => simp [State.get, hk]
      | some k =>
        rw [State.get_eq_ok.mpr hk, ok_bind]
        refine Outcome.bind ((k.insertUnsynced_outcome component).mono (fun _ h => h) ?_) fun _ _ => trivial
        rintro e rfl
        intro h
        cases h
    | pack t => exact ⟨0, fun fuel _ => (pack_returns t s).mono (fun _ _ => trivial) fun _ he => he⟩
    | assign t e =>
      obtain ⟨bound, hbound⟩ := syncDependentTensors_halts hacc t
      refine ⟨bound, fun fuel hfuel => ?_⟩
      have hsync := hbound fuel hfuel
      cases hs₁ : syncDependentTensors (syncValues kernels fuel) t s with
      | error fault =>
        rw [hs₁] at hsync
        simpa [perform, setAssignment, hs₁] using hsync
      | ok s₁ =>
        have hevolves := (syncDependentTensors_spec hs hs₁).1
        obtain ⟨k, hk⟩ := hliving s₁ hevolves t (List.mem_cons_self ..)
        have hnew := fun u hu => hliving s₁ hevolves u (List.mem_cons_of_mem t hu)
        rw [perform, setAssignment_eq hs₁ (hs.of_evolves hevolves) hk hnew]
        trivial
    | assignScalar t e =>
      obtain ⟨bound, hbound⟩ := syncDependentTensors_halts hacc t
      obtain ⟨k, hk⟩ := hliving s (.refl s) t (List.mem_cons_self ..)
      refine ⟨bound, fun fuel hfuel => ?_⟩
      rw [perform, State.get_eq_ok.mpr hk, ok_bind]
      split_ifs with horder
      · trivial
      · have hsync := hbound fuel hfuel
        cases hs₁ : syncDependentTensors (syncValues kernels fuel) t s with
        | error fault =>
          rw [hs₁] at hsync
          simpa [assignScalar, State.get_eq_ok.mpr hk, not_not.mp horder, hs₁] using hsync
        | ok s₁ =>
          have hevolves := (syncDependentTensors_spec hs hs₁).1
          obtain ⟨k₁, hk₁⟩ := hliving s₁ hevolves t (List.mem_cons_self ..)
          have hnew := fun u hu => hliving s₁ hevolves u (List.mem_cons_of_mem t hu)
          rw [assignScalar_eq hk (not_not.mp horder) hs₁ hk₁ hnew]
          trivial
    | evaluate t =>
      obtain ⟨bound, hbound⟩ := evaluate_halts hacc t
      obtain ⟨k, hk⟩ := hliving s (.refl s) t (List.mem_cons_self ..)
      refine ⟨bound, fun fuel hfuel => ?_⟩
      rw [perform, State.get_eq_ok.mpr hk, ok_bind]
      split_ifs
      · trivial
      · exact hbound fuel hfuel
    | read t =>
      obtain ⟨bound, hbound⟩ := syncValues_returns (hacc t)
      exact ⟨bound, fun fuel hfuel => (hbound s (.refl s) fuel hfuel).mono (fun _ _ => trivial) fun _ he => he⟩
    | destroy t => exact ⟨0, fun _ _ => trivial⟩
  · simp only [step, if_neg hhandles]
    exact ⟨0, fun _ _ => trivial⟩

/-- The conditions under which no tensor comes to wait for itself. -/
def WaitsForOthers (kernels : Kernels T Coord V E) (s : State T Coord V E) (op : Op T Coord V E) : Prop :=
  InsertsSettled s op ∧ ReadsOthers kernels op

theorem run_halts (hs : Registered kernels s) (hacc : ∀ d, Acc (Reads kernels s) d) (ops : List (Op T Coord V E)) :
    ∃ bound, ∀ fuel, bound ≤ fuel → Meets kernels (WaitsForOthers kernels) fuel ops s →
      run kernels fuel ops s ≠ .error .outOfDepth := by
  refine run_ne_of_step (I := fun s => Registered kernels s ∧ ∀ d, Acc (Reads kernels s) d) ?_ ops s ⟨hs, hacc⟩
  rintro s op ⟨hs, hacc⟩ ⟨hsettled, hothers⟩
  obtain ⟨bound, hbound⟩ := step_halts hs hacc op
  refine ⟨⟨bound, fun fuel hfuel h => ?_⟩, fun fuel s' h => ⟨hs.step hsettled h, acyclic_step hs hacc hothers h⟩⟩
  have hne := hbound fuel hfuel
  rw [h] at hne
  exact hne rfl

/-- Evaluation ends, in any order of operations: every operation of a run reaches an end, where no assignment reads the
    tensor it defines and nothing is inserted into a tensor that waits to be computed. -/
theorem evaluation_ends (kernels : Kernels T Coord V E) (order : T → ℕ) (format : T → Layout Coord)
    (ops : List (Op T Coord V E)) : ∃ bound, ∀ fuel, bound ≤ fuel →
      Meets kernels (WaitsForOthers kernels) fuel ops (fresh order format) →
        run kernels fuel ops (fresh order format) ≠ .error .outOfDepth :=
  run_halts (registered_fresh order format) (acyclic_fresh order format) ops

/-! ### Tensors that wait for themselves -/

section Stuck

omit [DecidableEq T] [Fintype T] [DecidableEq E]

/-- The tensor waits for itself. -/
def WaitsForSelf (kernels : Kernels T Coord V E) (t : T) (k : Content T Coord V E) : Prop :=
  k.needsPack = false ∧ k.needsAssemble = true ∧ k.needsCompute = true ∧ t ∈ kernels.operandsOf k

variable [DecidableEq T]

/-- Syncing a tensor that waits for itself does not end, and syncing another one does not make it up to date. -/
theorem syncValues_stuck (fuel : ℕ) (hs : Holds (WaitsForSelf kernels t) t s) (u : T) :
    Outcome (fun s' => Holds (WaitsForSelf kernels t) t s' ∧ u ≠ t) (fun _ => True) (syncValues kernels fuel u s) := by
  induction fuel generalizing s u with
  | zero => trivial
  | succ fuel ih =>
    change Outcome _ _ (syncBody kernels (syncValues kernels fuel) u s)
    cases hu : s u with
    | none => simp [syncBody, State.get, hu]
    | some k =>
      rw [syncBody, State.get_eq_ok.mpr hu, ok_bind]
      by_cases hut : u = t
      · subst hut
        obtain ⟨kt, hkt, hpack, hassemble, hcompute, hself⟩ := hs
        cases hu.symm.trans hkt
        rw [if_neg (by simp [hpack]), if_pos hcompute]
        -- The tensor is one of the operands that are synced before it is assembled.
        refine Outcome.bind (Q := fun _ => False) (Outcome.bind (Q := fun s' => ∃ k', s' u = some k' ∧
          WaitsForSelf kernels u k') ?_ ?_) fun s' hs' => hs'.elim
        · cases hs' : compile u s with
          | error e => trivial
          | ok s' =>
            obtain ⟨k₀, hk₀, hs'⟩ := ok_of_bind hs'
            rw [State.get_eq_ok] at hk₀
            cases hu.symm.trans hk₀
            split at hs'
            · cases hs'
            · next e hassign =>
              cases hs'
              split_ifs
              · refine ⟨_, State.set_self _ _ _, hpack, hassemble, hcompute, ?_⟩
                rwa [Kernels.operandsOf, hassign] at hself ⊢
              · exact ⟨k, hkt, hpack, hassemble, hcompute, hself⟩
        · rintro s' ⟨k', hk', hwaits⟩
          rw [assemble, State.get_eq_ok.mpr hk', ok_bind, if_pos hwaits.2.1]
          split_ifs
          · trivial
          · refine Outcome.bind (Q := fun s => Holds (WaitsForSelf kernels u) u s ∧ u ∉ kernels.operandsOf k') ?_
              fun s'' hs'' => absurd hwaits.2.2.2 hs''.2
            refine Outcome.foldlM (fun before s => Holds (WaitsForSelf kernels u) u s ∧ u ∉ before) ?_
              ⟨⟨k', hk', hwaits⟩, List.not_mem_nil⟩
            rintro before w after s'' - ⟨hs'', hbefore⟩
            refine (ih hs'' w).mono (fun s₃ hs₃ => ⟨hs₃.1, ?_⟩) fun _ _ => trivial
            simp [hbefore, Ne.symm hs₃.2]
      · split_ifs
        · exact Outcome.bind (k.pack_outcome.mono (fun _ h => h) fun _ _ => trivial) fun k' _ => ⟨hs.set_of_ne hut k', hut⟩
        · refine Outcome.mono (computation_keeps (fun s k hs => hs.set_of_ne hut k)
            (fun s w hs => hs.removeDependentTensor (fun _ _ h => h) u w)
            (fun s w hs => (ih hs w).mono (fun _ h => h.1) fun _ _ => trivial) hs) (fun _ h => ⟨h, hut⟩) fun _ _ => trivial
        · exact ⟨hs, hut⟩

end Stuck

/-! ### Runs that do not end -/

/-- The tensor waits to be computed, and the first of its operands is one of `W`. -/
def WaitsFor (kernels : Kernels T Coord V E) (W : T → Prop) (k : Content T Coord V E) : Prop :=
  ∃ e u rest, k.assignment = some e ∧ kernels.operands e = u :: rest ∧ W u ∧ k.needsPack = false ∧
    k.needsAssemble = true ∧ k.needsCompute = true

omit [Fintype T] [DecidableEq E] in
/-- The recursion of tensors that wait for one another exhausts every depth. -/
theorem syncValues_outOfDepth {W : T → Prop} (fuel : ℕ) (hs : ∀ t, W t → ∃ k, s t = some k ∧ WaitsFor kernels W k)
    (ht : W t) : syncValues kernels fuel t s = .error .outOfDepth := by
  induction fuel generalizing s t with
  | zero => rfl
  | succ fuel ih =>
    change syncBody kernels (syncValues kernels fuel) t s = _
    obtain ⟨k, hk, e, u, rest, hassign, hoperands, hu, hpack, hassemble, hcompute⟩ := hs t ht
    have hget : s.get t = .ok k := State.get_eq_ok.mpr hk
    -- Compiling changes nothing that the recursion tests.
    obtain ⟨s', k', hs', hk', hassign', hneeds', hassemble', hwaits⟩ : ∃ s' k', compile t s = .ok s' ∧ s' t = some k' ∧
        k'.assignment = some e ∧ k'.needsCompile = false ∧ k'.needsAssemble = true ∧
          ∀ t, W t → ∃ k, s' t = some k ∧ WaitsFor kernels W k := by
      simp only [compile, hget, ok_bind, hassign]
      split_ifs with hneeds
      · refine ⟨_, _, rfl, State.set_self _ _ _, rfl, rfl, hassemble, fun w hw => ?_⟩
        by_cases hwt : w = t
        · rw [hwt]
          exact ⟨_, State.set_self _ _ _, e, u, rest, rfl, hoperands, hu, hpack, hassemble, hcompute⟩
        · obtain ⟨kw, hkw, hwaits⟩ := hs w hw
          exact ⟨kw, by rw [State.set_of_ne s _ hwt, hkw], hwaits⟩
      · exact ⟨s, k, rfl, hk, hassign, by simpa using hneeds, hassemble, hs⟩
    have hget' : s'.get t = .ok k' := State.get_eq_ok.mpr hk'
    have hoperands' : kernels.operandsOf k' = u :: rest := by
      rw [Kernels.operandsOf, hassign', Option.map_some, hoperands]
      rfl
    have hrec := ih hwaits hu
    simp [syncBody, hget, hpack, hcompute, hs', assemble, hget', hneeds', hassemble', hoperands', hrec]

/-- The assignment of one tensor to another. -/
def copy (t : T) : SumAssignment T := ⟨[t], List.nodup_singleton t, false⟩

/-- Two vectors: the first is assigned the second, a component is inserted into it before it is computed, and the second
    is assigned the first. Each waits for the other: reading one of them never ends. -/
theorem evaluation_ends_not_mutual : ¬ ∃ bound, ∀ fuel, bound ≤ fuel →
    run sums fuel [.assign 0 (copy 1), .insert 0 (0, 1), .assign 1 (copy 0), .read 0]
      (fresh (fun _ => 1) (fun _ => sparse) : State (Fin 2) ℕ ℤ (SumAssignment (Fin 2))) ≠ .error .outOfDepth := by
  rintro ⟨fuel, hends⟩
  refine hends fuel (Nat.le_refl fuel) ?_
  cases fuel with
  | zero => rfl
  | succ fuel =>
    obtain ⟨s₁, s₂, s₃, hs₁, hs₂, hs₃, hwaits⟩ : ∃ s₁ s₂ s₃ : State (Fin 2) ℕ ℤ (SumAssignment (Fin 2)),
        step sums (fuel + 1) (.assign 0 (copy 1)) (fresh (fun _ => 1) (fun _ => sparse)) = .ok s₁ ∧
        step sums (fuel + 1) (.insert 0 (0, 1)) s₁ = .ok s₂ ∧ step sums (fuel + 1) (.assign 1 (copy 0)) s₂ = .ok s₃ ∧
        ∀ t, True → ∃ k, s₃ t = some k ∧ WaitsFor sums (fun _ => True) k := by
      refine ⟨_, _, _, rfl, insert_eq rfl rfl rfl, rfl, fun t _ => ?_⟩
      fin_cases t
      · exact ⟨_, rfl, copy 1, 1, [], rfl, rfl, trivial, rfl, rfl, rfl⟩
      · exact ⟨_, rfl, copy 0, 0, [], rfl, rfl, trivial, rfl, rfl, rfl⟩
    have hread : step sums (fuel + 1) (.read 0) s₃ = .error .outOfDepth := by
      obtain ⟨k, hk, -⟩ := hwaits 0 trivial
      rw [step, if_pos (by simp [Op.tensors, hk])]
      exact syncValues_outOfDepth (fuel + 1) hwaits trivial
    rw [run, hs₁, ok_bind, run, hs₂, ok_bind, run, hs₃, ok_bind, run, hread]
    rfl

/-- The vector that is assigned the sum of itself and another one waits for itself: reading it never ends. -/
theorem evaluation_ends_not_selfSum (fuel : ℕ) :
    run sums fuel [.assign 0 ⟨[0, 1], by decide, false⟩, .read 0]
      (fresh (fun _ => 1) (fun _ => sparse) : State (Fin 2) ℕ ℤ (SumAssignment (Fin 2))) = .error .outOfDepth := by
  obtain ⟨s, hs, hwaits⟩ : ∃ s : State (Fin 2) ℕ ℤ (SumAssignment (Fin 2)),
      step sums fuel (.assign 0 ⟨[0, 1], by decide, false⟩) (fresh (fun _ => 1) (fun _ => sparse)) = .ok s ∧
      ∀ t, t = 0 → ∃ k, s t = some k ∧ WaitsFor sums (· = 0) k := by
    refine ⟨_, rfl, ?_⟩
    rintro t rfl
    exact ⟨_, rfl, _, 0, [1], rfl, rfl, rfl, rfl, rfl, rfl⟩
  have hread : step sums fuel (.read 0) s = .error .outOfDepth := by
    obtain ⟨k, hk, -⟩ := hwaits 0 rfl
    rw [step, if_pos (by simp [Op.tensors, hk])]
    exact syncValues_outOfDepth fuel hwaits rfl
  rw [run, hs, ok_bind, run, hread]
  rfl

end Taco.Tensor
