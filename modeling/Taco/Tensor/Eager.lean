import Taco.Tensor.Values
import Taco.Tensor.Termination

/-! Evaluation on demand against evaluation at once. -/

namespace Taco.Tensor

variable {T Coord V E : Type} [DecidableEq T] [DecidableEq Coord] [AddCommMonoid V] {kernels : Kernels T Coord V E}
  {values : T → Coord → V} {s s' : State T Coord V E} {t u : T}

/-! ### Evaluation at once -/

/-- An operation evaluated at once: a component is added, the right-hand side of an assignment replaces the values. -/
def eager (kernels : Kernels T Coord V E) : Op T Coord V E → (T → Coord → V) → T → Coord → V
  | .insert t component, values => Function.update values t fun c => values t c + sumAt [component] c
  | .assign t e, values => Function.update values t (kernels.value e ((kernels.operands e).map values))
  | .assignScalar t e, values => Function.update values t (kernels.value e ((kernels.operands e).map values))
  | _, values => values

/-- What is read when operations are evaluated at once. -/
def eagerReads (kernels : Kernels T Coord V E) : List (Op T Coord V E) → (T → Coord → V) → List (Coord → V)
  | [], _ => []
  | .read t :: ops, values => values t :: eagerReads kernels ops values
  | op :: ops, values => eagerReads kernels ops (eager kernels op values)

/-! ### Which operations keep their promise -/

/-- A component inserted into the content will be added to what it stands for: nothing waits to be computed, and if
    packing is not due, no component is left in the buffer and a tensor that was never packed holds no values. -/
def Ready (k : Content T Coord V E) : Prop :=
  k.needsCompute = false ∧
    (k.needsPack = false → k.coordinateBufferUsed = 0 ∧ (k.neverPacked = true → ∀ c, k.storage.read c = 0))

/-- A component can be inserted: the content is ready for it, and if it is the content of a scalar with components to pack,
    none of its dependents leads back to it. -/
def Insertable (kernels : Kernels T Coord V E) (s : State T Coord V E) (t : T) (k : Content T Coord V E) : Prop :=
  Ready k ∧ (k.order = 0 → k.needsPack = true → k.unpacked ≠ [] → ∀ d ∈ k.dependentTensors, ¬ Reaches kernels s d t)

/-- The operations that evaluation on demand carries out as evaluation at once does. -/
def Kept (kernels : Kernels T Coord V E) (s : State T Coord V E) : Op T Coord V E → Prop
  | .insert t _ => ∀ k, s t = some k → Insertable kernels s t k
  | .assign t e => kernels.compound e = false ∧ t ∉ kernels.operands e
  | .assignScalar t e => kernels.compound e = false ∧ t ∉ kernels.operands e ∧ ∀ k, s t = some k → k.order = 0
  | .destroy _ => False
  | _ => True

omit [DecidableEq T] in
theorem Kept.insertsSettled {op : Op T Coord V E} (h : Kept kernels s op) : InsertsSettled s op := by
  cases op with
  | insert t component =>
    rintro ⟨k, hk, hneeds⟩
    simp [(h k hk).1.1] at hneeds
  | _ => trivial

/-! ### Dependents -/

/-- Syncing the dependents of a tensor changes nothing that the tensors stand for. -/
theorem syncDependentTensors_coherent (fuel : ℕ) (hs : Coherent kernels values s) (t : T) :
    Outcome (Coherent kernels values) (· = .outOfDepth) (syncDependentTensors (syncValues kernels fuel) t s) := by
  obtain ⟨k, hk⟩ := hs.living t
  rw [syncDependentTensors, State.get_eq_ok.mpr hk, ok_bind]
  have hfold : Outcome (Coherent kernels values) (· = Fault.outOfDepth)
      (k.dependentTensors.foldlM (fun s d => syncValues kernels fuel d s) s) :=
    Outcome.foldlM_of_forall (fun d _ s' hs' => syncValues_coherent fuel hs') hs
  cases hs₁ : k.dependentTensors.foldlM (fun s d => syncValues kernels fuel d s) s with
  | error e => rwa [hs₁] at hfold
  | ok s₁ =>
    rw [hs₁] at hfold
    have hs₁' : Coherent kernels values s₁ := hfold
    obtain ⟨k₁, hk₁⟩ := hs₁'.living t
    have hsync : syncDependentTensors (syncValues kernels fuel) t s =
        .ok (s₁.set t { k₁ with dependentTensors := [] }) := by
      rw [syncDependentTensors, State.get_eq_ok.mpr hk, ok_bind, hs₁, ok_bind, State.get_eq_ok.mpr hk₁, ok_bind]
    rw [ok_bind, State.get_eq_ok.mpr hk₁, ok_bind]
    refine hs.of_evolves (syncDependentTensors_spec hs.registered hsync).1 fun w kw hkw => ?_
    by_cases hwt : w = t
    · subst hwt
      rw [State.set_self] at hkw
      cases hkw
      exact (hs₁'.agrees w k₁ hk₁).of_entries rfl
    · rw [State.set_of_ne _ _ hwt] at hkw
      exact hs₁'.agrees w kw hkw

/-- A change of the values of a tensor that nothing waits for does not reach the other ones. -/
theorem Agrees.update {k : Content T Coord V E} (h : Agrees kernels values u k) (hu : s u = some k) (hut : u ≠ t)
    (hread : ∀ d, ¬ Reads kernels s t d) (f : Coord → V) : Agrees kernels (Function.update values t f) u k := by
  refine ⟨h.buffer, h.full, fun hneeds => ?_, fun hneeds => ?_, h.compiled, h.assembled⟩
  · rw [Function.update_of_ne hut]
    exact h.contents hneeds
  · obtain ⟨e, hassign, hplain, hvalue⟩ := h.waiting hneeds
    refine ⟨e, hassign, hplain, ?_⟩
    rw [Function.update_of_ne hut, hvalue]
    congr 1
    refine List.map_congr_left fun w hw => ?_
    have hwt : w ≠ t := by
      rintro rfl
      exact hread u ⟨k, hu, hneeds, by rw [Kernels.operandsOf, hassign]; exact hw⟩
    rw [Function.update_of_ne hwt]

omit [DecidableEq T] in
theorem Ready.full {k : Content T Coord V E} (h : Ready k) (hagrees : Agrees kernels values t k) : k.Full := by
  by_cases hpack : k.needsPack = true
  · exact hagrees.full hpack
  · rw [Bool.not_eq_true] at hpack
    have hused := (h.2 hpack).1
    have hbuffer := hagrees.buffer
    rw [Content.Full]
    omega

/-- An inserted component is added to what the tensor stands for. -/
theorem insert_coherent (hs : Coherent kernels values s) {k : Content T Coord V E} (hk : s t = some k) (h : Ready k)
    (hread : ∀ d, ¬ Reads kernels s t d) (component : Coord × V) :
    Coherent kernels (eager kernels (.insert t component) values) (s.set t { k with
      coordinateBuffer := k.coordinateBuffer ++ [component]
      coordinateBufferUsed := k.coordinateBufferUsed + 1
      needsPack := true }) := by
  have hagrees := hs.agrees t k hk
  have hfull := h.full hagrees
  have hpending : ¬ Pending s t := by
    rintro ⟨k', hk', hneeds⟩
    cases hk.symm.trans hk'
    simp [h.1] at hneeds
  refine ⟨fun u => ?_, hs.registered.set hk ⟨rfl, rfl, rfl⟩ hpending, fun d => ?_, fun u ku hku => ?_⟩
  · by_cases hut : u = t
    · exact ⟨_, by rw [hut, State.set_self]⟩
    · rw [State.set_of_ne s _ hut]
      exact hs.living u
  · refine Subrelation.accessible (fun {_ _} hr => hr.of_set hk ?_) (hs.acyclic d)
    exact ⟨rfl, rfl, rfl⟩
  · by_cases hut : u = t
    · subst hut
      rw [State.set_self] at hku
      cases hku
      refine ⟨?_, fun _ => ?_, fun _ => ?_, fun hneeds => by simp [h.1] at hneeds, hagrees.compiled, hagrees.assembled⟩
      · simpa using hagrees.buffer
      · rw [Content.Full] at hfull ⊢
        simp [hfull]
      · have hcontents := hagrees.contents h.1
        funext c
        rw [Content.contents_insert component _ ?_ c, hcontents, eager, Function.update_self]
        intro hpack
        obtain ⟨hused, hnever⟩ := h.2 hpack
        have hlength := hagrees.buffer
        rw [hused, Nat.le_zero, List.length_eq_zero_iff] at hlength
        exact ⟨hlength, hnever⟩
    · rw [State.set_of_ne s _ hut] at hku
      exact (hs.agrees u ku hku).update hku hut hread _

/-- An assigned tensor stands for the right-hand side. -/
theorem assigned_coherent [DecidableEq E] (hs : Coherent kernels values s) {e : E} (hplain : kernels.compound e = false)
    (hself : t ∉ kernels.operands e) (hread : ∀ d, ¬ Reads kernels s t d) (refersToSelf : Bool) (old : List T) :
    Coherent kernels (Function.update values t (kernels.value e ((kernels.operands e).map values)))
      (assigned kernels t e refersToSelf old s) := by
  refine ⟨fun u => ?_, hs.registered.assigned fun u _ => hs.living u, acyclic_assigned hs.acyclic hread hself,
    fun u ku hku => ?_⟩
  · obtain ⟨k, hk⟩ := hs.living u
    exact ⟨_, by rw [assigned, hk]; rfl⟩
  · obtain ⟨k, hk, rfl⟩ := assigned_eq_some hku
    have hagrees := hs.agrees u k hk
    by_cases hut : u = t
    · subst hut
      rw [if_pos rfl]
      refine ⟨hagrees.buffer, Bool.noConfusion, Bool.noConfusion, fun _ => ⟨e, rfl, hplain, ?_⟩, fun hcompile => ?_, rfl⟩
      · rw [Function.update_self]
        congr 1
        refine List.map_congr_left fun w hw => ?_
        have hwu : w ≠ u := by
          rintro rfl
          exact hself hw
        rw [Function.update_of_ne hwu]
      · simp only [Content.assign, Bool.or_eq_false_iff, decide_eq_false_iff_not, not_not] at hcompile ⊢
        rw [← hcompile.2]
        exact hagrees.compiled hcompile.1
    · rw [if_neg hut]
      exact (hagrees.update hk hut hread _).of_entries rfl

/-- A content that is ready stays so while the dependents of its tensor are synced. -/
theorem Insertable.ready {fuel : ℕ} {s₁ : State T Coord V E} {k k₁ : Content T Coord V E} (hs : Coherent kernels values s)
    (hk : s t = some k) (h : Insertable kernels s t k)
    (hsync : syncDependentTensors (syncValues kernels fuel) t s = .ok s₁) (hk₁ : s₁ t = some k₁) : Ready k₁ := by
  obtain ⟨hready, hscalar⟩ := h
  rw [syncDependentTensors, State.get_eq_ok.mpr hk, ok_bind] at hsync
  obtain ⟨s₂, hs₂, hsync⟩ := ok_of_bind hsync
  obtain ⟨k₂, hk₂, hsync⟩ := ok_of_bind hsync
  rw [State.get_eq_ok] at hk₂
  cases hsync
  rw [State.set_self] at hk₁
  cases hk₁
  by_cases hfree : k.order = 0 ∧ k.needsPack = true ∧ k.unpacked ≠ []
  · -- The scalar is left alone.
    have hreach := hscalar hfree.1 hfree.2.1 hfree.2.2
    have hfold : Outcome (fun s' => Evolves s s' ∧ s' t = s t) (fun _ => True)
        (k.dependentTensors.foldlM (fun s d => syncValues kernels fuel d s) s) := by
      refine Outcome.foldlM_of_forall (fun d hd s' hs' => ?_) ⟨.refl s, rfl⟩
      exact (syncValues_spares fuel hs'.1 (hreach d hd)).mono (fun _ h => ⟨hs'.1.trans h.1, h.2.trans hs'.2⟩)
        fun _ _ => trivial
    have hsame := (hfold.of_eq_ok hs₂).2
    rw [hk, hk₂] at hsame
    cases hsame
    exact hready
  · -- Packing leaves nothing in the buffer.
    have hfold : Outcome (Holds (fun k => Ready k ∧ (k.needsPack = true → k.Full) ∧
        ¬ (k.order = 0 ∧ k.needsPack = true ∧ k.unpacked ≠ [])) t) (fun _ => True)
        (k.dependentTensors.foldlM (fun s d => syncValues kernels fuel d s) s) := by
      refine Outcome.foldlM_of_forall (fun d _ s' hs' => syncValues_holds (fun k l h => h) ?_ (fun k h => h.1.1) fuel hs' d)
        ⟨k, hk, hready, (hs.agrees t k hk).full, hfree⟩
      rintro k k' ⟨hready, hfull, hfree⟩ hk'
      by_cases hpack : k.needsPack = true
      · rw [Content.pack_of_full (hfull hpack) hpack] at hk'
        cases hk'
        refine ⟨⟨hready.1, fun _ => ⟨?_, Bool.noConfusion⟩⟩, Bool.noConfusion, fun h => by cases h.2.1⟩
        dsimp only
        split_ifs with horder
        · by_contra hne
          exact hfree ⟨horder, hpack, fun hnil => hne (by rw [hnil]; rfl)⟩
        · rfl
      · rw [Bool.not_eq_true] at hpack
        rw [Content.pack_of_not hpack] at hk'
        cases hk'
        exact ⟨hready, hfull, hfree⟩
    obtain ⟨k₃, hk₃, hready₃, -⟩ := hfold.of_eq_ok hs₂
    cases hk₂.symm.trans hk₃
    exact hready₃

/-! ### Operations -/

/-- Explicit evaluation does not change what the tensors stand for. -/
theorem evaluate_coherent (fuel : ℕ) (hs : Coherent kernels values s) {k : Content T Coord V E} {e : E} (hk : s t = some k)
    (hassign : k.assignment = some e) :
    Outcome (Coherent kernels values) (· = .outOfDepth) (evaluate kernels (syncValues kernels fuel) t s) := by
  obtain ⟨s', hs', hcoherent, hk'⟩ := compile_coherent hs hk hassign
  rw [evaluate, hs', ok_bind, State.get_eq_ok.mpr hk', ok_bind]
  by_cases hcompute : k.needsCompute = true
  · obtain ⟨e', hassign', hplain, -⟩ := (hs.agrees t k hk).waiting hcompute
    rw [hassign', Option.map_some, Option.getD_some, hplain, if_neg Bool.false_ne_true]
    exact computeWaiting (fun u s hs => syncValues_coherent fuel hs) hcoherent hk' rfl hcompute
  · -- Nothing is left to do.
    have hassemble : k.needsAssemble = false := by simpa [(hs.agrees t k hk).assembled] using hcompute
    rw [Bool.not_eq_true] at hcompute
    have hdone : compute kernels (syncValues kernels fuel) t s' = .ok s' := by
      simp [compute, State.get_eq_ok.mpr hk', hcompute]
    have hskip : assemble kernels (syncValues kernels fuel) t s' = .ok s' := by
      simp [assemble, State.get_eq_ok.mpr hk', hassemble]
    split_ifs
    · rwa [hdone]
    · rwa [hskip, ok_bind, hdone]

/-- The dependents of a tensor are synced before the tensor changes. -/
theorem syncDependentTensors_cases (fuel : ℕ) (hs : Coherent kernels values s) (t : T) :
    syncDependentTensors (syncValues kernels fuel) t s = .error .outOfDepth ∨
      ∃ s₁ k, syncDependentTensors (syncValues kernels fuel) t s = .ok s₁ ∧ s₁ t = some k ∧ Coherent kernels values s₁ ∧
        Evolves s s₁ ∧ ∀ d, ¬ Reads kernels s₁ t d := by
  have hsync := syncDependentTensors_coherent fuel hs t
  cases hs₁ : syncDependentTensors (syncValues kernels fuel) t s with
  | error fault =>
    rw [hs₁] at hsync
    exact .inl (congrArg _ hsync)
  | ok s₁ =>
    rw [hs₁] at hsync
    have hcoherent : Coherent kernels values s₁ := hsync
    obtain ⟨k, hk⟩ := hcoherent.living t
    obtain ⟨hevolves, hread, -⟩ := syncDependentTensors_spec hs.registered hs₁
    exact .inr ⟨s₁, k, rfl, hk, hcoherent, hevolves, hread⟩

variable [DecidableEq E] [Fintype T]

/-- A step on demand does what the step does at once, and shows the same values. -/
theorem step_coherent (fuel : ℕ) (hs : Coherent kernels values s) {op : Op T Coord V E} (hop : Kept kernels s op) :
    Outcome (fun s' => Coherent kernels (eager kernels op values) s' ∧
      (seen op s').map Storage.read = eagerReads kernels [op] values) (· = .outOfDepth) (step kernels fuel op s) := by
  have hhandles : ∀ t ∈ op.tensors kernels, (s t).isSome := fun t _ => Option.isSome_iff_exists.mpr (hs.living t)
  rw [step, if_pos hhandles]
  cases op with
  | insert t component =>
    obtain ⟨k, hk⟩ := hs.living t
    rcases syncDependentTensors_cases fuel hs t with hs₁ | ⟨s₁, k₁, hs₁, hk₁, hcoherent, -, hread⟩
    · simp [perform, insert, hs₁]
    · have hready := (hop k hk).ready hs hk hs₁ hk₁
      rw [perform, insert_eq hs₁ hk₁ (hready.full (hcoherent.agrees t k₁ hk₁))]
      exact ⟨insert_coherent hcoherent hk₁ hready hread component, rfl⟩
  | pack t =>
    obtain ⟨k, hk⟩ := hs.living t
    rw [perform, pack, State.get_eq_ok.mpr hk, ok_bind]
    exact (pack_coherent hs hk).mono (fun _ h => ⟨h, rfl⟩) fun _ h => h
  | assign t e =>
    rcases syncDependentTensors_cases fuel hs t with hs₁ | ⟨s₁, k₁, hs₁, hk₁, hcoherent, hevolves, hread⟩
    · simp [perform, setAssignment, hs₁]
    · rw [perform, setAssignment_eq hs₁ hcoherent.registered hk₁ fun u _ => hcoherent.living u]
      exact ⟨assigned_coherent hcoherent hop.1 hop.2 hread _ _, rfl⟩
  | assignScalar t e =>
    obtain ⟨k, hk⟩ := hs.living t
    obtain ⟨hplain, hself, horder⟩ := hop
    rw [perform, State.get_eq_ok.mpr hk, ok_bind, if_neg (not_not.mpr (horder k hk))]
    rcases syncDependentTensors_cases fuel hs t with hs₁ | ⟨s₁, k₁, hs₁, hk₁, hcoherent, hevolves, hread⟩
    · simp [assignScalar, State.get_eq_ok.mpr hk, horder k hk, hs₁]
    · rw [assignScalar_eq hk (horder k hk) hs₁ hk₁ fun u _ => hcoherent.living u]
      exact ⟨assigned_coherent hcoherent hplain hself hread _ _, rfl⟩
  | evaluate t =>
    obtain ⟨k, hk⟩ := hs.living t
    rw [perform, State.get_eq_ok.mpr hk, ok_bind]
    cases hassign : k.assignment with
    | none => exact ⟨hs, rfl⟩
    | some e => exact (evaluate_coherent fuel hs hk hassign).mono (fun _ h => ⟨h, rfl⟩) fun _ h => h
  | read t =>
    rw [perform]
    have hsync := syncValues_coherent (t := t) fuel hs
    cases hs' : syncValues kernels fuel t s with
    | error fault => rwa [hs'] at hsync
    | ok s' =>
      rw [hs'] at hsync
      have hcoherent : Coherent kernels values s' := hsync
      obtain ⟨k', hk'⟩ := hcoherent.living t
      have hread := hcoherent.read_of_synced (syncValues_synced hs.registered hs')
      refine ⟨hcoherent, ?_⟩
      rw [State.storage, hk'] at hread
      simp [seen, hk', eagerReads, ← hread]
  | destroy t => exact hop.elim

/-- With enough depth, a step ends and does what it does at once. -/
theorem step_eager (hs : Coherent kernels values s) {op : Op T Coord V E} (hop : Kept kernels s op) :
    ∃ bound s', (∀ fuel, bound ≤ fuel → step kernels fuel op s = .ok s') ∧ Coherent kernels (eager kernels op values) s' ∧
      (seen op s').map Storage.read = eagerReads kernels [op] values := by
  obtain ⟨bound, hbound⟩ := step_halts hs.registered hs.acyclic op
  have hends := hbound bound (Nat.le_refl bound)
  have hstep := step_coherent bound hs hop
  cases hs' : step kernels bound op s with
  | error fault =>
    rw [hs'] at hends hstep
    exact absurd hstep hends
  | ok s' =>
    rw [hs'] at hstep
    refine ⟨bound, s', fun fuel hfuel => ?_, hstep⟩
    rw [← hs']
    exact step_below hfuel op s (by simp [hs'])

/-! ### Runs -/

omit [DecidableEq E] [Fintype T] in
theorem eagerReads_cons (op : Op T Coord V E) (ops : List (Op T Coord V E)) (values : T → Coord → V) :
    eagerReads kernels (op :: ops) values = eagerReads kernels [op] values ++ eagerReads kernels ops (eager kernels op values) := by
  cases op <;> rfl

/-- A run on demand shows what the run shows when it is evaluated at once. -/
theorem run_eager (ops : List (Op T Coord V E)) (hs : Coherent kernels values s) : ∃ bound, ∀ fuel, bound ≤ fuel →
    Meets kernels (Kept kernels) fuel ops s → ∃ s' storages, run kernels fuel ops s = .ok (s', storages) ∧
      storages.map Storage.read = eagerReads kernels ops values := by
  induction ops generalizing s values with
  | nil => exact ⟨0, fun fuel _ _ => ⟨s, [], rfl, rfl⟩⟩
  | cons op ops ih =>
    by_cases hop : Kept kernels s op
    · obtain ⟨bound, s₁, hbound, hs₁, hseen⟩ := step_eager hs hop
      obtain ⟨bound', hbound'⟩ := ih hs₁
      refine ⟨max bound bound', fun fuel hfuel hmeets => ?_⟩
      have hok := hbound fuel (le_of_max_le_left hfuel)
      obtain ⟨s', storages, hrun, hreads⟩ := hbound' fuel (le_of_max_le_right hfuel) (hmeets.2 s₁ hok)
      refine ⟨s', seen op s₁ ++ storages, ?_, ?_⟩
      · rw [run, hok, ok_bind, hrun]
        rfl
      · rw [List.map_append, hseen, hreads]
        exact (eagerReads_cons op ops values).symm
    · exact ⟨0, fun fuel _ hmeets => absurd hmeets.1 hop⟩

omit [DecidableEq T] [DecidableEq E] [Fintype T] in
/-- New tensors stand for zero. -/
theorem coherent_fresh (kernels : Kernels T Coord V E) (order : T → ℕ) (format : T → Layout Coord) :
    Coherent kernels (fun _ _ => 0) (fresh order format) where
  living _ := ⟨_, rfl⟩
  registered := registered_fresh order format
  acyclic := acyclic_fresh order format
  agrees t k hk := by
    cases hk
    exact ⟨Nat.le_refl _, fun _ => rfl, fun _ => rfl, Bool.noConfusion, fun _ => rfl, rfl⟩

end Taco.Tensor
