import Taco.Tensor.Evolution

/-! What users do to tensors, in any order, and the depth of recursion it takes. -/

namespace Taco.Tensor

variable {T Coord V E : Type}

/-! ### More depth -/

section Depth

variable [DecidableEq T] [DecidableEq Coord] [AddCommMonoid V] {kernels : Kernels T Coord V E}
  {f g : T → State T Coord V E → Except Fault (State T Coord V E)}

omit [DecidableEq T] [DecidableEq Coord] [AddCommMonoid V] in
theorem foldlM_below (h : ∀ t s, Below .outOfDepth (f t s) (g t s)) (l : List T) (s : State T Coord V E) :
    Below .outOfDepth (l.foldlM (fun s u => f u s) s) (l.foldlM (fun s u => g u s) s) :=
  Below.foldlM (fun s u => h u s) l s

theorem assemble_below (h : ∀ t s, Below .outOfDepth (f t s) (g t s)) (t : T) (s : State T Coord V E) :
    Below .outOfDepth (assemble kernels f t s) (assemble kernels g t s) := by
  refine (Below.refl (s.get t)).bind fun k => ?_
  split_ifs
  · exact .refl _
  · exact (foldlM_below h _ s).bind fun s => .refl _
  · exact .refl _

theorem compute_below (h : ∀ t s, Below .outOfDepth (f t s) (g t s)) (t : T) (s : State T Coord V E) :
    Below .outOfDepth (compute kernels f t s) (compute kernels g t s) := by
  refine (Below.refl (s.get t)).bind fun k => ?_
  split_ifs
  · exact .refl _
  · exact (Below.foldlM (fun s u => (h u s).bind fun s => .refl _) _ _).bind fun s => .refl _
  · exact .refl _

theorem syncBody_below (h : ∀ t s, Below .outOfDepth (f t s) (g t s)) (t : T) (s : State T Coord V E) :
    Below .outOfDepth (syncBody kernels f t s) (syncBody kernels g t s) := by
  refine (Below.refl (s.get t)).bind fun k => ?_
  split_ifs
  · exact .refl _
  · exact ((Below.refl (compile t s)).bind fun s => assemble_below h t s).bind fun s => compute_below h t s
  · exact .refl _

theorem syncValues_below {fuel fuel' : ℕ} (h : fuel ≤ fuel') (t : T) (s : State T Coord V E) :
    Below .outOfDepth (syncValues kernels fuel t s) (syncValues kernels fuel' t s) :=
  recurse_below (fun _ _ hfg t s => syncBody_below hfg t s) h t s

omit [DecidableEq Coord] [AddCommMonoid V] in
theorem syncDependentTensors_below (h : ∀ t s, Below .outOfDepth (f t s) (g t s)) (t : T) (s : State T Coord V E) :
    Below .outOfDepth (syncDependentTensors f t s) (syncDependentTensors g t s) :=
  (Below.refl (s.get t)).bind fun _ => (foldlM_below h _ s).bind fun _ => .refl _

end Depth

/-! ### Operations -/

/-- What a user does to a tensor; `destroy` drops the last handle to it. -/
inductive Op (T Coord V E : Type) where
  | insert (t : T) (component : Coord × V)
  | pack (t : T)
  | assign (t : T) (e : E)
  | assignScalar (t : T) (e : E)
  | evaluate (t : T)
  | read (t : T)
  | destroy (t : T)

section Operations

variable [DecidableEq Coord] [AddCommMonoid V] (kernels : Kernels T Coord V E)

/-- The tensors a user must have handles to. -/
def Op.tensors : Op T Coord V E → List T
  | .insert t _ => [t]
  | .pack t => [t]
  | .assign t e => t :: kernels.operands e
  | .assignScalar t e => t :: kernels.operands e
  | .evaluate t => [t]
  | .read t => [t]
  | .destroy t => [t]

variable [DecidableEq T]

/-- Assignments of living tensors refer to the tensor, so that its content lives. -/
def Referred (s : State T Coord V E) (t : T) : Prop :=
  ∃ d, (s d).any (fun k => decide (t ∈ kernels.operandsOf k) || k.refersToSelf && decide (d = t)) = true

instance [Fintype T] (s : State T Coord V E) (t : T) : Decidable (Referred kernels s t) :=
  inferInstanceAs (Decidable (∃ _, _ = true))

variable [Fintype T] [DecidableEq E]

/-- An operation on living tensors. The user assertions of `evaluate` and `operator=` throw before anything changes. -/
def perform (fuel : ℕ) : Op T Coord V E → State T Coord V E → Except Fault (State T Coord V E)
  | .insert t component, s => insert (syncValues kernels fuel) t component s
  | .pack t, s => pack t s
  | .assign t e, s => setAssignment kernels (syncValues kernels fuel) t e s
  | .assignScalar t e, s => do
    let k ← s.get t
    if k.order ≠ 0 then .ok s else assignScalar kernels (syncValues kernels fuel) t e s
  | .evaluate t, s => do
    let k ← s.get t
    if k.assignment.isNone then .ok s else evaluate kernels (syncValues kernels fuel) t s
  | .read t, s => syncValues kernels fuel t s
  | .destroy t, s => .ok (if Referred kernels s t then s else Function.update s t none)

/-- An operation, if there are handles to the tensors it names. -/
def step (fuel : ℕ) (op : Op T Coord V E) (s : State T Coord V E) : Except Fault (State T Coord V E) :=
  if ∀ t ∈ op.tensors kernels, (s t).isSome then perform kernels fuel op s else .ok s

/-- What a user sees after an operation. -/
def seen : Op T Coord V E → State T Coord V E → List (Storage Coord V)
  | .read t, s => ((s t).map Content.storage).toList
  | _, _ => []

/-- Operations one after the other, and what is read. -/
def run (fuel : ℕ) : List (Op T Coord V E) → State T Coord V E → Except Fault (State T Coord V E × List (Storage Coord V))
  | [], s => .ok (s, [])
  | op :: ops, s => do
    let s ← step kernels fuel op s
    let (s', storages) ← run fuel ops s
    .ok (s', seen op s ++ storages)

/-- New tensors. -/
def fresh (order : T → ℕ) (format : T → Layout Coord) : State T Coord V E := fun t => some (.new (order t) (format t))

/-- Every step of a run meets a condition on the state before it. -/
def Meets (condition : State T Coord V E → Op T Coord V E → Prop) (fuel : ℕ) :
    List (Op T Coord V E) → State T Coord V E → Prop
  | [], _ => True
  | op :: ops, s => condition s op ∧ ∀ s', step kernels fuel op s = .ok s' → Meets condition fuel ops s'

variable {kernels}

/-- More depth does not change what an operation does. -/
theorem step_below {fuel fuel' : ℕ} (h : fuel ≤ fuel') (op : Op T Coord V E) (s : State T Coord V E) :
    Below .outOfDepth (step kernels fuel op s) (step kernels fuel' op s) := by
  have hsync : ∀ t s, Below .outOfDepth (syncValues kernels fuel t s) (syncValues kernels fuel' t s) :=
    fun t s => syncValues_below h t s
  have hdependents : ∀ t s, Below .outOfDepth (syncDependentTensors (syncValues kernels fuel) t s)
      (syncDependentTensors (syncValues kernels fuel') t s) := fun t s => syncDependentTensors_below hsync t s
  rw [step, step]
  split_ifs
  · cases op with
    | insert t component => exact (hdependents t s).bind fun s => .refl _
    | pack t => exact .refl _
    | assign t e => exact ((hdependents t s).bind fun s => .refl _).bind fun s => .refl _
    | assignScalar t e =>
      refine (Below.refl (s.get t)).bind fun k => ?_
      split_ifs
      · exact .refl _
      · refine (Below.refl (s.get t)).bind fun k => ?_
        split_ifs
        · exact .refl _
        · exact (hdependents t s).bind fun s => .refl _
    | evaluate t =>
      refine (Below.refl (s.get t)).bind fun k => ?_
      split_ifs
      · exact .refl _
      · refine (Below.refl (compile t s)).bind fun s => (Below.refl (s.get t)).bind fun k => ?_
        split_ifs
        · exact compute_below hsync t s
        · exact (assemble_below hsync t s).bind fun s => compute_below hsync t s
    | read t => exact hsync t s
    | destroy t => exact .refl _
  · exact .refl _

/-- A run whose steps end and keep an invariant ends. -/
theorem run_ne_of_step {I : State T Coord V E → Prop} {condition : State T Coord V E → Op T Coord V E → Prop}
    (hstep : ∀ s op, I s → condition s op →
      (∃ bound, ∀ fuel, bound ≤ fuel → step kernels fuel op s ≠ .error .outOfDepth) ∧
        ∀ fuel s', step kernels fuel op s = .ok s' → I s')
    (ops : List (Op T Coord V E)) (s : State T Coord V E) (hs : I s) : ∃ bound, ∀ fuel, bound ≤ fuel →
      Meets kernels condition fuel ops s → run kernels fuel ops s ≠ .error .outOfDepth := by
  induction ops generalizing s with
  | nil => exact ⟨0, fun fuel _ _ h => by cases h⟩
  | cons op ops ih =>
    by_cases hop : condition s op
    · obtain ⟨⟨bound, hbound⟩, hkeeps⟩ := hstep s op hs hop
      -- With enough depth the step has one outcome.
      have hsame : ∀ fuel, bound ≤ fuel → step kernels fuel op s = step kernels bound op s := fun fuel hfuel =>
        step_below hfuel op s (hbound bound (Nat.le_refl bound))
      cases hs' : step kernels bound op s with
      | error e =>
        refine ⟨bound, fun fuel hfuel _ h => hbound bound (Nat.le_refl bound) ?_⟩
        rw [run, hsame fuel hfuel, hs', error_bind] at h
        cases h
        exact hs'
      | ok s' =>
        obtain ⟨bound', hbound'⟩ := ih s' (hkeeps bound s' hs')
        refine ⟨max bound bound', fun fuel hfuel hmeets h => ?_⟩
        have hok := (hsame fuel (le_of_max_le_left hfuel)).trans hs'
        refine hbound' fuel (le_of_max_le_right hfuel) (hmeets.2 s' hok) ?_
        rw [run, hok, ok_bind] at h
        cases hrest : run kernels fuel ops s' with
        | error e =>
          rw [hrest] at h
          exact h
        | ok r =>
          rw [hrest] at h
          cases h
    · exact ⟨0, fun fuel _ hmeets => absurd hmeets.1 hop⟩

end Operations

/-! ### Sums of tensors -/

/-- The assignment of the sum of some tensors, with `=` or with `+=`. -/
structure SumAssignment (T : Type) where
  operands : List T
  nodup : operands.Nodup
  compound : Bool
  deriving DecidableEq

/-- The layout of a format that stores the inserted coordinates and no others. -/
def sparse [DecidableEq Coord] : Layout Coord where
  slots := List.dedup
  nodup := List.nodup_dedup
  subset coords := List.subset_dedup coords

/-- The functions for sums of tensors. -/
def sums [DecidableEq Coord] [AddCommMonoid V] : Kernels T Coord V (SumAssignment T) where
  operands := SumAssignment.operands
  nodup_operands := SumAssignment.nodup
  compound := SumAssignment.compound
  value _ values c := (values.map fun f => f c).sum
  assemble _ _ := Storage.empty
  compute _ _ args := some (packed sparse (args.flatMap Storage.components))
  computes e args _ _ := by
    refine ⟨_, rfl, ?_⟩
    have hsum : ∀ (args : List (Storage Coord V)) (c : Coord),
        sumAt (args.flatMap Storage.components) c = ((args.map Storage.read).map fun f => f c).sum := by
      intro args c
      induction args with
      | nil => rfl
      | cons st args ih => simp only [List.flatMap_cons, sumAt_append, Storage.sumAt_components, ih, List.map_cons, List.sum_cons]
    funext c
    rw [Storage.read_packed, hsum]

end Taco.Tensor
