import Taco.Tensor.Content

/-! Evaluation on demand: what tensors do when they are read, inserted into and assigned. -/

namespace Taco.Tensor

variable {T Coord V E : Type}

/-! ### The functions compiled for assignments -/

section Kernels

variable [DecidableEq Coord] [AddCommMonoid V]

/-- What evaluation uses of index notation and of the two functions compiled for an assignment. -/
structure Kernels (T Coord V E : Type) [DecidableEq Coord] [AddCommMonoid V] where
  /-- `getTensors` of the right-hand side. -/
  operands : E → List T
  nodup_operands : ∀ e, (operands e).Nodup
  /-- The assignment has an operator, as `+=` has. -/
  compound : E → Bool
  /-- The right-hand side as a function of the values of its operands. -/
  value : E → List (Coord → V) → Coord → V
  assemble : E → List (Storage Coord V) → Storage Coord V
  compute : E → Storage Coord V → List (Storage Coord V) → Option (Storage Coord V)
  /-- A plain assignment's functions, run one after the other, compute its right-hand side. -/
  computes : ∀ e args, compound e = false → args.length = (operands e).length →
    ∃ st, compute e (assemble e args) args = some st ∧ st.read = value e (args.map Storage.read)

/-- `getTensors` of a tensor's assignment. -/
def Kernels.operandsOf (kernels : Kernels T Coord V E) (k : Content T Coord V E) : List T :=
  (k.assignment.map kernels.operands).getD []

end Kernels

/-! ### Tensors by their identity -/

/-- The tensors, `none` where the content is destroyed. -/
abbrev State (T Coord V E : Type) := T → Option (Content T Coord V E)

namespace State

/-- A use of a content through a pointer to it. -/
def get (s : State T Coord V E) (t : T) : Except Fault (Content T Coord V E) :=
  match s t with
  | some k => .ok k
  | none => .error .nullDereference

def storage (s : State T Coord V E) (t : T) : Storage Coord V :=
  match s t with
  | some k => k.storage
  | none => Storage.empty

variable [DecidableEq T]

def set (s : State T Coord V E) (t : T) (k : Content T Coord V E) : State T Coord V E := Function.update s t (some k)

@[simp] theorem set_self (s : State T Coord V E) (t : T) (k : Content T Coord V E) : s.set t k t = some k := by
  simp [set]

@[simp] theorem set_of_ne (s : State T Coord V E) {t u : T} (k : Content T Coord V E) (h : u ≠ t) : s.set t k u = s u := by
  simp [set, h]

omit [DecidableEq T] in
theorem get_eq_ok {s : State T Coord V E} {t : T} {k : Content T Coord V E} : s.get t = .ok k ↔ s t = some k := by
  rw [get]
  cases s t <;> simp

end State

section Lists

variable [DecidableEq T]

/-- What `TensorBase::removeDependentTensor` does to the list: the last entry takes the place of the removed one. -/
def removeEntry (t : T) (dependents : List T) : List T :=
  match dependents.getLast? with
  | none => dependents
  | some back =>
    if back = t then dependents.dropLast
    else if t ∈ dependents.dropLast then dependents.dropLast.set (dependents.dropLast.idxOf t) back
    else dependents

theorem set_idxOf_perm {t : T} {l : List T} (h : t ∈ l) (back : T) : (t :: l.set (l.idxOf t) back).Perm (back :: l) := by
  induction l with
  | nil => cases h
  | cons a l ih =>
    by_cases hat : a = t
    · subst hat
      rw [List.idxOf_cons_self, List.set_cons_zero]
      exact List.Perm.swap _ _ _
    · have hl : t ∈ l := (List.mem_cons.mp h).resolve_left (Ne.symm hat)
      rw [List.idxOf_cons_ne _ hat, List.set_cons_succ]
      exact (List.Perm.swap a t _).trans (((ih hl).cons a).trans (List.Perm.swap back a l))

/-- One entry of the tensor is removed. -/
theorem removeEntry_perm (t : T) (l : List T) : (removeEntry t l).Perm (l.erase t) := by
  rcases List.eq_nil_or_concat' l with rfl | ⟨init, back, rfl⟩
  · rfl
  · simp only [removeEntry, List.getLast?_concat, List.dropLast_concat]
    have hrotate : (back :: init).Perm (init ++ [back]) := (List.perm_append_singleton back init).symm
    by_cases hback : back = t
    · subst hback
      rw [if_pos rfl]
      have herase := hrotate.erase back
      rwa [List.erase_cons_head] at herase
    · rw [if_neg hback]
      by_cases ht : t ∈ init
      · rw [if_pos ht]
        have herase := ((set_idxOf_perm ht back).trans hrotate).erase t
        rwa [List.erase_cons_head] at herase
      · rw [if_neg ht, List.erase_of_not_mem (by simp [ht, Ne.symm hback])]

theorem mem_of_mem_removeEntry {t u : T} {l : List T} (h : u ∈ removeEntry t l) : u ∈ l :=
  List.mem_of_mem_erase ((removeEntry_perm t l).mem_iff.mp h)

theorem mem_removeEntry_of_ne {t u : T} {l : List T} (hne : u ≠ t) (h : u ∈ l) : u ∈ removeEntry t l :=
  (removeEntry_perm t l).mem_iff.mpr ((List.mem_erase_of_ne hne).mpr h)

end Lists

/-! ### Evaluation -/

section Evaluation

variable [DecidableEq T] [DecidableEq Coord] [AddCommMonoid V] (kernels : Kernels T Coord V E)

/-- `TensorBase::compile`: the functions of the module are the ones of the assignment. -/
def compile (t : T) (s : State T Coord V E) : Except Fault (State T Coord V E) := do
  let k ← s.get t
  match k.assignment with
  | none => .error .compileWithoutExpr
  | some e => .ok (if k.needsCompile then s.set t { k with needsCompile := false, module := some e } else s)

def addDependentTensor (u t : T) (s : State T Coord V E) : Except Fault (State T Coord V E) := do
  let k ← s.get u
  .ok (s.set u { k with dependentTensors := k.dependentTensors ++ [t] })

def removeDependentTensor (u t : T) (s : State T Coord V E) : Except Fault (State T Coord V E) := do
  let k ← s.get u
  .ok (s.set u { k with dependentTensors := removeEntry t k.dependentTensors })

/-- `packArguments`: the storages of the operands. -/
def packArguments (s : State T Coord V E) (k : Content T Coord V E) : List (Storage Coord V) :=
  (kernels.operandsOf k).map s.storage

/-- The call of the assemble function and what follows it. -/
def callAssemble (t : T) (s : State T Coord V E) : Except Fault (State T Coord V E) := do
  let k ← s.get t
  match k.module with
  | none => .error .noFunction
  | some e => .ok (s.set t { k with storage := kernels.assemble e (packArguments kernels s k), needsAssemble := false })

/-- The call of the compute function. -/
def callCompute (t : T) (s : State T Coord V E) : Except Fault (State T Coord V E) := do
  let k ← s.get t
  match k.module with
  | none => .error .noFunction
  | some e =>
    match kernels.compute e k.storage (packArguments kernels s k) with
    | none => .error .kernelFault
    | some storage => .ok (s.set t { k with storage := storage })

variable (sync : T → State T Coord V E → Except Fault (State T Coord V E))

/-- `TensorBase::assemble`. -/
def assemble (t : T) (s : State T Coord V E) : Except Fault (State T Coord V E) := do
  let k ← s.get t
  if k.needsCompile then .error .assembleWithoutCompile
  else if k.needsAssemble then
    (kernels.operandsOf k).foldlM (fun s u => sync u s) s >>= callAssemble kernels t
  else .ok s

/-- `TensorBase::compute`. -/
def compute (t : T) (s : State T Coord V E) : Except Fault (State T Coord V E) := do
  let k ← s.get t
  if k.needsCompile then .error .computeWithoutCompile
  else if k.needsCompute then
    (kernels.operandsOf k).foldlM (fun s u => sync u s >>= removeDependentTensor u t)
      (s.set t { k with needsCompute := false }) >>= callCompute kernels t
  else .ok s

/-- The body of `TensorBase::syncValues`. -/
def syncBody (t : T) (s : State T Coord V E) : Except Fault (State T Coord V E) := do
  let k ← s.get t
  if k.needsPack then k.pack >>= fun k => .ok (s.set t k)
  else if k.needsCompute then compile t s >>= assemble kernels sync t >>= compute kernels sync t
  else .ok s

/-- `TensorBase::syncDependentTensors`. -/
def syncDependentTensors (t : T) (s : State T Coord V E) : Except Fault (State T Coord V E) := do
  let k ← s.get t
  let s ← k.dependentTensors.foldlM (fun s d => sync d s) s
  let k ← s.get t
  .ok (s.set t { k with dependentTensors := [] })

/-- `TensorBase::insert`. -/
def insert (t : T) (component : Coord × V) (s : State T Coord V E) : Except Fault (State T Coord V E) := do
  let s ← syncDependentTensors sync t s
  let k ← s.get t
  let k ← k.insertUnsynced component
  .ok (s.set t { k with needsPack := true })

/-- `TensorBase::pack`. -/
def pack (t : T) (s : State T Coord V E) : Except Fault (State T Coord V E) := do
  let k ← s.get t
  let k ← k.pack
  .ok (s.set t k)

variable [DecidableEq E]

/-- An assignment drops a pending computation of another one. -/
def dropComputation (t : T) (e : E) (s : State T Coord V E) : Except Fault (State T Coord V E) := do
  let k ← s.get t
  if k.assignment ≠ some e ∧ k.needsCompute then
    (kernels.operandsOf k).foldlM (fun s u => removeDependentTensor u t s) s
  else .ok s

/-- The flags and the assignment that a tensor gets when `e` is assigned to it. -/
def Content.assign (k : Content T Coord V E) (e : E) (refersToSelf : Bool) : Content T Coord V E :=
  { k with
    needsPack := false
    needsCompile := k.needsCompile || k.assignment ≠ some e
    needsAssemble := true
    needsCompute := true
    assignment := some e
    refersToSelf := refersToSelf }

/-- The tensor becomes a dependent of its operands and gets the assignment. -/
def register (t : T) (e : E) (refersToSelf : Bool) (s : State T Coord V E) : Except Fault (State T Coord V E) := do
  let s ← (kernels.operands e).foldlM (fun s u => addDependentTensor u t s) s
  let k ← s.get t
  .ok (s.set t (k.assign e refersToSelf))

/-- `AccessTensorNode::setAssignment`; the left-hand side of a plain assignment refers to the tensor, that of `+=` does
    not. -/
def setAssignment (t : T) (e : E) (s : State T Coord V E) : Except Fault (State T Coord V E) :=
  syncDependentTensors sync t s >>= dropComputation kernels t e >>= register kernels t e (!kernels.compound e)

/-- `TensorBase::operator=` of a scalar. -/
def assignScalar (t : T) (e : E) (s : State T Coord V E) : Except Fault (State T Coord V E) := do
  let k ← s.get t
  if k.order ≠ 0 then .error .scalarExpected
  else syncDependentTensors sync t s >>= register kernels t e false

/-- `TensorBase::evaluate`. -/
def evaluate (t : T) (s : State T Coord V E) : Except Fault (State T Coord V E) := do
  let s ← compile t s
  let k ← s.get t
  if (k.assignment.map kernels.compound).getD false then compute kernels sync t s
  else assemble kernels sync t s >>= compute kernels sync t

end Evaluation

end Taco.Tensor
