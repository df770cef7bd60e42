import Taco.IndexNotation.Concrete

/-! The variables that loops are derived from. -/

namespace Taco
namespace Concrete

/-- The relations of a schedule. -/
inductive IndexVarRel where
  | split (parentVar outerVar innerVar : IndexVar)
  | divide (parentVar outerVar innerVar : IndexVar)
  | fuse (outerParentVar innerParentVar fusedVar : IndexVar)
  | pos (parentVar posVar : IndexVar)
  | bound (parentVar boundVar : IndexVar)
  deriving DecidableEq

namespace IndexVarRel

def getParents : IndexVarRel → List IndexVar
  | split parentVar _ _ | divide parentVar _ _ | pos parentVar _ | bound parentVar _ => [parentVar]
  | fuse outerParentVar innerParentVar _ => [outerParentVar, innerParentVar]

def getChildren : IndexVarRel → List IndexVar
  | split _ outerVar innerVar | divide _ outerVar innerVar => [outerVar, innerVar]
  | fuse _ _ fusedVar => [fusedVar]
  | pos _ posVar => [posVar]
  | bound _ boundVar => [boundVar]

/-- The children that stay irregular where the parent is. -/
def getIrregulars : IndexVarRel → List IndexVar
  | split _ outerVar _ | divide _ outerVar _ => [outerVar]
  | fuse _ _ fusedVar => [fusedVar]
  | pos _ posVar => [posVar]
  | bound _ boundVar => [boundVar]

def isPos : IndexVarRel → Bool
  | pos _ _ => true
  | split _ _ _ | divide _ _ _ | fuse _ _ _ | bound _ _ => false

def isFuse : IndexVarRel → Bool
  | fuse _ _ _ => true
  | split _ _ _ | divide _ _ _ | pos _ _ | bound _ _ => false

end IndexVarRel

/-- The relations in the order in which they were added. -/
structure ProvenanceGraph where
  relations : List IndexVarRel

namespace ProvenanceGraph

/-- `childrenMap`, where the last relation that has the variable as a parent is kept. -/
def getChildren (g : ProvenanceGraph) (indexVar : IndexVar) : List IndexVar :=
  ((g.relations.reverse.find? fun rel => rel.getParents.contains indexVar).map IndexVarRel.getChildren).getD []

/-- `parentsMap`. -/
def getParents (g : ProvenanceGraph) (indexVar : IndexVar) : List IndexVar :=
  ((g.relations.reverse.find? fun rel => rel.getChildren.contains indexVar).map IndexVarRel.getParents).getD []

def isUnderived (g : ProvenanceGraph) (indexVar : IndexVar) : Bool := (g.getParents indexVar).isEmpty

def isFullyDerived (g : ProvenanceGraph) (indexVar : IndexVar) : Bool := (g.getChildren indexVar).isEmpty

/-! ### Walks

A walk up or down passes each relation at most once, so the number of relations bounds it. -/

def descendants (g : ProvenanceGraph) : ℕ → IndexVar → List IndexVar
  | 0, indexVar => [indexVar]
  | fuel + 1, indexVar =>
    if g.isFullyDerived indexVar then [indexVar] else (g.getChildren indexVar).flatMap (g.descendants fuel)

def getFullyDerivedDescendants (g : ProvenanceGraph) (indexVar : IndexVar) : List IndexVar := g.descendants g.relations.length indexVar

def ancestors (g : ProvenanceGraph) : ℕ → IndexVar → List IndexVar
  | 0, indexVar => [indexVar]
  | fuel + 1, indexVar =>
    if g.isUnderived indexVar then [indexVar] else (g.getParents indexVar).flatMap (g.ancestors fuel)

/-- The underived variables at the ends of all walks up, one that is reached twice is listed twice. -/
def getUnderivedAncestors (g : ProvenanceGraph) (indexVar : IndexVar) : List IndexVar := g.ancestors g.relations.length indexVar

def recoverable (g : ProvenanceGraph) (defined : List IndexVar) : ℕ → IndexVar → Bool
  | 0, _ => true
  | fuel + 1, indexVar =>
    (g.getChildren indexVar).all fun child =>
      defined.contains child || (!g.isFullyDerived child && g.recoverable defined fuel child)

/-- `isRecoverablePrecompute` of a graph without precompute relations. -/
def isRecoverable (g : ProvenanceGraph) (indexVar : IndexVar) (defined : List IndexVar) : Bool :=
  g.recoverable defined g.relations.length indexVar

/-- `parentRelMap`. -/
def parentRel (g : ProvenanceGraph) (indexVar : IndexVar) : Option IndexVarRel :=
  g.relations.reverse.find? fun rel => rel.getChildren.contains indexVar

def posVariable (g : ProvenanceGraph) : ℕ → IndexVar → Bool
  | 0, _ => false
  | fuel + 1, indexVar => (g.parentRel indexVar).any fun rel => rel.isPos || rel.getParents.any (g.posVariable fuel)

def isPosVariable (g : ProvenanceGraph) (indexVar : IndexVar) : Bool := g.posVariable g.relations.length indexVar

def irregular (g : ProvenanceGraph) : ℕ → IndexVar → Bool
  | 0, _ => true
  | fuel + 1, indexVar =>
    (g.parentRel indexVar).all fun rel =>
      rel.getIrregulars.contains indexVar && rel.getParents.any (g.irregular fuel)

def irregularDescendant (g : ProvenanceGraph) : ℕ → IndexVar → Option IndexVar
  | 0, indexVar => if g.irregular g.relations.length indexVar then some indexVar else none
  | fuel + 1, indexVar =>
    if g.isFullyDerived indexVar && g.irregular g.relations.length indexVar then some indexVar
    else (g.getChildren indexVar).findSome? (g.irregularDescendant fuel)

def getIrregularDescendant (g : ProvenanceGraph) (indexVar : IndexVar) : Option IndexVar :=
  g.irregularDescendant g.relations.length indexVar

/-- The outer variable of two that are fused is not recovered from positions. -/
def isFusedPos (g : ProvenanceGraph) (rel : IndexVarRel) (indexVar parent : IndexVar) : Bool :=
  rel.isFuse && (g.getIrregularDescendant indexVar).any g.isPosVariable && !g.isPosVariable parent &&
    rel.getParents.head? = some parent

def newlyRecoverable (g : ProvenanceGraph) (previouslyDefined : List IndexVar) : ℕ → IndexVar → List IndexVar
  | 0, _ => []
  | fuel + 1, indexVar =>
    match g.parentRel indexVar with
    | none => []
    | some rel => rel.getParents.flatMap fun parent =>
      if g.isFusedPos rel indexVar parent then []
      else if !g.isRecoverable parent previouslyDefined && g.isRecoverable parent (indexVar :: previouslyDefined) then
        parent :: g.newlyRecoverable previouslyDefined fuel parent
      else []

/-- The variables that are recovered where a variable is defined. -/
def newlyRecoverableParents (g : ProvenanceGraph) (indexVar : IndexVar) (previouslyDefined : List IndexVar) :
    List IndexVar := g.newlyRecoverable previouslyDefined g.relations.length indexVar

variable {g : ProvenanceGraph} {defined defined' : List IndexVar} {i : IndexVar} {fuel : ℕ}

theorem descendants_of_isFullyDerived (h : g.isFullyDerived i = true) : g.descendants fuel i = [i] := by
  cases fuel with
  | zero => rfl
  | succ fuel => rw [descendants, if_pos h]

/-- A variable is recovered from its fully derived descendants. -/
theorem recoverable_of_descendants (h : ∀ d ∈ g.descendants fuel i, d ∈ defined) :
    g.recoverable defined fuel i = true := by
  induction fuel generalizing i with
  | zero => rfl
  | succ fuel ih =>
    rw [recoverable, List.all_eq_true]
    intro child hchild
    have hnot : g.isFullyDerived i = false := by
      rw [isFullyDerived, List.isEmpty_eq_false_iff]
      exact List.ne_nil_of_mem hchild
    rw [descendants, hnot, if_neg Bool.false_ne_true] at h
    have hbelow : ∀ d ∈ g.descendants fuel child, d ∈ defined :=
      fun d hd => h d (List.mem_flatMap.mpr ⟨child, hchild, hd⟩)
    cases hchildren : g.isFullyDerived child with
    | true =>
      rw [descendants_of_isFullyDerived hchildren] at hbelow
      simp [hbelow child (List.mem_singleton_self _)]
    | false => simp [ih hbelow]

theorem recoverable_mono (hdefined : defined ⊆ defined') (h : g.recoverable defined fuel i = true) :
    g.recoverable defined' fuel i = true := by
  induction fuel generalizing i with
  | zero => rfl
  | succ fuel ih =>
    rw [recoverable, List.all_eq_true] at h ⊢
    intro child hchild
    have hcases := h child hchild
    simp only [Bool.or_eq_true, Bool.and_eq_true, List.contains_iff_mem] at hcases ⊢
    exact hcases.imp (fun hmem => hdefined hmem) fun hbelow => ⟨hbelow.1, ih hbelow.2⟩

theorem recoverable_of_le {fuel' : ℕ} (hle : fuel' ≤ fuel) (h : g.recoverable defined fuel i = true) :
    g.recoverable defined fuel' i = true := by
  induction fuel' generalizing fuel i with
  | zero => rfl
  | succ fuel' ih =>
    obtain ⟨fuel, rfl⟩ : ∃ n, fuel = n + 1 := Nat.exists_eq_add_one.mpr (Nat.lt_of_lt_of_le (Nat.succ_pos fuel') hle)
    rw [recoverable, List.all_eq_true] at h ⊢
    intro child hchild
    have hcases := h child hchild
    simp only [Bool.or_eq_true, Bool.and_eq_true] at hcases ⊢
    exact hcases.imp id fun hbelow => ⟨hbelow.1, ih (Nat.le_of_succ_le_succ hle) hbelow.2⟩

/-- What is recovered from variables that are recovered is recovered. -/
theorem recoverable_trans {fuel' : ℕ} (hle : fuel' ≤ fuel)
    (hdefined : ∀ d ∈ defined, d ∈ defined' ∨ g.isFullyDerived d = false ∧ g.recoverable defined' fuel d = true)
    (h : g.recoverable defined fuel' i = true) : g.recoverable defined' fuel' i = true := by
  induction fuel' generalizing i with
  | zero => rfl
  | succ fuel' ih =>
    rw [recoverable, List.all_eq_true] at h ⊢
    intro child hchild
    have hcases := h child hchild
    simp only [Bool.or_eq_true, Bool.and_eq_true, List.contains_iff_mem, Bool.not_eq_true'] at hcases ⊢
    rcases hcases with hmem | ⟨hderived, hbelow⟩
    · refine (hdefined child hmem).imp id fun hchild => ⟨hchild.1, ?_⟩
      exact recoverable_of_le (Nat.le_of_succ_le hle) hchild.2
    · exact Or.inr ⟨hderived, ih (Nat.le_of_succ_le hle) hbelow⟩

theorem isRecoverable_trans (hdefined : ∀ d ∈ defined, d ∈ defined' ∨ g.isFullyDerived d = false ∧ g.isRecoverable d defined' = true)
    (h : g.isRecoverable i defined = true) : g.isRecoverable i defined' = true :=
  recoverable_trans (le_refl _) hdefined h

theorem isFullyDerived_eq_false {rel : IndexVarRel} (hrel : rel ∈ g.relations) (h : i ∈ rel.getParents) :
    g.isFullyDerived i = false := by
  rw [isFullyDerived, getChildren, List.isEmpty_eq_false_iff]
  cases hfind : g.relations.reverse.find? fun rel => rel.getParents.contains i with
  | none => exact absurd (List.contains_iff_mem.mpr h) (List.find?_eq_none.mp hfind rel (List.mem_reverse.mpr hrel))
  | some rel => cases rel <;> exact List.cons_ne_nil _ _

theorem mem_newlyRecoverable {v : IndexVar} (hv : v ∈ g.newlyRecoverable defined (fuel + 1) i) : ∃ parent,
    g.isFullyDerived parent = false ∧ g.isRecoverable parent defined = false ∧
      g.isRecoverable parent (i :: defined) = true ∧ (v = parent ∨ v ∈ g.newlyRecoverable defined fuel parent) := by
  rw [newlyRecoverable] at hv
  cases hrel : g.parentRel i with
  | none =>
    rw [hrel] at hv
    cases hv
  | some rel =>
    rw [hrel] at hv
    obtain ⟨parent, hparent, hv⟩ := List.mem_flatMap.mp hv
    split_ifs at hv with hfused hnew
    · cases hv
    · rw [Bool.and_eq_true, Bool.not_eq_true'] at hnew
      have hderived := isFullyDerived_eq_false (List.mem_reverse.mp (List.mem_of_find?_eq_some hrel)) hparent
      exact ⟨parent, hderived, hnew.1, hnew.2, List.mem_cons.mp hv⟩
    · cases hv

/-- What is recovered was not recovered before. -/
theorem newlyRecoverable_new {v : IndexVar} (hv : v ∈ g.newlyRecoverable defined fuel i) :
    g.isFullyDerived v = false ∧ g.isRecoverable v defined = false := by
  induction fuel generalizing i with
  | zero => cases hv
  | succ fuel ih =>
    obtain ⟨parent, hderived, hnew, -, rfl | hv⟩ := mem_newlyRecoverable hv
    · exact ⟨hderived, hnew⟩
    · exact ih hv

/-- What is recovered from loops and from variables that are recovered from them is recovered from the loops. -/
theorem newlyRecoverable_recovered {boundVars : List IndexVar} {v : IndexVar}
    (hdefined : ∀ d ∈ defined, d ∈ boundVars ∨ g.isFullyDerived d = false ∧ g.isRecoverable d boundVars = true)
    (hi : i ∈ boundVars ∨ g.isFullyDerived i = false ∧ g.isRecoverable i boundVars = true)
    (hv : v ∈ g.newlyRecoverable defined fuel i) : g.isRecoverable v boundVars = true := by
  induction fuel generalizing i with
  | zero => cases hv
  | succ fuel ih =>
    obtain ⟨parent, hderived, -, hrecovered, hv⟩ := mem_newlyRecoverable hv
    have hparent : g.isRecoverable parent boundVars = true :=
      isRecoverable_trans (List.forall_mem_cons.mpr ⟨hi, hdefined⟩) hrecovered
    rcases hv with rfl | hv
    · exact hparent
    · exact ih (Or.inr ⟨hderived, hparent⟩) hv

theorem isRecoverable_of_descendants (h : ∀ d ∈ g.getFullyDerivedDescendants i, d ∈ defined) :
    g.isRecoverable i defined = true := recoverable_of_descendants h

end ProvenanceGraph

/-! ### Valid statements -/

namespace IndexStmt

variable {V : Type}

/-- The variable of an access is bound, derived, or recovered from the variables of loops. -/
def isBound (g : ProvenanceGraph) (boundVars defined : List IndexVar) (i : IndexVar) : Bool :=
  boundVars.contains i || !g.isUnderived i || (!g.isFullyDerived i && g.isRecoverable i defined)

theorem isBound_mono {g : ProvenanceGraph} {boundVars boundVars' defined defined' : List IndexVar} {i : IndexVar}
    (hbound : boundVars ⊆ boundVars') (hdefined : defined ⊆ defined') (h : isBound g boundVars defined i = true) :
    isBound g boundVars' defined' i = true := by
  simp only [isBound, Bool.or_eq_true, Bool.and_eq_true, List.contains_iff_mem] at h ⊢
  exact h.imp (fun h => h.imp (fun hmem => hbound hmem) id) fun h => ⟨h.1, ProvenanceGraph.recoverable_mono hdefined h.2⟩

/-- The underived ancestors of reduction variables that the left-hand side does not have. -/
def numReductionVars (g : ProvenanceGraph) (lhs : Access) (rhs : IndexExpr V) : ℕ :=
  ((getReductionVars lhs rhs).flatMap g.getUnderivedAncestors).countP (· ∉ lhs.indexVars)

/-- `isConcreteNotation` of a statement with provenance relations, and the variables of the loops so far. -/
@[grind =]
def isConcrete (g : ProvenanceGraph) (boundVars : List IndexVar) (inWhereProducer : Bool) (defined : List IndexVar) :
    IndexStmt V → Bool × List IndexVar
  | assignment lhs rhs compound =>
    ((compound || inWhereProducer || numReductionVars g lhs rhs = 0) &&
      (lhs :: rhs.accesses).all fun a => a.indexVars.all (isBound g boundVars defined), defined)
  | .forall i stmt => stmt.isConcrete g (i :: boundVars) inWhereProducer (i :: defined)
  | .where consumer producer =>
    let (producerIsConcrete, defined) := producer.isConcrete g boundVars true defined
    let (consumerIsConcrete, defined) := consumer.isConcrete g boundVars inWhereProducer defined
    (producerIsConcrete && consumerIsConcrete, defined)

end IndexStmt

end Concrete
end Taco
