import Taco.IndexNotation.ProvenanceGraph

/-! Concrete notation from an assignment in reduction notation and the loops of a schedule. -/

namespace Taco
namespace Concrete

variable {V : Type}

/-! ### Reduction notation -/

/-- Expressions in reduction notation. -/
inductive ReductionExpr (V : Type) where
  | access (a : Access)
  | literal (val : V)
  | neg (a : ReductionExpr V)
  | add (a b : ReductionExpr V)
  | sub (a b : ReductionExpr V)
  | mul (a b : ReductionExpr V)
  | reduction (var : IndexVar) (a : ReductionExpr V)

namespace ReductionExpr

/-- The variables of the accesses and of the reductions. -/
def indexVars : ReductionExpr V → List IndexVar
  | access a => a.indexVars
  | literal _ => []
  | neg a => a.indexVars
  | add a b | sub a b | mul a b => a.indexVars ++ b.indexVars
  | reduction var a => var :: a.indexVars

def accesses : ReductionExpr V → List Access
  | access a => [a]
  | literal _ => []
  | neg a | reduction _ a => a.accesses
  | add a b | sub a b | mul a b => a.accesses ++ b.accesses

/-- The variables of accesses are free or bound by a reduction. -/
def isBound (boundVars : List IndexVar) : ReductionExpr V → Bool
  | access a => a.indexVars.all (· ∈ boundVars)
  | literal _ => true
  | neg a => a.isBound boundVars
  | add a b | sub a b | mul a b => a.isBound boundVars && b.isBound boundVars
  | reduction var a => a.isBound (var :: boundVars)

def numReductions : ReductionExpr V → ℕ
  | access _ | literal _ => 0
  | neg a => a.numReductions
  | add a b | sub a b | mul a b => a.numReductions + b.numReductions
  | reduction _ a => a.numReductions + 1

/-- The expression without reductions. -/
def toIndexExpr : ReductionExpr V → IndexExpr V
  | access a => .access a
  | literal val => .literal val
  | neg a => .neg a.toIndexExpr
  | add a b => .add a.toIndexExpr b.toIndexExpr
  | sub a b => .sub a.toIndexExpr b.toIndexExpr
  | mul a b => .mul a.toIndexExpr b.toIndexExpr
  | reduction _ a => a.toIndexExpr

/-- The variables of the reductions that cover the expression, and what they reduce. -/
def topLevelReductions : ReductionExpr V → List IndexVar × ReductionExpr V
  | reduction var a => (var :: a.topLevelReductions.1, a.topLevelReductions.2)
  | e => ([], e)

end ReductionExpr

/-- An assignment in reduction notation. -/
structure ReductionAssignment (V : Type) where
  lhs : Access
  rhs : ReductionExpr V
  compound : Bool

namespace ReductionAssignment

def getFreeVars (s : ReductionAssignment V) : List IndexVar := s.lhs.indexVars

/-- A variable that is not bound makes it no reduction notation, also where an ancestor or a descendant of it is bound. -/
def isReductionNotationScheduled (s : ReductionAssignment V) : Bool := s.rhs.isBound s.getFreeVars

def indexVars (s : ReductionAssignment V) : List IndexVar := s.getFreeVars ++ s.rhs.indexVars

/-- `reductionAndFreeVars`: the variables of the reductions that cover the right-hand side, and the free ones. -/
def reductionAndFreeVars (s : ReductionAssignment V) : List IndexVar := s.rhs.topLevelReductions.1 ++ s.getFreeVars

end ReductionAssignment

/-! ### Reductions in expressions -/

namespace ReductionExpr

/-- An operation in whose operands one reduction is replaced, that of the left one if there is any. -/
def replaceOperand (op : ReductionExpr V → ReductionExpr V → ReductionExpr V) (a b : ReductionExpr V)
    (left right : ReductionExpr V × Option (IndexVar × ReductionExpr V)) :
    ReductionExpr V × Option (IndexVar × ReductionExpr V) :=
  match left.2 with
  | some found => (op left.1 b, some found)
  | none => (op a right.1, right.2)

/-- The expression where the first reduction is replaced by a temporary, and that reduction. -/
def replaceReduction (t : Access) : ReductionExpr V → ReductionExpr V × Option (IndexVar × ReductionExpr V)
  | access a => (access a, none)
  | literal val => (literal val, none)
  | neg a => (neg (a.replaceReduction t).1, (a.replaceReduction t).2)
  | add a b => replaceOperand add a b (a.replaceReduction t) (b.replaceReduction t)
  | sub a b => replaceOperand sub a b (a.replaceReduction t) (b.replaceReduction t)
  | mul a b => replaceOperand mul a b (a.replaceReduction t) (b.replaceReduction t)
  | reduction var a => (access t, some (var, a))

theorem numReductions_replaceReduction (t : Access) (e : ReductionExpr V) {var : IndexVar} {body : ReductionExpr V}
    (h : (e.replaceReduction t).2 = some (var, body)) :
    (e.replaceReduction t).1.numReductions + body.numReductions + 1 = e.numReductions := by
  induction e with
  | access a => cases h
  | literal val => cases h
  | neg a ih => exact ih h
  | add a b iha ihb | sub a b iha ihb | mul a b iha ihb =>
    rw [replaceReduction, replaceOperand] at h ⊢
    cases ha : (a.replaceReduction t).2 with
    | some found =>
      rw [ha] at h
      have hcount := iha (ha.trans h)
      simp only [numReductions]
      omega
    | none =>
      rw [ha] at h
      have hcount := ihb h
      simp only [numReductions]
      omega
  | reduction var' a ih =>
    cases h
    simp [replaceReduction, numReductions]

end ReductionExpr

/-- `ReplaceReductionsWithWheres`: the reductions are computed by producers; `fresh` is the next new temporary. -/
def replaceReductionsWithWheres (lhs : Access) (compound : Bool) (rhs : ReductionExpr V) (fresh : TensorVar) :
    IndexStmt V × TensorVar :=
  match h : (rhs.replaceReduction (.make fresh [])).2 with
  | none => (.assignment lhs rhs.toIndexExpr compound, fresh)
  | some (var, body) =>
    let consumer := replaceReductionsWithWheres lhs compound (rhs.replaceReduction (.make fresh [])).1 (fresh + 1)
    let producer := replaceReductionsWithWheres (.make fresh []) true body consumer.2
    (.where consumer.1 (.forall var producer.1), producer.2)
termination_by rhs.numReductions
decreasing_by
  all_goals
    have hcount := rhs.numReductions_replaceReduction _ h
    omega

/-! ### Loops -/

/-- The loops that are emitted for a listed variable: one if it is a free variable or a covering reduction, else one for
    each walk up to such a variable. -/
def emittedLoops (g : ProvenanceGraph) (reductionAndFreeVars : List IndexVar) (i : IndexVar) : List IndexVar :=
  if i ∈ reductionAndFreeVars then [i]
  else ((g.getUnderivedAncestors i).filter (· ∈ reductionAndFreeVars)).map fun _ => i

/-- The loop of a free variable where no loops are listed: that of the last fully derived descendant that the right-hand
    side has. -/
def freeLoop (g : ProvenanceGraph) (rhsVars : List IndexVar) (i : IndexVar) : IndexVar :=
  if g.isFullyDerived i then i
  else (((g.getFullyDerivedDescendants i).filter (· ∈ rhsVars)).getLast?).getD (rhsVars.headD i)

/-- `makeConcreteNotationScheduled`. -/
def makeConcreteNotationScheduled (g : ProvenanceGraph) (fresh : TensorVar) (s : ReductionAssignment V)
    (forallIndexVars : List IndexVar) : IndexStmt V :=
  let (topLevelReductions, rhs) := s.rhs.topLevelReductions
  let compound := !topLevelReductions.isEmpty || s.compound
  let loops :=
    if forallIndexVars.isEmpty then
      s.getFreeVars.map (freeLoop g (rhs.accesses.flatMap Access.indexVars)) ++ topLevelReductions
    else forallIndexVars.flatMap (emittedLoops g s.reductionAndFreeVars)
  loops.foldr IndexStmt.forall (replaceReductionsWithWheres s.lhs compound rhs fresh).1

end Concrete
end Taco
