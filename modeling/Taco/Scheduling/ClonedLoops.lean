import Taco.Scheduling.SplitTrees

/-! The two copies of a loop that is vectorised or unrolled: one with guards in the iterations, one without them, and a
    condition in front of both that decides which of them runs. -/

namespace Taco
namespace Scheduling
open Expr Strips

/-! ### Emitting the copies -/

/-- The state of `lowerForallCloned` while it recovers the variables for the guard. -/
structure GuardState where
  minChildValues : IndexVar → Expr
  maxChildValues : IndexVar → Expr
  definedForGuard : List IndexVar
  guardRecoverySteps : List RecoveryStep
  /-- Unset until a first variable is recovered. -/
  maxOffset : Option Expr

/-- The statement that `lowerForallCloned` returns. -/
structure ClonedLoop where
  guardRecoverySteps : List RecoveryStep
  guardCondition : Condition
  /-- The loop with guards, which is not vectorised. -/
  unvectorizedLoop : LoopNest
  vectorizedLoop : LoopNest

namespace ProvenanceGraph

variable (g : ProvenanceGraph) (underivedBounds : IndexVar → Option Bounds) (definedIndexVarsOrdered : List IndexVar)

def getAllIndexVars : List IndexVar := (g.relations.flatMap fun rel => rel.parentVar :: rel.getChildren).dedup

/-- The underived variables and the position variables of coordinates that are not yet recovered. -/
def varsWithGuard : List IndexVar :=
  g.getAllIndexVars.filter fun v =>
    !g.isRecoverable definedIndexVarsOrdered g.relations.length v &&
      ((g.isUnderived v && !g.hasPosDescendant g.relations.length v) ||
        (g.isPosVariable g.relations.length v &&
          match g.getParents v with
          | [parent] => !g.isPosVariable g.relations.length parent
          | _ => false))

def recoverForGuard (st : GuardState) (varToRecover : IndexVar) : Option GuardState := do
  let recoveredValue ← g.recoverVariable underivedBounds st.minChildValues definedIndexVarsOrdered varToRecover
  let maxRecoveredValue ← g.recoverVariable underivedBounds st.maxChildValues definedIndexVarsOrdered varToRecover
  some { st with
    maxOffset := st.maxOffset <|> some (add (literal 0) (sub maxRecoveredValue recoveredValue))
    guardRecoverySteps := st.guardRecoverySteps ++ [.varDecl varToRecover recoveredValue]
    definedForGuard := varToRecover :: st.definedForGuard }

/-- A loop variable that is not defined yet takes the bounds of its loop as its extreme values. -/
def guardChild (st : GuardState) (child : IndexVar) : Option GuardState :=
  if child ∈ definedIndexVarsOrdered then some st
  else do
    let childBounds ← g.iterBounds underivedBounds definedIndexVarsOrdered child
    let recovered ← (g.newlyRecoverableParents st.definedForGuard g.relations.length child).foldlM
      (g.recoverForGuard underivedBounds definedIndexVarsOrdered)
      { st with
        minChildValues := Function.update st.minChildValues child childBounds.1
        maxChildValues := Function.update st.maxChildValues child childBounds.2 }
    some { recovered with definedForGuard := child :: recovered.definedForGuard }

/-- The extreme values of a guarded variable, and the state after them. -/
def guardValues (st : GuardState) (v : IndexVar) : Option ((Expr × Expr) × GuardState) := do
  let st ← (g.getFullyDerivedDescendants g.relations.length v).foldlM (g.guardChild underivedBounds definedIndexVarsOrdered)
    { st with minChildValues := var, maxChildValues := var }
  let minVarValue ← g.recoverVariable underivedBounds st.minChildValues definedIndexVarsOrdered v
  let maxVarValue ← g.recoverVariable underivedBounds st.maxChildValues definedIndexVarsOrdered v
  some ((minVarValue, maxVarValue), st)

/-- The condition under which the guarded variable `v` may leave its bounds. -/
def guardConditionFor (maxOffset : Expr) (v : IndexVar) (values : Expr × Expr) : Option Condition := do
  let bounds ← g.iterBounds underivedBounds definedIndexVarsOrdered v
  let maxGuard := Condition.gte (add values.2 maxOffset) bounds.2
  some (if bounds.1.literal? = some 0 then maxGuard else .or (.lt values.1 bounds.1) maxGuard)

/-- The conditions of the guarded variables; without one there is no loop to emit. -/
def guardCondition (maxOffset : Expr) : List (IndexVar × (Expr × Expr)) → Option Condition → Option Condition
  | [], guard => guard
  | (v, values) :: rest, guard => do
    let current ← g.guardConditionFor underivedBounds definedIndexVarsOrdered maxOffset v values
    guardCondition maxOffset rest (some (match guard with | some guard => .or current guard | none => current))

def guardValuesAll (st : GuardState) : List IndexVar → Option (List (IndexVar × (Expr × Expr)) × GuardState)
  | [] => some ([], st)
  | v :: vars => do
    let (values, st) ← g.guardValues underivedBounds definedIndexVarsOrdered st v
    let (rest, st) ← guardValuesAll st vars
    some ((v, values) :: rest, st)

/-- The copies of the loop over the first of `foralls`. -/
def lowerForallCloned (foralls : List IndexVar) : Option ClonedLoop := do
  let (values, st) ← g.guardValuesAll underivedBounds definedIndexVarsOrdered
    ⟨var, var, definedIndexVarsOrdered, [], none⟩ (g.varsWithGuard definedIndexVarsOrdered)
  let guard ← g.guardCondition underivedBounds definedIndexVarsOrdered (st.maxOffset.getD (literal 0)) values none
  let unvectorizedLoop ← g.lowerForall underivedBounds true definedIndexVarsOrdered foralls
  let vectorizedLoop ← g.lowerForall underivedBounds false definedIndexVarsOrdered foralls
  some ⟨st.guardRecoverySteps, guard, unvectorizedLoop, vectorizedLoop⟩

end ProvenanceGraph

/-- The iterations that the statement runs. -/
def ClonedLoop.run (loop : ClonedLoop) (env : Env) : List Env :=
  match runRecovery loop.guardRecoverySteps env with
  | none => []
  | some env' =>
    if loop.guardCondition.eval env' then loop.unvectorizedLoop.run env' else loop.vectorizedLoop.run env'

end Scheduling
end Taco
