import Taco.Library.Visits
import Taco.Scheduling.Relations

/-! The loop nest that `lowerForall` emits for a forall nest over derived variables, with the declarations of the
    variables that each loop makes recoverable and the guards that skip an iteration. -/

namespace Taco
namespace Scheduling
open Expr

/-! ### Emitted code -/

inductive Condition where
  | lt (a b : Expr)
  | gte (a b : Expr)
  | or (a b : Condition)

def Condition.eval (env : Env) : Condition → Bool
  | lt a b => a.eval env < b.eval env
  | gte a b => b.eval env ≤ a.eval env
  | or a b => a.eval env || b.eval env

/-- The condition under which a variable is outside its bounds; a lower bound of 0 is not tested. -/
def outOfBounds (value : Expr) (bounds : Bounds) : Condition :=
  if bounds.1.literal? = some 0 then .gte value bounds.2 else .or (.lt value bounds.1) (.gte value bounds.2)

theorem eval_outOfBounds (value : Expr) (bounds : Bounds) (env : Env) : (outOfBounds value bounds).eval env = true ↔
    ¬(bounds.1.eval env ≤ value.eval env ∧ value.eval env < bounds.2.eval env) := by
  unfold outOfBounds
  split_ifs with h0
  · have hlo : bounds.1.eval env = 0 := by
      cases h : bounds.1 <;> simp_all [literal?]
    simp [Condition.eval, hlo]
  · simp only [Condition.eval, Bool.or_eq_true, decide_eq_true_eq]
    omega

/-- A statement of the recovery code in front of a loop body. -/
inductive RecoveryStep where
  | varDecl (v : IndexVar) (recoveredValue : Expr)
  /-- A guard that continues with the next iteration. -/
  | continueIf (guardCondition : Condition)

/-- The emitted loops; `body` stands for the statement below all foralls. -/
inductive LoopNest where
  | body
  | for (coordinate : IndexVar) (bounds : Bounds) (recovery : List RecoveryStep) (contents : LoopNest)

namespace ProvenanceGraph

variable (g : ProvenanceGraph) (underivedBounds : IndexVar → Option Bounds) (definedIndexVarsOrdered : List IndexVar)

/-- `deriveIterBounds` at a point of the nest. -/
def iterBounds (v : IndexVar) : Option Bounds :=
  g.deriveIterBounds underivedBounds var definedIndexVarsOrdered g.relations.length v

/-! ### Guards -/

/-- The guard of the position variable that `varToRecover` is read from. -/
def positionGuard (varToRecover : IndexVar) : Option (List RecoveryStep) :=
  match g.getChildren varToRecover with
  | [posVar] =>
    if !g.isPosVariable g.relations.length varToRecover && g.isPosVariable g.relations.length posVar then do
      let bounds ← g.iterBounds underivedBounds definedIndexVarsOrdered posVar
      some [.continueIf (outOfBounds (var posVar) bounds)]
    else
      some []
  | _ => some []

/-- The bound of a child with an exact bound is a multiple of the upper bound of the loop over `v`; both are read as
    literals. -/
def hasDirectDivBound (v varToRecover : IndexVar) : Option Bool :=
  (g.getChildren varToRecover).foldlM (fun found c =>
    if !found && g.hasExactBound c && (g.derivationPath g.relations.length varToRecover c).length = 2 then do
      let inner ← g.iterBounds underivedBounds definedIndexVarsOrdered v
      let child ← g.iterBounds underivedBounds definedIndexVarsOrdered c
      let divisor ← inner.2.literal?
      let bound ← child.2.literal?
      if divisor = 0 then none else some (bound % divisor == 0)
    else
      some found) false

/-- The guard that keeps an underived variable below its upper bound. -/
def underivedGuard (v varToRecover : IndexVar) : Option (List RecoveryStep) :=
  match underivedBounds varToRecover with
  | some bounds =>
    if g.hasPosDescendant g.relations.length varToRecover then
      some []
    else do
      if ← g.hasDirectDivBound underivedBounds definedIndexVarsOrdered v varToRecover then some []
      else some [.continueIf (.gte (var varToRecover) bounds.2)]
  | none => some []

/-- The guard that keeps a divided variable within its chunk. -/
def chunkGuard (varToRecover : IndexVar) : Option (List RecoveryStep) :=
  match g.childRel? varToRecover with
  | some (.divide rel) => do
    let bounds ← g.iterBounds underivedBounds definedIndexVarsOrdered rel.innerVar
    let dimLen := sub bounds.2 bounds.1
    some [.continueIf (.gte (var varToRecover) (mul (add (var rel.outerVar) (literal 1)) dimLen))]
  | _ => some []

/-- The code that recovers `varToRecover` in the loop over `v`. -/
def recoverySteps (emitUnderivedGuards : Bool) (v varToRecover : IndexVar) : Option (List RecoveryStep) := do
  let forallNeedsUnderivedGuards := !g.hasExactBound v && emitUnderivedGuards
  let position ←
    if forallNeedsUnderivedGuards then g.positionGuard underivedBounds definedIndexVarsOrdered varToRecover
    else some []
  let recoveredValue ← g.recoverVariable underivedBounds var definedIndexVarsOrdered varToRecover
  let underived ←
    if forallNeedsUnderivedGuards then g.underivedGuard underivedBounds definedIndexVarsOrdered v varToRecover
    else some []
  let chunk ← g.chunkGuard underivedBounds definedIndexVarsOrdered varToRecover
  some (position ++ .varDecl varToRecover recoveredValue :: (underived ++ chunk))

variable {g underivedBounds definedIndexVarsOrdered} in
/-- The recovery code from its parts. -/
theorem recoverySteps_eq {v varToRecover : IndexVar} {recoveredValue : Expr} {position underived chunk : List RecoveryStep}
    (hexact : g.hasExactBound v = false)
    (hposition : g.positionGuard underivedBounds definedIndexVarsOrdered varToRecover = some position)
    (hvalue : g.recoverVariable underivedBounds var definedIndexVarsOrdered varToRecover = some recoveredValue)
    (hunderived : g.underivedGuard underivedBounds definedIndexVarsOrdered v varToRecover = some underived)
    (hchunk : g.chunkGuard underivedBounds definedIndexVarsOrdered varToRecover = some chunk) (emit : Bool) :
    g.recoverySteps underivedBounds definedIndexVarsOrdered emit v varToRecover =
      some ((if emit then position else []) ++
        .varDecl varToRecover recoveredValue :: ((if emit then underived else []) ++ chunk)) := by
  rw [recoverySteps, hexact, hposition, hvalue, hunderived, hchunk]
  cases emit <;> rfl

/-! ### Loops -/

/-- `lowerForall` over a nest; the variables of the loops around it are defined, outermost first. -/
def lowerForall (emitUnderivedGuards : Bool) (definedIndexVarsOrdered : List IndexVar) :
    List IndexVar → Option LoopNest
  | [] => some .body
  | v :: foralls => do
    let steps ← (g.newlyRecoverableParents definedIndexVarsOrdered g.relations.length v).mapM
      (g.recoverySteps underivedBounds definedIndexVarsOrdered emitUnderivedGuards v)
    let bounds ← g.iterBounds underivedBounds (definedIndexVarsOrdered ++ [v]) v
    let contents ← lowerForall emitUnderivedGuards (definedIndexVarsOrdered ++ [v]) foralls
    some (.for v bounds steps.flatten contents)

end ProvenanceGraph

/-- The bounds of the only underived variable, a dense dimension of `n`. -/
def denseBounds (i : IndexVar) (n : ℕ) (v : IndexVar) : Option Bounds :=
  if v = i then some (literal 0, property n) else none

/-! ### Running the code -/

/-- The variables after the recovery code, or `none` when a guard continues with the next iteration. -/
def runRecovery : List RecoveryStep → Env → Option Env
  | [], env => some env
  | .varDecl v recoveredValue :: steps, env => runRecovery steps (Function.update env v (recoveredValue.eval env))
  | .continueIf guardCondition :: steps, env => if guardCondition.eval env then none else runRecovery steps env

/-- The iterations of a loop. -/
def Bounds.values (bounds : Bounds) (env : Env) : List ℕ :=
  List.range' (bounds.1.eval env) (bounds.2.eval env - bounds.1.eval env)

/-- The variables in each execution of the body, in order. -/
def LoopNest.run : LoopNest → Env → List Env
  | .body, env => [env]
  | .for v bounds recovery contents, env =>
    (Bounds.values bounds env).flatMap fun x =>
      match runRecovery recovery (Function.update env v x) with
      | none => []
      | some env' => contents.run env'

/-- The values of `v` in the executions of the body. -/
def LoopNest.trace (nest : LoopNest) (v : IndexVar) (env : Env) : List ℕ := (nest.run env).map fun env' => env' v

/-- Two loops over ranges that the outer variable does not change. -/
theorem run_two {v w : IndexVar} {bounds bounds' : Bounds} {recovery : List RecoveryStep} {env : Env} {a b c d : ℕ}
    (hv : Bounds.values bounds env = List.range' a (b - a))
    (hw : ∀ x, Bounds.values bounds' (Function.update env v x) = List.range' c (d - c)) :
    (LoopNest.for v bounds [] (.for w bounds' recovery .body)).run env =
      (pairs a b c d).filterMap fun p =>
        runRecovery recovery (Function.update (Function.update env v p.1) w p.2) := by
  have hinner : ∀ (l : List ℕ) (f : ℕ → Option Env),
      (l.flatMap fun y => match f y with | none => [] | some env' => [env']) = l.filterMap f := by
    intro l f
    induction l with
    | nil => rfl
    | cons y l ih => cases h : f y <;> simp [List.flatMap_cons, h, ih]
  simp only [LoopNest.run, runRecovery, hv, hw, hinner, pairs, List.filterMap_flatMap, List.filterMap_map]
  rfl

end Scheduling
end Taco
