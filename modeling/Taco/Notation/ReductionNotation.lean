import Taco.Library.VarSums
import Taco.Notation.ConcreteNotation

/-! `makeReductionNotation`: the reductions that einsum notation leaves out are put around its terms. -/

namespace Taco
namespace Notation

open IndexNotation (Datatype)
open VarSums (sumOver)

/-! ### Einsum notation -/

/-- Whether an expression is einsum notation so far, with the last reason why it is not. -/
structure EinsumCheck where
  isEinsum : Bool
  reason : String

def EinsumCheck.fail (_ : EinsumCheck) (reason : String) : EinsumCheck := ⟨false, reason⟩

mutual

/-- The nodes of an expression, below a multiplication or not. -/
def matchEinsum (mulnodeVisited : Bool) (st : EinsumCheck) : IndexExpr → EinsumCheck
  | .undefined | .access _ | .literal _ _ => st
  | .neg a | .sqrt a | .cast a _ => matchEinsum mulnodeVisited st a
  | .add a b =>
    if mulnodeVisited then st.fail "additions in einsum notation must not be nested under multiplications"
    else matchEinsum mulnodeVisited (matchEinsum mulnodeVisited st a) b
  | .sub a b =>
    if mulnodeVisited then st.fail "subtractions in einsum notation must not be nested under multiplications"
    else matchEinsum mulnodeVisited (matchEinsum mulnodeVisited st a) b
  | .mul a b => matchEinsum true (matchEinsum true st a) b
  | .div _ _ => st.fail ("einsum notation may not contain " ++ "/" ++ " operations")
  | .callIntrinsic _ args => matchEinsums mulnodeVisited st args
  | .reduction _ _ _ => st.fail "einsum notation may not contain reductions"

def matchEinsums (mulnodeVisited : Bool) (st : EinsumCheck) : List IndexExpr → EinsumCheck
  | [] => st
  | a :: as => matchEinsums mulnodeVisited (matchEinsum mulnodeVisited st a) as

end

/-- The reason why a statement is not einsum notation; nothing if it is. -/
def isEinsumNotation (getName : IndexVar → String) : IndexStmt → Option String
  | .assignment lhs rhs _ =>
    let (isValid, reason) := dimensionsTypecheck getName lhs.indexVars rhs lhs.shape
    if !isValid then some ("Dimension size mismatch. " ++ reason)
    else
      let st := matchEinsum false ⟨true, ""⟩ rhs
      if st.isEinsum then none else some st.reason
  | _ => some "Einsum notation statements must be assignments."

/-! ### Reduction notation -/

namespace IndexExpr

/-- `getIndexVars`: the variables of the accesses, once each. -/
def indexVars (expr : IndexExpr) : List IndexVar :=
  (expr.accesses.flatMap Access.indexVars).foldl (fun vars v => if vars.contains v then vars else vars ++ [v]) []

/-- `sum(var, expr)`. -/
def sum (var : IndexVar) (expr : IndexExpr) : IndexExpr := reduction (add undefined undefined) var expr

section Rewrite

variable (free : List IndexVar)

/-- The last variable gets the innermost reduction. -/
def addReductions (expr : IndexExpr) : IndexExpr :=
  expr.indexVars.foldr (fun var expr => if free.contains var then expr else sum var expr) expr

mutual

/-- The rewriter does not descend into an addition or a subtraction. -/
def rewrite : IndexExpr → IndexExpr
  | undefined => undefined
  | access a => access a
  | literal type val => literal type val
  | neg a => neg (rewrite a)
  | sqrt a => sqrt (rewrite a)
  | add a b => add (addReductions free a) (addReductions free b)
  | sub a b => sub (addReductions free a) (addReductions free b)
  | mul a b => mul (rewrite a) (rewrite b)
  | div a b => div (rewrite a) (rewrite b)
  | cast a type => cast (rewrite a) type
  | callIntrinsic func args => callIntrinsic func (rewriteAll args)
  | reduction op var a => reduction op var (rewrite a)

def rewriteAll : List IndexExpr → List IndexExpr
  | [] => []
  | a :: as => rewrite a :: rewriteAll as

end

end Rewrite

mutual

/-- The rewriter comes to no addition and no subtraction. -/
def onlyOneTerm : IndexExpr → Bool
  | undefined | access _ | literal _ _ => true
  | neg a | sqrt a | cast a _ | reduction _ _ a => onlyOneTerm a
  | add _ _ | sub _ _ => false
  | mul a b | div a b => onlyOneTerm a && onlyOneTerm b
  | callIntrinsic _ args => onlyOneTermAll args

def onlyOneTermAll : List IndexExpr → Bool
  | [] => true
  | a :: as => onlyOneTerm a && onlyOneTermAll as

end

def einsum (free : List IndexVar) (expr : IndexExpr) : IndexExpr :=
  if onlyOneTerm expr then addReductions free (rewrite free expr) else rewrite free expr

end IndexExpr

/-- `makeReductionNotation`; an assignment that is not einsum notation is left as it is. -/
def makeReductionNotation (getName : IndexVar → String) (lhs : Access) (rhs op : IndexExpr) : IndexStmt :=
  if (isEinsumNotation getName (.assignment lhs rhs op)).isNone then .assignment lhs (rhs.einsum lhs.indexVars) op
  else .assignment lhs rhs op

/-! ### What it is for -/

/-- The dimensions of the variables, the components of the operands and the values of the literals; nodes that stand for
    neither sums nor products may mean anything. -/
structure Meaning (R : Type) where
  dims : IndexVar → ℕ
  value : (tensorVar : TensorVar) → (isAccessingStructure : Bool) → List ℤ → R
  literal : Datatype → List UInt8 → R
  other : IndexExpr → (IndexVar → ℕ) → R

/-- The coordinate that an access reads at a mode. -/
def Access.coordinate (a : Access) (mode x : ℕ) : ℤ :=
  match a.windowedModes.lookup mode with
  | some w => w.lo + w.stride * x
  | none =>
    match a.indexSetModes.lookup mode with
    | some s => s.set.getD x 0
    | none => x

namespace IndexExpr

/-- The operator of a sum. -/
def isSum : IndexExpr → Bool
  | add undefined undefined => true
  | _ => false

section Denote

variable {R : Type} [CommRing R] (m : Meaning R)

def denote : IndexExpr → (IndexVar → ℕ) → R
  | access a, env => m.value a.tensorVar a.isAccessingStructure (a.indexVars.mapIdx fun mode v => a.coordinate mode (env v))
  | literal type val, _ => m.literal type val
  | neg a, env => - denote a env
  | add a b, env => denote a env + denote b env
  | sub a b, env => denote a env - denote b env
  | mul a b, env => denote a env * denote b env
  | reduction op var a, env =>
    if op.isSum then ∑ x ∈ Finset.range (m.dims var), denote a (Function.update env var x)
    else m.other (reduction op var a) env
  | expr, env => m.other expr env

end Denote

/-- Accesses and literals under negations, additions, subtractions and multiplications. -/
def isPolynomial : IndexExpr → Bool
  | access _ | literal _ _ => true
  | neg a => isPolynomial a
  | add a b | sub a b | mul a b => isPolynomial a && isPolynomial b
  | _ => false

/-- The terms of a sum, with whether they are subtracted. -/
def terms : IndexExpr → List (Bool × IndexExpr)
  | neg a => (terms a).map fun t => (!t.1, t.2)
  | add a b => terms a ++ terms b
  | sub a b => terms a ++ (terms b).map fun t => (!t.1, t.2)
  | expr => [(false, expr)]

/-- The reduction variables of a term. -/
def reductionVars (free : List IndexVar) (expr : IndexExpr) : List IndexVar := expr.indexVars.filter fun v => !free.contains v

/-- The sum of the terms, each of which is summed over its own reduction variables. -/
def einsumValue {R : Type} [CommRing R] (m : Meaning R) (free : List IndexVar) (expr : IndexExpr) (env : IndexVar → ℕ) : R :=
  (expr.terms.map fun t =>
    let value := sumOver m.dims (t.2.reductionVars free) (t.2.denote m) env
    if t.1 then - value else value).sum

/-- The terms with the variables of the sums around them. -/
def summedTerms (scope : List IndexVar) : IndexExpr → List (IndexExpr × List IndexVar)
  | neg a => summedTerms scope a
  | add a b | sub a b => summedTerms scope a ++ summedTerms scope b
  | reduction op var a => if op.isSum then summedTerms (var :: scope) a else [(reduction op var a, scope)]
  | expr => [(expr, scope)]

/-- Every term is summed over exactly the reduction variables that occur in it. -/
def SummedExactly (free : List IndexVar) (expr : IndexExpr) : Prop :=
  ∀ t ∈ expr.summedTerms [], ∀ v, v ∈ t.2 ↔ v ∈ t.1.reductionVars free

/-- The result has the meaning of the einsum, and no term is multiplied by the extent of a variable it does not use. -/
structure MeansEinsum (free : List IndexVar) (expr result : IndexExpr) : Prop where
  value : ∀ (R : Type) [CommRing R] (m : Meaning R) (env : IndexVar → ℕ), result.denote m env = expr.einsumValue m free env
  summed : result.SummedExactly free

/-- The terms of an operand of the outermost addition have the same reduction variables. -/
def SameReductions (free : List IndexVar) (expr : IndexExpr) : Prop :=
  ∀ t ∈ expr.terms, ∀ v ∈ expr.reductionVars free, v ∈ t.2.reductionVars free

/-- The operands of the outermost addition or subtraction are such that one set of reductions serves all their terms. -/
def OperandsSame (free : List IndexVar) : IndexExpr → Prop
  | neg a => OperandsSame free a
  | add a b | sub a b => a.SameReductions free ∧ b.SameReductions free
  | _ => True

end IndexExpr

end Notation
end Taco
