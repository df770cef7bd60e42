import Taco.IR.Simplify
import Taco.IR.Stmt

/-! `RemoveRedundantLoops`: loops that only set and increment variables by literals become one scaled copy of
    their body. The outer option is empty where the code asserts or is not supported, the inner one where the
    statement is not redundant. -/

namespace Taco
namespace IR
open Expr

/-- `DuplicateBody` on an assignment. -/
def duplicateAssign (loopCount : Expr) (lhs : Var) : Expr → Option (Option Stmt)
  | literal l => some (some (.assign lhs (literal l)))
  | binary .add (var a) (literal b) =>
    if a = lhs then do
      let inc ← simplify (binary .mul loopCount (literal b))
      some (some (.assign lhs (binary .add (var a) inc)))
    else some none
  | _ => some none

mutual

/-- `DuplicateBody`. -/
def duplicateBody (loopCount : Expr) : Stmt → Option (Option Stmt)
  | .block contents => do some ((← duplicateAll loopCount contents).map .makeBlock)
  | .scope s => do some ((← duplicateBody loopCount s).map .makeScope)
  | .assign lhs rhs => duplicateAssign loopCount lhs rhs
  | _ => some none

def duplicateAll (loopCount : Expr) : List Stmt → Option (Option (List Stmt))
  | [] => some (some [])
  | s :: ss => do
    match ← duplicateBody loopCount s with
    | none => some none
    | some t => some ((← duplicateAll loopCount ss).map (t :: ·))

end

/-- `visit` of a `for` loop: `if (start < end) body`. -/
def redundantFor (start : Expr) (endVar : Var) (increment : Expr) (contents : Stmt) : Option (Option Stmt) := do
  let loopCount ← simplify (binary .div (binary .sub (var endVar) start) increment)
  some ((← duplicateBody loopCount contents).map (.makeIf (.compare .lt start (var endVar))))

/-- The increment of the last statement of a counting loop is an integer literal 1. -/
def isOne (inc : Literal) : Option Bool :=
  if inc.type.isInteger then inc.equalsScalar 1 else some false

/-- The body of a counting loop once its last statement is found to be `iter = iter + 1`. -/
def redundantCount (iter endVar : Var) (contents : List Stmt) : Option (Option Stmt) := do
  let loopCount ← simplify (binary .sub (var endVar) (var iter))
  let body ← duplicateBody loopCount (.makeBlock contents)
  some (body.map fun b =>
    .makeIf (.compare .lt (var iter) (var endVar)) (.makeBlock [b, .assign iter (var endVar)]))

/-- `visit` of a `while` loop: `if (iter < end)` the body, and `iter = end`. An empty body has no last statement. -/
def redundantWhile (cond : Expr) (contents : Stmt) : Option (Option Stmt) :=
  match cond, contents with
  | .compare .lt (var iter) (var endVar), .scope (.block stmts) =>
    if endVar ∈ contents.assigned then some none
    else match stmts.getLast? with
      | some (.assign lhs (binary .add (var a) (literal inc))) =>
        if lhs = iter && a = lhs then do
          if ← isOne inc then redundantCount iter endVar stmts.dropLast else some none
        else some none
      | some _ => some none
      | none => none
  | _, _ => some none

/-- What `RemoveRedundantLoops` puts in the place of a loop. -/
def redundantLoop : Stmt → Option (Option Stmt)
  | .for _ start endVar increment contents => redundantFor start endVar increment contents
  | .while cond contents => redundantWhile cond contents
  | _ => some none

end IR
end Taco
