import Taco.IndexNotation.Footprint
import Taco.IndexNotation.ProvenanceGraph

/-! `scalarPromote`: results are accumulated in scalars in the loops that do not change their coordinates. -/

namespace Taco
namespace Concrete

variable {V : Type}

/-- `ReplaceReductionExpr`: assignments to an access are made to another one. -/
def IndexStmt.replaceReductionExpr (a b : Access) : IndexStmt V → IndexStmt V
  | assignment lhs rhs compound => assignment (if lhs = a then b else lhs) rhs compound
  | .forall i stmt => .forall i (stmt.replaceReductionExpr a b)
  | .where consumer producer => .where (consumer.replaceReductionExpr a b) (producer.replaceReductionExpr a b)

namespace ScalarPromote

/-- A way from a statement to one in it. -/
inductive Branch where
  | stmt
  | consumer
  | producer
  deriving DecidableEq

/-- Where a statement is, from the last branch to the first; it stands for the node. -/
abbrev Position := List Branch

/-- The maps of `FindHoistLevel`: the loop around which the store of an access is hoisted, the operator of that store and
    the variables that are defined there. -/
structure Hoists where
  hoistLevel : Access → Option Position
  reduceOp : Access → Option Bool
  hoistIndices : Access → List IndexVar

def Hoists.empty : Hoists := ⟨fun _ => none, fun _ => none, fun _ => []⟩

/-- Whether two lists have the same variables, as sets. -/
def sameSet (a b : List IndexVar) : Bool := a.all (· ∈ b) && b.all (· ∈ a)

/-- The variables of the loops and accesses of a statement. -/
def getIndexVars : IndexStmt V → List IndexVar
  | .assignment lhs rhs _ => (lhs :: rhs.accesses).flatMap Access.indexVars
  | .forall i stmt => i :: getIndexVars stmt
  | .where consumer producer => getIndexVars producer ++ getIndexVars consumer

section

variable (g : ProvenanceGraph) (isWholeStmt promoteScalar : Bool)

/-- Whether the variables of an access are defined, so that its store can be hoisted. -/
def isHoistable (indices : List IndexVar) (a : Access) : Bool :=
  (promoteScalar || !a.indexVars.isEmpty) && a.indexVars.all (· ∈ indices)

/-- Whether the hoisted store keeps the operator: a part of a statement is promoted, or the loops around it are not those
    of the variables of the access. -/
def keepsReduceOp (derivedIndices : List IndexVar) (a : Access) : Bool :=
  !isWholeStmt || !sameSet (a.indexVars ++ a.indexVars.flatMap g.getFullyDerivedDescendants) derivedIndices

/-- The result accesses of a loop are hoisted out of the outermost loop that does not define their variables. -/
def visitResult (position : Position) (indices derivedIndices : List IndexVar) (maps : Hoists) (a : Access) : Hoists :=
  if isHoistable promoteScalar indices a && (maps.hoistLevel a).isNone then
    { hoistLevel := Function.update maps.hoistLevel a (some position)
      hoistIndices := Function.update maps.hoistIndices a indices
      reduceOp := if keepsReduceOp g isWholeStmt derivedIndices a then Function.update maps.reduceOp a (some false)
        else maps.reduceOp }
  else maps

/-- The variables that a loop defines: those that are recovered, and its own. -/
def newIndices (i : IndexVar) (derivedIndices : List IndexVar) : List IndexVar :=
  g.newlyRecoverableParents i derivedIndices ++ [i]

/-- `FindHoistLevel`; what a loop defines is removed from the sets after it, and was not in them before. -/
def findHoistLevel : Position → (indices derivedIndices : List IndexVar) → IndexStmt V → Hoists → Hoists
  | _, indices, _, .assignment lhs _ compound, maps =>
    let hoistLevel :=
      if (maps.hoistLevel lhs).isSome && sameSet (maps.hoistIndices lhs) indices then
        Function.update maps.hoistLevel lhs none
      else maps.hoistLevel
    let reduceOp :=
      if (maps.reduceOp lhs).isSome then Function.update maps.reduceOp lhs (some compound) else maps.reduceOp
    ⟨hoistLevel, reduceOp, maps.hoistIndices⟩
  | position, indices, derivedIndices, .forall i stmt, maps =>
    let maps := (IndexStmt.forall i stmt).getResultAccesses.foldl
      (visitResult g isWholeStmt promoteScalar position indices derivedIndices) maps
    let newIndices := newIndices g i derivedIndices
    findHoistLevel (.stmt :: position) (newIndices.filter (· ∈ getIndexVars (.forall i stmt)) ++ indices)
      (newIndices ++ derivedIndices) stmt maps
  | position, indices, derivedIndices, .where consumer producer, maps =>
    findHoistLevel (.consumer :: position) indices derivedIndices consumer
      (findHoistLevel (.producer :: position) indices derivedIndices producer maps)

end

/-- `HoistWrites`, where `val` makes the scalars. -/
def hoistWrites (maps : Hoists) (val : Position → Access → TensorVar) : Position → IndexStmt V → IndexStmt V
  | _, .assignment lhs rhs compound => .assignment lhs rhs compound
  | position, .forall i stmt =>
    let promoted := (IndexStmt.forall i stmt).getResultAccesses.filter fun a => maps.hoistLevel a = some position
    let body := promoted.foldl (fun body a => body.replaceReductionExpr a (.make (val position a) []))
      (hoistWrites maps val (.stmt :: position) stmt)
    promoted.foldl
      (fun s a => .where (.assignment a (.access (.make (val position a) [])) ((maps.reduceOp a).getD false)) s)
      (.forall i body)
  | position, .where consumer producer =>
    .where (hoistWrites maps val (.consumer :: position) consumer) (hoistWrites maps val (.producer :: position) producer)

/-- `scalarPromote`. -/
def scalarPromote (g : ProvenanceGraph) (isWholeStmt promoteScalar : Bool) (val : Position → Access → TensorVar)
    (s : IndexStmt V) : IndexStmt V :=
  hoistWrites (findHoistLevel g isWholeStmt promoteScalar [] [] [] s .empty) val [] s

end ScalarPromote

end Concrete
end Taco
