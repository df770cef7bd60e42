import Taco.Notation.Dimensions

/-! `isConcreteNotation`: whether a statement is concrete index notation, and why it is not. -/

namespace Taco
namespace Notation

/-! ### Relations of a statement -/

/-- The graph of the relations of a `SuchThat` at the root, in which a variable keeps the last relation that it is in. -/
structure Provenance where
  relations : List IndexVarRel

namespace Provenance

def ofStmt : IndexStmt → Provenance
  | .suchThat _ predicate => ⟨predicate⟩
  | _ => ⟨[]⟩

/-- `childRelMap`: the relation in which the variable is a parent. -/
def childRel (g : Provenance) (indexVar : IndexVar) : Option IndexVarRel :=
  g.relations.reverse.find? fun rel => rel.getParents.contains indexVar

/-- `parentRelMap`: the relation in which the variable is a child. -/
def parentRel (g : Provenance) (indexVar : IndexVar) : Option IndexVarRel :=
  g.relations.reverse.find? fun rel => rel.getChildren.contains indexVar

def getChildren (g : Provenance) (indexVar : IndexVar) : List IndexVar :=
  ((g.childRel indexVar).map IndexVarRel.getChildren).getD []

def getParents (g : Provenance) (indexVar : IndexVar) : List IndexVar :=
  ((g.parentRel indexVar).map IndexVarRel.getParents).getD []

def isUnderived (g : Provenance) (indexVar : IndexVar) : Bool := (g.getParents indexVar).isEmpty

def isFullyDerived (g : Provenance) (indexVar : IndexVar) : Bool := (g.getChildren indexVar).isEmpty

def ancestors (g : Provenance) : ℕ → IndexVar → List IndexVar
  | 0, indexVar => [indexVar]
  | fuel + 1, indexVar =>
    let parents := g.getParents indexVar
    if parents.isEmpty then [indexVar] else parents.flatMap (g.ancestors fuel)

/-- No path through relations without a cycle is longer than their number. -/
def getUnderivedAncestors (g : Provenance) (indexVar : IndexVar) : List IndexVar := g.ancestors g.relations.length indexVar

def isPrecomputeRel (rel : Option IndexVarRel) : Bool := (rel.map IndexVarRel.isPrecompute).getD false

def isRecoverablePrecompute (g : Provenance) (defined producers consumers : List IndexVar) : ℕ → IndexVar → Bool
  | 0, _ => false
  | fuel + 1, indexVar =>
    if consumers.contains indexVar then true
    else if !producers.isEmpty && isPrecomputeRel (g.childRel indexVar) then
      match g.getChildren indexVar with
      | precomputeChild :: _ =>
        producers.contains precomputeChild || g.isRecoverablePrecompute defined producers consumers fuel precomputeChild
      | [] => false
    else (g.getChildren indexVar).all fun child =>
      defined.contains child ||
        !g.isFullyDerived child && g.isRecoverablePrecompute defined producers consumers fuel child

def isRecoverable (g : Provenance) (indexVar : IndexVar) (defined : List IndexVar) : Bool :=
  g.isRecoverablePrecompute defined (defined.filter fun v => isPrecomputeRel (g.parentRel v))
    (defined.filter fun v => isPrecomputeRel (g.childRel v)) (g.relations.length + 1) indexVar

end Provenance

/-! ### Assignments -/

/-- `getReductionVars`: the variables of the right-hand side that are not on the left, once each. -/
def getReductionVars (lhs : Access) (rhs : IndexExpr) : List IndexVar :=
  (rhs.accesses.flatMap Access.indexVars).foldl
    (fun vars v => if lhs.indexVars.contains v || vars.contains v then vars else vars ++ [v]) []

/-- The shape of a left-hand side, where modes with a window or an index set have its size. -/
def Access.shape (a : Access) : Shape := (List.range a.tensorVar.getOrder).map a.dimension

def IndexExpr.isUndefined : IndexExpr → Bool
  | .undefined => true
  | _ => false

/-! ### The check -/

/-- The variables of the loops so far, and whether the statement is concrete, with the last reason why it is not. -/
structure ConcreteCheck where
  definedVars : List IndexVar
  isConcrete : Bool
  reason : String

def ConcreteCheck.fail (st : ConcreteCheck) (reason : String) : ConcreteCheck :=
  { st with isConcrete := false, reason := reason }

/-- Where in the statement the check is. -/
structure ConcreteScope where
  boundVars : List IndexVar
  inWhereProducer : Bool
  inWhereConsumer : Bool

section Check

variable (getName : IndexVar → String) (g : Provenance)

def checkVar (scope : ConcreteScope) (st : ConcreteCheck) (var : IndexVar) : ConcreteCheck :=
  if !scope.boundVars.contains var && g.isUnderived var && (g.isFullyDerived var || !g.isRecoverable var st.definedVars) then
    st.fail "all variables in concrete notation must be bound by a forall statement"
  else st

def checkAccess (scope : ConcreteScope) (st : ConcreteCheck) (a : Access) : ConcreteCheck :=
  a.indexVars.foldl (checkVar g scope) st

mutual

def checkExpr (scope : ConcreteScope) (st : ConcreteCheck) : IndexExpr → ConcreteCheck
  | .undefined | .literal _ _ => st
  | .access a => checkAccess g scope st a
  | .neg a | .sqrt a | .cast a _ => checkExpr scope st a
  | .add a b | .sub a b | .mul a b | .div a b => checkExpr scope (checkExpr scope st a) b
  | .callIntrinsic _ args => checkExprs scope st args
  | .reduction _ _ a => checkExpr scope (st.fail "concrete notation cannot contain reduction nodes") a

def checkExprs (scope : ConcreteScope) (st : ConcreteCheck) : List IndexExpr → ConcreteCheck
  | [] => st
  | a :: as => checkExprs scope (checkExpr scope st a) as

end

/-- The variables over which an assignment reduces, through the variables that they are derived from. -/
def numReductionVars (lhs : Access) (rhs : IndexExpr) : ℕ :=
  ((getReductionVars lhs rhs).flatMap g.getUnderivedAncestors).countP fun parent => !lhs.indexVars.contains parent

def checkAssignment (scope : ConcreteScope) (st : ConcreteCheck) (lhs : Access) (rhs op : IndexExpr) : ConcreteCheck :=
  let (isValid, reason) := dimensionsTypecheck getName lhs.indexVars rhs lhs.shape
  if !scope.inWhereConsumer && !scope.inWhereProducer && !isValid then
    st.fail ("Dimension size mismatch. " ++ reason)
  else if 0 < numReductionVars g lhs rhs && op.isUndefined && !scope.inWhereProducer then
    st.fail "reduction variables in concrete notation must be dominated by compound assignments (such as +=)"
  else checkExpr g scope (checkAccess g scope st lhs) rhs

def checkStmt (scope : ConcreteScope) (isRoot : Bool) (st : ConcreteCheck) : IndexStmt → ConcreteCheck
  | .undefined => st
  | .assignment lhs rhs op => checkAssignment getName g scope st lhs rhs op
  | .yield _ expr => checkExpr g scope st expr
  | .forall indexVar stmt _ =>
    checkStmt { scope with boundVars := indexVar :: scope.boundVars } false
      { st with definedVars := indexVar :: st.definedVars } stmt
  | .where consumer producer =>
    checkStmt { scope with inWhereConsumer := true } false
      (checkStmt { scope with inWhereProducer := true } false st producer) consumer
  | .sequence definition mutation => checkStmt scope false (checkStmt scope false st definition) mutation
  | .assemble queries compute _ => checkStmt scope false (checkStmt scope false st queries) compute
  | .multi stmt1 stmt2 => checkStmt scope false (checkStmt scope false st stmt1) stmt2
  | .suchThat stmt _ =>
    checkStmt scope false
      (if isRoot then st else st.fail "concrete notation cannot contain nested SuchThat nodes") stmt

end Check

/-- The reason why a statement is not concrete; nothing if it is. -/
def isConcreteNotation (getName : IndexVar → String) : IndexStmt → Option String
  | .undefined => some "the index statement is undefined"
  | stmt =>
    let st := checkStmt getName (.ofStmt stmt) ⟨[], false, false⟩ true ⟨[], true, ""⟩ stmt
    if st.isConcrete then none else some st.reason

end Notation
end Taco
