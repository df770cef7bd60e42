import Taco.IndexNotation.Concrete
import Taco.Library.Dependencies
import Taco.Workspace.Acceleration

/-! The order of the loops of a nest by the levels that its accesses iterate. -/

namespace Taco
namespace Concrete

open Workspace (Format ModeFormat)

variable {V : Type}

/-! ### Iterators -/

/-- The level of an access that stores the last mode with the variable. -/
def Access.levelOf (format : TensorVar → Format) (a : Access) (i : IndexVar) : ℕ :=
  (format a.tensorVar).modeOrdering.idxOf (a.indexVars.length - 1 - a.indexVars.reverse.idxOf i)

/-- The format of a level. -/
def Access.modeFormat (format : TensorVar → Format) (a : Access) (level : ℕ) : ModeFormat :=
  ((format a.tensorVar).modeFormats[level]?).getD .Dense

/-- The iterator of the dimension of a loop, or of the level of an access. -/
inductive Iterator where
  | dimension
  | level (a : Access) (level : ℕ)
  deriving DecidableEq

/-- Dense levels are located and inserted into, the others are iterated and appended to. -/
def isDense : ModeFormat → Bool
  | .dense _ _ _ => true
  | .compressed _ _ | .singleton _ _ => false

namespace Iterator

variable (format : TensorVar → Format)

def isDimensionIterator : Iterator → Bool
  | dimension => true
  | level _ _ => false

def isFull : Iterator → Bool
  | dimension => true
  | level a l => (a.modeFormat format l).isFull

def isOrdered : Iterator → Bool
  | dimension => true
  | level a l => (a.modeFormat format l).isOrdered

def hasPosIter : Iterator → Bool
  | dimension => false
  | level a l => !isDense (a.modeFormat format l)

def hasLocate : Iterator → Bool
  | dimension => false
  | level a l => isDense (a.modeFormat format l)

def hasInsert : Iterator → Bool
  | dimension => false
  | level a l => isDense (a.modeFormat format l)

end Iterator

/-- The iterator of an access over a variable. -/
def getIterator (format : TensorVar → Format) (a : Access) (i : IndexVar) : Iterator := .level a (a.levelOf format i)

/-! ### The first point of a merge lattice -/

structure MergePoint where
  iterators : List Iterator
  locators : List Iterator
  results : List Iterator

namespace MergePoint

variable (format : TensorVar → Format)

def modeIteration : MergePoint := ⟨[.dimension], [], []⟩

/-- Remove all but one of the dimension iterators, which are all the same. -/
def deduplicateDimensionIterators : List Iterator → List Iterator
  | [] => []
  | it :: iterators =>
    if it.isDimensionIterator then it :: iterators.filter fun it => !it.isDimensionIterator
    else it :: deduplicateDimensionIterators iterators

/-- Locate from the side with a dimension iterator, else from that with a full iterator that locates, else from that with
    more locate iterators. -/
def locateFromLeft (left right : MergePoint) : Bool :=
  if right.iterators.any Iterator.isDimensionIterator then false
  else if left.iterators.any Iterator.isDimensionIterator then true
  else if right.iterators.any fun it => it.isFull format && it.hasLocate format then false
  else if left.iterators.any fun it => it.isFull format && it.hasLocate format then true
  else (right.iterators.countP (Iterator.hasLocate format)) < left.iterators.countP (Iterator.hasLocate format)

/-- The first point of an intersection. -/
def intersect (left right : MergePoint) : MergePoint :=
  let locateLeft := locateFromLeft format left right
  let located := if locateLeft then left.iterators else right.iterators
  let iterators := (located.filter fun it => !it.hasLocate format).filter fun it => !it.isDimensionIterator
  let locators := located.filter (Iterator.hasLocate format)
  { iterators := deduplicateDimensionIterators
      (if locateLeft then iterators ++ right.iterators else left.iterators ++ iterators)
    locators := if locateLeft then locators ++ left.locators ++ right.locators
      else left.locators ++ locators ++ right.locators
    results := left.results ++ right.results }

def insertDimensionIteratorIfNotOrdered (point : MergePoint) : MergePoint :=
  if (point.iterators.any fun it => !it.isOrdered format) && !point.iterators.any Iterator.isDimensionIterator then
    { point with iterators := point.iterators ++ [.dimension] }
  else point

def moveLocateSubsetIteratorsToLocateSet (point : MergePoint) : MergePoint :=
  match point.iterators.find? (Iterator.isFull format) with
  | none => point
  | some firstFull =>
    { point with
      iterators := point.iterators.filter fun it => !(it.hasLocate format && it != firstFull)
      locators := point.locators ++ point.iterators.filter fun it => it.hasLocate format && it != firstFull }

/-- The first point of a union; it is never removed. -/
def union (left right : MergePoint) : MergePoint :=
  moveLocateSubsetIteratorsToLocateSet format <| insertDimensionIteratorIfNotOrdered format
    { iterators := deduplicateDimensionIterators (left.iterators ++ right.iterators)
      locators := left.locators ++ right.locators
      results := left.results ++ right.results }

end MergePoint

/-! ### Building lattices -/

/-- The lattices of the temporaries. -/
abbrev LatticesOfTemporaries := List (TensorVar × MergePoint)

/-- The lattice of an expression at a loop over `i`. -/
def buildExpr (format : TensorVar → Format) (i : IndexVar) (temporaries : LatticesOfTemporaries) :
    IndexExpr V → MergePoint
  | .access a =>
    match temporaries.lookup a.tensorVar with
    | some point => point
    | none =>
      if i ∈ a.indexVars then
        let iterator := getIterator format a i
        if !iterator.hasPosIter format then ⟨[.dimension], [iterator], []⟩ else ⟨[iterator], [], []⟩
      else .modeIteration
  | .literal _ => .modeIteration
  | .neg a => buildExpr format i temporaries a
  | .add a b | .sub a b => .union format (buildExpr format i temporaries a) (buildExpr format i temporaries b)
  | .mul a b => .intersect format (buildExpr format i temporaries a) (buildExpr format i temporaries b)

/-- The lattice of a statement and the lattices of the tensors that it assigns to, of which the first ones are kept. -/
def buildStmt (format : TensorVar → Format) (i : IndexVar) : IndexStmt V → LatticesOfTemporaries →
    MergePoint × LatticesOfTemporaries
  | .assignment lhs rhs _, temporaries =>
    let point := buildExpr format i temporaries rhs
    (if i ∈ lhs.indexVars then { point with results := [getIterator format lhs i] } else point,
      temporaries ++ [(lhs.tensorVar, point)])
  | .forall _ stmt, temporaries => buildStmt format i stmt temporaries
  | .where consumer producer, temporaries =>
    buildStmt format i consumer (buildStmt format i producer temporaries).2

/-! ### Dependencies -/

/-- A loop variable at a level of a tensor, and whether the level enforces constraints. -/
structure TensorLevelVar where
  tensor : TensorVar
  var : IndexVar
  level : ℕ
  enforces : Bool
  deriving DecidableEq

namespace IndexStmt

/-- The variables at the levels of the first point's iterators. -/
def levelVars (format : TensorVar → Format) (i : IndexVar) (s : IndexStmt V) : List TensorLevelVar :=
  let point := (buildStmt format i s []).1
  let depIterators := (point.iterators.filter fun it => !it.isDimensionIterator).map (·, true) ++
    point.locators.map (·, false) ++ point.results.map fun it => (it, !it.hasInsert format)
  depIterators.filterMap fun (iterator, enforces) =>
    match iterator with
    | .dimension => none
    | .level a level => some ⟨a.tensorVar, i, level, enforces⟩

/-- `indexVarOriginalOrder`: the variables of the first loops. -/
def originalOrder : IndexStmt V → List IndexVar
  | .forall i stmt => i :: stmt.originalOrder
  | _ => []

/-- What is below the first loops. -/
def innerBody : IndexStmt V → IndexStmt V
  | .forall _ stmt => stmt.innerBody
  | s => s

/-- `tensorLevelVars`: what the first loops collect. -/
def tensorLevelVars (format : TensorVar → Format) : IndexStmt V → List TensorLevelVar
  | .forall i stmt => stmt.levelVars format i ++ stmt.tensorLevelVars format
  | _ => []

end IndexStmt

/-- The variables of a tensor in the order of its levels; `sort` orders variables of one level in some way. -/
def varOrderFromTensorLevels (sort : List TensorLevelVar → List TensorLevelVar) (tensorLevelVars : List TensorLevelVar) :
    List (IndexVar × Bool) :=
  (sort tensorLevelVars.dedup).map fun levelVar => (levelVar.var, levelVar.enforces)

/-- What the variables of a tensor depend on. -/
def depsFromVarOrder : List (IndexVar × Bool) → IndexVar → List IndexVar
  | [], _ => []
  | first :: varOrder, v =>
    (varOrder.filter fun second => (first.2 || second.2) && second.1 = v).map (fun _ => first.1) ++
      depsFromVarOrder varOrder v

/-- What the variables of all tensors depend on. -/
def depsFromVarOrders (varOrders : List (List (IndexVar × Bool))) (v : IndexVar) : List IndexVar :=
  varOrders.flatMap fun varOrder => depsFromVarOrder varOrder v

/-- What the loops of a statement depend on. -/
def IndexStmt.hardDeps (format : TensorVar → Format) (sort : List TensorLevelVar → List TensorLevelVar)
    (s : IndexStmt V) : IndexVar → List IndexVar :=
  let levelVars := s.tensorLevelVars format
  depsFromVarOrders ((levelVars.map TensorLevelVar.tensor).dedup.map fun tensor =>
    varOrderFromTensorLevels sort (levelVars.filter fun levelVar => levelVar.tensor = tensor))

/-- The variables of the level before, once for each access. -/
def IndexStmt.softDeps (format : TensorVar → Format) (s : IndexStmt V) (v : IndexVar) : List IndexVar :=
  s.accesses.flatMap fun a =>
    let vars := (format a.tensorVar).modeOrdering.filterMap fun mode => a.indexVars[mode]?
    ((vars.zip vars.tail).filter fun pair => pair.2 = v).map Prod.fst

/-! ### Sorting -/

def removeDependency (freeVar : IndexVar) (deps : IndexVar → List IndexVar) (v : IndexVar) : List IndexVar :=
  (deps v).filter (· ≠ freeVar)

/-- The first of the variables without hard dependencies that have the fewest soft ones. -/
def scanFreeVar (hardDeps softDeps : IndexVar → List IndexVar) (originalOrder : List IndexVar) : Option IndexVar :=
  (originalOrder.filter fun var => (hardDeps var).isEmpty).argmin fun var => (softDeps var).length

/-- Variables are added until there are `countVars` more. -/
def sortLoop : ℕ → (IndexVar → List IndexVar) → (IndexVar → List IndexVar) → List IndexVar → List IndexVar →
    Option (List IndexVar)
  | 0, _, _, _, sortedVars => some sortedVars
  | countVars + 1, hardDeps, softDeps, originalOrder, sortedVars =>
    match scanFreeVar hardDeps softDeps originalOrder with
    -- Cycles in iteration graphs must be resolved.
    | none => none
    | some freeVar => sortLoop countVars (removeDependency freeVar hardDeps) (removeDependency freeVar softDeps)
        (originalOrder.erase freeVar) (sortedVars ++ [freeVar])

def topologicallySort (hardDeps softDeps : IndexVar → List IndexVar) (originalOrder : List IndexVar) :
    Option (List IndexVar) :=
  sortLoop originalOrder.length hardDeps softDeps originalOrder []

/-- The first loops of a statement whose root is a loop, in another order; nothing if the assertion on cycles fails. -/
def reorderLoopsTopologically (format : TensorVar → Format) (sort : List TensorLevelVar → List TensorLevelVar)
    (s : IndexStmt V) : Option (IndexStmt V) :=
  (topologicallySort (s.hardDeps format sort) (s.softDeps format) s.originalOrder).map fun sortedVars =>
    sortedVars.foldr IndexStmt.forall s.innerBody

end Concrete
end Taco
