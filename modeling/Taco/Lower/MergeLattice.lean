import Taco.Lower.Iterators

/-! The merge lattice of an index expression. -/

namespace Taco
namespace Lower

structure MergePoint where
  iterators : List Iterator
  locators : List Iterator

abbrev MergeLattice := List MergePoint

variable {V : Type*}

namespace MergePoint

variable (nodes : ℕ → AccessNode V) (point : MergePoint)

/-- The iterators whose exhaustion ends the loop of the point. -/
def rangers : List Iterator :=
  if point.iterators.any fun it => !it.isFull nodes then point.iterators.filter fun it => !it.isFull nodes
  else point.iterators

/-- The iterators that give the coordinates of the loop of the point. -/
def mergers : List Iterator :=
  if point.iterators.any fun it => it.isFull nodes then point.iterators.filter fun it => it.isFull nodes
  else
    let numNotFull := point.iterators.countP fun it => !it.isFull nodes && it.isDimensionIterator
    if numNotFull ≠ point.iterators.length ∧ 0 < numNotFull then point.iterators.filter fun it => !it.isDimensionIterator
    else point.iterators

end MergePoint

/-- `std::includes` of the sorted iterators. -/
def includes (iterators others : List Iterator) : Bool := others.all fun it => others.count it ≤ iterators.count it

namespace MergeLattice

/-- The iterators of the lattice are those of its first point. -/
def iterators (lattice : MergeLattice) : List Iterator := (lattice.head?.map MergePoint.iterators).getD []

def subLattice (lattice : MergeLattice) (lp : MergePoint) : MergeLattice :=
  lattice.filter fun lq => includes lp.iterators lq.iterators

def exhausted (lattice : MergeLattice) (point : MergePoint) : List Iterator :=
  lattice.iterators.filter fun it => !point.iterators.contains it

def exact (nodes : ℕ → AccessNode V) (lattice : MergeLattice) : Bool :=
  (lattice.any fun point => point.iterators.all fun it => it.isFull nodes) ||
    lattice.iterators.all fun it => lattice.any fun point => point.iterators == [it]

end MergeLattice

namespace MergeLatticeBuilder

/-! ### Operations -/

/-- Remove all but one of the dimension iterators, which are all the same. -/
def deduplicateDimensionIterators : List Iterator → List Iterator
  | [] => []
  | it :: iterators =>
    if it.isDimensionIterator then it :: iterators.filter fun it => !it.isDimensionIterator
    else it :: deduplicateDimensionIterators iterators

variable (nodes : ℕ → AccessNode V)

/-- Locate from the side with a dimension iterator, else from that with a full iterator that locates, else from that with
    more locate iterators. -/
def locateFromLeft (left right : MergeLattice) : Bool :=
  if right.iterators.any Iterator.isDimensionIterator then false
  else if left.iterators.any Iterator.isDimensionIterator then true
  else if right.iterators.any fun it => it.isFull nodes && it.hasLocate nodes then false
  else if left.iterators.any fun it => it.isFull nodes && it.hasLocate nodes then true
  else (right.iterators.countP fun it => it.hasLocate nodes) < left.iterators.countP fun it => it.hasLocate nodes

def intersectPoints (locateLeft : Bool) (left right : MergePoint) : MergePoint :=
  let located := if locateLeft then left.iterators else right.iterators
  let iterators := (located.filter fun it => !it.hasLocate nodes).filter fun it => !it.isDimensionIterator
  let locators := located.filter fun it => it.hasLocate nodes
  { iterators := deduplicateDimensionIterators
      (if locateLeft then iterators ++ right.iterators else left.iterators ++ iterators)
    locators := if locateLeft then locators ++ left.locators ++ right.locators
      else left.locators ++ locators ++ right.locators }

def unionPoints (left right : MergePoint) : MergePoint :=
  { iterators := deduplicateDimensionIterators (left.iterators ++ right.iterators)
    locators := left.locators ++ right.locators }

def insertDimensionIteratorIfNotOrdered (points : List MergePoint) : List MergePoint :=
  points.map fun point =>
    if (point.iterators.any fun it => !it.isOrdered nodes) && !point.iterators.any Iterator.isDimensionIterator then
      ⟨point.iterators ++ [.dimension], point.locators⟩
    else point

def moveLocateSubsetIteratorsToLocateSet (points : List MergePoint) : List MergePoint :=
  match (MergeLattice.iterators points).find? fun it => it.isFull nodes with
  | none => points
  | some firstFull => points.map fun point =>
    { iterators := point.iterators.filter fun it => !(it.hasLocate nodes && it != firstFull)
      locators := point.locators ++ point.iterators.filter fun it => it.hasLocate nodes && it != firstFull }

def removePointsThatLackFullIterators (points : List MergePoint) : List MergePoint :=
  let fullIterators := (MergeLattice.iterators points).filter fun it => it.isFull nodes
  points.filter fun point => fullIterators.all fun it => point.iterators.contains it

/-- The points have the same set of iterators. -/
def identicalIterators (point other : MergePoint) : Bool :=
  (point.iterators.all fun it => other.iterators.contains it) && other.iterators.all fun it => point.iterators.contains it

/-- Keep the first point of each set of iterators, besides those of the points that are kept already. -/
def removePointsWithIdenticalIterators (iteratorSets : List MergePoint) : List MergePoint → List MergePoint
  | [] => []
  | point :: points =>
    if iteratorSets.any fun other => identicalIterators point other then
      removePointsWithIdenticalIterators iteratorSets points
    else point :: removePointsWithIdenticalIterators (point :: iteratorSets) points

def intersectLattices (left right : MergeLattice) : MergeLattice :=
  let locateLeft := locateFromLeft nodes left right
  left.flatMap fun leftPoint => right.map fun rightPoint => intersectPoints nodes locateLeft leftPoint rightPoint

def unionLattices (left right : MergeLattice) : MergeLattice :=
  let points := (left.flatMap fun apoint => right.map fun bpoint => unionPoints apoint bpoint) ++ left ++ right
  let points := insertDimensionIteratorIfNotOrdered nodes points
  let points := moveLocateSubsetIteratorsToLocateSet nodes points
  let points := removePointsThatLackFullIterators nodes points
  removePointsWithIdenticalIterators [] points

/-! ### Expressions -/

def modeIterationLattice : MergeLattice := [⟨[.dimension], []⟩]

/-- The lattice of an access that indexes the variable. -/
def accessLattice (node : ℕ) : MergeLattice :=
  let iterator := Iterator.level node
  let pointIterators := iterator :: if iterator.hasIndexSet nodes then [.indexSet node] else []
  if !iterator.hasCoordIter nodes && !iterator.hasPosIter nodes then [⟨[.dimension], [iterator]⟩]
  else [⟨pointIterators, []⟩]

/-- A binary operation; operands without points are scalars. -/
def visitBinary (merge : MergeLattice → MergeLattice → MergeLattice) (a b : MergeLattice) : MergeLattice :=
  if !a.isEmpty && !b.isEmpty then merge a b
  else if !a.isEmpty then a
  else b

def visit : IndexExpr V → MergeLattice
  | .access node =>
    match nodes node with
    | .scalar _ => modeIterationLattice
    | .dense .. | .compressed .. => accessLattice nodes node
  | .literal _ => modeIterationLattice
  | .neg a => visit a
  | .add a b => visitBinary (unionLattices nodes) (visit a) (visit b)
  | .sub a b => visitBinary (unionLattices nodes) (visit a) (visit b)
  | .mul a b => visitBinary (intersectLattices nodes) (visit a) (visit b)

end MergeLatticeBuilder

end Lower
end Taco
