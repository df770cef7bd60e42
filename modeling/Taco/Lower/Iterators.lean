import Taco.Lower.WindowedPositions
import Taco.IndexNotation.Zero

/-! The iterators that a loop over an index variable merges. -/

namespace Taco
namespace Lower

/-! ### Accesses -/

inductive ModeFormat where
  | dense | compressed

namespace ModeFormat

def isFull : ModeFormat → Bool
  | dense => true
  | compressed => false

def isOrdered : ModeFormat → Bool
  | dense | compressed => true

def hasCoordValIter : ModeFormat → Bool
  | dense | compressed => false

def hasCoordPosIter : ModeFormat → Bool
  | dense => false
  | compressed => true

def hasLocate : ModeFormat → Bool
  | dense => true
  | compressed => false

end ModeFormat

/-- An index set; its coordinates are packed into a compressed level of one segment. -/
structure IndexSet where
  size : ℕ
  crd : ℕ → ℤ
  sorted : StrictMonoOn crd (Set.Iio size)

inductive IndexVarIterationModifier where
  | unmodified
  | accessWindow (window : Window)
  | indexSet (set : IndexSet)

/-- A dense level below the position of its parent. -/
structure DenseLevel where
  width : ℕ
  parentPos : ℕ

/-- The access of an operand: it does not index the variable of the loop, or it has a level for it; the values are those
    at the positions of the level. -/
inductive AccessNode (V : Type*) where
  | scalar (val : V)
  | dense (level : DenseLevel) (modifier : IndexVarIterationModifier) (vals : ℕ → V)
  | compressed (level : CompressedLevel) (getParent : ParentIterator) (modifier : IndexVarIterationModifier) (vals : ℕ → V)

variable {V : Type*}

namespace AccessNode

def getModeFormat : AccessNode V → Option ModeFormat
  | scalar _ => none
  | dense .. => some .dense
  | compressed .. => some .compressed

def modifier : AccessNode V → IndexVarIterationModifier
  | scalar _ => .unmodified
  | dense _ modifier _ | compressed _ _ modifier _ => modifier

def vals : AccessNode V → ℕ → V
  | scalar val => fun _ => val
  | dense _ _ vals | compressed _ _ _ vals => vals

end AccessNode

/-! ### Iterators -/

/-- The iterator of the loop's dimension, of the level of an access, or of the index set of an access. -/
inductive Iterator where
  | dimension
  | level (node : ℕ)
  | indexSet (node : ℕ)
  deriving DecidableEq

namespace Iterator

def isDimensionIterator : Iterator → Bool
  | dimension => true
  | level _ | indexSet _ => false

/-- The access that the iterator belongs to. -/
def modeAccess : Iterator → Option ℕ
  | dimension => none
  | level node | indexSet node => some node

variable (nodes : ℕ → AccessNode V)

def getModeFormat : Iterator → Option ModeFormat
  | dimension => none
  | level node => (nodes node).getModeFormat
  | indexSet _ => some .compressed

def isFull (iterator : Iterator) : Bool :=
  iterator.isDimensionIterator || (iterator.getModeFormat nodes).any ModeFormat.isFull

def isOrdered (iterator : Iterator) : Bool :=
  iterator.isDimensionIterator || (iterator.getModeFormat nodes).any ModeFormat.isOrdered

def hasCoordIter (iterator : Iterator) : Bool :=
  !iterator.isDimensionIterator && (iterator.getModeFormat nodes).any ModeFormat.hasCoordValIter

def hasPosIter (iterator : Iterator) : Bool :=
  !iterator.isDimensionIterator && (iterator.getModeFormat nodes).any ModeFormat.hasCoordPosIter

def hasLocate (iterator : Iterator) : Bool :=
  !iterator.isDimensionIterator && (iterator.getModeFormat nodes).any ModeFormat.hasLocate

/-- The window of a windowed iterator. -/
def window : Iterator → Option Window
  | level node =>
    match (nodes node).modifier with
    | .accessWindow window => some window
    | _ => none
  | _ => none

def hasIndexSet : Iterator → Bool
  | level node =>
    match (nodes node).modifier with
    | .indexSet _ => true
    | _ => false
  | _ => false

/-- The coordinate at a position. -/
def posAccess : Iterator → ℕ → ℤ
  | level node, pos =>
    match nodes node with
    | .compressed storage .. => storage.crd pos
    | _ => 0
  | indexSet node, pos =>
    match (nodes node).modifier with
    | .indexSet set => set.crd pos
    | _ => 0
  | dimension, _ => 0

end Iterator

/-! ### Positions -/

def ParentIterator.unchained (parent : ParentIterator) : Bool := parent.isRoot || parent.isUnique

/-- The positions below a parent; those below a parent with duplicates are chained. -/
def CompressedLevel.segment (level : CompressedLevel) (getParent : ParentIterator) : ℕ × ℕ :=
  if getParent.unchained then level.posBounds getParent.posVar
  else ((level.posBounds getParent.posVar).1, (level.posBounds (getParent.segendVar - 1)).2)

namespace AccessNode

/-- The positions from the first one that is loaded on. Only in a segment that is not chained the start of a window is
    searched. -/
def positions : AccessNode V → ℕ × ℕ
  | compressed level getParent modifier _ =>
    let bounds := level.segment getParent
    match modifier with
    | .accessWindow window =>
      if getParent.unchained then (taco_binarySearchAfter level.crd bounds.1 bounds.2 window.lo, bounds.2) else bounds
    | _ => bounds
  | _ => (0, 0)

end AccessNode

namespace Iterator

variable (nodes : ℕ → AccessNode V)

/-- The positions of an iterator; an index set has one segment. -/
def positions : Iterator → ℕ × ℕ
  | level node => (nodes node).positions
  | indexSet node =>
    match (nodes node).modifier with
    | .indexSet set => (0, set.size)
    | _ => (0, 0)
  | dimension => (0, 0)

end Iterator

end Lower
end Taco
