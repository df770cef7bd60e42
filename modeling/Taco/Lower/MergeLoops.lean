import Taco.Library.Loops
import Taco.Lower.MergeLattice

/-! The loops that are emitted for a merge lattice. -/

namespace Taco
namespace Lower

variable {V : Type}

/-! ### Emission -/

/-- The cases of a loop: one body, or clauses that compare coordinate variables with the coordinate; of clauses of which
    one always matches, the last one is an else. -/
inductive MergeCases (V : Type) where
  | always (body : IndexExpr V)
  | case (clauses : List (List Iterator × IndexExpr V)) (alwaysMatch : Bool)

/-- The while loop of a merge point. -/
structure MergeLoop (V : Type) where
  rangers : List Iterator
  iterators : List Iterator
  mergers : List Iterator
  locators : List Iterator
  cases : MergeCases V

/-- The dimension iterator is at each point of a lattice or at none, so it does not exhaust. -/
def getExhaustedAccesses (lattice : MergeLattice) (point : MergePoint) : List ℕ :=
  (lattice.exhausted point).filterMap Iterator.modeAccess

section

variable (nodes : ℕ → AccessNode V)

/-- There is no code for a statement that is zeroed altogether. -/
def lowerMergeCases (lattice : MergeLattice) (stmt : IndexExpr V) : Option (MergeCases V) :=
  if lattice.iterators.length = 1 then some (.always stmt)
  else do
    let cases ← lattice.mapM fun point => do
      let zeroedStmt ← stmt.zero (getExhaustedAccesses lattice point)
      some (point.rangers nodes, zeroedStmt)
    some (.case cases (lattice.exact nodes))

def lowerMergePoint (pointLattice : MergeLattice) (stmt : IndexExpr V) : Option (MergeLoop V) := do
  let point ← pointLattice.head?
  let cases ← lowerMergeCases nodes pointLattice stmt
  some ⟨point.rangers nodes, point.iterators, point.mergers nodes, point.locators, cases⟩

def lowerMergeLattice (lattice : MergeLattice) (stmt : IndexExpr V) : Option (List (MergeLoop V)) :=
  lattice.mapM fun point => do
    let zeroedStmt ← stmt.zero (getExhaustedAccesses lattice point)
    lowerMergePoint nodes (lattice.subLattice point) zeroedStmt

end

/-! ### States -/

/-- The position and coordinate variables of the iterators; the coordinate variable of the dimension iterator holds the
    coordinate of the loop. -/
@[ext] structure State where
  posVar : Iterator → ℕ
  coordVar : Iterator → ℤ

namespace State

variable (s : State) (it it' : Iterator)

def setPos (pos : ℕ) : State := { s with posVar := Function.update s.posVar it pos }

def setCoord (coord : ℤ) : State := { s with coordVar := Function.update s.coordVar it coord }

@[simp] theorem setPos_posVar (pos : ℕ) : (s.setPos it pos).posVar it' = if it' = it then pos else s.posVar it' :=
  Function.update_apply s.posVar it pos it'

@[simp] theorem setPos_coordVar (pos : ℕ) : (s.setPos it pos).coordVar = s.coordVar := rfl

@[simp] theorem setCoord_coordVar (coord : ℤ) :
    (s.setCoord it coord).coordVar it' = if it' = it then coord else s.coordVar it' :=
  Function.update_apply s.coordVar it coord it'

@[simp] theorem setCoord_posVar (coord : ℤ) : (s.setCoord it coord).posVar = s.posVar := rfl

end State

/-- What is left of a pass after a statement: the next state, or a jump. -/
abbrev Exec := Except (Jump × State) State

/-! ### Statements -/

section

variable (nodes : ℕ → AccessNode V)

/-- Load the coordinate at the position of an iterator. A windowed one skips what is not on its stride, and its end breaks
    the loop. -/
def loadCoordinate (target it : Iterator) (s : State) : Exec :=
  let access := it.posAccess nodes (s.posVar it)
  match it.window nodes with
  | none => .ok (s.setCoord target access)
  | some window =>
    if window.isStrided && window.strideBoundsGuard access then .error (.continueLoop, s.setPos it (s.posVar it + 1))
    else
      let s := s.setCoord target (window.projectWindowedPositionToCanonicalSpace access)
      if window.upperBoundGuardForWindowPosition (s.coordVar target) then .error (.breakLoop, s) else .ok s

def codeToLoadCoordinatesFromPosIterators (iterators : List Iterator) (s : State) : Exec :=
  if 1 < iterators.length then
    (iterators.filter fun it => it.hasPosIter nodes).foldlM (fun s it => loadCoordinate nodes it it s) s
  else .ok s

/-- An iterator and its index set at the same coordinate move to the position in the set; else the lower one advances and
    the loop continues. -/
def matchIndexSet (it indexSetIter : Iterator) (s : State) : Exec :=
  let setMatch := min (s.coordVar it) (s.coordVar indexSetIter)
  if s.coordVar it = setMatch ∧ s.coordVar indexSetIter = setMatch then
    .ok ((s.setCoord it (s.posVar indexSetIter)).setCoord indexSetIter (s.posVar indexSetIter))
  else
    let s := s.setPos it (s.posVar it + if s.coordVar it = setMatch then 1 else 0)
    .error (.continueLoop, s.setPos indexSetIter (s.posVar indexSetIter + if s.coordVar indexSetIter = setMatch then 1 else 0))

def Iterator.getIndexSetIterator : Iterator → Iterator
  | level node | indexSet node => indexSet node
  | dimension => dimension

def codeToMatchIndexSets (iterators : List Iterator) (s : State) : Exec :=
  (iterators.filter fun it => it.hasIndexSet nodes).foldlM (fun s it => matchIndexSet it it.getIndexSetIterator s) s

def resolveCoordinate (mergers : List Iterator) (s : State) : Exec :=
  match mergers with
  | [merger] => if merger.hasPosIter nodes then loadCoordinate nodes .dimension merger s else .ok s
  | _ => .ok (s.setCoord .dimension ((mergers.map s.coordVar).min?.getD 0))

/-- The position that a dense level locates; a coordinate is projected up to the window, or looked up in the index set. -/
def locate (node : ℕ) (coordinate : ℤ) : ℕ :=
  match nodes node with
  | .dense level modifier _ =>
    let coord : ℤ := match modifier with
      | .unmodified => coordinate
      | .accessWindow window => coordinate * window.stride + window.lo
      | .indexSet set => set.crd coordinate.toNat
    (level.parentPos * level.width + coord).toNat
  | _ => 0

def declLocatePosVars (locators : List Iterator) (s : State) : State :=
  locators.foldl (fun s it =>
    match it with
    | .level node => s.setPos it (locate nodes node (s.coordVar .dimension))
    | _ => s) s

/-- The value that an access reads. -/
def State.read (s : State) (node : ℕ) : V := (nodes node).vals (s.posVar (.level node))

/-- The body that is executed. -/
def MergeCases.body (s : State) : MergeCases V → Option (IndexExpr V)
  | .always body => some body
  | .case clauses alwaysMatch =>
    match clauses.find? fun clause => clause.1.all fun it => s.coordVar it = s.coordVar .dimension with
    | some clause => some clause.2
    | none => if alwaysMatch ∧ 1 < clauses.length then clauses.getLast?.map Prod.snd else none

/-- Level iterators at the coordinate advance, then the dimension iterator does. -/
def codeToIncIteratorVars (iterators : List Iterator) (s : State) : State :=
  match iterators with
  | [it] => if it.hasPosIter nodes then s.setPos it (s.posVar it + 1) else s.setCoord it (s.coordVar it + 1)
  | _ =>
    let s := (iterators.filter fun it => !it.isDimensionIterator).foldl (fun s it => s.setPos it (s.posVar it +
      if it.isFull nodes then 1 else if s.coordVar it = s.coordVar .dimension then 1 else 0)) s
    (iterators.filter Iterator.isDimensionIterator).foldl (fun s it => s.setCoord it (s.coordVar it + 1)) s

def codeToInitializeIteratorVar (s : State) (it : Iterator) : State :=
  if it.hasPosIter nodes then s.setPos it (it.positions nodes).1 else s.setCoord it 0

/-- The mergers are initialized first. -/
def codeToInitializeIteratorVars (rangers mergers : List Iterator) (s : State) : State :=
  (rangers.filter fun it => !mergers.contains it).foldl (codeToInitializeIteratorVar nodes)
    (mergers.foldl (codeToInitializeIteratorVar nodes) s)

def checkThatNoneAreExhausted (dimension : ℕ) (rangers : List Iterator) (s : State) : Bool :=
  if rangers.length = 1 ∧ rangers.all (fun it => it.isFull nodes) then s.coordVar .dimension < dimension
  else rangers.all fun it => s.posVar it < (it.positions nodes).2

/-! ### Loops -/

variable [Ring V] (dimension : ℕ)

/-- One pass of the loop; a body stores its value at the coordinate. -/
def MergeLoop.pass (loop : MergeLoop V) (s : State) : Except (Jump × State) (State × List (ℤ × V)) := do
  let s ← codeToLoadCoordinatesFromPosIterators nodes loop.iterators s
  let s ← codeToMatchIndexSets nodes loop.iterators s
  let s ← resolveCoordinate nodes loop.mergers s
  let s := declLocatePosVars nodes loop.locators s
  let out := (loop.cases.body s).toList.map fun body => (s.coordVar .dimension, body.eval (s.read nodes))
  .ok (codeToIncIteratorVars nodes loop.iterators s, out)

def MergeLoop.toWhile (loop : MergeLoop V) : While State (ℤ × V) where
  cond := checkThatNoneAreExhausted nodes dimension loop.rangers
  body := loop.pass nodes

end

end Lower
end Taco
