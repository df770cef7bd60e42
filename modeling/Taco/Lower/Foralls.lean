import Taco.Lower.MergeLoops

/-! The loops of a forall over an index variable. -/

namespace Taco
namespace Lower

variable {V : Type}

/-! ### Storage -/

/-- A window or an index set has the size of the dimension of the loop. -/
def IndexVarIterationModifier.Spans (dimension : ℕ) : IndexVarIterationModifier → Prop
  | .unmodified => True
  | .accessWindow window => window.getWindowSize = dimension
  | .indexSet set => set.size = dimension

/-- The coordinate of the level that is accessed at a coordinate of the loop. -/
def IndexVarIterationModifier.coordinate : IndexVarIterationModifier → ℤ → ℤ
  | .unmodified, k => k
  | .accessWindow window, k => k * window.stride + window.lo
  | .indexSet set, k => set.crd k.toNat

namespace AccessNode

/-- What the storage of an operand and the dimension check promise: a sorted segment without duplicates, and coordinates
    within the dimension. -/
def WellFormed (dimension : ℕ) : AccessNode V → Prop
  | scalar _ => True
  | dense _ modifier _ => modifier.Spans dimension
  | compressed level getParent modifier _ =>
    let bounds := level.segment getParent
    StrictMonoOn level.crd (Set.Ico bounds.1 bounds.2) ∧
      match modifier with
      | .unmodified => ∀ pos, bounds.1 ≤ pos → pos < bounds.2 → 0 ≤ level.crd pos ∧ level.crd pos < dimension
      | modifier => modifier.Spans dimension

/-- The dense expansion of the level. -/
def expansion [Zero V] : AccessNode V → ℤ → V
  | scalar val, _ => val
  | dense level _ vals, coord => vals (level.parentPos * level.width + coord).toNat
  | compressed level getParent _ vals, coord =>
    let bounds := level.segment getParent
    ((List.range' bounds.1 (bounds.2 - bounds.1)).find? fun pos => level.crd pos = coord).elim 0 vals

/-- The component of the operand at a coordinate of the loop. -/
def component [Zero V] (node : AccessNode V) (k : ℤ) : V := node.expansion (node.modifier.coordinate k)

end AccessNode

/-- A forall over an index variable: an expression whose accesses are nodes of their own, over operands that are stored
    properly. -/
structure Forall (V : Type) where
  dimension : ℕ
  nodes : ℕ → AccessNode V
  expr : IndexExpr V
  nodup : expr.accesses.Nodup
  wellFormed : ∀ node ∈ expr.accesses, (nodes node).WellFormed dimension

namespace Forall

variable (F : Forall V)

def lattice : MergeLattice := MergeLatticeBuilder.visit F.nodes F.expr

/-- The value of the expression at a coordinate. -/
def value [Ring V] (k : ℤ) : V := F.expr.eval fun node => (F.nodes node).component k

/-! ### Merge loops -/

variable [Ring V]

/-- The merge loops, from variables that are not initialized. -/
def runMergeLattice (fuel : ℕ) (s : State) : Option (List (ℤ × V) × State) := do
  let point ← F.lattice.head?
  let loops ← lowerMergeLattice F.nodes F.lattice F.expr
  runAll fuel (loops.map fun loop => loop.toWhile F.nodes F.dimension)
    (codeToInitializeIteratorVars F.nodes (point.rangers F.nodes) (point.mergers F.nodes) s)

/-! ### Loops over one iterator -/

/-- The body at a coordinate. -/
def lowerForallBody (locators : List Iterator) (coordinate : ℤ) (s : State) : ℤ × V :=
  (coordinate, F.expr.eval ((declLocatePosVars F.nodes locators (s.setCoord .dimension coordinate)).read F.nodes))

def lowerForallDimension (locators : List Iterator) (s : State) : List (ℤ × V) :=
  (List.range F.dimension).map fun coordinate : ℕ => F.lowerForallBody locators coordinate s

/-- The positions of a level with the coordinates that its position loop declares. -/
def positionsOf (node : ℕ) : List (ℕ × ℤ) :=
  match F.nodes node with
  | .compressed level getParent modifier _ =>
    match modifier with
    | .accessWindow window => WindowedIterator.lowerForallPosition ⟨level, getParent, window⟩ .notParallel
    | _ =>
      let bounds := level.segment getParent
      (List.range' bounds.1 (bounds.2 - bounds.1)).map fun pos => (pos, level.crd pos)
  | _ => []

def lowerForallPosition (node : ℕ) (locators : List Iterator) (s : State) : List (ℤ × V) :=
  (F.positionsOf node).map fun x => F.lowerForallBody locators x.2 (s.setPos (.level node) x.1)

/-- The loops that are emitted: a for loop over one iterator, else merge loops. -/
def runForall (fuel : ℕ) (s : State) : Option (List (ℤ × V)) :=
  match F.lattice with
  | [] => none
  | point :: _ =>
    match point.iterators with
    | [.dimension] => some (F.lowerForallDimension point.locators s)
    | [.level node] => some (F.lowerForallPosition node point.locators s)
    | _ => (F.runMergeLattice fuel s).map Prod.fst

end Forall

end Lower
end Taco
