import Mathlib.Tactic

/-! Provenance graphs of the relations that derive new index variables from one: splits, divides, bounds and
    positions. Bounds and recovered values are expressions over the variables, as in the emitted code. Bounds
    and variables are natural numbers. -/

namespace Taco
namespace Scheduling

/-- An index variable, by its node's identity. -/
abbrev IndexVar := ℕ

abbrev Env := IndexVar → ℕ

/-! ### Expressions -/

inductive Expr where
  | literal (value : ℕ)
  /-- A dimension or an element of a `pos` array, which is known at run time only. -/
  | property (value : ℕ)
  | var (v : IndexVar)
  | load (arr : ℕ → ℕ) (loc : Expr)
  | add (a b : Expr)
  | sub (a b : Expr)
  | mul (a b : Expr)
  | div (a b : Expr)
  | rem (a b : Expr)
  | min (a b : Expr)

namespace Expr

def eval (env : Env) : Expr → ℕ
  | literal value | property value => value
  | var v => env v
  | load arr loc => arr (loc.eval env)
  | add a b => a.eval env + b.eval env
  | sub a b => a.eval env - b.eval env
  | mul a b => a.eval env * b.eval env
  | div a b => a.eval env / b.eval env
  | rem a b => a.eval env % b.eval env
  | min a b => Min.min (a.eval env) (b.eval env)

/-- The value of a literal node. -/
def literal? : Expr → Option ℕ
  | literal value => some value
  | _ => none

section

variable (env : Env) (a b : Expr) (n : ℕ)

@[simp] theorem eval_literal : (literal n).eval env = n := rfl

@[simp] theorem eval_property : (property n).eval env = n := rfl

@[simp] theorem eval_var (v : IndexVar) : (var v).eval env = env v := rfl

@[simp] theorem eval_load (arr : ℕ → ℕ) : (load arr a).eval env = arr (a.eval env) := rfl

@[simp] theorem eval_add : (add a b).eval env = a.eval env + b.eval env := rfl

@[simp] theorem eval_sub : (sub a b).eval env = a.eval env - b.eval env := rfl

@[simp] theorem eval_mul : (mul a b).eval env = a.eval env * b.eval env := rfl

@[simp] theorem eval_div : (div a b).eval env = a.eval env / b.eval env := rfl

@[simp] theorem eval_rem : (rem a b).eval env = a.eval env % b.eval env := rfl

@[simp] theorem eval_min : (min a b).eval env = Min.min (a.eval env) (b.eval env) := rfl

end

end Expr

open Expr

/-- The lower and the upper bound of a loop. -/
abbrev Bounds := Expr × Expr

/-! ### Relations -/

structure SplitRelNode where
  parentVar : IndexVar
  outerVar : IndexVar
  innerVar : IndexVar
  splitFactor : ℕ

namespace SplitRelNode

variable (rel : SplitRelNode)

def deriveIterBounds (indexVar : IndexVar) (parentBound : Bounds) : Bounds :=
  if indexVar = rel.outerVar then
    (div parentBound.1 (literal rel.splitFactor),
      div (add parentBound.2 (literal (rel.splitFactor - 1))) (literal rel.splitFactor))
  else
    (literal 0, literal rel.splitFactor)

def recoverVariable (variableNames : IndexVar → Expr) : Expr :=
  add (mul (variableNames rel.outerVar) (literal rel.splitFactor)) (variableNames rel.innerVar)

/-- The coordinates that remain of the parent's, given the children that are defined. -/
def computeRelativeBound (definedVars : List IndexVar) (parentBound : Bounds) (variableExprs : IndexVar → Expr) :
    Bounds :=
  if rel.outerVar ∈ definedVars then
    if rel.innerVar ∈ definedVars then
      let minBound := add parentBound.1 (add (mul (variableExprs rel.outerVar) (literal rel.splitFactor))
        (variableExprs rel.innerVar))
      (minBound, min parentBound.2 (add minBound (literal 1)))
    else
      let minBound := add parentBound.1 (mul (variableExprs rel.outerVar) (literal rel.splitFactor))
      (minBound, min parentBound.2 (add minBound (literal rel.splitFactor)))
  else
    parentBound

end SplitRelNode

structure DivideRelNode where
  parentVar : IndexVar
  outerVar : IndexVar
  innerVar : IndexVar
  divFactor : ℕ

namespace DivideRelNode

variable (rel : DivideRelNode)

def deriveIterBounds (indexVar : IndexVar) (parentBound : Bounds) : Bounds :=
  if indexVar = rel.outerVar then
    (literal 0, literal rel.divFactor)
  else
    (div parentBound.1 (literal rel.divFactor),
      div (add parentBound.2 (literal (rel.divFactor - 1))) (literal rel.divFactor))

/-- The chunks have the size of the parent's range, divided and rounded up. -/
def recoverVariable (variableNames : IndexVar → Expr) (parentBounds : Bounds) : Expr :=
  let dimSize := sub parentBounds.2 parentBounds.1
  let bounds := div (add dimSize (literal (rel.divFactor - 1))) (literal rel.divFactor)
  add (mul (variableNames rel.outerVar) bounds) (variableNames rel.innerVar)

def computeRelativeBound (definedVars : List IndexVar) (parentBound : Bounds) (variableExprs : IndexVar → Expr) :
    Bounds :=
  if rel.outerVar ∈ definedVars then
    let dimLen := div (add parentBound.2 (literal (rel.divFactor - 1))) (literal rel.divFactor)
    if rel.innerVar ∈ definedVars then
      let lower := add (mul (variableExprs rel.outerVar) dimLen) (variableExprs rel.innerVar)
      (lower, min parentBound.2 (add lower (literal 1)))
    else
      (mul (variableExprs rel.outerVar) dimLen, mul (add (variableExprs rel.outerVar) (literal 1)) dimLen)
  else
    parentBound

end DivideRelNode

structure PosRelNode where
  parentVar : IndexVar
  posVar : IndexVar
  /-- The positions of the access that have coordinates within the parent's bounds, as `locateBounds` finds them. -/
  segment : Bounds
  /-- The coordinate array of the access. -/
  coordArray : ℕ → ℕ

/-- The coordinate at a position, relative to the parent's first one. -/
def PosRelNode.recoverVariable (rel : PosRelNode) (variableNames : IndexVar → Expr) (parentCoordBound : Bounds) : Expr :=
  sub (load rel.coordArray (variableNames rel.posVar)) parentCoordBound.1

/-- A bound of type `MaxExact`. -/
structure BoundRelNode where
  parentVar : IndexVar
  boundVar : IndexVar
  bound : ℕ

inductive IndexVarRel where
  | split (rel : SplitRelNode)
  | divide (rel : DivideRelNode)
  | pos (rel : PosRelNode)
  | bound (rel : BoundRelNode)

namespace IndexVarRel

def parentVar : IndexVarRel → IndexVar
  | split rel => rel.parentVar
  | divide rel => rel.parentVar
  | pos rel => rel.parentVar
  | bound rel => rel.parentVar

def getChildren : IndexVarRel → List IndexVar
  | split rel => [rel.outerVar, rel.innerVar]
  | divide rel => [rel.outerVar, rel.innerVar]
  | pos rel => [rel.posVar]
  | bound rel => [rel.boundVar]

def isPos : IndexVarRel → Bool
  | pos _ => true
  | _ => false

def isBound : IndexVarRel → Bool
  | bound _ => true
  | _ => false

def isDivide : IndexVarRel → Bool
  | divide _ => true
  | _ => false

def deriveIterBounds (indexVar : IndexVar) (parentIterBound parentCoordBound : Bounds) : IndexVarRel → Bounds
  | split rel => rel.deriveIterBounds indexVar parentIterBound
  | divide rel => rel.deriveIterBounds indexVar parentIterBound
  | pos rel => rel.segment
  | bound rel => (parentCoordBound.1, literal rel.bound)

def recoverVariable (variableNames : IndexVar → Expr) (parentIterBound parentCoordBound : Bounds) : IndexVarRel → Expr
  | split rel => rel.recoverVariable variableNames
  | divide rel => rel.recoverVariable variableNames parentIterBound
  | pos rel => rel.recoverVariable variableNames parentCoordBound
  | bound rel => variableNames rel.boundVar

/-- Relations below a position and bounds do not change the coordinates. -/
def computeRelativeBound (definedVars : List IndexVar) (parentBound : Bounds) (variableExprs : IndexVar → Expr)
    (isPosVariable : Bool) : IndexVarRel → Bounds
  | split rel => if isPosVariable then parentBound else rel.computeRelativeBound definedVars parentBound variableExprs
  | divide rel => if isPosVariable then parentBound else rel.computeRelativeBound definedVars parentBound variableExprs
  | pos _ | bound _ => parentBound

end IndexVarRel

/-! ### Graphs -/

/-- The relations of a `SuchThat`, in the order they were added. -/
structure ProvenanceGraph where
  relations : List IndexVarRel

namespace ProvenanceGraph

variable (g : ProvenanceGraph)

/-- `childRelMap`: the relation whose parent is `indexVar`. -/
def childRel? (indexVar : IndexVar) : Option IndexVarRel := g.relations.find? fun rel => rel.parentVar = indexVar

/-- `parentRelMap`: the relation that introduced `indexVar`. -/
def parentRel? (indexVar : IndexVar) : Option IndexVarRel :=
  g.relations.find? fun rel => rel.getChildren.contains indexVar

def getChildren (indexVar : IndexVar) : List IndexVar :=
  match g.childRel? indexVar with
  | some rel => rel.getChildren
  | none => []

def getParents (indexVar : IndexVar) : List IndexVar :=
  match g.parentRel? indexVar with
  | some rel => [rel.parentVar]
  | none => []

def isUnderived (indexVar : IndexVar) : Bool := (g.getParents indexVar).isEmpty

def isFullyDerived (indexVar : IndexVar) : Bool := (g.getChildren indexVar).isEmpty

def isDivided (indexVar : IndexVar) : Bool := ((g.childRel? indexVar).map IndexVarRel.isDivide).getD false

def hasExactBound (indexVar : IndexVar) : Bool := ((g.parentRel? indexVar).map IndexVarRel.isBound).getD false

/-! The walks of the source follow the maps without a bound. Here they take fuel; a walk up or down passes each
    relation at most once, so the number of relations is enough. -/

def isPosVariable : ℕ → IndexVar → Bool
  | 0, _ => false
  | fuel + 1, indexVar =>
    match g.parentRel? indexVar with
    | none => false
    | some rel => rel.isPos || isPosVariable fuel rel.parentVar

def hasPosDescendant : ℕ → IndexVar → Bool
  | 0, indexVar => g.isPosVariable g.relations.length indexVar
  | fuel + 1, indexVar =>
    g.isPosVariable g.relations.length indexVar || (g.getChildren indexVar).any (hasPosDescendant fuel)

/-- The first underived ancestor. -/
def getUnderivedAncestor : ℕ → IndexVar → IndexVar
  | 0, indexVar => indexVar
  | fuel + 1, indexVar =>
    match g.parentRel? indexVar with
    | none => indexVar
    | some rel => getUnderivedAncestor fuel rel.parentVar

def getFullyDerivedDescendants : ℕ → IndexVar → List IndexVar
  | 0, indexVar => [indexVar]
  | fuel + 1, indexVar =>
    match g.getChildren indexVar with
    | [] => [indexVar]
    | children => children.flatMap (getFullyDerivedDescendants fuel)

def derivationPath : ℕ → IndexVar → IndexVar → List IndexVar
  | 0, ancestor, indexVar => if ancestor = indexVar then [indexVar] else []
  | fuel + 1, ancestor, indexVar =>
    if ancestor = indexVar then [indexVar]
    else
      match (g.getChildren ancestor).findSome? fun child =>
          match derivationPath fuel child indexVar with
          | [] => none
          | path => some path with
      | some path => ancestor :: path
      | none => []

/-- Each child is defined, or has children it can be recovered from. -/
def isRecoverable (defined : List IndexVar) : ℕ → IndexVar → Bool
  | 0, _ => true
  | fuel + 1, indexVar =>
    (g.getChildren indexVar).all fun child =>
      defined.contains child || (!g.isFullyDerived child && isRecoverable defined fuel child)

def newlyRecoverableParents (previouslyDefined : List IndexVar) : ℕ → IndexVar → List IndexVar
  | 0, _ => []
  | fuel + 1, indexVar =>
    (g.getParents indexVar).flatMap fun parent =>
      if !g.isRecoverable previouslyDefined g.relations.length parent &&
          g.isRecoverable (indexVar :: previouslyDefined) g.relations.length parent then
        parent :: newlyRecoverableParents previouslyDefined fuel parent
      else
        []

/-! ### Bounds -/

variable (underivedBounds : IndexVar → Option Bounds) (variableExprs : IndexVar → Expr)

/-- `addRelativeBoundsToMap`: the coordinate bounds of `indexVar` along its derivation. -/
def relativeBound (definedVars : List IndexVar) : ℕ → IndexVar → Option Bounds
  | 0, indexVar => underivedBounds indexVar
  | fuel + 1, indexVar =>
    match g.parentRel? indexVar with
    | none => underivedBounds indexVar
    | some rel =>
      (relativeBound definedVars fuel rel.parentVar).map fun parentBound =>
        rel.computeRelativeBound definedVars parentBound variableExprs
          (g.isPosVariable g.relations.length rel.parentVar)

/-- The coordinate bounds of the underived variables. Each variable of the order is defined for the ones after it,
    with the parents that it makes recoverable; the last one is not, and a later one replaces the bounds that an
    earlier one gave. -/
def coordBoundsFrom (definedVars : List IndexVar) (computedCoordbounds : IndexVar → Option Bounds) :
    List IndexVar → IndexVar → Option Bounds
  | [] => computedCoordbounds
  | indexVar :: derivedVarOrder =>
    let defined :=
      if derivedVarOrder.isEmpty then definedVars
      else indexVar :: (g.newlyRecoverableParents definedVars g.relations.length indexVar ++ definedVars)
    if g.isUnderived indexVar then
      coordBoundsFrom defined computedCoordbounds derivedVarOrder
    else
      coordBoundsFrom defined
        (Function.update computedCoordbounds (g.getUnderivedAncestor g.relations.length indexVar)
          (g.relativeBound underivedBounds variableExprs defined g.relations.length indexVar))
        derivedVarOrder

def deriveCoordBounds (derivedVarOrder : List IndexVar) : IndexVar → Option Bounds :=
  g.coordBoundsFrom underivedBounds variableExprs [] underivedBounds derivedVarOrder

def deriveIterBounds (derivedVarOrder : List IndexVar) : ℕ → IndexVar → Option Bounds
  | 0, indexVar => underivedBounds indexVar
  | fuel + 1, indexVar =>
    match g.parentRel? indexVar with
    | none => underivedBounds indexVar
    | some rel => do
      let parentIterBound ← deriveIterBounds derivedVarOrder fuel rel.parentVar
      let parentCoordBound ← g.deriveCoordBounds underivedBounds variableExprs derivedVarOrder.dropLast
        (g.getUnderivedAncestor g.relations.length rel.parentVar)
      some (rel.deriveIterBounds indexVar parentIterBound parentCoordBound)

def recoverVariable (definedVarOrder : List IndexVar) (indexVar : IndexVar) : Option Expr := do
  let rel ← g.childRel? indexVar
  let parentIterBound ← g.deriveIterBounds underivedBounds variableExprs definedVarOrder g.relations.length indexVar
  let parentCoordBound ← g.deriveCoordBounds underivedBounds variableExprs definedVarOrder
    (g.getUnderivedAncestor g.relations.length indexVar)
  some (rel.recoverVariable variableExprs parentIterBound parentCoordBound)

end ProvenanceGraph

end Scheduling
end Taco
