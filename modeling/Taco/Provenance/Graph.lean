import Taco.Library.Strips

/-! Provenance graphs of split relations: which index variables a split derives from which, the bounds
    of a derived variable's loop, when a parent can be recovered from its children, and the value it is
    recovered to. Loop bounds and variables are natural numbers: bounds start at 0 and only grow by
    `+`, `*` and `/`. -/

namespace Taco
namespace Provenance

/-- An index variable, by its node's identity. -/
abbrev IndexVar := ℕ

/-- The lower and the upper bound of a loop. -/
abbrev Bounds := ℕ × ℕ

structure SplitRelNode where
  parentVar : IndexVar
  outerVar : IndexVar
  innerVar : IndexVar
  splitFactor : ℕ
  deriving DecidableEq, Repr

namespace SplitRelNode

def getParents (rel : SplitRelNode) : List IndexVar := [rel.parentVar]

def getChildren (rel : SplitRelNode) : List IndexVar := [rel.outerVar, rel.innerVar]

def deriveIterBounds (rel : SplitRelNode) (indexVar : IndexVar) (parentBound : Bounds) : Bounds :=
  if indexVar = rel.outerVar then
    (parentBound.1 / rel.splitFactor, (parentBound.2 + (rel.splitFactor - 1)) / rel.splitFactor)
  else
    (0, rel.splitFactor)

/-- The parent's value, read from the variables of its children. -/
def recoverVariable (rel : SplitRelNode) (variableNames : IndexVar → ℕ) : ℕ :=
  variableNames rel.outerVar * rel.splitFactor + variableNames rel.innerVar

end SplitRelNode

/-- The relations of a `SuchThat`, in the order they were added. -/
structure ProvenanceGraph where
  relations : List SplitRelNode
  deriving DecidableEq, Repr

namespace ProvenanceGraph

/-! ### The maps -/

/-- `childRelMap`: the relation whose parent is `indexVar`. -/
def childRel? (g : ProvenanceGraph) (indexVar : IndexVar) : Option SplitRelNode :=
  g.relations.find? fun rel => rel.getParents.contains indexVar

/-- `parentRelMap`: the relation that introduced `indexVar`. -/
def parentRel? (g : ProvenanceGraph) (indexVar : IndexVar) : Option SplitRelNode :=
  g.relations.find? fun rel => rel.getChildren.contains indexVar

def getChildren (g : ProvenanceGraph) (indexVar : IndexVar) : List IndexVar :=
  ((g.childRel? indexVar).map SplitRelNode.getChildren).getD []

def getParents (g : ProvenanceGraph) (indexVar : IndexVar) : List IndexVar :=
  ((g.parentRel? indexVar).map SplitRelNode.getParents).getD []

def isUnderived (g : ProvenanceGraph) (indexVar : IndexVar) : Bool := (g.getParents indexVar).isEmpty

def isFullyDerived (g : ProvenanceGraph) (indexVar : IndexVar) : Bool := (g.getChildren indexVar).isEmpty

/-! ### Walks over the graph

The walks of the source follow the maps without a bound. Here they take fuel; a walk up or down passes
each relation at most once, so the number of relations is enough. -/

def deriveIterBounds (g : ProvenanceGraph) (underivedBounds : IndexVar → Option Bounds) : ℕ → IndexVar → Option Bounds
  | 0, indexVar => underivedBounds indexVar
  | fuel + 1, indexVar =>
    match g.parentRel? indexVar with
    | none => underivedBounds indexVar
    | some rel => (g.deriveIterBounds underivedBounds fuel rel.parentVar).map (rel.deriveIterBounds indexVar)

/-- `isRecoverablePrecompute` of a graph without precompute relations: each child is defined, or has
    children it can be recovered from. -/
def isRecoverable (g : ProvenanceGraph) (defined : List IndexVar) : ℕ → IndexVar → Bool
  | 0, _ => true
  | fuel + 1, indexVar =>
    (g.getChildren indexVar).all fun child =>
      defined.contains child || (!g.isFullyDerived child && g.isRecoverable defined fuel child)

def newlyRecoverableParents (g : ProvenanceGraph) (previouslyDefined : List IndexVar) : ℕ → IndexVar → List IndexVar
  | 0, _ => []
  | fuel + 1, indexVar =>
    (g.getParents indexVar).flatMap fun parent =>
      if !g.isRecoverable previouslyDefined g.relations.length parent &&
          g.isRecoverable (indexVar :: previouslyDefined) g.relations.length parent then
        parent :: g.newlyRecoverableParents previouslyDefined fuel parent
      else
        []

/-- The tree of strips that the relations cut the range of `indexVar` into. -/
def stripTree (g : ProvenanceGraph) : ℕ → IndexVar → Strips.StripTree IndexVar
  | 0, indexVar => .leaf indexVar
  | fuel + 1, indexVar =>
    match g.childRel? indexVar with
    | none => .leaf indexVar
    | some rel => .split indexVar rel.splitFactor (g.stripTree fuel rel.outerVar) (g.stripTree fuel rel.innerVar)

end ProvenanceGraph
end Provenance
end Taco
