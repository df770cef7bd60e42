import Taco.IndexNotation.Intrinsic

/-! The nodes of index notation, with all that they store. -/

namespace Taco
namespace Notation

open IndexNotation (Datatype Intrinsic)

/-- An index variable, by its identity, which orders the variables. -/
abbrev IndexVar := ℕ

/-! ### Types and formats -/

/-- The dimension of a mode: of a size, which is 0 if it is variable, or of the size of an index variable. -/
inductive Dimension where
  | sized (size : ℕ)
  | indexVarSized (indexVar : IndexVar)
  deriving DecidableEq

namespace Dimension

def getSize : Dimension → ℕ
  | sized size => size
  | indexVarSized _ => 0

def isFixed (d : Dimension) : Bool := 0 < d.getSize

/-- `isIndexVarSized` with the variable as its `getIndexVarSize`. -/
def isSizedBy (d : Dimension) (var : IndexVar) : Bool := d = indexVarSized var

/-- `operator==`. -/
def equal (a b : Dimension) : Bool :=
  if a.isFixed ≠ b.isFixed then false else if a.isFixed && b.isFixed && a.getSize ≠ b.getSize then false else true

def toString (d : Dimension) : String := if d.isFixed then ToString.toString d.getSize else "dynamic"

theorem equal_iff {a b : Dimension} : a.equal b = true ↔ a.getSize = b.getSize := by
  have hzero : ∀ d : Dimension, d.isFixed = false ↔ d.getSize = 0 := fun d => by simp [isFixed]
  unfold equal
  cases ha : a.isFixed <;> cases hb : b.isFixed
  · simp [(hzero a).mp ha, (hzero b).mp hb]
  · simp only [ne_eq, Bool.false_eq_true, not_false_eq_true, if_true, false_iff]
    intro h
    rw [(hzero b).mpr (h.symm.trans ((hzero a).mp ha))] at hb
    cases hb
  · simp only [ne_eq, Bool.true_eq_false, not_false_eq_true, if_true, Bool.false_eq_true, false_iff]
    intro h
    rw [(hzero a).mpr (h.trans ((hzero b).mp hb))] at ha
    cases ha
  · simp

theorem isFixed_iff {d : Dimension} : d.isFixed = true ↔ 0 < d.getSize := decide_eq_true_iff

theorem not_isFixed_of_isSizedBy {d : Dimension} {var : IndexVar} (h : d.isSizedBy var = true) : d.isFixed = false := by
  rw [of_decide_eq_true h]
  rfl

end Dimension

abbrev Shape := List Dimension

def Shape.getDimension (shape : Shape) (i : ℕ) : Dimension := shape.getD i (.sized 0)

/-- `Type`. -/
structure TensorType where
  dataType : Datatype
  shape : Shape
  deriving DecidableEq

/-- A format of a level: its kind with its properties. -/
structure ModeFormat where
  name : String
  isFull : Bool
  isOrdered : Bool
  isUnique : Bool
  isBranchless : Bool
  isCompact : Bool
  isZeroless : Bool
  deriving DecidableEq

/-- The formats of the levels in packs, and the mode that each level stores. -/
structure Format where
  modeFormatPacks : List (List ModeFormat)
  modeOrdering : List ℕ
  complete : modeOrdering.Perm (List.range modeFormatPacks.flatten.length)
  deriving DecidableEq

def Format.getOrder (format : Format) : ℕ := format.modeFormatPacks.flatten.length

def ModeFormat.dense : ModeFormat := ⟨"dense", true, true, true, false, true, false⟩

/-- `createDenseFormat`: dense levels that store the modes in their order. -/
def Format.dense (order : ℕ) : Format where
  modeFormatPacks := List.replicate order [.dense]
  modeOrdering := List.range order
  complete := by simp

/-- A tensor variable, by its identity, with its type and format. -/
structure TensorVar where
  id : ℕ
  type : TensorType
  format : Format
  complete : format.getOrder = type.shape.length
  deriving DecidableEq

def TensorVar.getOrder (t : TensorVar) : ℕ := t.type.shape.length

/-- A dense tensor of doubles with fixed dimensions. -/
def TensorVar.dense (id : ℕ) (dims : List ℕ) : TensorVar where
  id := id
  type := ⟨.real .float64, dims.map .sized⟩
  format := .dense dims.length
  complete := by simp [Format.getOrder, Format.dense]

/-! ### Expressions -/

structure AccessWindow where
  lo : ℤ
  hi : ℤ
  stride : ℤ
  stride_ne_zero : stride ≠ 0
  deriving DecidableEq

structure IndexSet where
  set : List ℤ
  deriving DecidableEq

/-- An access; the windows and the index sets of its modes stand in the order of the modes. -/
structure Access where
  tensorVar : TensorVar
  indexVars : List IndexVar
  windowedModes : List (ℕ × AccessWindow)
  indexSetModes : List (ℕ × IndexSet)
  isAccessingStructure : Bool
  complete : indexVars.length = tensorVar.getOrder
  deriving DecidableEq

/-- An access without windows and index sets. -/
def TensorVar.access (t : TensorVar) (indexVars : List IndexVar) (h : indexVars.length = t.getOrder) : Access where
  tensorVar := t
  indexVars := indexVars
  windowedModes := []
  indexSetModes := []
  isAccessingStructure := false
  complete := h

namespace Access

/-- `getWindowSize`, with C's division. -/
def getWindowSize (w : AccessWindow) : ℤ := (w.hi - w.lo).tdiv w.stride

end Access

/-- Index expressions; the operator of a reduction is a node without operands. A literal stores the bytes of its
    value. -/
inductive IndexExpr where
  | undefined
  | access (a : Access)
  | literal (type : Datatype) (val : List UInt8)
  | neg (a : IndexExpr)
  | sqrt (a : IndexExpr)
  | add (a b : IndexExpr)
  | sub (a b : IndexExpr)
  | mul (a b : IndexExpr)
  | div (a b : IndexExpr)
  | cast (a : IndexExpr) (type : Datatype)
  | callIntrinsic (func : Intrinsic) (args : List IndexExpr)
  | reduction (op : IndexExpr) (var : IndexVar) (a : IndexExpr)

namespace IndexExpr

mutual

/-- The accesses in the order in which a visitor comes to them. -/
def accesses : IndexExpr → List Access
  | undefined | literal _ _ => []
  | access a => [a]
  | neg a | sqrt a | cast a _ | reduction _ _ a => a.accesses
  | add a b | sub a b | mul a b | div a b => a.accesses ++ b.accesses
  | callIntrinsic _ args => accessesList args

def accessesList : List IndexExpr → List Access
  | [] => []
  | a :: as => a.accesses ++ accessesList as

end

end IndexExpr

/-! ### Relations between index variables -/

inductive BoundType where
  | minExact | minConstraint | maxExact | maxConstraint
  deriving DecidableEq

/-- The relations of a `SuchThat`. An access of a position is a node, which has an identity. -/
inductive IndexVarRel where
  | undefined
  | split (parentVar outerVar innerVar : IndexVar) (splitFactor : ℕ)
  | divide (parentVar outerVar innerVar : IndexVar) (divFactor : ℕ)
  | pos (parentVar posVar : IndexVar) (node : ℕ) (access : Access)
  | fuse (outerParentVar innerParentVar fusedVar : IndexVar)
  | bound (parentVar boundVar : IndexVar) (bound : ℕ) (boundType : BoundType)
  | precompute (parentVar precomputeVar : IndexVar)
  deriving DecidableEq

namespace IndexVarRel

def getParents : IndexVarRel → List IndexVar
  | undefined => []
  | split parentVar _ _ _ | divide parentVar _ _ _ | pos parentVar _ _ _ | bound parentVar _ _ _ |
    precompute parentVar _ => [parentVar]
  | fuse outerParentVar innerParentVar _ => [outerParentVar, innerParentVar]

def getChildren : IndexVarRel → List IndexVar
  | undefined => []
  | split _ outerVar innerVar _ | divide _ outerVar innerVar _ => [outerVar, innerVar]
  | pos _ posVar _ _ => [posVar]
  | fuse _ _ fusedVar => [fusedVar]
  | bound _ boundVar _ _ => [boundVar]
  | precompute _ precomputeVar => [precomputeVar]

def isPrecompute : IndexVarRel → Bool
  | precompute _ _ => true
  | _ => false

end IndexVarRel

/-! ### Statements -/

inductive ParallelUnit where
  | notParallel | defaultUnit | gpuBlock | gpuWarp | gpuThread | cpuThread | cpuVector | cpuThreadGroupReduction
  | gpuBlockReduction | gpuWarpReduction
  deriving DecidableEq

inductive OutputRaceStrategy where
  | ignoreRaces | noRaces | atomics | temporary | parallelReduction
  deriving DecidableEq

/-- What a loop is annotated with. -/
structure LoopTags where
  parallelUnit : ParallelUnit
  outputRaceStrategy : OutputRaceStrategy
  unrollFactor : ℕ
  deriving DecidableEq

/-- The tags of `forall(i, stmt)`. -/
def LoopTags.none : LoopTags := ⟨.notParallel, .ignoreRaces, 0⟩

/-- `AttrQueryResults`: the results of the queries of each level of the tensors that are assembled. -/
abbrev AttrQueryResults := List (TensorVar × List (List TensorVar))

/-- Index statements. -/
inductive IndexStmt where
  | undefined
  | assignment (lhs : Access) (rhs op : IndexExpr)
  | yield (indexVars : List IndexVar) (expr : IndexExpr)
  | forall (indexVar : IndexVar) (stmt : IndexStmt) (tags : LoopTags)
  | where (consumer producer : IndexStmt)
  | sequence (definition mutation : IndexStmt)
  | assemble (queries compute : IndexStmt) (results : AttrQueryResults)
  | multi (stmt1 stmt2 : IndexStmt)
  | suchThat (stmt : IndexStmt) (predicate : List IndexVarRel)

/-- A loop without its body. -/
structure Loop where
  indexVar : IndexVar
  tags : LoopTags
  deriving DecidableEq

namespace IndexStmt

def isForall : IndexStmt → Bool
  | .forall _ _ _ => true
  | _ => false

/-- Directly nested loops. -/
def nest (loops : List Loop) (body : IndexStmt) : IndexStmt :=
  loops.foldr (fun loop stmt => .forall loop.indexVar stmt loop.tags) body

/-- The loops in the order in which a visitor comes to them. -/
def loops : IndexStmt → List Loop
  | undefined | assignment _ _ _ | yield _ _ => []
  | .forall i stmt tags => ⟨i, tags⟩ :: stmt.loops
  | .where consumer producer => producer.loops ++ consumer.loops
  | sequence definition mutation => definition.loops ++ mutation.loops
  | assemble queries compute _ => queries.loops ++ compute.loops
  | multi stmt1 stmt2 => stmt1.loops ++ stmt2.loops
  | suchThat stmt _ => stmt.loops

end IndexStmt

end Notation
end Taco
