import Taco.IndexNotation.Zero
import Taco.Library.TrackedSets

/-! Where statements whose consumer runs through a dense workspace: either through all of its coordinates, or
    through the list of those that the producer wrote. -/

namespace Taco
namespace Workspace

/-! ### Accesses -/

abbrev IndexVar := ℕ

inductive ModeFormat where
  | dense (isOrdered isUnique isZeroless : Bool)
  | compressed (isFull isOrdered : Bool)
  | singleton (isFull isOrdered : Bool)
  deriving DecidableEq

namespace ModeFormat

def Dense : ModeFormat := dense true true false

def isFull : ModeFormat → Bool
  | dense _ _ _ => true
  | compressed isFull _ | singleton isFull _ => isFull

def isOrdered : ModeFormat → Bool
  | dense isOrdered _ _ | compressed _ isOrdered | singleton _ isOrdered => isOrdered

def hasAppend : ModeFormat → Bool
  | dense _ _ _ => false
  | compressed _ _ | singleton _ _ => true

end ModeFormat

/-- The format of a tensor; the mode stored at level `l` is `modeOrdering[l]`. -/
structure Format where
  modeFormats : List ModeFormat
  modeOrdering : List ℕ
  perm : modeOrdering.Perm (List.range modeFormats.length)

namespace Format

def isDense (format : Format) : Bool := format.modeFormats.all (· = .Dense)

theorem modeOrdering_lt (format : Format) {mode : ℕ} (h : mode < format.modeOrdering.length) :
    format.modeOrdering[mode] < format.modeFormats.length :=
  List.mem_range.mp (format.perm.mem_iff.mp (List.getElem_mem h))

theorem perm_vector : [0].Perm (List.range 1) := by decide

theorem perm_matrix : [0, 1].Perm (List.range 2) := by decide

/-- The format of the level that stores the mode. -/
def levelOf? (format : Format) (mode : ℕ) : Option ModeFormat := format.modeFormats[format.modeOrdering.idxOf mode]?

end Format

structure Access where
  format : Format
  indexVars : List IndexVar
  arity : indexVars.length = format.modeFormats.length

/-! ### Where statements -/

/-- The variables of the loops at an assignment. -/
abbrev Env := IndexVar → ℕ

/-- A where statement; its consumer is an assignment below loops, one of which has the variable of the temporary. The
    provenance graph recovers the variables of the result and guards the iterations of that loop. -/
structure Where (V : Type) where
  temporary : Format
  outer : List IndexVar
  var : IndexVar
  inner : List IndexVar
  distinct : (outer ++ var :: inner).Nodup
  lhs : Access
  compound : Bool
  rhs : IndexExpr V
  operand : ℕ → Access
  iterates : ∀ node, rhs.accesses = [node] → (operand node).indexVars = [var]
  isDerivedFrom : IndexVar → IndexVar → Bool
  recoverVariable : Env → IndexVar → ℕ
  continues : Env → Bool

/-- What the producer writes: the value of an assignment, which may be compound. -/
structure Write (V : Type) where
  compound : Bool
  loc : ℕ
  rhs : V

/-- The variables around a where statement when it is executed, and what its producer writes then. -/
structure Execution (V : Type) where
  env : Env
  writes : List (Write V)

namespace Where

variable {V : Type} (W : Where V)

def getArgumentAccesses : List Access := W.rhs.accesses.map W.operand

def getResultAccesses : List Access := [W.lhs]

/-- The mode of the result whose variable is that of the temporary, or one it is derived from. -/
def resultMode (resultVars : List IndexVar) (tempVar : IndexVar) : ℕ :=
  resultVars.findIdx fun resultVar => resultVar = tempVar || W.isDerivedFrom tempVar resultVar

/-- Whether the consumer only runs through the coordinates that are written, and whether these are sorted. -/
def canAccelerateDenseTemp (shouldUseCUDACodegen : Bool) : Bool × Bool :=
  if shouldUseCUDACodegen then (false, false)
  else if !W.temporary.isDense || W.temporary.modeFormats.length ≠ 1 then (false, false)
  else
    match W.getArgumentAccesses, W.getResultAccesses with
    | [input], [result] =>
      match input.indexVars with
      | [] => (false, false)
      | tempVar :: _ =>
        let index := W.resultMode result.indexVars tempVar
        if h : index < result.format.modeOrdering.length then
          -- The ordering maps levels to modes, but is applied to a mode here.
          let modeIndex := result.format.modeOrdering[index]
          let varFmt := result.format.modeFormats.get ⟨modeIndex, result.format.modeOrdering_lt h⟩
          if varFmt.isFull then (false, false) else (true, varFmt.isOrdered)
        else
          (true, false)
    | _, _ => (false, false)

/-- The level of the result that stores the coordinates of the temporary. -/
def resultLevel : Option ModeFormat := W.lhs.format.levelOf? (W.resultMode W.lhs.indexVars W.var)

/-- The consumer appends the coordinates of the temporary to the result. -/
def appends : Bool := W.resultLevel.any ModeFormat.hasAppend

/-- The consumer has to append them in order. -/
def appendsOrdered : Bool := W.resultLevel.any fun level => level.hasAppend && level.isOrdered

end Where

/-! ### Arrays -/

abbrev Path := List ℕ

/-- The arrays of the workspace and of the result. The tracker has the bits that are already set and the index list; the
    result has values for its paths, and the coordinates appended at the level of the temporary by each of the loops. -/
structure State (V : Type) where
  values : ℕ → V
  tracker : TrackedSet ℕ
  vals : Path → V
  crd : List ℕ
  segments : List (List ℕ)

variable {V : Type} [Ring V]

namespace State

/-- A write into the workspace as it is assigned. -/
def store (s : State V) (w : Write V) : State V :=
  { s with values := Function.update s.values w.loc (if w.compound then s.values w.loc + w.rhs else w.rhs) }

/-- A write into an accelerated workspace; the first one at an index does not add to what the workspace has there. -/
def trackedStore (s : State V) (w : Write V) : State V :=
  if !s.tracker.guard w.loc then
    { s with
      values := Function.update s.values w.loc w.rhs
      tracker := ⟨Function.update s.tracker.guard w.loc true, s.tracker.list ++ [w.loc]⟩ }
  else
    s.store w

/-- The size of the index list is declared with every execution of the statement. -/
def declareIndexListSize (s : State V) : State V := { s with tracker := { s.tracker with list := [] } }

def sortIndexList (s : State V) : State V := { s with tracker := { s.tracker with list := s.tracker.list.mergeSort } }

def zeroInit (s : State V) (size : ℕ) : State V := { s with values := fun p => if p < size then 0 else s.values p }

/-- The positions of the appended coordinates are appended. -/
def appendPositions (s : State V) : State V := { s with crd := [], segments := s.segments ++ [s.crd] }

end State

/-! ### Loops -/

/-- What the variables are in the iterations of loops of given dimensions. -/
def iterations (dims : IndexVar → ℕ) : List IndexVar → Env → List Env
  | [], env => [env]
  | v :: vars, env => (List.range (dims v)).flatMap fun c => iterations dims vars (Function.update env v c)

namespace Where

variable (W : Where V) (dims : IndexVar → ℕ)

/-- The right side of the consumer at an element of the workspace. -/
def value (x : V) : V := W.rhs.eval fun _ => x

def assign (x : V) (vals : Path → V) (env : Env) : Path → V :=
  let loc := W.lhs.indexVars.map (W.recoverVariable env)
  Function.update vals loc (if W.compound then vals loc + W.value x else W.value x)

/-- The loops below that of the temporary; they have fresh values, which are zero, if a position is appended. -/
def lowerForallBody (env : Env) (x : V) (vals : Path → V) : Path → V :=
  if W.appends then vals + (iterations dims W.inner env).foldl (W.assign x) 0
  else (iterations dims W.inner env).foldl (W.assign x) vals

/-- An iteration at a coordinate of the temporary. -/
def iteration (env : Env) (s : State V) (coordinate : ℕ) : State V :=
  let env := Function.update env W.var coordinate
  if W.continues env then s
  else
    { s with
      vals := W.lowerForallBody dims env (s.values coordinate) s.vals
      crd := if W.appends then s.crd ++ [coordinate] else s.crd }

/-- An iteration at a coordinate of the index list; it resets the guard. -/
def trackedIteration (env : Env) (s : State V) (coordinate : ℕ) : State V :=
  if W.continues (Function.update env W.var coordinate) then s
  else { W.iteration dims env s coordinate with tracker := s.tracker.release coordinate }

def lowerForallDimension (env : Env) (s : State V) : State V :=
  let s := (List.range (dims W.var)).foldl (W.iteration dims env) s
  if W.appends then s.appendPositions else s

def lowerForallDenseAcceleration (env : Env) (s : State V) : State V :=
  let s := s.tracker.list.foldl (W.trackedIteration dims env) s
  if W.appends then s.appendPositions else s

/-- The statement with a workspace that is zeroed. -/
def lowerWhereZeroed (s : State V) (x : Execution V) : State V :=
  let s := x.writes.foldl State.store (s.zeroInit (dims W.var))
  (iterations dims W.outer x.env).foldl (fun s env => W.lowerForallDimension dims env s) s

/-- The statement with a workspace that is accelerated. -/
def lowerWhereAccelerated (sortAccelerator : Bool) (s : State V) (x : Execution V) : State V :=
  let s := x.writes.foldl State.trackedStore s.declareIndexListSize
  let s := if sortAccelerator then s.sortIndexList else s
  (iterations dims W.outer x.env).foldl (fun s env => W.lowerForallDenseAcceleration dims env s) s

def lowerWhere (shouldUseCUDACodegen : Bool) (s : State V) (x : Execution V) : State V :=
  let (accelerateDenseWorkSpace, sortAccelerator) := W.canAccelerateDenseTemp shouldUseCUDACodegen
  if accelerateDenseWorkSpace then W.lowerWhereAccelerated dims sortAccelerator s x else W.lowerWhereZeroed dims s x

end Where

end Workspace
end Taco
