import Taco.Library.GrowableArrays

/-! Kernels for a result whose levels are dense or compressed, in the order of the loops: what the lowered loops append to the
levels, and where they store the values. One kernel assembles the result, and may compute the values too; another one computes
the values of a result that is assembled. -/

namespace Taco
namespace Assembly

/-! ### Levels and visits -/

/-- A level of the result: a dense one inserts coordinates, a compressed one appends them. -/
inductive Level where
  | dense (size : ℕ) (isFixed : Bool)
  | compressed (size : ℕ)
  deriving DecidableEq

def Level.size : Level → ℕ
  | dense n _ | compressed n => n

/-- What is above a level. -/
inductive Parent where
  | root
  | append
  | insert
  deriving DecidableEq

/-- A size in the lowered code: a literal, or an expression of some value. -/
inductive Size where
  | literal (value : ℕ)
  | computed (value : ℕ)
  deriving DecidableEq

namespace Size

def value : Size → ℕ
  | literal n | computed n => n

/-- `simplify(Mul::make(a, b))`. -/
def mul : Size → Size → Size
  | literal m, literal n => literal (m * n)
  | literal m, computed n => if m = 0 then literal 0 else computed (m * n)
  | computed m, literal n => if n = 0 then literal 0 else computed (m * n)
  | computed m, computed n => computed (m * n)

@[simp] theorem value_literal (n : ℕ) : (literal n).value = n := rfl

@[simp] theorem value_computed (n : ℕ) : (computed n).value = n := rfl

@[simp] theorem value_mul (a b : Size) : (a.mul b).value = a.value * b.value := by
  cases a <;> cases b <;> rw [mul]
  case literal.literal | computed.computed => rfl
  all_goals
    split
    · simp [value, *]
    · rfl

end Size

/-- `DenseModeFormat::getWidth`. -/
def getWidth (size : ℕ) (isFixed : Bool) : Size := if isFixed && size < 16 then .literal size else .computed size

@[simp] theorem value_getWidth (size : ℕ) (isFixed : Bool) : (getWidth size isFixed).value = size := by
  rw [getWidth]
  split <;> rfl

/-- What the lowering knows of the result. -/
structure Result where
  allocSize : ℕ
  /-- The result is added to. -/
  reduced : Bool
  /-- Not every value below an insert level has to be assigned. -/
  nonFullyInitialized : Bool

def defaultAllocSize : ℕ := 2 ^ 20

namespace Result

variable (result : Result) (V : Type)

/-- Whether values below insert levels are set to zero first. -/
def zeroes : Bool := result.nonFullyInitialized || result.reduced

/-- What the loops over the levels visit: coordinates in order, and below the last level what is stored in the value. -/
@[reducible] def Visits : List Level → Type
  | [] => {assigned : List V // assigned = [] → result.reduced = true}
  | level :: levels =>
    {visits : List (ℕ × Visits levels) //
      (visits.map Prod.fst).Pairwise (· < ·) ∧ ∀ i ∈ visits.map Prod.fst, i < level.size}

end Result

/-! ### Arrays -/

/-- The arrays of a compressed level, and its position variable. -/
structure LevelArrays where
  posArray : Growable ℕ
  crdArray : Growable ℕ
  posVar : ℕ

/-- The arrays of the levels, and the values. -/
@[reducible] def Arrays (V : Type) : List Level → Type
  | [] => Growable V
  | .dense _ _ :: levels => Arrays V levels
  | .compressed _ :: levels => LevelArrays × Arrays V levels

section

variable {A : Type*}

def doubleSizeIfFull (a : Growable A) (needed : ℕ) : Growable A :=
  if a.capacity ≤ needed then a.resize (a.capacity * 2) else a

def atLeastDoubleSizeIfFull (a : Growable A) (needed : ℕ) : Growable A :=
  if a.capacity ≤ needed then a.resize (max (a.capacity * 2) (needed + 1)) else a

end

/-! ### Compressed levels -/

section Compressed

variable (result : Result) (parent : Parent)

/-- The arrays are allocated; what is in them is not initialized. -/
def getAppendInitLevel (szPrev : Size) (a : LevelArrays) : Option LevelArrays := do
  let posArray ← (a.posArray.resize (if szPrev = .literal 0 then result.allocSize else szPrev.value + 1)).store 0 0
  let posArray ← if parent = .insert ∧ szPrev ≠ .literal 0 then posArray.fill 0 1 szPrev.value else some posArray
  return { a with posArray := posArray, crdArray := a.crdArray.resize result.allocSize }

/-- Where the begin is a literal it has to be zero. -/
def getAppendInitEdges (pPrevBegin : Size) (pPrevEnd : ℕ) (a : LevelArrays) : Option LevelArrays :=
  match pPrevBegin with
  | .literal n => if n = 0 then some a else none
  | .computed pPrevBegin =>
    if parent ≠ .insert then some { a with posArray := doubleSizeIfFull a.posArray pPrevEnd }
    else do
      let posArray ← (atLeastDoubleSizeIfFull a.posArray pPrevEnd).fill 0 (pPrevBegin + 1) (pPrevEnd - pPrevBegin)
      return { a with posArray := posArray }

def getAppendCoord (p i : ℕ) (a : LevelArrays) : Option LevelArrays := do
  let crdArray ← (doubleSizeIfFull a.crdArray p).store p i
  return { a with crdArray := crdArray }

def getAppendEdges (pPrev pBegin pEnd : ℕ) (a : LevelArrays) : Option LevelArrays := do
  let posArray ← a.posArray.store (pPrev + 1) (if parent ≠ .insert then pEnd else pEnd - pBegin)
  return { a with posArray := posArray }

/-- One step of the loop that adds up the entries, with the sum so far. -/
def addUp (st : ℕ × Growable ℕ) (p : ℕ) : Option (ℕ × Growable ℕ) := do
  let posArray ← st.2.store p (st.1 + st.2.data p)
  return (st.1 + st.2.data p, posArray)

def getAppendFinalizeLevel (szPrev : Size) (a : LevelArrays) : Option LevelArrays :=
  if szPrev = .literal 1 ∨ parent ≠ .insert then some a
  else do
    let (_, posArray) ← (List.range' 1 szPrev.value).foldlM addUp (0, a.posArray)
    return { a with posArray := posArray }

end Compressed

/-! ### The result -/

section Lowerer

variable {V : Type} [Zero V] [Add V] (result : Result) (computes : Bool)

/-- `initResultArrays` for all the results, from a level on. -/
def initLevels : Parent → Size → (levels : List Level) → Arrays V levels → Option (Arrays V levels)
  | parent, parentSize, [], values =>
    if computes then
      -- pre-allocate memory for the values, and zero-initialize them if their number is known
      let values : Growable V := values.resize (if parentSize = .literal 0 then defaultAllocSize else parentSize.value)
      if parent = .insert ∧ parentSize ≠ .literal 0 ∧ result.zeroes then values.fill 0 0 parentSize.value else some values
    else some values
  | _, parentSize, .dense n isFixed :: levels, arrays =>
    initLevels .insert (parentSize.mul (getWidth n isFixed)) levels arrays
  | parent, parentSize, .compressed _ :: levels, (a, arrays) => do
    let a ← getAppendInitLevel result parent parentSize a
    let arrays ← initLevels .append (.literal 0) levels arrays
    return ({ a with posVar := 0 }, arrays)

/-- The levels below an index variable, up to the first that appends; `above` is what is above the next of them, and
    `stride` the number of its positions for each position of the parent. -/
def initLevelsBelow (parent : Parent) (resultParentPos : Size) :
    Parent → Size → (levels : List Level) → Arrays V levels → Option (Arrays V levels)
  | _, stride, [], values =>
    if parent = .root || !computes then some values
    else
      -- resize the values array if it is not large enough
      let values := atLeastDoubleSizeIfFull values ((resultParentPos.value + 1) * stride.value)
      if result.zeroes then Growable.fill values 0 (resultParentPos.value * stride.value) stride.value else some values
  | _, stride, .dense n isFixed :: levels, arrays =>
    initLevelsBelow parent resultParentPos .insert (stride.mul (getWidth n isFixed)) levels arrays
  | above, stride, .compressed _ :: _, (a, arrays) => do
    let a ← getAppendInitEdges above (resultParentPos.mul stride) ((resultParentPos.value + 1) * stride.value) a
    return (a, arrays)

/-- `initResultArrays` for the results below an index variable. -/
def initResultArrays (parent : Parent) (resultParentPos : Size) (levels : List Level) (arrays : Arrays V levels) :
    Option (Arrays V levels) :=
  if parent = .insert then some arrays
  else initLevelsBelow result computes parent resultParentPos parent (.literal 1) levels arrays

def resizeAndInitValues : (levels : List Level) → ℕ → Arrays V levels → Option (Arrays V levels)
  | [], pos, values =>
    if computes then
      let values : Growable V := doubleSizeIfFull values pos
      if result.reduced then values.store pos 0 else some values
    else some values
  | _ :: _, _, arrays => some arrays

/-- An assignment to the value at a position. -/
def assign (pos : ℕ) (values : Growable V) (x : V) : Option (Growable V) :=
  values.store pos (if result.reduced then values.data pos + x else x)

/-- No empty slices are appended: the position variable of the level below has to have left its begin. -/
def shouldAppend : (levels : List Level) → Arrays V levels → Arrays V levels → Bool
  | .compressed _ :: _, (below, _), (below', _) => below.posVar < below'.posVar
  | [], _, _ | .dense _ _ :: _, _, _ => true

def appendCoordinate (levels : List Level) (coord : ℕ) (a : LevelArrays) (arrays arrays' : Arrays V levels) :
    Option (LevelArrays × Arrays V levels) :=
  if shouldAppend levels arrays arrays' then do
    let a ← getAppendCoord a.posVar coord a
    return ({ a with posVar := a.posVar + 1 }, arrays')
  else some (a, arrays')

section Loops

variable (levels : List Level) (lower : Size → result.Visits V levels → Arrays V levels → Option (Arrays V levels))

/-- `lowerForallBody` where the coordinate is appended. -/
def lowerForallBody (arrays : LevelArrays × Arrays V levels) (visit : ℕ × result.Visits V levels) :
    Option (LevelArrays × Arrays V levels) := do
  let below ← resizeAndInitValues result computes levels arrays.1.posVar arrays.2
  let below' ← lower (.computed arrays.1.posVar) visit.2 below
  appendCoordinate levels visit.1 arrays.1 below below'

/-- A loop that appends coordinates, and the edges after it. -/
def lowerAppendLoop (parent : Parent) (pos : ℕ) (visits : List (ℕ × result.Visits V levels))
    (arrays : LevelArrays × Arrays V levels) : Option (LevelArrays × Arrays V levels) := do
  let (a, arrays') ← visits.foldlM (lowerForallBody result computes levels lower) arrays
  let a ← getAppendEdges parent pos arrays.1.posVar a.posVar a
  return (a, arrays')

/-- A loop that inserts coordinates: the position below is located. -/
def lowerInsertLoop (pos n : ℕ) (visits : List (ℕ × result.Visits V levels)) (arrays : Arrays V levels) :
    Option (Arrays V levels) :=
  visits.foldlM (fun arrays visit => lower (.computed (pos * n + visit.1)) visit.2 arrays) arrays

end Loops

/-- The loops over the levels, below a position of the parent. -/
def lowerForall : Parent → Size → (levels : List Level) → result.Visits V levels → Arrays V levels →
    Option (Arrays V levels)
  | _, pos, [], assigned, values => if computes then assigned.val.foldlM (assign result pos.value) values else some values
  | parent, pos, .dense n isFixed :: levels, visits, arrays => do
    let arrays ← initResultArrays result computes parent pos (.dense n isFixed :: levels) arrays
    lowerInsertLoop result levels (fun pos => lowerForall .insert pos levels) pos.value n visits.val arrays
  | parent, pos, .compressed n :: levels, visits, arrays => do
    let arrays ← initResultArrays result computes parent pos (.compressed n :: levels) arrays
    lowerAppendLoop result computes levels (fun pos => lowerForall .append pos levels) parent pos.value visits.val arrays

/-- `finalizeResultArrays`, from a level on; memory for values that are not computed yet is allocated here. -/
def finalizeLevels : Parent → Size → (levels : List Level) → Arrays V levels → Option (Arrays V levels)
  | _, parentSize, [], values => some (if computes then values else Growable.resize values parentSize.value)
  | _, parentSize, .dense n isFixed :: levels, arrays =>
    finalizeLevels .insert (parentSize.mul (getWidth n isFixed)) levels arrays
  | parent, parentSize, .compressed _ :: levels, (a, arrays) => do
    let a ← getAppendFinalizeLevel parent parentSize a
    let arrays ← finalizeLevels .append (.computed a.posVar) levels arrays
    return (a, arrays)

/-- The kernel that assembles the result, from arrays with anything in them. -/
def assemble (levels : List Level) (visits : result.Visits V levels) (arrays : Arrays V levels) :
    Option (Arrays V levels) := do
  let arrays ← initLevels result computes .root (.literal 1) levels arrays
  let arrays ← lowerForall result computes .root (.literal 0) levels visits arrays
  finalizeLevels computes .root (.literal 1) levels arrays

end Lowerer

end Assembly
end Taco
