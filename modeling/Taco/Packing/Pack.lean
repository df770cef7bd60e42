import Mathlib.Data.List.DropRight
import Taco.IR.Datatype

/-! Packing of sorted coordinates into dense and compressed levels, and what the packed arrays are to mean. -/

namespace Taco
namespace Packing

/-! ### Formats -/

/-- The integer types that index arrays can have. -/
inductive IndexType where
  | uint8 | uint16 | uint32 | uint64 | int8 | int16 | int32 | int64
  deriving DecidableEq

namespace IndexType

def bits : IndexType → ℕ
  | uint8 | int8 => 8
  | uint16 | int16 => 16
  | uint32 | int32 => 32
  | uint64 | int64 => 64

def signed : IndexType → Bool
  | uint8 | uint16 | uint32 | uint64 => false
  | int8 | int16 | int32 | int64 => true

/-- What an `int` is in the type. -/
def conv (type : IndexType) (value : ℤ) : ℤ := IR.Datatype.wrapBits type.signed type.bits value

/-- The values of the type are below this. -/
def limit (type : IndexType) : ℕ := if type.signed then 2 ^ (type.bits - 1) else 2 ^ type.bits

end IndexType

inductive ModeFormat where
  | dense
  | sparse
  deriving DecidableEq

/-- A mode in its format, with its dimension, which is an `int`, and the type of its positions. The coordinates that are
    packed have the type of the coordinates of the level. -/
structure Level where
  modeFormat : ModeFormat
  dimension : ℕ
  coordinateTypePos : IndexType
  dimension_lt : dimension < 2 ^ 31

/-! ### Integers -/

/-- The result of `int` arithmetic; nothing where that overflows. -/
def toInt (value : ℤ) : Option ℤ := if -2 ^ 31 ≤ value ∧ value < 2 ^ 31 then some value else none

/-- The result of `long long` arithmetic. -/
def toLongLong (value : ℤ) : Option ℤ := if -2 ^ 63 ≤ value ∧ value < 2 ^ 63 then some value else none

/-- A size as an `int`. -/
def castInt (size : ℕ) : ℤ := (size : ℤ).bmod (2 ^ 32)

/-! ### Packing -/

/-- The arrays of a level: a dense one has none. -/
structure LevelIndex where
  pos : List ℤ
  crd : List ℕ

/-- What is packed so far; `valuesIndex` is the size of the values in bytes. -/
structure Buffers (V : Type) where
  indices : ℕ → LevelIndex
  values : List V
  valuesIndex : ℤ

variable {V : Type}

def Buffers.init (levels : List Level) : Buffers V where
  indices i := if levels[i]?.any (·.modeFormat = .sparse) then ⟨[0], []⟩ else ⟨[], []⟩
  values := []
  valuesIndex := 0

/-- The unique entries of a range of a sorted vector. -/
def getUniqueEntries (v : ℕ → ℕ) (startIndex endIndex : ℕ) : List ℕ :=
  if endIndex - startIndex > 0 then
    ((List.range' (startIndex + 1) (endIndex - (startIndex + 1))).foldl (fun (prev, uniqueEntries) j =>
      if v j > prev then (v j, uniqueEntries ++ [v j]) else (prev, uniqueEntries)) (v startIndex, [v startIndex])).2
  else []

/-- Where the coordinates of a range that are `j` end. -/
def segmentEnd (levelCoords : ℕ → ℕ) (j stop cend : ℕ) : ℕ :=
  if cend < stop ∧ levelCoords cend = j then segmentEnd levelCoords j stop (cend + 1) else cend
termination_by stop - cend

/-- A value is written. -/
def putValue (numBytes : ℕ) (value : V) (buffers : Buffers V) : Option (Buffers V) :=
  (toInt (buffers.valuesIndex + numBytes)).map fun valuesIndex =>
    { buffers with values := buffers.values ++ [value], valuesIndex := valuesIndex }

/-- The end of a segment is stored, and its coordinates are. -/
def pushSegment (type : IndexType) (i : ℕ) (indexValues : List ℕ) (buffers : Buffers V) : Option (Buffers V) :=
  let index := buffers.indices i
  (toInt (castInt index.crd.length + castInt indexValues.length)).map fun segmentEnd =>
    { buffers with
      indices := Function.update buffers.indices i ⟨index.pos ++ [type.conv segmentEnd], index.crd ++ indexValues⟩ }

/-- The segments of the children are packed, one for each index value. -/
def packSegments (packNext : ℕ → ℕ → Buffers V → Option (Buffers V)) (levelCoords : ℕ → ℕ) (stop : ℕ) :
    List ℕ → ℕ → Buffers V → Option (Buffers V)
  | [], _, buffers => some buffers
  | j :: js, cbegin, buffers =>
    let cend := segmentEnd levelCoords j stop cbegin
    (packNext cbegin cend buffers).bind (packSegments packNext levelCoords stop js cend)

/-- The coordinates of a range are packed into the levels from a level on; behind the last one a value is written. -/
def packTensor [Zero V] (coords : ℕ → ℕ → ℕ) (vals : ℕ → V) (numBytes : ℕ) :
    List Level → ℕ → ℕ → ℕ → Buffers V → Option (Buffers V)
  | [], _, cbegin, cend, buffers => putValue numBytes (if cbegin < cend then vals cbegin else 0) buffers
  | level :: levels, i, begin, stop, buffers =>
    match level.modeFormat with
    | .dense =>
      packSegments (packTensor coords vals numBytes levels (i + 1)) (coords i) stop (List.range level.dimension) begin buffers
    | .sparse =>
      let indexValues := getUniqueEntries (coords i) begin stop
      (pushSegment level.coordinateTypePos i indexValues buffers).bind
        (packSegments (packTensor coords vals numBytes levels (i + 1)) (coords i) stop
          (indexValues.take (castInt indexValues.length).toNat) begin)

def growSize (numCoordinates : ℕ) (maxSize : ℤ) (level : Level) : Option ℤ :=
  match level.modeFormat with
  | .dense => toLongLong (maxSize * level.dimension)
  | .sparse => toLongLong numCoordinates

/-- The number of values that memory is allocated for. -/
def maxSize (levels : List Level) (numCoordinates : ℕ) : Option ℤ := levels.foldlM (growSize numCoordinates) 1

structure TensorStorage (V : Type) where
  indices : ℕ → LevelIndex
  values : List V

def pack [Zero V] (levels : List Level) (coords : ℕ → ℕ → ℕ) (numCoordinates : ℕ) (vals : ℕ → V) (numBytes : ℕ) :
    Option (TensorStorage V) :=
  -- Scalar packing is not supported.
  if levels.isEmpty then none
  else do
    let size ← maxSize levels numCoordinates
    let _ ← toLongLong (size * numBytes)
    let buffers ← packTensor coords vals numBytes levels 0 0 numCoordinates (.init levels)
    some ⟨buffers.indices, buffers.values⟩

/-! ### Walks -/

/-- The coordinates of a segment. -/
def LevelIndex.segment (index : LevelIndex) (p : ℕ) : List ℕ :=
  (index.crd.take (index.pos.getD (p + 1) 0).toNat).drop (index.pos.getD p 0).toNat

/-- The positions below a position of a level, with their coordinates. -/
def TensorStorage.children (s : TensorStorage V) (level : Level) (i p : ℕ) : List (ℕ × ℕ) :=
  match level.modeFormat with
  | .dense => (List.range' (p * level.dimension) level.dimension).zip (List.range level.dimension)
  | .sparse =>
    (List.range' ((s.indices i).pos.getD p 0).toNat ((s.indices i).segment p).length).zip ((s.indices i).segment p)

/-- What is below a coordinate. -/
def below (c : ℕ) (contents : List (List ℕ × V)) : List (List ℕ × V) := contents.map fun e => (c :: e.1, e.2)

/-- What is stored below a position, level by level. -/
def TensorStorage.walk (s : TensorStorage V) : List Level → ℕ → ℕ → Option (List (List ℕ × V))
  | [], _, p => s.values[p]?.map fun v => [([], v)]
  | level :: levels, i, p =>
    ((s.children level i p).mapM fun (q, c) => (walk s levels (i + 1) q).map (below c)).map List.flatten

/-! ### Packed storage -/

/-- The arrays of the levels from a level with a number of positions on are well formed. -/
def TensorStorage.Segmented (s : TensorStorage V) : List Level → ℕ → ℕ → Prop
  | [], _, positions => s.values.length = positions
  | level :: levels, i, positions =>
    match level.modeFormat with
    | .dense => Segmented s levels (i + 1) (positions * level.dimension)
    | .sparse =>
      let index := s.indices i
      index.pos.length = positions + 1 ∧ index.pos.head? = some 0 ∧ index.pos.Pairwise (· ≤ ·) ∧
        index.pos.getLast? = some (index.crd.length : ℤ) ∧
        (∀ p < positions, (index.segment p).Pairwise (· < ·)) ∧ Segmented s levels (i + 1) index.crd.length

/-- Coordinates within the dimensions of a tensor that is no scalar, sorted and without duplicates, and their values. -/
structure Components (V : Type) (levels : List Level) where
  levels_ne : levels ≠ []
  entries : List (List ℕ × V)
  bounded : ∀ e ∈ entries, List.Forall₂ (fun c level => c < level.dimension) e.1 levels
  sorted : (entries.map Prod.fst).Pairwise (· < ·)

namespace Components

variable {levels : List Level} (components : Components V levels)

def coordinates : List (List ℕ) := components.entries.map Prod.fst

/-- One vector per level. -/
def coords (i k : ℕ) : ℕ := (components.coordinates.getD k []).getD i 0

def vals [Zero V] (k : ℕ) : V := (components.entries.map Prod.snd).getD k 0

/-- The storage has a coordinate if it is within the dimensions and each compressed level has a component below it. -/
def Stored (c : List ℕ) : Prop :=
  List.Forall₂ (fun x level => x < level.dimension) c levels ∧
    ∀ i level, levels[i]? = some level → level.modeFormat = .sparse →
      ∃ c' ∈ components.coordinates, c'.take (i + 1) = c.take (i + 1)

/-- The storage has the components, and zeros where dense levels need them, each once and in order; its arrays are well
    formed, and its values have room. -/
structure RoundTrips [Zero V] (s : TensorStorage V) : Prop where
  contents : ∃ contents, s.walk levels 0 0 = some contents ∧ (contents.map Prod.fst).Pairwise (· < ·) ∧
    ∀ c v, (c, v) ∈ contents ↔ components.Stored c ∧
      if c ∈ components.coordinates then (c, v) ∈ components.entries else v = 0
  segmented : s.Segmented levels 0 1
  room : ∃ size, maxSize levels components.entries.length = some size ∧ s.values.length ≤ size

end Components

/-! ### Sizes -/

def Level.isDense (level : Level) : Bool := level.modeFormat = .dense

/-- The dimensions of the dense levels behind the last compressed one. -/
def denseSize (levels : List Level) : ℕ := ((levels.rtakeWhile Level.isDense).map Level.dimension).prod

/-- The size of levels, if there are `n` coordinates in the last compressed one. -/
def sizeWith (levels : List Level) (n : ℕ) : ℕ :=
  (if levels.rdropWhile Level.isDense = [] then 1 else n) * denseSize levels

/-- The number of different beginnings of coordinates. -/
def beginnings (coordinates : List (List ℕ)) (k : ℕ) : ℕ := (coordinates.map (List.take k)).dedup.length

/-- The sizes of the values and of the arrays are in their types. -/
structure Components.Fits {levels : List Level} (components : Components V levels) (numBytes : ℕ) : Prop where
  sizes : ∀ k ≤ levels.length, sizeWith (levels.take k) components.entries.length < 2 ^ 63
  bytes : sizeWith levels components.entries.length * numBytes < 2 ^ 63
  values : sizeWith levels (beginnings components.coordinates (levels.rdropWhile Level.isDense).length) * numBytes < 2 ^ 31
  segments : ∀ i level, levels[i]? = some level → level.modeFormat = .sparse →
    beginnings components.coordinates (i + 1) < 2 ^ 31 ∧
      beginnings components.coordinates (i + 1) < level.coordinateTypePos.limit

end Packing
end Taco
