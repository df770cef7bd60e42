import Taco.Library.Segments

/-! Ungrouped insertion into a compressed level. -/

namespace Taco
namespace Lower

/-- The mode of a compressed level below a level of `prevSize` positions; its coordinates are stored with those of the other
    modes of its pack. -/
structure CompressedMode where
  prevSize : ℕ
  numModes : ℕ
  numModes_pos : 0 < numModes

/-- The arrays of the level while they are assembled. -/
structure LevelArrays where
  posArray : ℕ → ℕ
  crdArray : ℕ → ℤ

namespace CompressedMode

variable (mode : CompressedMode)

/-! ### Edge insertion -/

/-- The other entries of the allocated array are undefined. -/
def getSeqInitEdges (posArray : ℕ → ℕ) : ℕ → ℕ := Function.update posArray 0 0

def getSeqInsertEdge (nnz : ℕ → ℕ) (posArray : ℕ → ℕ) (parentPos : ℕ) : ℕ → ℕ :=
  Function.update posArray (parentPos + 1) (posArray parentPos + nnz parentPos)

/-- The edges of all parents are inserted in order. -/
def insertEdges (nnz posArray : ℕ → ℕ) : ℕ → ℕ :=
  (List.range mode.prevSize).foldl (getSeqInsertEdge nnz) (getSeqInitEdges posArray)

/-! ### Coordinate insertion -/

/-- The position array is the cursor of the insertions. -/
def getYieldPos (parentPos : ℕ) (arrays : LevelArrays) : ℕ × LevelArrays :=
  (arrays.posArray parentPos,
    { arrays with posArray := Function.update arrays.posArray parentPos (arrays.posArray parentPos + 1) })

def getInsertCoord (pos : ℕ) (coord : ℤ) (arrays : LevelArrays) : LevelArrays :=
  { arrays with crdArray := Function.update arrays.crdArray (pos * mode.numModes) coord }

/-- The positions of the insertions, each of a coordinate below a parent, and the arrays after them. -/
def insertAll : List (ℕ × ℤ) → LevelArrays → List ℕ × LevelArrays
  | [], arrays => ([], arrays)
  | (parentPos, coord) :: insertions, arrays =>
    let (pos, arrays) := getYieldPos parentPos arrays
    let (positions, arrays) := insertAll insertions (mode.getInsertCoord pos coord arrays)
    (pos :: positions, arrays)

/-- The entries are shifted back by one parent, the last one first. -/
def getFinalizeYieldPos (posArray : ℕ → ℕ) : ℕ → ℕ :=
  Function.update ((List.range mode.prevSize).foldl (fun posArray p =>
    Function.update posArray (mode.prevSize - p) (posArray (mode.prevSize - p - 1))) posArray) 0 0

/-! ### The arrays of each phase -/

variable {mode} {nnz posArray : ℕ → ℕ}

theorem foldl_getSeqInsertEdge (n : ℕ) {p : ℕ} (hp : p ≤ n) :
    (List.range n).foldl (getSeqInsertEdge nnz) (getSeqInitEdges posArray) p = segmentStart nnz p := by
  induction n generalizing p with
  | zero =>
    obtain rfl := Nat.le_zero.mp hp
    simp [getSeqInitEdges]
  | succ n ih =>
    rw [List.range_succ, List.foldl_append, List.foldl_cons, List.foldl_nil, getSeqInsertEdge]
    rcases hp.lt_or_eq with hlt | rfl
    · rw [Function.update_of_ne (by omega), ih (by omega)]
    · rw [Function.update_self, ih (Nat.le_refl n), segmentStart_succ]

theorem insertEdges_eq (mode : CompressedMode) (nnz posArray : ℕ → ℕ) {p : ℕ} (hp : p ≤ mode.prevSize) :
    mode.insertEdges nnz posArray p = segmentStart nnz p := foldl_getSeqInsertEdge mode.prevSize hp

/-- The insertions take the positions that the cursors hand out. -/
theorem insertAll_eq (insertions : List (ℕ × ℤ)) (arrays : LevelArrays) :
    (mode.insertAll insertions arrays).1 = (handOut (insertions.map Prod.fst) arrays.posArray).1 ∧
      (mode.insertAll insertions arrays).2.posArray = (handOut (insertions.map Prod.fst) arrays.posArray).2 := by
  induction insertions generalizing arrays with
  | nil => exact ⟨rfl, rfl⟩
  | cons x insertions ih =>
    obtain ⟨hpositions, hcursor⟩ := ih (mode.getInsertCoord (arrays.posArray x.1) x.2 (getYieldPos x.1 arrays).2)
    exact ⟨congrArg (arrays.posArray x.1 :: ·) hpositions, hcursor⟩

theorem insertAll_crdArray_frame {insertions : List (ℕ × ℤ)} {arrays : LevelArrays} {q : ℕ}
    (h : q ∉ (mode.insertAll insertions arrays).1) :
    (mode.insertAll insertions arrays).2.crdArray (q * mode.numModes) = arrays.crdArray (q * mode.numModes) := by
  induction insertions generalizing arrays with
  | nil => rfl
  | cons x insertions ih =>
    obtain ⟨hne, hnot⟩ := not_or.mp (mt List.mem_cons.mpr h)
    refine (ih hnot).trans (Function.update_of_ne (fun heq => hne ?_) _ _)
    exact Nat.eq_of_mul_eq_mul_right mode.numModes_pos heq

/-- The coordinates are at the positions of their insertions. -/
theorem insertAll_crdArray {insertions : List (ℕ × ℤ)} {arrays : LevelArrays}
    (hnodup : (mode.insertAll insertions arrays).1.Nodup) {x : ℕ × ℤ} {q : ℕ}
    (hx : (x, q) ∈ insertions.zip (mode.insertAll insertions arrays).1) :
    (mode.insertAll insertions arrays).2.crdArray (q * mode.numModes) = x.2 := by
  induction insertions generalizing arrays with
  | nil => cases hx
  | cons y insertions ih =>
    obtain ⟨hnot, hnodup⟩ := List.nodup_cons.mp hnodup
    rcases List.mem_cons.mp hx with heq | hx
    · obtain ⟨rfl, rfl⟩ := Prod.mk.inj heq
      exact (insertAll_crdArray_frame hnot).trans (Function.update_self _ _ _)
    · exact ih hnodup hx

/-- After `n` steps of the loop the last `n` entries are those of the parents before. -/
theorem foldl_shift (size : ℕ) (posArray : ℕ → ℕ) {n : ℕ} (hn : n ≤ size) (p : ℕ) :
    (List.range n).foldl (fun posArray p => Function.update posArray (size - p) (posArray (size - p - 1))) posArray p =
      if size - n < p ∧ p ≤ size then posArray (p - 1) else posArray p := by
  induction n generalizing p with
  | zero => rw [List.range_zero, List.foldl_nil, if_neg (by omega)]
  | succ n ih =>
    rw [List.range_succ, List.foldl_append, List.foldl_cons, List.foldl_nil, ih (by omega), Function.update_apply]
    by_cases h : p = size - n
    · rw [if_pos h, if_neg (by omega), if_pos (by omega), h]
    · rw [if_neg h, ih (by omega)]
      exact if_congr (by omega) rfl rfl

theorem getFinalizeYieldPos_zero (posArray : ℕ → ℕ) : mode.getFinalizeYieldPos posArray 0 = 0 := Function.update_self _ _ _

theorem getFinalizeYieldPos_succ (posArray : ℕ → ℕ) {p : ℕ} (hp : p < mode.prevSize) :
    mode.getFinalizeYieldPos posArray (p + 1) = posArray p := by
  rw [getFinalizeYieldPos, Function.update_of_ne (Nat.succ_ne_zero p), foldl_shift mode.prevSize posArray (Nat.le_refl _),
    if_pos (by omega), Nat.succ_sub_one]

end CompressedMode

/-! ### Insertion -/

/-- The insertions fill the segments of their parents, and the position array is what it was. -/
structure FillsSegments (mode : CompressedMode) (counts : ℕ → ℕ) (insertions : List (ℕ × ℤ)) (arrays : LevelArrays) :
    Prop where
  distinct : (mode.insertAll insertions arrays).1.Nodup
  fills : ∀ p < mode.prevSize, ∀ q, (p, q) ∈ (insertions.map Prod.fst).zip (mode.insertAll insertions arrays).1 ↔
    arrays.posArray p ≤ q ∧ q < arrays.posArray (p + 1)
  coords : ∀ x q, (x, q) ∈ insertions.zip (mode.insertAll insertions arrays).1 →
    (mode.insertAll insertions arrays).2.crdArray (q * mode.numModes) = x.2
  finalized : ∀ p ≤ mode.prevSize,
    mode.getFinalizeYieldPos (mode.insertAll insertions arrays).2.posArray p = segmentStart counts p

/-- Into arrays whose positions are the prefix sums of the counts. -/
theorem fillsSegments_of_starts {mode : CompressedMode} {counts : ℕ → ℕ} {insertions : List (ℕ × ℤ)} {arrays : LevelArrays}
    (hstart : ∀ p ≤ mode.prevSize, arrays.posArray p = segmentStart counts p)
    (hparent : ∀ x ∈ insertions, x.1 < mode.prevSize)
    (hcount : ∀ p < mode.prevSize, (insertions.map Prod.fst).count p = counts p) :
    FillsSegments mode counts insertions arrays := by
  obtain ⟨hpositions, hcursor⟩ := mode.insertAll_eq insertions arrays
  have hmem : ∀ p ∈ insertions.map Prod.fst, p < mode.prevSize := fun p hp => by
    obtain ⟨x, hx, rfl⟩ := List.mem_map.mp hp
    exact hparent x hx
  obtain ⟨hnodup, hfills⟩ := handOut_fills (fun p hp => hstart p hp.le) hmem hcount
  rw [← hpositions] at hnodup
  refine ⟨hnodup, fun p hp q => ?_, fun x q hx => CompressedMode.insertAll_crdArray hnodup hx, fun p hp => ?_⟩
  · rw [hpositions, hstart p hp.le, hstart (p + 1) hp]
    exact hfills p hp q
  · cases p with
    | zero => rw [CompressedMode.getFinalizeYieldPos_zero, segmentStart_zero]
    | succ p =>
      rw [CompressedMode.getFinalizeYieldPos_succ _ hp, hcursor, handOut_cursor, hstart p (Nat.le_of_succ_le hp),
        hcount p hp, segmentStart_succ]

end Lower
end Taco
