import Mathlib.Tactic

/-! Position loops over a compressed level that is accessed through a window. -/

namespace Taco
namespace Lower

/-! ### Windows -/

/-- The coordinates from `lo` to `hi` with a stride. -/
structure Window where
  lo : ℤ
  hi : ℤ
  stride : ℤ
  lo_nonneg : 0 ≤ lo
  lo_le_hi : lo ≤ hi
  stride_pos : 0 < stride

namespace Window

variable (w : Window)

/-- Integer division of the emitted code rounds towards zero. -/
def getWindowSize : ℤ := (w.hi - w.lo).tdiv w.stride

def isStrided : Bool := w.stride != 1

def projectWindowedPositionToCanonicalSpace (expr : ℤ) : ℤ := (expr - w.lo).tdiv w.stride

/-- The test behind which the loop continues with the next position. -/
def strideBoundsGuard (access : ℤ) : Bool := (access - w.lo).tmod w.stride != 0

/-- The test behind which the loop breaks. -/
def upperBoundGuardForWindowPosition (access : ℤ) : Bool := (w.hi - w.lo).tdiv w.stride ≤ access

/-- A coordinate of the slice. -/
def Contains (c : ℤ) : Prop := w.lo ≤ c ∧ w.stride ∣ c - w.lo ∧ (c - w.lo) / w.stride < w.getWindowSize

instance (c : ℤ) : Decidable (w.Contains c) := inferInstanceAs (Decidable (_ ∧ _ ∧ _))

end Window

/-! ### Search -/

/-- The loop of `taco_binarySearchAfter`: the value at `lowerBound` is less than the target, that at `upperBound` is not. -/
def searchAfter (array : ℕ → ℤ) (target : ℤ) (lowerBound upperBound : ℕ) : ℕ :=
  if 1 < upperBound - lowerBound then
    let mid := (upperBound + lowerBound) / 2
    if array mid < target then searchAfter array target mid upperBound
    else if target < array mid then searchAfter array target lowerBound mid
    else mid
  else
    upperBound
  termination_by upperBound - lowerBound

/-- The first position of `[arrayStart, arrayEnd)` with a value of at least `target`. -/
def taco_binarySearchAfter (array : ℕ → ℤ) (arrayStart arrayEnd : ℕ) (target : ℤ) : ℕ :=
  if target ≤ array arrayStart then arrayStart else searchAfter array target arrayStart arrayEnd

/-! ### Loops -/

inductive ParallelUnit where
  | notParallel | defaultUnit | gpuBlock | gpuWarp | gpuThread | cpuThread | cpuVector | cpuThreadGroupReduction
  | gpuBlockReduction | gpuWarpReduction
  deriving DecidableEq

/-- The arrays of a compressed level; the children of the parent position `p` are those of `[pos p, pos (p + 1))`. -/
structure CompressedLevel where
  pos : ℕ → ℕ
  crd : ℕ → ℤ
  pos_mono : Monotone pos

def CompressedLevel.posBounds (level : CompressedLevel) (parentPos : ℕ) : ℕ × ℕ := (level.pos parentPos, level.pos (parentPos + 1))

/-- The iterator above a level; a parent that is not unique has several positions with one coordinate, up to
    `segendVar`. -/
structure ParentIterator where
  isRoot : Bool
  isUnique : Bool
  posVar : ℕ
  segendVar : ℕ

/-- A windowed iterator over a compressed level. -/
structure WindowedIterator where
  level : CompressedLevel
  getParent : ParentIterator
  window : Window

namespace WindowedIterator

variable (iterator : WindowedIterator)

def searchForStartOfWindowPosition (start stop : ℕ) : ℕ :=
  taco_binarySearchAfter iterator.level.crd start stop iterator.window.lo

def searchForEndOfWindowPosition (start stop : ℕ) : ℕ :=
  taco_binarySearchAfter iterator.level.crd start stop iterator.window.hi

/-- One segment below the root or a unique parent. -/
def unchained : Bool := iterator.getParent.isRoot || iterator.getParent.isUnique

/-- The positions of the level below the parent; those below a parent with duplicates are chained. -/
def segment : ℕ × ℕ :=
  if iterator.unchained then iterator.level.posBounds iterator.getParent.posVar
  else
    ((iterator.level.posBounds iterator.getParent.posVar).1, (iterator.level.posBounds (iterator.getParent.segendVar - 1)).2)

/-- The bounds of the position loop. The ends of the window are searched in a segment that is not chained, the upper one
    only where the loop may not break. -/
def positionBounds (parallelUnit : ParallelUnit) : ℕ × ℕ :=
  let bounds := iterator.segment
  if iterator.unchained then
    (iterator.searchForStartOfWindowPosition bounds.1 bounds.2,
      if parallelUnit = .cpuThread then iterator.searchForEndOfWindowPosition bounds.1 bounds.2 else bounds.2)
  else
    bounds

/-- The positions at which the body is executed, with the coordinates that it recovers. -/
def positionLoop (parallelUnit : ParallelUnit) : List ℕ → List (ℕ × ℤ)
  | [] => []
  | posVar :: positions =>
    let coordinateArray := iterator.level.crd posVar
    if iterator.window.isStrided && iterator.window.strideBoundsGuard coordinateArray then
      positionLoop parallelUnit positions
    else
      let coordinate := iterator.window.projectWindowedPositionToCanonicalSpace coordinateArray
      if parallelUnit ≠ .cpuThread ∧ iterator.window.upperBoundGuardForWindowPosition coordinate then []
      else (posVar, coordinate) :: positionLoop parallelUnit positions

/-- The loop that is emitted for a forall over an underived coordinate variable. -/
def lowerForallPosition (parallelUnit : ParallelUnit) : List (ℕ × ℤ) :=
  let bounds := iterator.positionBounds parallelUnit
  iterator.positionLoop parallelUnit (List.range' bounds.1 (bounds.2 - bounds.1))

/-- The stored coordinates of the window, in order, as coordinates of the slice. -/
def slice : List (ℕ × ℤ) :=
  let bounds := iterator.segment
  ((List.range' bounds.1 (bounds.2 - bounds.1)).filter fun p => iterator.window.Contains (iterator.level.crd p)).map fun p =>
    (p, (iterator.level.crd p - iterator.window.lo) / iterator.window.stride)

end WindowedIterator

/-! ### The search splits the segment -/

section

variable {array : ℕ → ℤ} {target : ℤ} {start stop : ℕ}

/-- The positions before `r` have values less than the target, those from `r` on do not. -/
structure SplitsAt (array : ℕ → ℤ) (target : ℤ) (start stop r : ℕ) : Prop where
  start_le : start ≤ r
  le_stop : r ≤ stop
  below : ∀ p, start ≤ p → p < r → array p < target
  above : ∀ p, r ≤ p → p < stop → target ≤ array p

theorem searchAfter_splitsAt (hsorted : StrictMonoOn array (Set.Ico start stop)) (lower upper : ℕ) (hlower : start ≤ lower)
    (hlt : lower < upper) (hupper : upper ≤ stop) (hbelow : array lower < target)
    (habove : ∀ p, upper ≤ p → p < stop → target ≤ array p) :
    SplitsAt array target start stop (searchAfter array target lower upper) := by
  have hlast : ∀ p, start ≤ p → p ≤ lower → array p < target := fun p hp hle =>
    lt_of_le_of_lt (hsorted.monotoneOn ⟨hp, by omega⟩ ⟨hlower, by omega⟩ hle) hbelow
  rw [searchAfter]
  split_ifs with hgap
  · have hmid : lower < (upper + lower) / 2 ∧ (upper + lower) / 2 < upper := by omega
    have hmem : (upper + lower) / 2 ∈ Set.Ico start stop := ⟨by omega, by omega⟩
    dsimp only
    split_ifs with hless hgreater
    · exact searchAfter_splitsAt hsorted _ _ (by omega) hmid.2 hupper hless habove
    · refine searchAfter_splitsAt hsorted _ _ hlower hmid.1 (by omega) hbelow fun p hp hstop => ?_
      exact hgreater.le.trans (hsorted.monotoneOn hmem ⟨by omega, hstop⟩ hp)
    · have heq : array ((upper + lower) / 2) = target := le_antisymm (not_lt.mp hgreater) (not_lt.mp hless)
      refine ⟨by omega, by omega, fun p hp hlt => ?_, fun p hp hstop => ?_⟩
      · exact heq ▸ hsorted ⟨hp, by omega⟩ hmem hlt
      · exact heq ▸ hsorted.monotoneOn hmem ⟨by omega, hstop⟩ hp
  · obtain rfl : upper = lower + 1 := by omega
    exact ⟨by omega, hupper, fun p hp hlt => hlast p hp (Nat.lt_succ_iff.mp hlt), habove⟩
  termination_by upper - lower

theorem taco_binarySearchAfter_splitsAt (hle : start ≤ stop) (hsorted : StrictMonoOn array (Set.Ico start stop)) (target : ℤ) :
    SplitsAt array target start stop (taco_binarySearchAfter array start stop target) := by
  rw [taco_binarySearchAfter]
  split_ifs with hfirst
  · refine ⟨Nat.le_refl _, hle, fun p hp hlt => absurd hlt (not_lt.mpr hp), fun p hp hstop => ?_⟩
    exact hfirst.trans (hsorted.monotoneOn ⟨Nat.le_refl _, by omega⟩ ⟨hp, hstop⟩ hp)
  · rcases hle.eq_or_lt with rfl | hlt
    · rw [searchAfter, if_neg (by omega)]
      exact ⟨Nat.le_refl _, Nat.le_refl _, fun p hp hlt => absurd hlt (not_lt.mpr hp),
        fun p hp hstop => absurd hstop (not_lt.mpr hp)⟩
    · exact searchAfter_splitsAt hsorted _ _ (Nat.le_refl _) hlt (Nat.le_refl _) (not_le.mp hfirst)
        fun p hp hstop => absurd hstop (not_lt.mpr hp)

/-- The positions from the start of the window on. -/
theorem SplitsAt.range_eq {r : ℕ} (h : SplitsAt array target start stop r) :
    List.range' r (stop - r) = (List.range' start (stop - start)).filter fun p => target ≤ array p := by
  have hsplit : List.range' start (stop - start) = List.range' start (r - start) ++ List.range' r (stop - r) := by
    have h₁ := h.start_le
    have h₂ := h.le_stop
    rw [show stop - start = (r - start) + (stop - r) by omega, ← List.range'_append_1, Nat.add_sub_of_le h₁]
  have hfirst : (List.range' start (r - start)).filter (fun p => decide (target ≤ array p)) = [] := by
    refine List.filter_eq_nil_iff.mpr fun p hp => ?_
    rw [List.mem_range'_1] at hp
    rw [decide_eq_true_eq, not_le]
    exact h.below p hp.1 (by have := h.start_le; omega)
  have hlast : (List.range' r (stop - r)).filter (fun p => decide (target ≤ array p)) = List.range' r (stop - r) := by
    refine List.filter_eq_self.mpr fun p hp => ?_
    rw [List.mem_range'_1] at hp
    exact decide_eq_true (h.above p hp.1 (by omega))
  rw [hsplit, List.filter_append, hfirst, hlast, List.nil_append]

/-- The positions before the end of the window. -/
theorem SplitsAt.range_before_eq {r : ℕ} (h : SplitsAt array target start stop r) :
    List.range' start (r - start) = (List.range' start (stop - start)).filter fun p => array p < target := by
  have hsplit : List.range' start (stop - start) = List.range' start (r - start) ++ List.range' r (stop - r) := by
    have h₁ := h.start_le
    have h₂ := h.le_stop
    rw [show stop - start = (r - start) + (stop - r) by omega, ← List.range'_append_1, Nat.add_sub_of_le h₁]
  have hfirst : (List.range' start (r - start)).filter (fun p => decide (array p < target)) = List.range' start (r - start) := by
    refine List.filter_eq_self.mpr fun p hp => ?_
    rw [List.mem_range'_1] at hp
    exact decide_eq_true (h.below p hp.1 (by have := h.start_le; omega))
  have hlast : (List.range' r (stop - r)).filter (fun p => decide (array p < target)) = [] := by
    refine List.filter_eq_nil_iff.mpr fun p hp => ?_
    rw [List.mem_range'_1] at hp
    rw [decide_eq_true_eq, not_lt]
    exact h.above p hp.1 (by omega)
  rw [hsplit, List.filter_append, hfirst, hlast, List.append_nil]

end

/-! ### The guards filter the positions -/

namespace Window

variable (w : Window)

theorem strideBoundsGuard_iff (c : ℤ) : (w.isStrided && w.strideBoundsGuard c) = false ↔ w.stride ∣ c - w.lo := by
  rw [Bool.and_eq_false_iff, isStrided, strideBoundsGuard, bne_eq_false_iff_eq, bne_eq_false_iff_eq,
    Int.dvd_iff_tmod_eq_zero]
  refine or_iff_right_of_imp fun h => ?_
  rw [h, Int.tmod_one]

theorem projectWindowedPositionToCanonicalSpace_eq {c : ℤ} (h : w.lo ≤ c) :
    w.projectWindowedPositionToCanonicalSpace c = (c - w.lo) / w.stride :=
  Int.tdiv_eq_ediv_of_nonneg (Int.sub_nonneg_of_le h)

theorem projectWindowedPositionToCanonicalSpace_mono {c c' : ℤ} (h : c ≤ c') :
    w.projectWindowedPositionToCanonicalSpace c ≤ w.projectWindowedPositionToCanonicalSpace c' :=
  Int.tdiv_le_tdiv w.stride_pos (by omega)

theorem getWindowSize_eq : w.getWindowSize = (w.hi - w.lo) / w.stride :=
  Int.tdiv_eq_ediv_of_nonneg (Int.sub_nonneg_of_le w.lo_le_hi)

/-- A coordinate before the end of the window, on the stride, is one of the slice unless it is the first one after it. -/
theorem contains_iff {c : ℤ} (hlo : w.lo ≤ c) (hdvd : w.stride ∣ c - w.lo) :
    (c < w.hi ↔ w.Contains c) ↔ (c = w.lo + w.getWindowSize * w.stride → w.hi ≤ c) := by
  obtain ⟨k, hk⟩ := hdvd
  have hs := w.stride_pos
  have hdiv : (c - w.lo) / w.stride = k := by rw [hk, Int.mul_ediv_cancel_left _ hs.ne']
  have hcontains : w.Contains c ↔ w.stride * (k + 1) ≤ w.hi - w.lo := by
    rw [Contains, hdiv, getWindowSize_eq, ← Int.add_one_le_iff, Int.le_ediv_iff_mul_le hs, Int.mul_comm]
    exact ⟨fun h => h.2.2, fun h => ⟨hlo, ⟨k, hk⟩, h⟩⟩
  have hmul : w.stride * (k + 1) = w.stride * k + w.stride := by rw [Int.mul_add, Int.mul_one]
  rw [hcontains, hmul]
  constructor
  · rintro h rfl
    by_contra hlt
    -- The slice would hold one coordinate more than its size.
    have hle : k + 1 ≤ w.getWindowSize := by
      rw [getWindowSize_eq, Int.le_ediv_iff_mul_le hs, Int.mul_comm, hmul]
      exact h.mp (not_le.mp hlt)
    have hkeq : w.stride * w.getWindowSize = w.stride * k := by rw [← hk, Int.mul_comm]; omega
    have := Int.eq_of_mul_eq_mul_left hs.ne' hkeq
    omega
  · intro h
    refine ⟨fun hlt => ?_, fun hle => by omega⟩
    by_contra hle
    have hsize : w.getWindowSize = k := by
      rw [getWindowSize_eq]
      refine le_antisymm (Int.lt_add_one_iff.mp (Int.ediv_lt_of_lt_mul hs ?_)) (Int.le_ediv_of_mul_le hs ?_)
      · rw [Int.mul_comm, hmul]
        omega
      · rw [Int.mul_comm]
        omega
    have hc : c = w.lo + w.getWindowSize * w.stride := by rw [hsize, Int.mul_comm, ← hk]; omega
    exact absurd (h hc) (not_le.mpr hlt)

end Window

namespace WindowedIterator

variable (iterator : WindowedIterator)

/-- A position with the coordinate that the loop recovers. -/
def recovered (posVar : ℕ) : ℕ × ℤ :=
  (posVar, iterator.window.projectWindowedPositionToCanonicalSpace (iterator.level.crd posVar))

/-- The position has a coordinate on the stride. -/
def OnStride (posVar : ℕ) : Prop := iterator.window.stride ∣ iterator.level.crd posVar - iterator.window.lo

instance (posVar : ℕ) : Decidable (iterator.OnStride posVar) := inferInstanceAs (Decidable (_ ∣ _))

/-- The positions of the segment that fulfil a condition, with the coordinates that the loop recovers. -/
def executed (P : ℕ → Prop) [DecidablePred P] : List (ℕ × ℤ) :=
  ((List.range' iterator.segment.1 (iterator.segment.2 - iterator.segment.1)).filter fun p => P p).map iterator.recovered

/-- A loop of threads executes all positions on the stride. -/
theorem positionLoop_cpuThread : ∀ positions : List ℕ, iterator.positionLoop .cpuThread positions =
    (positions.filter fun p => iterator.OnStride p).map iterator.recovered
  | [] => rfl
  | p :: ps => by
    rw [positionLoop, positionLoop_cpuThread ps]
    by_cases hstride : iterator.OnStride p
    · have hguard := (iterator.window.strideBoundsGuard_iff _).mpr hstride
      simp [hguard, hstride, recovered]
    · have hguard := mt (iterator.window.strideBoundsGuard_iff (iterator.level.crd p)).mp hstride
      rw [Bool.not_eq_false] at hguard
      simp [hguard, hstride]

/-- In a sorted segment, the positions after the one that breaks the loop are no longer in the slice. -/
theorem positionLoop_notParallel : ∀ {positions : List ℕ},
    positions.Pairwise (fun p q => iterator.level.crd p < iterator.level.crd q) →
      iterator.positionLoop .notParallel positions = (positions.filter fun p => iterator.OnStride p ∧
        iterator.window.projectWindowedPositionToCanonicalSpace (iterator.level.crd p) < iterator.window.getWindowSize).map
          iterator.recovered
  | [], _ => rfl
  | p :: ps, hsorted => by
    obtain ⟨hp, hps⟩ := List.pairwise_cons.mp hsorted
    rw [positionLoop, positionLoop_notParallel hps]
    by_cases hstride : iterator.OnStride p
    · have hguard := (iterator.window.strideBoundsGuard_iff _).mpr hstride
      by_cases hlt : iterator.window.projectWindowedPositionToCanonicalSpace (iterator.level.crd p) < iterator.window.getWindowSize
      · have hbreak : iterator.window.upperBoundGuardForWindowPosition
            (iterator.window.projectWindowedPositionToCanonicalSpace (iterator.level.crd p)) = false :=
          decide_eq_false (not_le.mpr hlt)
        simp [hguard, hstride, hbreak, hlt, recovered]
      · have hbreak : iterator.window.upperBoundGuardForWindowPosition
            (iterator.window.projectWindowedPositionToCanonicalSpace (iterator.level.crd p)) = true :=
          decide_eq_true (not_lt.mp hlt)
        have hrest : ∀ q ∈ ps, iterator.OnStride q → iterator.window.getWindowSize ≤
            iterator.window.projectWindowedPositionToCanonicalSpace (iterator.level.crd q) := fun q hq _ =>
          (not_lt.mp hlt).trans (iterator.window.projectWindowedPositionToCanonicalSpace_mono (hp q hq).le)
        simpa [hguard, hbreak, hlt] using hrest
    · have hguard := mt (iterator.window.strideBoundsGuard_iff (iterator.level.crd p)).mp hstride
      rw [Bool.not_eq_false] at hguard
      simp [hguard, hstride]

end WindowedIterator

/-- Two selections of positions agree if they select the same positions, with the same values. -/
theorem filter_map_eq_iff {α : Type} {f f' : ℕ → α} {P P' : ℕ → Prop} [DecidablePred P] [DecidablePred P'] {l : List ℕ} :
    ((l.filter fun p => P p).map fun p => (p, f p)) = ((l.filter fun p => P' p).map fun p => (p, f' p)) ↔
      ∀ p ∈ l, (P p ↔ P' p) ∧ (P p → f p = f' p) := by
  constructor
  · intro h p hp
    have hmem : ∀ x, (p, x) ∈ ((l.filter fun p => P p).map fun p => (p, f p)) ↔
        (p, x) ∈ ((l.filter fun p => P' p).map fun p => (p, f' p)) := fun x => by rw [h]
    simp only [List.mem_map, List.mem_filter, decide_eq_true_eq, Prod.mk.injEq, ↓existsAndEq, true_and, hp] at hmem
    refine ⟨⟨fun hP => ((hmem (f p)).mp ⟨hP, rfl⟩).1, fun hP => ((hmem (f' p)).mpr ⟨hP, rfl⟩).1⟩, fun hP => ?_⟩
    exact ((hmem (f p)).mp ⟨hP, rfl⟩).2.symm
  · intro h
    have hfilter : (l.filter fun p => decide (P p)) = l.filter fun p => decide (P' p) :=
      List.filter_congr fun p hp => decide_eq_decide.mpr (h p hp).1
    rw [← hfilter]
    refine List.map_congr_left fun p hp => ?_
    obtain ⟨hp, hP⟩ := List.mem_filter.mp hp
    rw [(h p hp).2 (of_decide_eq_true hP)]

namespace WindowedIterator

variable {iterator : WindowedIterator} (hsorted : StrictMonoOn iterator.level.crd (Set.Ico iterator.segment.1 iterator.segment.2))

/-- A segment that is not chained starts before its end. -/
theorem segment_le (h : iterator.unchained = true) : iterator.segment.1 ≤ iterator.segment.2 := by
  rw [segment, if_pos h]
  exact iterator.level.pos_mono (Nat.le_succ _)

include hsorted

theorem pairwise_segment {start stop : ℕ} (hstart : iterator.segment.1 ≤ start) (hstop : stop ≤ iterator.segment.2) :
    (List.range' start (stop - start)).Pairwise fun p q => iterator.level.crd p < iterator.level.crd q := by
  refine (List.pairwise_lt_range' (s := start) (n := stop - start)).imp_of_mem fun hp hq hlt => ?_
  rw [List.mem_range'_1] at hp hq
  exact hsorted ⟨by omega, by omega⟩ ⟨by omega, by omega⟩ hlt

theorem lowerForallPosition_serial (h : iterator.unchained = true) : iterator.lowerForallPosition .notParallel =
    iterator.executed fun p => iterator.window.lo ≤ iterator.level.crd p ∧ iterator.OnStride p ∧
      iterator.window.projectWindowedPositionToCanonicalSpace (iterator.level.crd p) < iterator.window.getWindowSize := by
  have hsplit := taco_binarySearchAfter_splitsAt (segment_le h) hsorted iterator.window.lo
  have hpair := pairwise_segment hsorted hsplit.start_le (Nat.le_refl iterator.segment.2)
  rw [lowerForallPosition, positionBounds, if_pos h]
  dsimp only [searchForStartOfWindowPosition]
  rw [if_neg (by decide), iterator.positionLoop_notParallel hpair, hsplit.range_eq, List.filter_filter, executed]
  refine congrArg (List.map _) (List.filter_congr fun p _ => ?_)
  rw [← Bool.decide_and]
  exact decide_eq_decide.mpr and_comm

theorem lowerForallPosition_threads (h : iterator.unchained = true) : iterator.lowerForallPosition .cpuThread =
    iterator.executed fun p => iterator.window.lo ≤ iterator.level.crd p ∧ iterator.OnStride p ∧
      iterator.level.crd p < iterator.window.hi := by
  have hstart := taco_binarySearchAfter_splitsAt (segment_le h) hsorted iterator.window.lo
  have hstop := taco_binarySearchAfter_splitsAt (segment_le h) hsorted iterator.window.hi
  -- The window does not end before its start.
  have hle : taco_binarySearchAfter iterator.level.crd iterator.segment.1 iterator.segment.2 iterator.window.lo ≤
      taco_binarySearchAfter iterator.level.crd iterator.segment.1 iterator.segment.2 iterator.window.hi := by
    by_contra hlt
    have hp := not_le.mp hlt
    have h₁ := hstart.below _ hstop.start_le hp
    have h₂ := hstop.above _ (Nat.le_refl _) (lt_of_lt_of_le hp hstart.le_stop)
    exact absurd (iterator.window.lo_le_hi.trans h₂) (not_le.mpr h₁)
  have hrange : SplitsAt iterator.level.crd iterator.window.lo iterator.segment.1
      (taco_binarySearchAfter iterator.level.crd iterator.segment.1 iterator.segment.2 iterator.window.hi)
      (taco_binarySearchAfter iterator.level.crd iterator.segment.1 iterator.segment.2 iterator.window.lo) :=
    ⟨hstart.start_le, hle, hstart.below, fun p hp hlt => hstart.above p hp (lt_of_lt_of_le hlt hstop.le_stop)⟩
  rw [lowerForallPosition, positionBounds, if_pos h]
  dsimp only [searchForStartOfWindowPosition, searchForEndOfWindowPosition]
  rw [if_pos rfl, positionLoop_cpuThread, hrange.range_eq, hstop.range_before_eq, List.filter_filter, List.filter_filter,
    executed]
  refine congrArg (List.map _) (List.filter_congr fun p _ => ?_)
  rw [← Bool.decide_and, ← Bool.decide_and]
  exact decide_eq_decide.mpr (by tauto)

theorem lowerForallPosition_serial_chained (h : iterator.unchained = false) : iterator.lowerForallPosition .notParallel =
    iterator.executed fun p => iterator.OnStride p ∧
      iterator.window.projectWindowedPositionToCanonicalSpace (iterator.level.crd p) < iterator.window.getWindowSize := by
  have hpair := pairwise_segment hsorted (Nat.le_refl _) (Nat.le_refl _)
  rw [lowerForallPosition, positionBounds, if_neg (by rw [h]; exact Bool.false_ne_true), executed]
  exact iterator.positionLoop_notParallel hpair

omit hsorted in
theorem lowerForallPosition_threads_chained (h : iterator.unchained = false) : iterator.lowerForallPosition .cpuThread =
    iterator.executed iterator.OnStride := by
  rw [lowerForallPosition, positionBounds, if_neg (by rw [h]; exact Bool.false_ne_true), executed]
  exact iterator.positionLoop_cpuThread _

omit hsorted in
/-- The slice is executed by the loops that execute the positions of its coordinates. -/
theorem executed_eq_slice_iff {P : ℕ → Prop} [DecidablePred P] : iterator.executed P = iterator.slice ↔
    ∀ p, iterator.segment.1 ≤ p → p < iterator.segment.2 → (P p ↔ iterator.window.Contains (iterator.level.crd p)) := by
  rw [executed, slice]
  refine filter_map_eq_iff.trans ⟨fun h p hstart hstop => (h p ?_).1, fun h p hp => ?_⟩
  · rw [List.mem_range'_1]
    omega
  · rw [List.mem_range'_1] at hp
    have hP := h p hp.1 (by omega)
    exact ⟨hP, fun hp => iterator.window.projectWindowedPositionToCanonicalSpace_eq (hP.mp hp).1⟩

/-- The serial loop of a segment that is not chained is exact. -/
theorem lowerForallPosition_serial_exact (h : iterator.unchained = true) :
    iterator.lowerForallPosition .notParallel = iterator.slice := by
  rw [lowerForallPosition_serial hsorted h, executed_eq_slice_iff]
  refine fun p _ _ => and_congr_right fun hlo => and_congr_right' ?_
  rw [iterator.window.projectWindowedPositionToCanonicalSpace_eq hlo]

end WindowedIterator

/-- The serial loop and the loop of threads execute the stored coordinates of the window, in order, if and only if the
    segment does not store the first coordinate after the slice that is still in the window, and below a parent with
    duplicates no coordinate on the stride outside of the slice. -/
theorem windowedPosition_exact_iff {iterator : WindowedIterator}
    (hsorted : StrictMonoOn iterator.level.crd (Set.Ico iterator.segment.1 iterator.segment.2)) :
    (iterator.lowerForallPosition .notParallel = iterator.slice ∧ iterator.lowerForallPosition .cpuThread = iterator.slice) ↔
      ∀ p, iterator.segment.1 ≤ p → p < iterator.segment.2 →
        if iterator.unchained then
          iterator.level.crd p = iterator.window.lo + iterator.window.getWindowSize * iterator.window.stride →
            iterator.window.hi ≤ iterator.level.crd p
        else
          iterator.window.stride ∣ iterator.level.crd p - iterator.window.lo →
            iterator.window.Contains (iterator.level.crd p) := by
  cases h : iterator.unchained
  · rw [WindowedIterator.lowerForallPosition_serial_chained hsorted h,
      WindowedIterator.lowerForallPosition_threads_chained h, WindowedIterator.executed_eq_slice_iff,
      WindowedIterator.executed_eq_slice_iff]
    simp only [Bool.false_eq_true, if_false]
    constructor
    · exact fun hexact p hstart hstop hdvd => (hexact.2 p hstart hstop).mp hdvd
    · intro hslice
      refine ⟨fun p hstart hstop => ⟨fun hp => hslice p hstart hstop hp.1, fun hp => ⟨hp.2.1, ?_⟩⟩,
        fun p hstart hstop => ⟨hslice p hstart hstop, fun hp => hp.2.1⟩⟩
      rw [iterator.window.projectWindowedPositionToCanonicalSpace_eq hp.1]
      exact hp.2.2
  · rw [WindowedIterator.lowerForallPosition_threads hsorted h, WindowedIterator.executed_eq_slice_iff]
    rw [and_iff_right (WindowedIterator.lowerForallPosition_serial_exact hsorted h)]
    simp only [if_true]
    refine forall_congr' fun p => forall_congr' fun _ => forall_congr' fun _ => ?_
    by_cases hin : iterator.window.lo ≤ iterator.level.crd p ∧ iterator.window.stride ∣ iterator.level.crd p - iterator.window.lo
    · rw [← iterator.window.contains_iff hin.1 hin.2]
      exact iff_congr ⟨fun hp => hp.2.2, fun hlt => ⟨hin.1, hin.2, hlt⟩⟩ Iff.rfl
    · refine iff_of_true ⟨fun hp => absurd ⟨hp.1, hp.2.1⟩ hin, fun hp => absurd ⟨hp.1, hp.2.1⟩ hin⟩ fun hc => absurd ?_ hin
      have hnonneg : 0 ≤ iterator.window.getWindowSize * iterator.window.stride := Int.mul_nonneg
        (by rw [Window.getWindowSize_eq]
            exact Int.ediv_nonneg (Int.sub_nonneg_of_le iterator.window.lo_le_hi) iterator.window.stride_pos.le)
        iterator.window.stride_pos.le
      exact ⟨by omega, by rw [hc, add_sub_cancel_left]; exact Dvd.intro_left _ rfl⟩

/-- A vector that stores 0, 2 and 4. -/
def evens (window : Window) : WindowedIterator :=
  ⟨⟨fun p => 3 * p, fun p => 2 * p, fun _ _ h => Nat.mul_le_mul_left 3 h⟩, ⟨true, true, 0, 1⟩, window⟩

/-- A window that the stride divides. -/
theorem windowedPosition_exact_from_zero :
    (evens ⟨0, 4, 2, by decide, by decide, by decide⟩).lowerForallPosition .notParallel =
        (evens ⟨0, 4, 2, by decide, by decide, by decide⟩).slice ∧
      (evens ⟨0, 4, 2, by decide, by decide, by decide⟩).lowerForallPosition .cpuThread =
        (evens ⟨0, 4, 2, by decide, by decide, by decide⟩).slice := by
  refine (windowedPosition_exact_iff fun p _ q _ hlt => ?_).mpr fun p _ _ h => ?_
  · have h : (p : ℤ) < q := Int.ofNat_lt.mpr hlt
    show 2 * (p : ℤ) < 2 * (q : ℤ)
    omega
  · exact le_of_eq h.symm

/-- Between the threads' end of the window and the size of the slice, a coordinate of the window is left over. -/
theorem windowedPosition_past_slice :
    (evens ⟨0, 5, 2, by decide, by decide, by decide⟩).slice = [(0, 0), (1, 1)] ∧
      (evens ⟨0, 5, 2, by decide, by decide, by decide⟩).lowerForallPosition .cpuThread = [(0, 0), (1, 1), (2, 2)] := by
  decide +kernel

end Lower
end Taco
