import Taco.Lower.MergeLattice

/-! What the operations on lattices do to the points of dense and compressed operands. -/

namespace Taco
namespace Lower

variable {V : Type*}

/-! ### Iterators -/

def AccessNode.isCompressed : AccessNode V → Bool
  | compressed .. => true
  | _ => false

def AccessNode.isDense : AccessNode V → Bool
  | dense .. => true
  | _ => false

namespace Iterator

/-- The iterators that are merged: those of the dimension, of compressed levels and of their index sets. -/
inductive Merged (nodes : ℕ → AccessNode V) : Iterator → Prop
  | dimension : Merged nodes .dimension
  | level {node : ℕ} (h : (nodes node).isCompressed = true) : Merged nodes (.level node)
  | indexSet {node : ℕ} (h : (nodes node).isCompressed = true) : Merged nodes (.indexSet node)

variable {nodes : ℕ → AccessNode V} {it : Iterator}

@[simp] theorem isDimensionIterator_iff : it.isDimensionIterator = true ↔ it = .dimension := by
  cases it <;> simp [isDimensionIterator]

@[simp] theorem isDimensionIterator_eq_false : it.isDimensionIterator = false ↔ it ≠ .dimension := by
  rw [← Bool.not_eq_true, isDimensionIterator_iff]

theorem getModeFormat_of_isCompressed {node : ℕ} (h : (nodes node).isCompressed = true) :
    (nodes node).getModeFormat = some .compressed := by
  cases hnode : nodes node <;> simp_all [AccessNode.isCompressed, AccessNode.getModeFormat]

theorem Merged.isFull (h : Merged nodes it) : it.isFull nodes = it.isDimensionIterator := by
  cases h with
  | dimension => rfl
  | level h => simp [Iterator.isFull, isDimensionIterator, getModeFormat, getModeFormat_of_isCompressed h, ModeFormat.isFull]
  | indexSet h => rfl

theorem Merged.isOrdered (h : Merged nodes it) : it.isOrdered nodes = true := by
  cases h with
  | dimension => rfl
  | level h => simp [Iterator.isOrdered, getModeFormat, getModeFormat_of_isCompressed h, ModeFormat.isOrdered]
  | indexSet h => rfl

theorem Merged.hasLocate (h : Merged nodes it) : it.hasLocate nodes = false := by
  cases h with
  | dimension => rfl
  | level h => simp [Iterator.hasLocate, getModeFormat, getModeFormat_of_isCompressed h, ModeFormat.hasLocate]
  | indexSet h => rfl

theorem Merged.hasPosIter (h : Merged nodes it) : it.hasPosIter nodes = !it.isDimensionIterator := by
  cases h with
  | dimension => rfl
  | level h => simp [Iterator.hasPosIter, isDimensionIterator, getModeFormat, getModeFormat_of_isCompressed h,
      ModeFormat.hasCoordPosIter]
  | indexSet h => rfl

theorem any_isDimensionIterator {iterators : List Iterator} :
    iterators.any isDimensionIterator = decide (.dimension ∈ iterators) := by
  rw [Bool.eq_iff_iff, List.any_eq_true, decide_eq_true_eq]
  simp

/-- The access of the iterator is present. -/
def present (here : ℕ → Bool) (it : Iterator) : Bool := it.modeAccess.all here

@[simp] theorem present_dimension (here : ℕ → Bool) : present here .dimension = true := rfl
@[simp] theorem present_level (here : ℕ → Bool) (node : ℕ) : present here (.level node) = here node := rfl
@[simp] theorem present_indexSet (here : ℕ → Bool) (node : ℕ) : present here (.indexSet node) = here node := rfl

end Iterator

/-! ### Points -/

namespace MergePoint

/-- All accesses of the point are present. -/
def fits (here : ℕ → Bool) (point : MergePoint) : Bool := point.iterators.all (Iterator.present here)

/-- The access is merged at the point. -/
def keeps (point : MergePoint) (node : ℕ) : Bool := point.iterators.contains (.level node)

theorem fits_iff {here : ℕ → Bool} {point : MergePoint} :
    point.fits here = true ↔ ∀ it ∈ point.iterators, it.present here = true := List.all_eq_true

@[simp] theorem keeps_iff {point : MergePoint} {node : ℕ} : point.keeps node = true ↔ .level node ∈ point.iterators := by
  simp [keeps]

theorem fits_mono {here here' : ℕ → Bool} {point : MergePoint} (h : point.fits here = true)
    (hle : ∀ node, here node = true → here' node = true) : point.fits here' = true := by
  refine fits_iff.mpr fun it hit => ?_
  have hpresent := fits_iff.mp h it hit
  cases it with
  | dimension => rfl
  | level node => exact hle node hpresent
  | indexSet node => exact hle node hpresent

theorem fits_congr {here : ℕ → Bool} {point other : MergePoint} (h : ∀ it, it ∈ point.iterators ↔ it ∈ other.iterators) :
    point.fits here = other.fits here := by
  rw [Bool.eq_iff_iff, fits_iff, fits_iff]
  exact forall_congr' fun it => by rw [h]

end MergePoint

namespace MergeLatticeBuilder

/-! ### Pairs of points -/

theorem mem_deduplicateDimensionIterators {it : Iterator} : ∀ {iterators : List Iterator},
    it ∈ deduplicateDimensionIterators iterators ↔ it ∈ iterators
  | [] => Iff.rfl
  | it' :: iterators => by
    rw [deduplicateDimensionIterators]
    split_ifs with h
    · rw [Iterator.isDimensionIterator_iff] at h
      subst h
      by_cases hit : it = .dimension <;> simp [hit]
    · rw [List.mem_cons, List.mem_cons, mem_deduplicateDimensionIterators]

theorem nodup_deduplicateDimensionIterators : ∀ {iterators : List Iterator},
    (iterators.filter fun it => !it.isDimensionIterator).Nodup → (deduplicateDimensionIterators iterators).Nodup
  | [], _ => List.nodup_nil
  | it :: iterators, h => by
    rw [deduplicateDimensionIterators]
    split_ifs with hit
    · rw [List.filter_cons_of_neg (by simp [hit])] at h
      exact List.nodup_cons.mpr ⟨by simp [hit], h⟩
    · rw [List.filter_cons_of_pos (by simp [hit])] at h
      obtain ⟨hnot, hnodup⟩ := List.nodup_cons.mp h
      refine List.nodup_cons.mpr ⟨fun hmem => hnot ?_, nodup_deduplicateDimensionIterators hnodup⟩
      exact List.mem_filter.mpr ⟨mem_deduplicateDimensionIterators.mp hmem, by simp [hit]⟩

/-- The first pair that fits is the pair of the first points that fit. -/
theorem find?_pairs {left right : MergeLattice} {combine : MergePoint → MergePoint → MergePoint} {here : ℕ → Bool}
    (h : ∀ p ∈ left, ∀ q ∈ right, (combine p q).fits here = (p.fits here && q.fits here)) :
    (left.flatMap fun p => right.map fun q => combine p q).find? (MergePoint.fits here) =
      (left.find? (MergePoint.fits here)).bind fun p => (right.find? (MergePoint.fits here)).map (combine p) := by
  induction left with
  | nil => rfl
  | cons p left ih =>
    have hrest := ih fun p hp => h p (List.mem_cons_of_mem _ hp)
    rw [List.flatMap_cons, List.find?_append, hrest, List.find?_map, List.find?_cons]
    cases hp : p.fits here with
    | true =>
      have hright : right.find? (MergePoint.fits here ∘ fun q => combine p q) = right.find? (MergePoint.fits here) :=
        List.find?_congr fun q hq => by
          simp only [Function.comp]
          rw [h p List.mem_cons_self q hq, hp, Bool.true_and]
      rw [hright]
      cases right.find? (MergePoint.fits here) <;> simp
    | false =>
      have hright : right.find? (MergePoint.fits here ∘ fun q => combine p q) = none :=
        List.find?_eq_none.mpr fun q hq => by simp [h p List.mem_cons_self q hq, hp]
      rw [hright]
      simp

/-! ### Pruning -/

variable {nodes : ℕ → AccessNode V}

theorem insertDimensionIteratorIfNotOrdered_eq {points : List MergePoint}
    (h : ∀ p ∈ points, ∀ it ∈ p.iterators, it.Merged nodes) : insertDimensionIteratorIfNotOrdered nodes points = points := by
  rw [insertDimensionIteratorIfNotOrdered]
  conv_rhs => rw [← List.map_id points]
  refine List.map_congr_left fun p hp => if_neg ?_
  have hordered : (p.iterators.any fun it => !it.isOrdered nodes) = false :=
    List.any_eq_false.mpr fun it hit => by simp [(h p hp it hit).isOrdered]
  simp [hordered]

theorem moveLocateSubsetIteratorsToLocateSet_eq {points : List MergePoint}
    (h : ∀ p ∈ points, ∀ it ∈ p.iterators, it.Merged nodes) : moveLocateSubsetIteratorsToLocateSet nodes points = points := by
  rw [moveLocateSubsetIteratorsToLocateSet]
  split
  · rfl
  · conv_rhs => rw [← List.map_id points]
    refine List.map_congr_left fun p hp => ?_
    have hall : ∀ firstFull, (p.iterators.filter fun it => !(it.hasLocate nodes && it != firstFull)) = p.iterators :=
      fun _ => List.filter_eq_self.mpr fun it hit => by simp [(h p hp it hit).hasLocate]
    have hnone : ∀ firstFull, (p.iterators.filter fun it => it.hasLocate nodes && it != firstFull) = [] :=
      fun _ => List.filter_eq_nil_iff.mpr fun it hit => by simp [(h p hp it hit).hasLocate]
    rw [hall, hnone, List.append_nil, id]

/-- The points with a dimension iterator stay if the first point has one, else all do. -/
theorem removePointsThatLackFullIterators_eq {points : List MergePoint}
    (h : ∀ p ∈ points, ∀ it ∈ p.iterators, it.Merged nodes) : removePointsThatLackFullIterators nodes points =
      points.filter fun p => decide (.dimension ∈ MergeLattice.iterators points → .dimension ∈ p.iterators) := by
  rw [removePointsThatLackFullIterators]
  refine List.filter_congr fun p _ => ?_
  rw [Bool.eq_iff_iff, List.all_eq_true, decide_eq_true_eq]
  have hfull : ∀ it ∈ MergeLattice.iterators points, it.isFull nodes = true ↔ it = .dimension := by
    intro it hit
    cases hpoints : points with
    | nil => simp [hpoints, MergeLattice.iterators] at hit
    | cons first rest =>
      simp only [hpoints, MergeLattice.iterators, List.head?_cons, Option.map_some, Option.getD_some] at hit
      rw [(h first (hpoints ▸ List.mem_cons_self) it hit).isFull, Iterator.isDimensionIterator_iff]
  constructor
  · intro hall hdim
    simpa using hall .dimension (List.mem_filter.mpr ⟨hdim, (hfull _ hdim).mpr rfl⟩)
  · intro hdim it hit
    obtain ⟨hit, hisFull⟩ := List.mem_filter.mp hit
    obtain rfl := (hfull it hit).mp hisFull
    simpa using hdim hit

theorem identicalIterators_iff {p q : MergePoint} :
    identicalIterators p q = true ↔ ∀ it, it ∈ p.iterators ↔ it ∈ q.iterators := by
  simp only [identicalIterators, Bool.and_eq_true, List.all_eq_true, List.contains_iff_mem]
  exact ⟨fun h it => ⟨h.1 it, h.2 it⟩, fun h => ⟨fun it => (h it).mp, fun it => (h it).mpr⟩⟩

/-- The points that are kept differ from those before them. -/
theorem mem_removePointsWithIdenticalIterators {p : MergePoint} : ∀ {points sets : List MergePoint},
    p ∈ removePointsWithIdenticalIterators sets points → p ∈ points ∧ ∀ q ∈ sets, identicalIterators p q = false
  | [], _, h => by cases h
  | point :: points, sets, h => by
    rw [removePointsWithIdenticalIterators] at h
    split_ifs at h with hany
    · obtain ⟨hp, hsets⟩ := mem_removePointsWithIdenticalIterators h
      exact ⟨List.mem_cons_of_mem _ hp, hsets⟩
    · rcases List.mem_cons.mp h with rfl | h
      · rw [List.any_eq_true] at hany
        exact ⟨List.mem_cons_self, fun q hq => by simpa using fun hid => hany ⟨q, hq, hid⟩⟩
      · obtain ⟨hp, hsets⟩ := mem_removePointsWithIdenticalIterators h
        exact ⟨List.mem_cons_of_mem _ hp, fun q hq => hsets q (List.mem_cons_of_mem _ hq)⟩

/-- A point that is kept is one of the first points, or it differs from all of them. -/
theorem mem_removePointsWithIdenticalIterators_append {p : MergePoint} : ∀ {points points' sets : List MergePoint},
    p ∈ removePointsWithIdenticalIterators sets (points ++ points') →
      p ∈ points ∨ p ∈ points' ∧ ∀ q ∈ points, identicalIterators p q = false
  | [], _, _, h => Or.inr ⟨(mem_removePointsWithIdenticalIterators h).1, by simp⟩
  | point :: points, _, sets, h => by
    rw [List.cons_append, removePointsWithIdenticalIterators] at h
    split_ifs at h with hany
    · refine (mem_removePointsWithIdenticalIterators_append h).imp (List.mem_cons_of_mem _) ?_
      refine And.imp_right fun hpoints q hq => ?_
      rcases List.mem_cons.mp hq with rfl | hq
      · -- A point that is dropped has the iterators of one that is kept.
        obtain ⟨other, hother, hid⟩ := List.any_eq_true.mp hany
        by_contra hne
        rw [Bool.not_eq_false, identicalIterators_iff] at hne
        have hp := (mem_removePointsWithIdenticalIterators h).2 other hother
        rw [identicalIterators_iff] at hid
        rw [identicalIterators_iff.mpr fun it => (hne it).trans (hid it)] at hp
        cases hp
      · exact hpoints q hq
    · rcases List.mem_cons.mp h with rfl | h
      · exact Or.inl List.mem_cons_self
      · have hp := (mem_removePointsWithIdenticalIterators h).2 point List.mem_cons_self
        refine (mem_removePointsWithIdenticalIterators_append h).imp (List.mem_cons_of_mem _) ?_
        refine And.imp_right fun hpoints q hq => ?_
        rcases List.mem_cons.mp hq with rfl | hq
        · exact hp
        · exact hpoints q hq

/-- The first point that fits is kept. -/
theorem find?_removePointsWithIdenticalIterators {here : ℕ → Bool} : ∀ {points sets : List MergePoint},
    (∀ q ∈ sets, q.fits here = false) →
      (removePointsWithIdenticalIterators sets points).find? (MergePoint.fits here) = points.find? (MergePoint.fits here)
  | [], _, _ => rfl
  | point :: points, sets, hsets => by
    rw [removePointsWithIdenticalIterators]
    split_ifs with hany
    · obtain ⟨other, hother, hid⟩ := List.any_eq_true.mp hany
      have hfits : point.fits here = false :=
        (MergePoint.fits_congr (identicalIterators_iff.mp hid)).trans (hsets other hother)
      rw [find?_removePointsWithIdenticalIterators hsets, List.find?_cons_of_neg (by simp [hfits])]
    · by_cases hfits : point.fits here = true
      · rw [List.find?_cons_of_pos hfits, List.find?_cons_of_pos hfits]
      · rw [List.find?_cons_of_neg hfits, List.find?_cons_of_neg hfits]
        refine find?_removePointsWithIdenticalIterators fun q hq => ?_
        rcases List.mem_cons.mp hq with rfl | hq
        · simpa using hfits
        · exact hsets q hq

end MergeLatticeBuilder

end Lower
end Taco
