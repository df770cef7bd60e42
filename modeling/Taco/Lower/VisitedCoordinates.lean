import Taco.Library.Traces
import Taco.Lower.Cursors
import Taco.Lower.MergeEmission

/-! The coordinates at which something is left of the expression, and its values there. -/

namespace Taco
namespace Lower

variable {V : Type}

/-! ### Components -/

namespace AccessNode

variable [Zero V] {node : AccessNode V} {k : ℤ} {pos n : ℕ}

/-- The component at a coordinate that is stored. -/
theorem Stores.component_eq (hnode : node.WellFormed n) (h : node.Stores k pos) : node.component k = node.vals pos := by
  cases node with
  | scalar val | dense level modifier vals => cases h
  | compressed level getParent modifier vals =>
    obtain ⟨hle, heq⟩ := positions_subset modifier vals hnode.1
    have hsegment : ∀ pos', pos' ∈ List.range' (level.segment getParent).1 ((level.segment getParent).2 -
        (level.segment getParent).1) ↔ pos' ∈ Set.Ico (level.segment getParent).1 (level.segment getParent).2 := fun pos' => by
      rw [List.mem_range'_1, Set.mem_Ico]
      omega
    have hpos : pos ∈ Set.Ico (level.segment getParent).1 (level.segment getParent).2 := ⟨hle.trans h.1.1, heq ▸ h.1.2⟩
    change (compressed level getParent modifier vals).expansion (modifier.coordinate k) = vals pos
    rw [expansion]
    cases hfind : (List.range' (level.segment getParent).1 ((level.segment getParent).2 - (level.segment getParent).1)).find?
        fun pos' => level.crd pos' = modifier.coordinate k with
    | none =>
      have hnot := List.find?_eq_none.mp hfind pos ((hsegment pos).mpr hpos)
      exact absurd (decide_eq_true h.2.1) hnot
    | some pos' =>
      have hmem := (hsegment pos').mp (List.mem_of_find?_eq_some hfind)
      have hcrd : level.crd pos' = modifier.coordinate k := by simpa using List.find?_some hfind
      have hsame : pos' = pos := hnode.1.injOn hmem hpos (hcrd.trans h.2.1.symm)
      rw [hsame, Option.elim_some]

omit [Zero V] in
/-- Within the dimension, the positions of the segment that have the coordinate are loaded. -/
theorem stores_of_crd {level : CompressedLevel} {getParent : ParentIterator} {modifier : IndexVarIterationModifier}
    {vals : ℕ → V} (hnode : (compressed level getParent modifier vals).WellFormed n) (hk : 0 ≤ k) (hlt : k < n)
    (hstart : (level.segment getParent).1 ≤ pos) (hstop : pos < (level.segment getParent).2)
    (hcrd : level.crd pos = modifier.coordinate k) : (compressed level getParent modifier vals).Stores k pos := by
  refine ⟨?_, hcrd, ?_⟩
  · cases modifier with
    | unmodified | indexSet set => exact ⟨hstart, hstop⟩
    | accessWindow window =>
      rw [positions]
      split_ifs with hunchained
      · -- The search for the start of the window does not pass the position.
        refine ⟨?_, hstop⟩
        have hsplits := taco_binarySearchAfter_splitsAt (hstart.trans hstop.le) hnode.1 window.lo
        have hlo : window.lo ≤ level.crd pos := by
          rw [hcrd]
          exact Int.le_add_of_nonneg_left (Int.mul_nonneg hk window.stride_pos.le)
        by_contra hbefore
        exact absurd (hsplits.below pos hstart (not_le.mp hbefore)) (not_lt.mpr hlo)
      · exact ⟨hstart, hstop⟩
  · cases modifier with
    | unmodified => trivial
    | accessWindow window =>
      have hsize : window.getWindowSize = n := hnode.2
      exact hlt.trans_eq hsize.symm
    | indexSet set =>
      have hsize : set.size = n := hnode.2
      exact ⟨hk, hlt.trans_eq (congrArg Nat.cast hsize.symm)⟩

/-- Within the dimension, what is not stored is zero. -/
theorem component_eq_zero (hnode : node.WellFormed n) (hc : node.isCompressed = true) (hk : 0 ≤ k) (hlt : k < n)
    (h : ∀ pos, ¬node.Stores k pos) : node.component k = 0 := by
  cases node with
  | scalar val | dense level modifier vals => cases hc
  | compressed level getParent modifier vals =>
    change (compressed level getParent modifier vals).expansion (modifier.coordinate k) = 0
    rw [expansion]
    cases hfind : (List.range' (level.segment getParent).1 ((level.segment getParent).2 - (level.segment getParent).1)).find?
        fun pos' => level.crd pos' = modifier.coordinate k with
    | none => rfl
    | some pos =>
      have hmem := List.mem_range'_1.mp (List.mem_of_find?_eq_some hfind)
      have hcrd : level.crd pos = modifier.coordinate k := by simpa using List.find?_some hfind
      exact absurd (stores_of_crd hnode hk hlt hmem.1 (by omega) hcrd) (h pos)

end AccessNode

/-! ### Coordinates that are visited -/

namespace Forall

variable (F : Forall V) [Ring V]

open Classical in
/-- The accesses that store something at a coordinate. -/
noncomputable def hereAt (k : ℤ) (node : ℕ) : Bool := decide (∃ pos, (F.nodes node).Stores k pos)

open Classical in
/-- The value of the expression at a coordinate at which something is left of it. -/
noncomputable def visited (k : ℤ) : Option V :=
  if F.expr.Defined (held F.nodes (F.hereAt k)) then
    some (F.expr.eval (restrict F.nodes (F.hereAt k) fun node => (F.nodes node).component k))
  else none

variable {F} {k : ℤ} {node : ℕ}

omit [Ring V] in
theorem hereAt_iff : F.hereAt k node = true ↔ ∃ pos, (F.nodes node).Stores k pos := by
  simp [hereAt]

theorem restrict_component (hk : 0 ≤ k) (hlt : k < F.dimension) :
    (F.expr.eval (restrict F.nodes (F.hereAt k) fun node => (F.nodes node).component k)) = F.value k := by
  refine IndexExpr.eval_congr fun node hnode => ?_
  rw [restrict]
  split_ifs with h
  · rw [Bool.and_eq_true, Bool.not_eq_true', ← Bool.not_eq_true, hereAt_iff, not_exists] at h
    exact (AccessNode.component_eq_zero (F.wellFormed node hnode) h.1 hk hlt h.2).symm
  · rfl

/-- Where something is left of the expression it has its value. -/
theorem eq_value_of_visited {v : V} (hk : 0 ≤ k) (hlt : k < F.dimension) (h : F.visited k = some v) : v = F.value k := by
  rw [visited, restrict_component hk hlt] at h
  split_ifs at h
  exact (Option.some.inj h).symm

/-- Where nothing is left of the expression it is zero. -/
theorem value_eq_zero (hk : 0 ≤ k) (hlt : k < F.dimension) (h : F.visited k = none) : F.value k = 0 := by
  rw [visited] at h
  split_ifs at h with hdefined
  rw [← restrict_component hk hlt]
  exact eval_restrict_of_not_defined hdefined _

/-- The first point whose accesses store the coordinate has the value. -/
theorem visited_of_find? {r : MergePoint} (h : F.lattice.find? (MergePoint.fits (F.hereAt k)) = some r) :
    F.visited k = some (F.expr.eval (restrict F.nodes r.keeps fun node => (F.nodes node).component k)) := by
  have hdefined := (F.isLattice.defined_iff _).mp ⟨r, List.mem_of_find?_eq_some h, List.find?_some h⟩
  rw [visited, if_pos hdefined, F.isLattice.agrees _ r _ h]

theorem visited_of_find?_eq_none (h : F.lattice.find? (MergePoint.fits (F.hereAt k)) = none) : F.visited k = none := by
  rw [visited, if_neg]
  intro hdefined
  obtain ⟨r, hr, hfits⟩ := (F.isLattice.defined_iff _).mpr hdefined
  exact List.find?_eq_none.mp h r hr hfits

theorem visited_getD (hk : 0 ≤ k) (hlt : k < F.dimension) : (F.visited k).getD 0 = F.value k := by
  cases h : F.visited k with
  | none => exact (value_eq_zero hk hlt h).symm
  | some v => exact eq_value_of_visited hk hlt h

end Forall

end Lower
end Taco
