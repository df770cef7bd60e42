import Taco.Lower.Foralls
import Taco.Lower.LatticeSound

/-! The positions of an iterator move over the coordinates of its operand. -/

namespace Taco
namespace Lower

variable {V : Type}

/-! ### Stored coordinates -/

/-- The coordinates of the loop at which a modifier accesses the level. -/
def IndexVarIterationModifier.Covers : IndexVarIterationModifier → ℤ → Prop
  | .unmodified, _ => True
  | .accessWindow window, k => k < window.getWindowSize
  | .indexSet set, k => 0 ≤ k ∧ k < set.size

theorem IndexVarIterationModifier.coordinate_lt {modifier : IndexVarIterationModifier} {k k' : ℤ} (hk : modifier.Covers k)
    (hk' : modifier.Covers k') (hlt : k < k') : modifier.coordinate k < modifier.coordinate k' := by
  cases modifier with
  | unmodified => exact hlt
  | accessWindow window => exact Int.add_lt_add_right (Int.mul_lt_mul_of_pos_right hlt window.stride_pos) _
  | indexSet set =>
    have h₁ := hk.1
    have h₂ := hk'.2
    exact set.sorted (show k.toNat < set.size by omega) (show k'.toNat < set.size by omega) (by omega)

namespace AccessNode

/-- The level stores what is accessed at a coordinate of the loop, at a position that is loaded. -/
def Stores : AccessNode V → ℤ → ℕ → Prop
  | node@(compressed level _ modifier _), k, pos =>
    (node.positions.1 ≤ pos ∧ pos < node.positions.2) ∧ level.crd pos = modifier.coordinate k ∧ modifier.Covers k
  | _, _, _ => False

variable {node : AccessNode V} {k k' : ℤ} {pos pos' n : ℕ}

/-- The positions that are loaded are positions of the segment. -/
theorem positions_subset {level : CompressedLevel} {getParent : ParentIterator} (modifier : IndexVarIterationModifier)
    (vals : ℕ → V) (hsorted : StrictMonoOn level.crd (Set.Ico (level.segment getParent).1 (level.segment getParent).2)) :
    (level.segment getParent).1 ≤ (compressed level getParent modifier vals).positions.1 ∧
      (compressed level getParent modifier vals).positions.2 = (level.segment getParent).2 := by
  cases modifier with
  | unmodified => exact ⟨Nat.le_refl _, rfl⟩
  | indexSet set => exact ⟨Nat.le_refl _, rfl⟩
  | accessWindow window =>
    rw [positions]
    split_ifs with h
    · have hle : (level.segment getParent).1 ≤ (level.segment getParent).2 := by
        rw [CompressedLevel.segment, if_pos h]
        exact level.pos_mono (Nat.le_succ _)
      exact ⟨(taco_binarySearchAfter_splitsAt hle hsorted window.lo).start_le, rfl⟩
    · exact ⟨Nat.le_refl _, rfl⟩

theorem WellFormed.sorted {level : CompressedLevel} {getParent : ParentIterator} {modifier : IndexVarIterationModifier}
    {vals : ℕ → V} (h : (compressed level getParent modifier vals).WellFormed n) :
    StrictMonoOn level.crd (Set.Ico (compressed level getParent modifier vals).positions.1
      (compressed level getParent modifier vals).positions.2) := by
  obtain ⟨hle, heq⟩ := positions_subset modifier vals h.1
  rw [heq]
  exact h.1.mono (Set.Ico_subset_Ico_left hle)

/-- Positions are in the order of their coordinates. -/
theorem Stores.lt_iff (hnode : node.WellFormed n) (h : node.Stores k pos) (h' : node.Stores k' pos') : pos < pos' ↔ k < k' := by
  cases node with
  | scalar val => cases h
  | dense level modifier vals => cases h
  | compressed level getParent modifier vals =>
    have hsorted := hnode.sorted
    have hcrd : pos < pos' ↔ modifier.coordinate k < modifier.coordinate k' := by
      rw [← h.2.1, ← h'.2.1]
      exact (hsorted.lt_iff_lt ⟨h.1.1, h.1.2⟩ ⟨h'.1.1, h'.1.2⟩).symm
    rw [hcrd]
    refine ⟨fun hlt => ?_, IndexVarIterationModifier.coordinate_lt h.2.2 h'.2.2⟩
    by_contra hle
    rcases (not_lt.mp hle).lt_or_eq with hlt' | rfl
    · exact absurd (IndexVarIterationModifier.coordinate_lt h'.2.2 h.2.2 hlt') (lt_asymm hlt)
    · exact absurd hlt (lt_irrefl _)

theorem Stores.le_iff (hnode : node.WellFormed n) (h : node.Stores k pos) (h' : node.Stores k' pos') : pos ≤ pos' ↔ k ≤ k' := by
  rw [← not_lt, ← not_lt, h'.lt_iff hnode h]

theorem Stores.unique (hnode : node.WellFormed n) (h : node.Stores k pos) (h' : node.Stores k' pos) : k = k' :=
  le_antisymm ((h.le_iff hnode h').mp le_rfl) ((h'.le_iff hnode h).mp le_rfl)

theorem Stores.isCompressed (h : node.Stores k pos) : node.isCompressed = true := by
  cases node with
  | scalar val => cases h
  | dense level modifier vals => cases h
  | compressed level getParent modifier vals => rfl

theorem Stores.lt_dimension (hnode : node.WellFormed n) (h : node.Stores k pos) : k < n := by
  cases node with
  | scalar val => cases h
  | dense level modifier vals => cases h
  | compressed level getParent modifier vals =>
    obtain ⟨hle, heq⟩ := positions_subset modifier vals hnode.1
    cases modifier with
    | unmodified =>
      have hk : level.crd pos = k := h.2.1
      exact hk ▸ (hnode.2 pos (hle.trans h.1.1) (heq ▸ h.1.2)).2
    | accessWindow window => exact hnode.2 ▸ h.2.2
    | indexSet set =>
      have hsize : set.size = n := hnode.2
      exact hsize ▸ h.2.2.2

end AccessNode

/-! ### Cursors -/

section

variable (nodes : ℕ → AccessNode V) (s : State) (node : ℕ)

/-- The coordinates that are left from the positions of a state on. -/
def Pending (k : ℤ) : Prop := ∃ pos, (nodes node).Stores k pos ∧ s.posVar (.level node) ≤ pos ∧
  ((Iterator.level node).hasIndexSet nodes = true → (s.posVar (.indexSet node) : ℤ) ≤ k)

/-- The positions of a state are those of a coordinate. -/
def AtHead (k : ℤ) : Prop := (nodes node).Stores k (s.posVar (.level node)) ∧
  ((Iterator.level node).hasIndexSet nodes = true → (s.posVar (.indexSet node) : ℤ) = k)

end

variable {nodes : ℕ → AccessNode V} {s t : State} {node n : ℕ} {k k' : ℤ}

theorem AtHead.pending (h : AtHead nodes s node k) : Pending nodes s node k := ⟨_, h.1, Nat.le_refl _, fun hset => (h.2 hset).le⟩

theorem AtHead.le_of_pending (hnode : (nodes node).WellFormed n) (h : AtHead nodes s node k) (hk : Pending nodes s node k') :
    k ≤ k' := by
  obtain ⟨pos, hpos, hle, -⟩ := hk
  exact (h.1.le_iff hnode hpos).mp hle

theorem AtHead.unique (hnode : (nodes node).WellFormed n) (h : AtHead nodes s node k) (h' : AtHead nodes s node k') : k = k' :=
  h.1.unique hnode h'.1

theorem Pending.stores (h : Pending nodes s node k) : ∃ pos, (nodes node).Stores k pos := ⟨h.choose, h.choose_spec.1⟩

theorem pending_congr (hlevel : t.posVar (.level node) = s.posVar (.level node))
    (hset : t.posVar (.indexSet node) = s.posVar (.indexSet node)) : Pending nodes t node k ↔ Pending nodes s node k := by
  rw [Pending, Pending, hlevel, hset]

/-- Positions that only advance leave no more than there was. -/
theorem Pending.anti (h : Pending nodes t node k) (hle : ∀ it, s.posVar it ≤ t.posVar it) : Pending nodes s node k := by
  obtain ⟨pos, hpos, hlevel, hset⟩ := h
  exact ⟨pos, hpos, (hle _).trans hlevel, fun h => (Int.ofNat_le.mpr (hle _)).trans (hset h)⟩

/-- After the head is passed, the coordinates after it are left. -/
theorem AtHead.pending_succ (hnode : (nodes node).WellFormed n) (h : AtHead nodes s node k)
    (hlevel : t.posVar (.level node) = s.posVar (.level node) + 1)
    (hset : (Iterator.level node).hasIndexSet nodes = true → t.posVar (.indexSet node) = s.posVar (.indexSet node) + 1) :
    Pending nodes t node k' ↔ Pending nodes s node k' ∧ k < k' := by
  constructor
  · rintro ⟨pos, hpos, hle, hle'⟩
    rw [hlevel] at hle
    have hlt : k < k' := (h.1.lt_iff hnode hpos).mp hle
    refine ⟨⟨pos, hpos, by omega, fun hs => ?_⟩, hlt⟩
    exact (h.2 hs).le.trans hlt.le
  · rintro ⟨⟨pos, hpos, hle, hle'⟩, hlt⟩
    refine ⟨pos, hpos, ?_, fun hs => ?_⟩
    · rw [hlevel]
      exact (h.1.lt_iff hnode hpos).mpr hlt
    · rw [hset hs]
      have := h.2 hs
      push_cast
      omega

/-! ### Loading -/

/-- A level that is not accessed through an index set loads its coordinate, skips its position, or ends. -/
theorem loadCoordinate_level (hnode : (nodes node).WellFormed n) (hc : (nodes node).isCompressed = true)
    (hset : (Iterator.level node).hasIndexSet nodes = false) (hstart : (nodes node).positions.1 ≤ s.posVar (.level node))
    (hstop : s.posVar (.level node) < (nodes node).positions.2) (target : Iterator) :
    (∃ k, loadCoordinate nodes target (.level node) s = .ok (s.setCoord target k) ∧ AtHead nodes s node k) ∨
      (loadCoordinate nodes target (.level node) s =
          .error (.continueLoop, s.setPos (.level node) (s.posVar (.level node) + 1)) ∧
        ∀ k, ¬(nodes node).Stores k (s.posVar (.level node))) ∨
      ∃ c, loadCoordinate nodes target (.level node) s = .error (.breakLoop, s.setCoord target c) ∧
        ∀ k, ¬Pending nodes s node k := by
  cases hn : nodes node with
  | scalar val => simp [hn, AccessNode.isCompressed] at hc
  | dense level modifier vals => simp [hn, AccessNode.isCompressed] at hc
  | compressed level getParent modifier vals =>
    rw [hn] at hnode hstart hstop
    cases modifier with
    | indexSet set => simp [Iterator.hasIndexSet, hn, AccessNode.modifier] at hset
    | unmodified =>
      refine Or.inl ⟨level.crd (s.posVar (.level node)), ?_, ?_, fun h => by simp [hset] at h⟩
      · simp [loadCoordinate, Iterator.window, Iterator.posAccess, hn, AccessNode.modifier]
      · rw [hn]
        exact ⟨⟨hstart, hstop⟩, rfl, trivial⟩
    | accessWindow window =>
      have hload : loadCoordinate nodes target (.level node) s =
          if window.isStrided && window.strideBoundsGuard (level.crd (s.posVar (.level node))) then
            .error (.continueLoop, s.setPos (.level node) (s.posVar (.level node) + 1))
          else if window.upperBoundGuardForWindowPosition
              (window.projectWindowedPositionToCanonicalSpace (level.crd (s.posVar (.level node)))) then
            .error (.breakLoop, s.setCoord target
              (window.projectWindowedPositionToCanonicalSpace (level.crd (s.posVar (.level node)))))
          else .ok (s.setCoord target
            (window.projectWindowedPositionToCanonicalSpace (level.crd (s.posVar (.level node))))) := by
        simp [loadCoordinate, Iterator.window, Iterator.posAccess, hn, AccessNode.modifier]
      rw [hload]
      cases hguard : window.isStrided && window.strideBoundsGuard (level.crd (s.posVar (.level node))) with
      | true =>
        refine Or.inr (Or.inl ⟨if_pos rfl, fun k hk => ?_⟩)
        have hcrd : level.crd (s.posVar (.level node)) = k * window.stride + window.lo := hk.2.1
        have hnot := mt (window.strideBoundsGuard_iff (level.crd (s.posVar (.level node)))).mpr (by rw [hguard]; simp)
        exact hnot ⟨k, by rw [hcrd]; ring⟩
      | false =>
        obtain ⟨m, hm⟩ := (window.strideBoundsGuard_iff _).mp hguard
        have hproject : window.projectWindowedPositionToCanonicalSpace (level.crd (s.posVar (.level node))) = m := by
          rw [Window.projectWindowedPositionToCanonicalSpace, hm, Int.mul_tdiv_cancel_left _ window.stride_pos.ne']
        rw [if_neg Bool.false_ne_true, hproject]
        have hcoord : level.crd (s.posVar (.level node)) = m * window.stride + window.lo := by
          rw [Int.mul_comm, ← hm, Int.sub_add_cancel]
        cases hend : window.upperBoundGuardForWindowPosition m with
        | true =>
          refine Or.inr (Or.inr ⟨m, if_pos rfl, fun k hk => ?_⟩)
          -- What is stored from here on is past the end of the window.
          have hsize : window.getWindowSize ≤ m := of_decide_eq_true hend
          obtain ⟨pos, hpos, hle, -⟩ := hk
          rw [hn] at hpos
          have hcrd : level.crd pos = k * window.stride + window.lo := hpos.2.1
          have hmono := hnode.sorted.monotoneOn ⟨hstart, hstop⟩ ⟨hpos.1.1, hpos.1.2⟩ hle
          rw [hcoord, hcrd] at hmono
          have hmk : m ≤ k := le_of_mul_le_mul_right (by omega) window.stride_pos
          exact absurd hpos.2.2 (not_lt.mpr (hsize.trans hmk))
        | false =>
          refine Or.inl ⟨m, if_neg Bool.false_ne_true, ?_, fun h => by simp [hset] at h⟩
          rw [hn]
          exact ⟨⟨hstart, hstop⟩, hcoord, not_le.mp (of_decide_eq_false hend)⟩

/-- A level that is accessed through an index set, and its index set, load what is stored at their positions. -/
theorem loadCoordinate_indexSet (hset : (Iterator.level node).hasIndexSet nodes = true) (target : Iterator) :
    loadCoordinate nodes target (.level node) s =
        .ok (s.setCoord target ((Iterator.level node).posAccess nodes (s.posVar (.level node)))) ∧
      loadCoordinate nodes target (.indexSet node) s =
        .ok (s.setCoord target ((Iterator.indexSet node).posAccess nodes (s.posVar (.indexSet node)))) := by
  cases hm : (nodes node).modifier with
  | unmodified => simp [Iterator.hasIndexSet, hm] at hset
  | accessWindow window => simp [Iterator.hasIndexSet, hm] at hset
  | indexSet set => simp [loadCoordinate, Iterator.window, hm]

/-- A level and its index set are at one coordinate, or the lower one of them is passed. -/
theorem matchIndexSet_spec (hnode : (nodes node).WellFormed n) (hc : (nodes node).isCompressed = true)
    (hset : (Iterator.level node).hasIndexSet nodes = true) (hstart : (nodes node).positions.1 ≤ s.posVar (.level node))
    (hstop : s.posVar (.level node) < (nodes node).positions.2)
    (hsetStop : s.posVar (.indexSet node) < ((Iterator.indexSet node).positions nodes).2)
    (hlevel : s.coordVar (.level node) = (Iterator.level node).posAccess nodes (s.posVar (.level node)))
    (hindexSet : s.coordVar (.indexSet node) = (Iterator.indexSet node).posAccess nodes (s.posVar (.indexSet node))) :
    (matchIndexSet (.level node) (.indexSet node) s = .ok ((s.setCoord (.level node) (s.posVar (.indexSet node))).setCoord
        (.indexSet node) (s.posVar (.indexSet node))) ∧ AtHead nodes s node (s.posVar (.indexSet node))) ∨
      ∃ it, (it = .level node ∨ it = .indexSet node) ∧
        matchIndexSet (.level node) (.indexSet node) s = .error (.continueLoop, s.setPos it (s.posVar it + 1)) ∧
        ∀ k, Pending nodes (s.setPos it (s.posVar it + 1)) node k ↔ Pending nodes s node k := by
  cases hn : nodes node with
  | scalar val => simp [hn, AccessNode.isCompressed] at hc
  | dense level modifier vals => simp [hn, AccessNode.isCompressed] at hc
  | compressed level getParent modifier vals =>
    rw [hn] at hnode hstart hstop
    cases modifier with
    | unmodified => simp [Iterator.hasIndexSet, hn, AccessNode.modifier] at hset
    | accessWindow window => simp [Iterator.hasIndexSet, hn, AccessNode.modifier] at hset
    | indexSet set =>
      have hsize : s.posVar (.indexSet node) < set.size := by
        simpa [Iterator.positions, hn, AccessNode.modifier] using hsetStop
      have ha : s.coordVar (.level node) = level.crd (s.posVar (.level node)) := by
        simpa [Iterator.posAccess, hn] using hlevel
      have hb : s.coordVar (.indexSet node) = set.crd (s.posVar (.indexSet node)) := by
        simpa [Iterator.posAccess, hn, AccessNode.modifier] using hindexSet
      rcases lt_trichotomy (level.crd (s.posVar (.level node))) (set.crd (s.posVar (.indexSet node))) with hlt | heq | hgt
      · refine Or.inr ⟨.level node, Or.inl rfl, ?_, fun k => ?_⟩
        · simp [matchIndexSet, ha, hb, hlt.le, hlt.ne', State.setPos]
        · refine ⟨fun h => h.anti fun it => by simp only [State.setPos_posVar]; split_ifs <;> simp_all, ?_⟩
          rintro ⟨pos, hpos, hle, hle'⟩
          have hpos' := hn ▸ hpos
          have hk := hle' hset
          -- The coordinates of the set from its position on are past the one that is loaded.
          have hne : s.posVar (.level node) ≠ pos := by
            rintro rfl
            have hcrd : level.crd (s.posVar (.level node)) = set.crd k.toNat := hpos'.2.1
            have hmono := set.sorted.monotoneOn (show s.posVar (.indexSet node) ∈ Set.Iio set.size from hsize)
              (show k.toNat ∈ Set.Iio set.size by have := hpos'.2.2; simp only [Set.mem_Iio]; have h₁ := this.1; have h₂ := this.2; omega)
              (show s.posVar (.indexSet node) ≤ k.toNat by omega)
            omega
          refine ⟨pos, hpos, ?_, fun _ => by simpa using hk⟩
          simp only [State.setPos_posVar, if_true]
          omega
      · refine Or.inl ⟨?_, ?_⟩
        · simp [matchIndexSet, ha, hb, heq]
        · refine ⟨?_, fun _ => rfl⟩
          rw [hn]
          exact ⟨⟨hstart, hstop⟩, heq, Int.natCast_nonneg _, Int.ofNat_lt.mpr hsize⟩
      · refine Or.inr ⟨.indexSet node, Or.inr rfl, ?_, fun k => ?_⟩
        · simp [matchIndexSet, ha, hb, hgt.le, hgt.ne', State.setPos]
        · refine ⟨fun h => h.anti fun it => by simp only [State.setPos_posVar]; split_ifs <;> simp_all, ?_⟩
          rintro ⟨pos, hpos, hle, hle'⟩
          have hpos' := hn ▸ hpos
          have hk := hle' hset
          -- The level stores nothing at the coordinate of the set.
          have hne : (s.posVar (.indexSet node) : ℤ) ≠ k := by
            rintro rfl
            have hcrd : level.crd pos = set.crd (s.posVar (.indexSet node)) := hpos'.2.1
            have hmono := hnode.sorted.monotoneOn ⟨hstart, hstop⟩ ⟨hpos'.1.1, hpos'.1.2⟩ hle
            omega
          refine ⟨pos, hpos, by simpa using hle, fun _ => ?_⟩
          simp only [State.setPos_posVar, if_true]
          push_cast
          omega

end Lower
end Taco
