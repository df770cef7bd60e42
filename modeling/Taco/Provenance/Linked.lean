import Taco.Provenance.Graph

/-! A provenance graph represents a tree of strips: each node of the tree is found in the maps. On such a
    graph the walks of the source are recursions over the tree. -/

namespace Taco
namespace Provenance
open Strips

/-- The relation that cuts `v`. -/
def relOf (v : IndexVar) (factor : ℕ) (outer inner : StripTree IndexVar) : SplitRelNode :=
  ⟨v, outer.label, inner.label, factor⟩

/-- The maps of `g` hold the nodes of the tree. -/
def Represents (g : ProvenanceGraph) : StripTree IndexVar → Prop
  | .leaf v => g.childRel? v = none
  | .split v s o i =>
    g.childRel? v = some (relOf v s o i) ∧ g.parentRel? o.label = some (relOf v s o i) ∧
      g.parentRel? i.label = some (relOf v s o i) ∧ Represents g o ∧ Represents g i

section
variable {g : ProvenanceGraph}

theorem stripTree_eq : ∀ {t : StripTree IndexVar} {fuel : ℕ}, Represents g t → t.height ≤ fuel →
    g.stripTree fuel t.label = t
  | .leaf v, 0, _, _ => rfl
  | .leaf v, fuel + 1, h, _ => by
    have h : g.childRel? v = none := h
    simp only [StripTree.label_leaf, ProvenanceGraph.stripTree, h]
  | .split v s o i, fuel + 1, ⟨hc, _, _, ho, hi⟩, hf => by
    rw [StripTree.height, Nat.add_le_add_iff_right, Nat.max_le] at hf
    simp only [StripTree.label_split, ProvenanceGraph.stripTree, hc, relOf]
    rw [stripTree_eq ho hf.1, stripTree_eq hi hf.2]

/-- Labels of the outer and the inner part of a cut are different, and none is the label of the cut. -/
theorem nodup_split {v : IndexVar} {s : ℕ} {o i : StripTree IndexVar} (h : (StripTree.split v s o i).labels.Nodup) :
    v ∉ o.labels ∧ v ∉ i.labels ∧ o.labels.Nodup ∧ i.labels.Nodup ∧ ∀ w ∈ o.labels, w ∉ i.labels := by
  obtain ⟨hv, hnd⟩ := List.nodup_cons.mp h
  rw [List.mem_append, not_or] at hv
  obtain ⟨ho, hi, hoi⟩ := List.nodup_append.mp hnd
  exact ⟨hv.1, hv.2, ho, hi, fun w hw hw' => hoi w hw w hw' rfl⟩

/-- A leaf of the inner part is none of the outer part. -/
theorem not_mem_outer {v w : IndexVar} {s : ℕ} {o i : StripTree IndexVar}
    (h : (StripTree.split v s o i).labels.Nodup) (hw : w ∈ i.leaves) : w ∉ o.leaves := fun hw' =>
  (nodup_split h).2.2.2.2 w (o.leaves_subset_labels hw') (i.leaves_subset_labels hw)

/-! ### Bounds -/

/-- How many relations lie between the root of the tree and its leaf `v`. -/
def depth (v : IndexVar) : StripTree IndexVar → ℕ
  | .leaf _ => 0
  | .split _ _ o i => (if v ∈ o.leaves then depth v o else depth v i) + 1

theorem depth_le_height (v : IndexVar) : ∀ t : StripTree IndexVar, depth v t ≤ t.height
  | .leaf _ => Nat.le_refl 0
  | .split _ _ o i => by
    have ho := depth_le_height v o
    have hi := depth_le_height v i
    rw [depth, StripTree.height]
    split <;> omega

theorem deriveIterBounds_succ {bounds : IndexVar → Option Bounds} {fuel : ℕ} {v : IndexVar} {rel : SplitRelNode}
    (h : g.parentRel? v = some rel) :
    g.deriveIterBounds bounds (fuel + 1) v =
      (g.deriveIterBounds bounds fuel rel.parentVar).map (rel.deriveIterBounds v) := by
  simp only [ProvenanceGraph.deriveIterBounds, h]

/-- The bounds of a leaf are `[0, k)` for its extent `k` in the tree. -/
theorem deriveIterBounds_leaf {bounds : IndexVar → Option Bounds} {v : IndexVar} :
    ∀ {t : StripTree IndexVar} {fuel k m : ℕ}, Represents g t → t.labels.Nodup → (v, m) ∈ t.extents k →
      g.deriveIterBounds bounds fuel t.label = some (0, k) →
      g.deriveIterBounds bounds (fuel + depth v t) v = some (0, m)
  | .leaf w, fuel, k, m, _, _, hm, hb => by
    simp only [StripTree.extents, List.mem_singleton, Prod.mk.injEq] at hm
    rw [hm.1, hm.2]
    exact hb
  | .split w s o i, fuel, k, m, ⟨_, hpo, hpi, ho, hi⟩, hnd, hm, hb => by
    have hparts := nodup_split hnd
    rw [StripTree.label_split] at hb
    rw [StripTree.extents, List.mem_append] at hm
    rcases hm with hm | hm
    · have hv : v ∈ o.leaves := by
        rw [← o.map_fst_extents (ceilDiv k s)]
        exact List.mem_map_of_mem hm
      have hbo : g.deriveIterBounds bounds (fuel + 1) o.label = some (0, ceilDiv k s) := by
        rw [deriveIterBounds_succ hpo]
        simp only [relOf, hb, Option.map_some, SplitRelNode.deriveIterBounds, ite_true, Nat.zero_div, ceilDiv]
      rw [depth, if_pos hv, Nat.add_comm (depth v o), ← Nat.add_assoc]
      exact deriveIterBounds_leaf ho hparts.2.2.1 hm hbo
    · have hv : v ∈ i.leaves := by
        rw [← i.map_fst_extents s]
        exact List.mem_map_of_mem hm
      have hne : i.label ≠ o.label := fun h =>
        hparts.2.2.2.2 _ o.label_mem_labels (h ▸ i.label_mem_labels)
      have hbi : g.deriveIterBounds bounds (fuel + 1) i.label = some (0, s) := by
        rw [deriveIterBounds_succ hpi]
        simp only [relOf, hb, Option.map_some, SplitRelNode.deriveIterBounds, if_neg hne]
      rw [depth, if_neg (not_mem_outer hnd hv), Nat.add_comm (depth v i), ← Nat.add_assoc]
      exact deriveIterBounds_leaf hi hparts.2.2.2.1 hm hbi

/-! ### Recoverable variables -/

/-- A child passes the test of `isRecoverable`. -/
def childRecoverable (g : ProvenanceGraph) (defined : List IndexVar) (fuel : ℕ) (child : IndexVar) : Bool :=
  defined.contains child || (!g.isFullyDerived child && g.isRecoverable defined fuel child)

theorem getChildren_eq {v : IndexVar} {rel : SplitRelNode} (h : g.childRel? v = some rel) :
    g.getChildren v = rel.getChildren := by
  simp only [ProvenanceGraph.getChildren, h, Option.map_some, Option.getD_some]

theorem getParents_eq {v : IndexVar} {rel : SplitRelNode} (h : g.parentRel? v = some rel) :
    g.getParents v = [rel.parentVar] := by
  simp only [ProvenanceGraph.getParents, h, Option.map_some, Option.getD_some, SplitRelNode.getParents]

theorem isRecoverable_split {defined : List IndexVar} {fuel : ℕ} {v : IndexVar} {s : ℕ} {o i : StripTree IndexVar}
    (h : g.childRel? v = some (relOf v s o i)) :
    g.isRecoverable defined (fuel + 1) v =
      (childRecoverable g defined fuel o.label && childRecoverable g defined fuel i.label) := by
  rw [ProvenanceGraph.isRecoverable, getChildren_eq h]
  simp only [relOf, SplitRelNode.getChildren, List.all_cons, List.all_nil, Bool.and_true, childRecoverable]

/-- When no cut range is defined itself, a child passes the test once all leaves below it are defined. -/
theorem childRecoverable_iff {defined : List IndexVar} : ∀ {t : StripTree IndexVar} {fuel : ℕ}, Represents g t →
    t.height ≤ fuel → (∀ w ∈ t.inner, w ∉ defined) →
    (childRecoverable g defined fuel t.label = true ↔ t.leaves ⊆ defined)
  | .leaf v, fuel, h, _, _ => by
    have hf : g.isFullyDerived v = true := by
      have h : g.childRel? v = none := h
      simp only [ProvenanceGraph.isFullyDerived, ProvenanceGraph.getChildren, h, Option.map_none, Option.getD_none,
        List.isEmpty_nil]
    simp only [childRecoverable, StripTree.label_leaf, hf, Bool.not_true, Bool.false_and, Bool.or_false, List.contains_eq_mem,
      decide_eq_true_eq, StripTree.leaves, List.cons_subset, List.nil_subset, and_true]
  | .split v s o i, fuel + 1, ⟨hc, _, _, ho, hi⟩, hf, hd => by
    rw [StripTree.height, Nat.add_le_add_iff_right, Nat.max_le] at hf
    simp only [StripTree.inner, List.mem_cons, List.mem_append] at hd
    have hfd : g.isFullyDerived v = false := by
      rw [ProvenanceGraph.isFullyDerived, getChildren_eq hc]
      rfl
    have hv : defined.contains v = false := by
      rw [List.contains_eq_mem, decide_eq_false_iff_not]
      exact hd v (Or.inl rfl)
    rw [childRecoverable, StripTree.label_split, hv, hfd, Bool.false_or, Bool.not_false, Bool.true_and,
      isRecoverable_split hc, Bool.and_eq_true,
      childRecoverable_iff ho hf.1 fun w hw => hd w (Or.inr (Or.inl hw)),
      childRecoverable_iff hi hf.2 fun w hw => hd w (Or.inr (Or.inr hw)), StripTree.leaves, List.append_subset]


/-! ### Newly recoverable parents -/

/-- The ranges of the tree that become recoverable when the leaf `v` is defined after `defined`, from `v`
    upwards. -/
def newly (defined : List IndexVar) (v : IndexVar) : StripTree IndexVar → List IndexVar
  | .leaf _ => []
  | .split w _ o i =>
    (if v ∈ o.leaves then newly defined v o else newly defined v i) ++
      if o.leaves ++ i.leaves ⊆ v :: defined then [w] else []

theorem newlyRecoverableParents_succ {defined : List IndexVar} {fuel : ℕ} {v : IndexVar} {rel : SplitRelNode}
    (h : g.parentRel? v = some rel) :
    g.newlyRecoverableParents defined (fuel + 1) v =
      if !g.isRecoverable defined g.relations.length rel.parentVar &&
          g.isRecoverable (v :: defined) g.relations.length rel.parentVar then
        rel.parentVar :: g.newlyRecoverableParents defined fuel rel.parentVar
      else [] := by
  rw [ProvenanceGraph.newlyRecoverableParents, getParents_eq h, List.flatMap_cons, List.flatMap_nil, List.append_nil]

/-- The cut `w` becomes recoverable with its child `c`, in which the last leaf was defined, when the leaves
    of its other child are defined. -/
theorem isRecoverable_child {defined : List IndexVar} {v : IndexVar} {s : ℕ} {o i c c' : StripTree IndexVar}
    (hc : g.childRel? v = some (relOf v s o i)) (hcc : (c = o ∧ c' = i) ∨ (c = i ∧ c' = o))
    (hr : Represents g c') (hlen : c'.height < g.relations.length) (hd : ∀ w ∈ c'.inner, w ∉ c.label :: defined) :
    g.isRecoverable (c.label :: defined) g.relations.length v = true ↔ c'.leaves ⊆ c.label :: defined := by
  obtain ⟨fuel, hfuel⟩ : ∃ fuel, g.relations.length = fuel + 1 := Nat.exists_eq_add_one.mpr (by omega)
  have hself : childRecoverable g (c.label :: defined) fuel c.label = true := by
    simp only [childRecoverable, List.contains_cons, BEq.rfl, Bool.true_or]
  rw [hfuel, isRecoverable_split hc, Bool.and_eq_true, ← childRecoverable_iff hr (by omega : c'.height ≤ fuel) hd]
  rcases hcc with ⟨rfl, rfl⟩ | ⟨rfl, rfl⟩
  · exact and_iff_right hself
  · exact and_iff_left hself

theorem not_isRecoverable {defined : List IndexVar} {t : StripTree IndexVar} {v : IndexVar} (hr : Represents g t)
    (hlen : t.height ≤ g.relations.length) (hd : ∀ w ∈ t.inner, w ∉ defined) (hv : v ∈ t.leaves) (hvd : v ∉ defined)
    (hsplit : t.inner ≠ []) : g.isRecoverable defined g.relations.length t.label = false := by
  rw [Bool.eq_false_iff]
  intro h
  refine hvd ((childRecoverable_iff hr hlen hd).mp ?_ hv)
  cases t with
  | leaf w => exact absurd rfl hsplit
  | split w s o i =>
    have hf : g.isFullyDerived w = false := by
      rw [ProvenanceGraph.isFullyDerived, getChildren_eq hr.1]
      rfl
    simp only [childRecoverable, StripTree.label_split, hf, Bool.not_false, Bool.true_and, Bool.or_eq_true]
    exact Or.inr h

/-- A variable outside the leaves of a tree does not help to define them. -/
theorem leaves_subset_cons_iff {defined : List IndexVar} {v : IndexVar} {t : StripTree IndexVar} (h : v ∉ t.leaves) :
    t.leaves ⊆ v :: defined ↔ t.leaves ⊆ defined :=
  ⟨fun hs _ hw => (List.mem_cons.mp (hs hw)).resolve_left fun he => h (he ▸ hw), List.subset_cons_of_subset v⟩

/-- The step from a child to the cut above it. -/
theorem newlyRecoverableParents_child (fuel : ℕ) {defined : List IndexVar} {v : IndexVar} {s : ℕ}
    {o i c c' : StripTree IndexVar} (hc : g.childRel? v = some (relOf v s o i))
    (hp : g.parentRel? c.label = some (relOf v s o i)) (hcc : (c = o ∧ c' = i) ∨ (c = i ∧ c' = o))
    (hr : Represents g c') (hlen : c'.height < g.relations.length) (hd : ∀ w ∈ c'.inner, w ∉ defined)
    (hdisj : c.label ∉ c'.labels) (hno : g.isRecoverable defined g.relations.length v = false) :
    g.newlyRecoverableParents defined (fuel + 1) c.label =
      if c'.leaves ⊆ defined then v :: g.newlyRecoverableParents defined fuel v else [] := by
  have hdc : ∀ w ∈ c'.inner, w ∉ c.label :: defined := fun w hw => by
    rw [List.mem_cons, not_or]
    exact ⟨fun h => hdisj (h ▸ c'.inner_subset_labels hw), hd w hw⟩
  rw [newlyRecoverableParents_succ hp]
  simp only [relOf, hno, Bool.not_false, Bool.true_and]
  refine if_congr ?_ rfl rfl
  rw [isRecoverable_child hc hcc hr hlen hdc, leaves_subset_cons_iff fun h => hdisj (c'.leaves_subset_labels h)]

/-- On the tree, `newlyRecoverableParents` is `newly`, followed by what lies above the tree when all of it
    is defined. -/
theorem newlyRecoverableParents_eq {defined : List IndexVar} {v : IndexVar} (hvd : v ∉ defined) :
    ∀ {t : StripTree IndexVar} {fuel : ℕ}, Represents g t → t.labels.Nodup → t.height ≤ g.relations.length →
      (∀ w ∈ t.inner, w ∉ defined) → v ∈ t.leaves →
      g.newlyRecoverableParents defined (fuel + depth v t) v =
        newly defined v t ++ if t.leaves ⊆ v :: defined then g.newlyRecoverableParents defined fuel t.label else []
  | .leaf _, fuel, _, _, _, _, hv => by
    obtain rfl : v = _ := List.mem_singleton.mp hv
    simp only [depth, newly, StripTree.leaves, List.cons_subset, List.mem_cons_self, List.nil_subset, and_self, ite_true,
      List.nil_append, StripTree.label_leaf, Nat.add_zero]
  | .split w s o i, fuel, hr, hnd, hlen, hd, hv => by
    have hno := not_isRecoverable hr hlen hd hv hvd (List.cons_ne_nil _ _)
    obtain ⟨hc, hpo, hpi, ho, hi⟩ := hr
    obtain ⟨-, -, hndo, hndi, hdisj⟩ := nodup_split hnd
    rw [StripTree.height] at hlen
    rw [StripTree.label_split] at hno
    have hdo : ∀ w ∈ o.inner, w ∉ defined := fun w hw => hd w (List.mem_cons_of_mem _ (List.mem_append_left _ hw))
    have hdi : ∀ w ∈ i.inner, w ∉ defined := fun w hw => hd w (List.mem_cons_of_mem _ (List.mem_append_right _ hw))
    have tail : ∀ (l u : List IndexVar) (p q : Prop) [Decidable p] [Decidable q] [Decidable (p ∧ q)],
        (l ++ if p then (if q then w :: u else []) else []) =
          (l ++ if p ∧ q then [w] else []) ++ if p ∧ q then u else [] := fun l u p q => by
      by_cases hp : p <;> by_cases hq : q <;> simp [hp, hq]
    by_cases hvo : v ∈ o.leaves
    · have hvi : v ∉ i.leaves := fun h => not_mem_outer hnd h hvo
      have hstep := newlyRecoverableParents_child fuel hc hpo (Or.inl ⟨rfl, rfl⟩) hi (by omega) hdi
        (hdisj _ o.label_mem_labels) hno
      rw [depth, if_pos hvo, newly, if_pos hvo, Nat.add_comm (depth v o), ← Nat.add_assoc,
        newlyRecoverableParents_eq hvd ho hndo (by omega) hdo hvo, hstep]
      simp only [StripTree.leaves, StripTree.label_split, List.append_subset, leaves_subset_cons_iff hvi]
      exact tail _ _ _ _
    · have hvi : v ∈ i.leaves := (List.mem_append.mp hv).resolve_left hvo
      have hstep := newlyRecoverableParents_child fuel hc hpi (Or.inr ⟨rfl, rfl⟩) ho (by omega) hdo
        (fun h => hdisj _ h i.label_mem_labels) hno
      rw [depth, if_neg hvo, newly, if_neg hvo, Nat.add_comm (depth v i), ← Nat.add_assoc,
        newlyRecoverableParents_eq hvd hi hndi (by omega) hdi hvi, hstep]
      simp only [StripTree.leaves, StripTree.label_split, List.append_subset, leaves_subset_cons_iff hvo,
        and_comm (a := o.leaves ⊆ defined)]
      exact tail _ _ _ _

end
end Provenance
end Taco
