import Taco.Scheduling.Iterations

/-! The walks from a variable up to the underived one, along the relations between them. -/

namespace Taco
namespace Scheduling

/-- The relations from `w` up to the root of the tree, that of `w` first. -/
@[grind =]
def above (w : IndexVar) : Derivation → List IndexVarRel
  | .leaf _ => []
  | .unary rel t => if w = rel.parentVar then [] else above w t ++ [rel]
  | .binary rel o i =>
    if w = rel.parentVar then [] else if w ∈ o.labels then above w o ++ [rel] else above w i ++ [rel]

theorem above_label (t : Derivation) : above t.label t = [] := by
  cases t
  · rfl
  · exact if_pos rfl
  · exact if_pos rfl

section

variable {w : IndexVar} {rel : IndexVarRel}

theorem above_unary {t : Derivation} (hnd : (Derivation.unary rel t).labels.Nodup) (h : w ∈ t.labels) :
    above w (.unary rel t) = above w t ++ [rel] :=
  if_neg fun he : w = rel.parentVar => (List.nodup_cons.mp hnd).1 (he ▸ h)

theorem above_outer {o i : Derivation} (hnd : (Derivation.binary rel o i).labels.Nodup) (h : w ∈ o.labels) :
    above w (.binary rel o i) = above w o ++ [rel] := by
  rw [above, if_neg fun he : w = rel.parentVar => (Derivation.nodup_binary hnd).1 (he ▸ h), if_pos h]

theorem above_inner {o i : Derivation} (hnd : (Derivation.binary rel o i).labels.Nodup) (h : w ∈ i.labels) :
    above w (.binary rel o i) = above w i ++ [rel] := by
  obtain ⟨-, hpi, -, -, hdisj⟩ := Derivation.nodup_binary hnd
  rw [above, if_neg fun he : w = rel.parentVar => hpi (he ▸ h), if_neg fun ho => hdisj w ho h]

end

theorem length_above_le (w : IndexVar) : ∀ t : Derivation, (above w t).length ≤ t.relations.length
  | .leaf _ => Nat.le_refl 0
  | .unary rel t => by
    have ih := length_above_le w t
    rw [above, Derivation.relations, List.length_cons]
    split_ifs
    · exact Nat.zero_le _
    · rw [List.length_append, List.length_singleton]
      exact Nat.succ_le_succ ih
  | .binary rel o i => by
    have iho := length_above_le w o
    have ihi := length_above_le w i
    rw [above, Derivation.relations, List.length_cons, List.length_append]
    split_ifs
    · exact Nat.zero_le _
    · rw [List.length_append, List.length_singleton]
      omega
    · rw [List.length_append, List.length_singleton]
      omega

theorem above_subset (w : IndexVar) : ∀ t : Derivation, above w t ⊆ t.relations
  | .leaf _ => List.nil_subset _
  | .unary rel t => by
    rw [above, Derivation.relations]
    split_ifs
    · exact List.nil_subset _
    · exact List.append_subset.mpr ⟨List.subset_cons_of_subset _ (above_subset w t), by simp⟩
  | .binary rel o i => by
    have iho := above_subset w o
    have ihi := above_subset w i
    rw [above, Derivation.relations]
    split_ifs
    · exact List.nil_subset _
    · exact List.append_subset.mpr
        ⟨List.subset_cons_of_subset _ (List.subset_append_of_subset_left _ iho), by simp⟩
    · exact List.append_subset.mpr
        ⟨List.subset_cons_of_subset _ (List.subset_append_of_subset_right _ ihi), by simp⟩

/-! ### Climbing -/

/-- In the map of `g`, the relations lead from the variable up to `root`. -/
def Climbs (g : ProvenanceGraph) (root : IndexVar) : IndexVar → List IndexVarRel → Prop
  | w, [] => w = root
  | w, rel :: rels => g.parentRel? w = some rel ∧ Climbs g root rel.parentVar rels

section

variable {g : ProvenanceGraph}

theorem Climbs.append {root : IndexVar} {rel : IndexVarRel} (hp : g.parentRel? root = some rel) :
    ∀ {w : IndexVar} {rels : List IndexVarRel}, Climbs g root w rels → Climbs g rel.parentVar w (rels ++ [rel])
  | _, [], h => ⟨h ▸ hp, rfl⟩
  | _, _ :: _, ⟨h, hr⟩ => ⟨h, hr.append hp⟩

theorem climbs_above {w : IndexVar} : ∀ {t : Derivation}, Represents g t → t.labels.Nodup → w ∈ t.labels →
    Climbs g t.label w (above w t)
  | .leaf _, _, _, hw => List.mem_singleton.mp hw
  | .unary rel t, ⟨_, _, hp, ht⟩, hnd, hw => by
    rcases List.mem_cons.mp hw with rfl | hwt
    · rw [above, if_pos rfl]
      rfl
    · rw [above_unary hnd hwt]
      exact (climbs_above ht (List.nodup_cons.mp hnd).2 hwt).append hp
  | .binary rel o i, ⟨_, _, hpo, hpi, ho, hi⟩, hnd, hw => by
    obtain ⟨-, -, hndo, hndi, -⟩ := Derivation.nodup_binary hnd
    rcases List.mem_cons.mp hw with rfl | hwt
    · rw [above, if_pos rfl]
      rfl
    · rcases List.mem_append.mp hwt with hwo | hwi
      · rw [above_outer hnd hwo]
        exact (climbs_above ho hndo hwo).append hpo
      · rw [above_inner hnd hwi]
        exact (climbs_above hi hndi hwi).append hpi

theorem Climbs.getUnderivedAncestor {root : IndexVar} (hroot : g.parentRel? root = none) :
    ∀ {rels : List IndexVarRel} {w : IndexVar} {fuel : ℕ}, Climbs g root w rels → rels.length ≤ fuel →
      g.getUnderivedAncestor fuel w = root
  | [], _, 0, h, _ => h
  | [], w, fuel + 1, h, _ => by
    have h : w = root := h
    rw [ProvenanceGraph.getUnderivedAncestor, h, hroot]
  | rel :: rels, w, fuel + 1, ⟨hp, h⟩, hf => by
    rw [ProvenanceGraph.getUnderivedAncestor, hp]
    exact h.getUnderivedAncestor hroot (Nat.le_of_succ_le_succ hf)

theorem Climbs.isPosVariable {root : IndexVar} (hroot : g.parentRel? root = none) :
    ∀ {rels : List IndexVarRel} {w : IndexVar} {fuel : ℕ}, Climbs g root w rels → rels.length ≤ fuel →
      g.isPosVariable fuel w = rels.any IndexVarRel.isPos
  | [], _, 0, _, _ => rfl
  | [], w, fuel + 1, h, _ => by
    have h : w = root := h
    rw [ProvenanceGraph.isPosVariable, h, hroot]
    rfl
  | rel :: rels, w, fuel + 1, ⟨hp, h⟩, hf => by
    rw [ProvenanceGraph.isPosVariable, hp, List.any_cons]
    exact congrArg (rel.isPos || ·) (h.isPosVariable hroot (Nat.le_of_succ_le_succ hf))

/-! ### Bounds -/

variable {underivedBounds : IndexVar → Option Bounds} {variableExprs : IndexVar → Expr}

/-- The bounds of a variable below `rels`, from the bounds `b` of the root and its coordinate bounds `c`. -/
def derivedBounds (c : Bounds) : IndexVar → List IndexVarRel → Bounds → Bounds
  | _, [], b => b
  | w, rel :: rels, b => rel.deriveIterBounds w (derivedBounds c rel.parentVar rels b) c

/-- The coordinate bounds along `rels`, from the bounds `b` of the root. -/
def relativeBounds (variableExprs : IndexVar → Expr) (definedVars : List IndexVar) : List IndexVarRel → Bounds → Bounds
  | [], b => b
  | rel :: rels, b =>
    rel.computeRelativeBound definedVars (relativeBounds variableExprs definedVars rels b) variableExprs
      (rels.any IndexVarRel.isPos)

theorem derivedBounds_append {c : Bounds} {rel : IndexVarRel} {b : Bounds} : ∀ {rels : List IndexVarRel} {w root : IndexVar},
    Climbs g root w rels → derivedBounds c w (rels ++ [rel]) b = derivedBounds c w rels (rel.deriveIterBounds root b c)
  | [], w, root, h => by
    have h : w = root := h
    rw [h]
    rfl
  | rel' :: rels, w, root, ⟨_, h⟩ => by
    rw [List.cons_append, derivedBounds, derivedBounds_append h, derivedBounds]

/-- Positions are derived at the top only, where there are any. -/
theorem relativeBounds_append {definedVars : List IndexVar} {rel : IndexVarRel} {b : Bounds} (hrel : rel.isPos = false) :
    ∀ rels : List IndexVarRel, relativeBounds variableExprs definedVars (rels ++ [rel]) b =
      relativeBounds variableExprs definedVars rels (rel.computeRelativeBound definedVars b variableExprs false)
  | [] => rfl
  | rel' :: rels => by
    rw [List.cons_append, relativeBounds, relativeBounds_append hrel rels, relativeBounds, List.any_append, List.any_cons,
      List.any_nil, hrel, Bool.or_false, Bool.or_false]

theorem Climbs.relativeBound {root : IndexVar} (hroot : g.parentRel? root = none) {definedVars : List IndexVar} :
    ∀ {rels : List IndexVarRel} {w : IndexVar} {fuel : ℕ}, Climbs g root w rels → rels.length ≤ fuel →
      rels.length ≤ g.relations.length → g.relativeBound underivedBounds variableExprs definedVars fuel w =
        (underivedBounds root).map (relativeBounds variableExprs definedVars rels)
  | [], w, 0, h, _, _ => by
    have h : w = root := h
    rw [ProvenanceGraph.relativeBound, h]
    cases underivedBounds root <;> rfl
  | [], w, fuel + 1, h, _, _ => by
    have h : w = root := h
    rw [ProvenanceGraph.relativeBound, h, hroot]
    cases underivedBounds root <;> rfl
  | rel :: rels, w, fuel + 1, ⟨hp, h⟩, hf, hlen => by
    have hlen : rels.length ≤ g.relations.length := Nat.le_of_succ_le hlen
    rw [ProvenanceGraph.relativeBound, hp]
    dsimp only
    rw [h.relativeBound hroot (Nat.le_of_succ_le_succ hf) hlen, h.isPosVariable hroot hlen, Option.map_map]
    rfl

theorem Climbs.deriveIterBounds {root : IndexVar} (hroot : g.parentRel? root = none) {order : List IndexVar} {b c : Bounds}
    (hb : underivedBounds root = some b)
    (hc : g.deriveCoordBounds underivedBounds variableExprs order.dropLast root = some c) :
    ∀ {rels : List IndexVarRel} {w : IndexVar} {fuel : ℕ}, Climbs g root w rels → rels.length ≤ fuel →
      rels.length ≤ g.relations.length →
        g.deriveIterBounds underivedBounds variableExprs order fuel w = some (derivedBounds c w rels b)
  | [], w, 0, h, _, _ => by
    have h : w = root := h
    rw [ProvenanceGraph.deriveIterBounds, h, hb]
    rfl
  | [], w, fuel + 1, h, _, _ => by
    have h : w = root := h
    rw [ProvenanceGraph.deriveIterBounds, h, hroot]
    exact hb
  | rel :: rels, w, fuel + 1, ⟨hp, h⟩, hf, hlen => by
    have hlen : rels.length ≤ g.relations.length := Nat.le_of_succ_le hlen
    rw [ProvenanceGraph.deriveIterBounds, hp]
    dsimp only
    rw [h.deriveIterBounds hroot hb hc (Nat.le_of_succ_le_succ hf) hlen, h.getUnderivedAncestor hroot hlen, hc]
    rfl

end

/-! ### The walks on a graph of the tree -/

theorem newly_congr {defined defined' : List IndexVar} {v : IndexVar} : ∀ {t : Derivation},
    (∀ w ∈ t.leaves, w ∈ defined ↔ w ∈ defined') → newly defined v t = newly defined' v t
  | .leaf _, _ => rfl
  | .unary rel t, h => by
    have hsub : t.leaves ⊆ v :: defined ↔ t.leaves ⊆ v :: defined' :=
      forall_congr' fun w => forall_congr' fun hw => by rw [List.mem_cons, List.mem_cons, h w hw]
    simp only [newly, newly_congr (t := t) h, hsub]
  | .binary rel o i, h => by
    have hsub : o.leaves ++ i.leaves ⊆ v :: defined ↔ o.leaves ++ i.leaves ⊆ v :: defined' :=
      forall_congr' fun w => forall_congr' fun hw => by rw [List.mem_cons, List.mem_cons, h w hw]
    simp only [newly, newly_congr (t := o) fun w hw => h w (List.mem_append_left _ hw),
      newly_congr (t := i) fun w hw => h w (List.mem_append_right _ hw), hsub]

theorem covered_nil : ∀ t : Derivation, covered [] t = []
  | .leaf _ => rfl
  | .unary rel t => by
    rw [covered, covered_nil t, if_neg fun h => t.leaves_ne_nil (List.subset_nil.mp h)]
    rfl
  | .binary rel o i => by
    rw [covered, covered_nil o, covered_nil i,
      if_neg fun h => o.leaves_ne_nil (List.append_eq_nil_iff.mp (List.subset_nil.mp h)).1]
    rfl

/-- A covered variable has all leaves below it. -/
theorem parentVar_covered_unary {defined : List IndexVar} {rel : IndexVarRel} {t : Derivation}
    (hnd : (Derivation.unary rel t).labels.Nodup) (h : rel.parentVar ∈ covered defined (.unary rel t)) :
    t.leaves ⊆ defined := by
  rw [covered, List.mem_append] at h
  rcases h with h | h
  · exact absurd (t.inner_subset_labels (covered_subset_inner _ t h)) (List.nodup_cons.mp hnd).1
  · split_ifs at h with hsub
    · exact hsub
    · cases h

theorem parentVar_covered_binary {defined : List IndexVar} {rel : IndexVarRel} {o i : Derivation}
    (hnd : (Derivation.binary rel o i).labels.Nodup) (h : rel.parentVar ∈ covered defined (.binary rel o i)) :
    o.leaves ++ i.leaves ⊆ defined := by
  obtain ⟨hpo, hpi, -⟩ := Derivation.nodup_binary hnd
  rw [covered, List.mem_append, List.mem_append] at h
  rcases h with (h | h) | h
  · exact absurd (o.inner_subset_labels (covered_subset_inner _ o h)) hpo
  · exact absurd (i.inner_subset_labels (covered_subset_inner _ i h)) hpi
  · split_ifs at h with hsub
    · exact hsub
    · cases h

theorem Closed.of_covered {defined ds : List IndexVar} (hds : ds ⊆ defined) : ∀ {t : Derivation}, t.labels.Nodup →
    (∀ w ∈ t.inner, w ∈ defined → w ∈ covered ds t) → Closed defined t
  | .leaf _, _, _ => trivial
  | .unary rel t, hnd, h => by
    obtain ⟨hp, hndt⟩ := List.nodup_cons.mp hnd
    refine ⟨fun hd => List.Subset.trans (parentVar_covered_unary hnd (h _ List.mem_cons_self hd)) hds,
      of_covered hds hndt fun w hw hd => ?_⟩
    have hc := h w (List.mem_cons_of_mem _ hw) hd
    rw [covered, List.mem_append] at hc
    refine hc.resolve_right fun hc => ?_
    split_ifs at hc
    · exact hp (List.mem_singleton.mp hc ▸ t.inner_subset_labels hw)
    · cases hc
  | .binary rel o i, hnd, h => by
    obtain ⟨hpo, hpi, hndo, hndi, hdisj⟩ := Derivation.nodup_binary hnd
    have hcov : ∀ w, w ≠ rel.parentVar → w ∈ covered ds (.binary rel o i) → w ∈ covered ds o ∨ w ∈ covered ds i := by
      intro w hne hw
      rw [covered, List.mem_append, List.mem_append] at hw
      refine hw.resolve_right fun hw => ?_
      split_ifs at hw
      · exact hne (List.mem_singleton.mp hw)
      · cases hw
    refine ⟨fun hd => List.Subset.trans (parentVar_covered_binary hnd (h _ List.mem_cons_self hd)) hds,
      of_covered hds hndo fun w hw hd => ?_, of_covered hds hndi fun w hw hd => ?_⟩
    · have hlab := o.inner_subset_labels hw
      refine (hcov w (ne_of_mem_of_not_mem hlab hpo) (h w ?_ hd)).resolve_right fun hi => ?_
      · exact List.mem_cons_of_mem _ (List.mem_append_left _ hw)
      · exact hdisj w hlab (i.inner_subset_labels (covered_subset_inner _ i hi))
    · have hlab := i.inner_subset_labels hw
      refine (hcov w (ne_of_mem_of_not_mem hlab hpi) (h w ?_ hd)).resolve_left fun ho => ?_
      · exact List.mem_cons_of_mem _ (List.mem_append_right _ hw)
      · exact hdisj w (o.inner_subset_labels (covered_subset_inner _ o ho)) hlab

/-- Membership in the defined variables is all that matters. -/
theorem relativeBounds_congr {variableExprs : IndexVar → Expr} {definedVars definedVars' : List IndexVar}
    (h : ∀ w, w ∈ definedVars ↔ w ∈ definedVars') (b : Bounds) : ∀ rels : List IndexVarRel,
    relativeBounds variableExprs definedVars rels b = relativeBounds variableExprs definedVars' rels b
  | [] => rfl
  | rel :: rels => by
    rw [relativeBounds, relativeBounds, relativeBounds_congr h b rels]
    cases rel <;> simp only [IndexVarRel.computeRelativeBound, SplitRelNode.computeRelativeBound,
      DivideRelNode.computeRelativeBound, h]

namespace DerivedFrom

variable {g : ProvenanceGraph} {t : Derivation} (d : DerivedFrom g t)
variable {underivedBounds : IndexVar → Option Bounds} {variableExprs : IndexVar → Expr}

include d

theorem climbs {w : IndexVar} (hw : w ∈ t.labels) : Climbs g t.label w (above w t) :=
  climbs_above d.represents d.nodup hw

theorem length_above (w : IndexVar) : (above w t).length ≤ g.relations.length :=
  d.perm.length_eq ▸ length_above_le w t

theorem getUnderivedAncestor_eq {w : IndexVar} (hw : w ∈ t.labels) :
    g.getUnderivedAncestor g.relations.length w = t.label :=
  (d.climbs hw).getUnderivedAncestor d.parentRel?_root (d.length_above w)

theorem isPosVariable_eq {w : IndexVar} (hw : w ∈ t.labels) :
    g.isPosVariable g.relations.length w = (above w t).any IndexVarRel.isPos :=
  (d.climbs hw).isPosVariable d.parentRel?_root (d.length_above w)

theorem isUnderived_eq_false {w : IndexVar} (hw : w ∈ t.labels) (hne : w ≠ t.label) : g.isUnderived w = false := by
  have hclimbs := d.climbs hw
  cases habove : above w t with
  | nil =>
    rw [habove] at hclimbs
    exact absurd hclimbs hne
  | cons rel rels =>
    rw [habove] at hclimbs
    rw [ProvenanceGraph.isUnderived, getParents_eq hclimbs.1]
    rfl

/-- The bounds that the last of some leaves has given, after those before it are defined. -/
theorem coordBoundsFrom_eq (hroot : t.label ∉ t.leaves) {v : IndexVar} (hv : v ∈ t.leaves) :
    ∀ (ps ds : List IndexVar) (defined : List IndexVar) (computed : IndexVar → Option Bounds), ps ⊆ t.leaves →
      (ds ++ ps).Nodup → ds ⊆ t.leaves → (∀ u, u ∈ defined ↔ u ∈ ds ∨ u ∈ covered ds t) →
        g.coordBoundsFrom underivedBounds variableExprs defined computed (ps ++ [v]) t.label =
          (underivedBounds t.label).map
            (relativeBounds variableExprs (ds ++ ps ++ covered (ds ++ ps) t) (above v t))
  | [], ds, defined, computed, _, _, _, hdef => by
    have hlab := t.leaves_subset_labels hv
    have hsame : ∀ u, u ∈ defined ↔ u ∈ ds ++ [] ++ covered (ds ++ []) t := fun u => by
      rw [hdef, List.append_nil, List.mem_append]
    rw [List.nil_append, ProvenanceGraph.coordBoundsFrom,
      d.isUnderived_eq_false hlab fun he => hroot (he ▸ hv)]
    dsimp only [List.isEmpty_nil, if_true, Bool.false_eq_true, if_false, ProvenanceGraph.coordBoundsFrom]
    rw [if_neg Bool.false_ne_true, d.getUnderivedAncestor_eq hlab, Function.update_self,
      (d.climbs hlab).relativeBound d.parentRel?_root (d.length_above v) (d.length_above v)]
    exact congrArg (fun f => (underivedBounds t.label).map f) (funext fun b => relativeBounds_congr hsame b _)
  | p :: ps, ds, defined, computed, hps, hnd, hds, hdef => by
    obtain ⟨hp, hps⟩ := List.cons_subset.mp hps
    have hpds : p ∉ ds := fun h => (List.nodup_append.mp hnd).2.2 p h p List.mem_cons_self rfl
    have hpdef : p ∉ defined := fun h => by
      rcases (hdef p).mp h with h | h
      · exact hpds h
      · exact Derivation.not_mem_leaves_of_inner d.nodup (covered_subset_inner _ t h) hp
    have hleaf : ∀ w ∈ t.leaves, w ∈ defined ↔ w ∈ ds := fun w hw => (hdef w).trans
      (or_iff_left fun h => Derivation.not_mem_leaves_of_inner d.nodup (covered_subset_inner _ t h) hw)
    have hclosed : Closed defined t := Closed.of_covered (fun w hw => (hdef w).mpr (.inl hw)) d.nodup fun w hw hd =>
      ((hdef w).mp hd).resolve_left fun hw' => Derivation.not_mem_leaves_of_inner d.nodup hw (hds hw')
    have hne : (ps ++ [v]).isEmpty = false := by cases ps <;> rfl
    rw [List.cons_append, ProvenanceGraph.coordBoundsFrom, hne,
      d.isUnderived_eq_false (t.leaves_subset_labels hp) fun he => hroot (he ▸ hp)]
    rw [if_neg Bool.false_ne_true, if_neg Bool.false_ne_true, d.newlyRecoverableParents hclosed hp hpdef,
      newly_congr hleaf, coordBoundsFrom_eq hroot hv ps (ds ++ [p]) _ _ hps]
    · simp only [List.append_assoc, List.singleton_append]
    · rwa [List.append_assoc]
    · exact List.append_subset.mpr ⟨hds, List.cons_subset.mpr ⟨hp, List.nil_subset _⟩⟩
    · intro u
      rw [covered_concat, mem_covered_cons d.nodup hp hpds,
        List.mem_cons, List.mem_append, List.mem_append, List.mem_singleton, hdef]
      show _ ∨ u ∈ newParents ds p t ∨ _ ↔ _
      tauto

/-- The coordinate bounds of the root at a point of the nest. -/
theorem deriveCoordBounds_eq {ps : List IndexVar} {v : IndexVar} (hv : v ∈ t.leaves) (hps : ps ⊆ t.leaves)
    (hnd : (ps ++ [v]).Nodup) :
    g.deriveCoordBounds underivedBounds variableExprs (ps ++ [v]) t.label =
      (underivedBounds t.label).map (relativeBounds variableExprs (ps ++ covered ps t) (above v t)) := by
  by_cases hroot : t.label ∈ t.leaves
  · cases t with
    | leaf r =>
      -- The only variable is iterated itself.
      obtain rfl : v = r := List.mem_singleton.mp hv
      have hnil : ps = [] := List.eq_nil_iff_forall_not_mem.mpr fun w hw =>
        (List.nodup_append.mp hnd).2.2 w hw v (List.mem_singleton_self v) (List.mem_singleton.mp (hps hw))
      have hu : g.isUnderived v = true := by
        have h : g.parentRel? v = none := d.parentRel?_root
        rw [ProvenanceGraph.isUnderived, ProvenanceGraph.getParents, h]
        rfl
      subst hnil
      rw [ProvenanceGraph.deriveCoordBounds, List.nil_append, ProvenanceGraph.coordBoundsFrom, if_pos hu]
      exact Option.map_id'.symm
    | unary rel t => exact absurd hroot (Derivation.not_mem_leaves_of_inner d.nodup List.mem_cons_self)
    | binary rel o i => exact absurd hroot (Derivation.not_mem_leaves_of_inner d.nodup List.mem_cons_self)
  · rw [ProvenanceGraph.deriveCoordBounds, d.coordBoundsFrom_eq hroot hv ps [] [] _ hps (List.nodup_append.mp hnd).1
      (List.nil_subset _) fun u => by rw [covered_nil]; simp]
    rfl

end DerivedFrom

end Scheduling
end Taco
