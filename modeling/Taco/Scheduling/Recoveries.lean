import Taco.Scheduling.Derivations

/-! The variables that become recoverable with each loop. -/

namespace Taco
namespace Scheduling

section

variable {g : ProvenanceGraph}

theorem getChildren_eq {v : IndexVar} {rel : IndexVarRel} (h : g.childRel? v = some rel) :
    g.getChildren v = rel.getChildren := by
  rw [ProvenanceGraph.getChildren, h]

theorem getParents_eq {v : IndexVar} {rel : IndexVarRel} (h : g.parentRel? v = some rel) :
    g.getParents v = [rel.parentVar] := by
  rw [ProvenanceGraph.getParents, h]

/-! ### Recoverable variables -/

/-- A recovered variable is defined only where the leaves below it are. -/
def Closed (defined : List IndexVar) : Derivation → Prop
  | .leaf _ => True
  | .unary rel t => (rel.parentVar ∈ defined → t.leaves ⊆ defined) ∧ Closed defined t
  | .binary rel o i => (rel.parentVar ∈ defined → o.leaves ++ i.leaves ⊆ defined) ∧ Closed defined o ∧ Closed defined i

theorem Closed.of_inner {defined : List IndexVar} : ∀ {t : Derivation}, (∀ w ∈ t.inner, w ∉ defined) → Closed defined t
  | .leaf _, _ => trivial
  | .unary _ _, h => ⟨fun hw => absurd hw (h _ List.mem_cons_self), of_inner fun w hw => h w (List.mem_cons_of_mem _ hw)⟩
  | .binary _ _ _, h => ⟨fun hw => absurd hw (h _ List.mem_cons_self),
      of_inner fun w hw => h w (List.mem_cons_of_mem _ (List.mem_append_left _ hw)),
      of_inner fun w hw => h w (List.mem_cons_of_mem _ (List.mem_append_right _ hw))⟩

theorem Closed.cons {defined : List IndexVar} {c : IndexVar} : ∀ {t : Derivation}, c ∉ t.inner → Closed defined t →
    Closed (c :: defined) t
  | .leaf _, _, _ => trivial
  | .unary _ _, hc, ⟨hv, ht⟩ => by
    obtain ⟨hne, hc⟩ := not_or.mp (fun h => hc (List.mem_cons.mpr h))
    refine ⟨fun hw => List.subset_cons_of_subset _ (hv ((List.mem_cons.mp hw).resolve_left (Ne.symm hne))), ht.cons hc⟩
  | .binary _ _ _, hc, ⟨hv, ho, hi⟩ => by
    obtain ⟨hne, hc⟩ := not_or.mp (fun h => hc (List.mem_cons.mpr h))
    refine ⟨fun hw => List.subset_cons_of_subset _ (hv ((List.mem_cons.mp hw).resolve_left (Ne.symm hne))),
      ho.cons fun h => hc (List.mem_append_left _ h), hi.cons fun h => hc (List.mem_append_right _ h)⟩

/-- A child passes the test of `isRecoverable`. -/
def childRecoverable (g : ProvenanceGraph) (defined : List IndexVar) (fuel : ℕ) (child : IndexVar) : Bool :=
  defined.contains child || (!g.isFullyDerived child && g.isRecoverable defined fuel child)

theorem isRecoverable_unary {defined : List IndexVar} {fuel : ℕ} {rel : IndexVarRel} {c : IndexVar}
    (h : g.childRel? rel.parentVar = some rel) (hc : rel.getChildren = [c]) :
    g.isRecoverable defined (fuel + 1) rel.parentVar = childRecoverable g defined fuel c := by
  rw [ProvenanceGraph.isRecoverable, getChildren_eq h, hc]
  simp only [List.all_cons, List.all_nil, Bool.and_true, childRecoverable]

theorem isRecoverable_binary {defined : List IndexVar} {fuel : ℕ} {rel : IndexVarRel} {c c' : IndexVar}
    (h : g.childRel? rel.parentVar = some rel) (hc : rel.getChildren = [c, c']) :
    g.isRecoverable defined (fuel + 1) rel.parentVar =
      (childRecoverable g defined fuel c && childRecoverable g defined fuel c') := by
  rw [ProvenanceGraph.isRecoverable, getChildren_eq h, hc]
  simp only [List.all_cons, List.all_nil, Bool.and_true, childRecoverable]

theorem childRecoverable_of_mem {defined : List IndexVar} {fuel : ℕ} {c : IndexVar} (h : c ∈ defined) :
    childRecoverable g defined fuel c = true := by
  rw [childRecoverable, List.contains_iff_mem.mpr h, Bool.true_or]

theorem childRecoverable_inner {defined : List IndexVar} {fuel : ℕ} {rel : IndexVarRel}
    (h : g.childRel? rel.parentVar = some rel) (hne : rel.getChildren ≠ []) :
    childRecoverable g defined fuel rel.parentVar =
      (defined.contains rel.parentVar || g.isRecoverable defined fuel rel.parentVar) := by
  have hf : g.isFullyDerived rel.parentVar = false := by
    rw [ProvenanceGraph.isFullyDerived, getChildren_eq h]
    cases hc : rel.getChildren with
    | nil => exact absurd hc hne
    | cons => rfl
  rw [childRecoverable, hf, Bool.not_false, Bool.true_and]

/-- A child passes the test once all leaves below it are defined. -/
theorem childRecoverable_iff {defined : List IndexVar} : ∀ {t : Derivation} {fuel : ℕ}, Represents g t →
    t.height ≤ fuel → Closed defined t → (childRecoverable g defined fuel t.label = true ↔ t.leaves ⊆ defined)
  | .leaf v, fuel, h, _, _ => by
    have hf : g.isFullyDerived v = true := by
      have h : g.childRel? v = none := h
      rw [ProvenanceGraph.isFullyDerived, ProvenanceGraph.getChildren, h]
      rfl
    simp only [childRecoverable, Derivation.label, hf, Bool.not_true, Bool.false_and, Bool.or_false, Derivation.leaves,
      List.contains_iff_mem, List.cons_subset, List.nil_subset, and_true]
  | .unary rel t, fuel + 1, ⟨hc, hch, _, ht⟩, hf, ⟨hv, hcl⟩ => by
    have ih := childRecoverable_iff ht (Nat.le_of_succ_le_succ hf) hcl
    rw [Derivation.label, childRecoverable_inner hc (by rw [hch]; exact List.cons_ne_nil _ _), isRecoverable_unary hc hch,
      Bool.or_eq_true, ih, List.contains_iff_mem, Derivation.leaves]
    exact ⟨fun h => h.elim hv id, .inr⟩
  | .binary rel o i, fuel + 1, ⟨hc, hch, _, _, ho, hi⟩, hf, ⟨hv, hclo, hcli⟩ => by
    rw [Derivation.height, Nat.add_le_add_iff_right, Nat.max_le] at hf
    have iho := childRecoverable_iff ho hf.1 hclo
    have ihi := childRecoverable_iff hi hf.2 hcli
    rw [Derivation.label, childRecoverable_inner hc (by rw [hch]; exact List.cons_ne_nil _ _), isRecoverable_binary hc hch,
      Bool.or_eq_true, Bool.and_eq_true, iho, ihi, List.contains_iff_mem, Derivation.leaves]
    exact ⟨fun h => h.elim hv List.append_subset.mpr, fun h => .inr (List.append_subset.mp h)⟩

theorem not_isRecoverable {defined : List IndexVar} {t : Derivation} {rel : IndexVarRel} {v : IndexVar}
    (hr : Represents g t) (hlen : t.height ≤ g.relations.length) (hcl : Closed defined t) (hl : t.label = rel.parentVar)
    (hc : g.childRel? rel.parentVar = some rel) (hne : rel.getChildren ≠ []) (hv : v ∈ t.leaves) (hvd : v ∉ defined) :
    g.isRecoverable defined g.relations.length rel.parentVar = false := by
  rw [Bool.eq_false_iff]
  intro h
  refine hvd ((childRecoverable_iff hr hlen hcl).mp ?_ hv)
  rw [hl, childRecoverable_inner hc hne, h, Bool.or_true]

/-! ### Newly recoverable parents -/

/-- The relations whose parents become recoverable when the leaf `v` is defined after `defined`, from `v` upwards. -/
def newly (defined : List IndexVar) (v : IndexVar) : Derivation → List IndexVarRel
  | .leaf _ => []
  | .unary rel t => newly defined v t ++ if t.leaves ⊆ v :: defined then [rel] else []
  | .binary rel o i =>
    (if v ∈ o.leaves then newly defined v o else newly defined v i) ++
      if o.leaves ++ i.leaves ⊆ v :: defined then [rel] else []

/-- How many relations lie between the root of the tree and its leaf `v`. -/
def depth (v : IndexVar) : Derivation → ℕ
  | .leaf _ => 0
  | .unary _ t => depth v t + 1
  | .binary _ o i => (if v ∈ o.leaves then depth v o else depth v i) + 1

theorem depth_le_height (v : IndexVar) : ∀ t : Derivation, depth v t ≤ t.height
  | .leaf _ => Nat.le_refl 0
  | .unary _ t => Nat.succ_le_succ (depth_le_height v t)
  | .binary _ o i => by
    have ho := depth_le_height v o
    have hi := depth_le_height v i
    rw [depth, Derivation.height]
    split <;> omega

theorem newlyRecoverableParents_succ {defined : List IndexVar} {fuel : ℕ} {v : IndexVar} {rel : IndexVarRel}
    (h : g.parentRel? v = some rel) :
    g.newlyRecoverableParents defined (fuel + 1) v =
      if !g.isRecoverable defined g.relations.length rel.parentVar &&
          g.isRecoverable (v :: defined) g.relations.length rel.parentVar then
        rel.parentVar :: g.newlyRecoverableParents defined fuel rel.parentVar
      else [] := by
  rw [ProvenanceGraph.newlyRecoverableParents, getParents_eq h, List.flatMap_cons, List.flatMap_nil, List.append_nil]

/-- A variable outside the leaves of a tree does not help to define them. -/
theorem leaves_subset_cons_iff {defined : List IndexVar} {v : IndexVar} {t : Derivation} (h : v ∉ t.leaves) :
    t.leaves ⊆ v :: defined ↔ t.leaves ⊆ defined :=
  ⟨fun hs _ hw => (List.mem_cons.mp (hs hw)).resolve_left fun he => h (he ▸ hw), List.subset_cons_of_subset v⟩

/-- The step from the only child to its parent. -/
theorem newlyRecoverableParents_unary (fuel : ℕ) {defined : List IndexVar} {rel : IndexVarRel} {c : IndexVar}
    (hc : g.childRel? rel.parentVar = some rel) (hch : rel.getChildren = [c]) (hp : g.parentRel? c = some rel)
    (hlen : 0 < g.relations.length) (hno : g.isRecoverable defined g.relations.length rel.parentVar = false) :
    g.newlyRecoverableParents defined (fuel + 1) c = rel.parentVar :: g.newlyRecoverableParents defined fuel rel.parentVar := by
  obtain ⟨m, hm⟩ := Nat.exists_eq_add_one.mpr hlen
  have hyes : g.isRecoverable (c :: defined) g.relations.length rel.parentVar = true := by
    rw [hm, isRecoverable_unary hc hch]
    exact childRecoverable_of_mem List.mem_cons_self
  rw [newlyRecoverableParents_succ hp, hno, hyes]
  rfl

/-- The step from a child `c` to its parent, when `s` is the tree of the other child. -/
theorem newlyRecoverableParents_binary (fuel : ℕ) {defined : List IndexVar} {rel : IndexVarRel} {c : IndexVar}
    {s : Derivation} (hc : g.childRel? rel.parentVar = some rel)
    (hch : rel.getChildren = [c, s.label] ∨ rel.getChildren = [s.label, c]) (hp : g.parentRel? c = some rel)
    (hr : Represents g s) (hlen : s.height < g.relations.length) (hcl : Closed defined s) (hdisj : c ∉ s.labels)
    (hno : g.isRecoverable defined g.relations.length rel.parentVar = false) :
    g.newlyRecoverableParents defined (fuel + 1) c =
      if s.leaves ⊆ defined then rel.parentVar :: g.newlyRecoverableParents defined fuel rel.parentVar else [] := by
  obtain ⟨m, hm⟩ : ∃ m, g.relations.length = m + 1 := Nat.exists_eq_add_one.mpr (by omega)
  have hself : childRecoverable g (c :: defined) m c = true := childRecoverable_of_mem List.mem_cons_self
  have hother := childRecoverable_iff hr (by omega : s.height ≤ m) (hcl.cons fun h => hdisj (s.inner_subset_labels h))
  rw [leaves_subset_cons_iff fun h => hdisj (s.leaves_subset_labels h)] at hother
  have hyes : g.isRecoverable (c :: defined) g.relations.length rel.parentVar = true ↔ s.leaves ⊆ defined := by
    rw [hm]
    rcases hch with hch | hch
    · rw [isRecoverable_binary hc hch, hself, Bool.true_and, hother]
    · rw [isRecoverable_binary hc hch, hself, Bool.and_true, hother]
  rw [newlyRecoverableParents_succ hp, hno, Bool.not_false, Bool.true_and]
  exact if_congr hyes rfl rfl

/-- On the tree, `newlyRecoverableParents` is `newly`, followed by what lies above the tree when all of it is
    defined. -/
theorem newlyRecoverableParents_eq {defined : List IndexVar} {v : IndexVar} (hvd : v ∉ defined) :
    ∀ {t : Derivation} {k : ℕ}, Represents g t → t.labels.Nodup → t.height ≤ g.relations.length →
      Closed defined t → v ∈ t.leaves →
      g.newlyRecoverableParents defined (k + depth v t) v =
        (newly defined v t).map IndexVarRel.parentVar ++
          if t.leaves ⊆ v :: defined then g.newlyRecoverableParents defined k t.label else []
  | .leaf _, fuel, _, _, _, _, hv => by
    obtain rfl : v = _ := List.mem_singleton.mp hv
    simp [depth, newly, Derivation.leaves, Derivation.label]
  | .unary rel t, fuel, hr, hnd, hlen, hcl, hv => by
    have hno := not_isRecoverable hr hlen hcl rfl hr.1 (by rw [hr.2.1]; exact List.cons_ne_nil _ _) hv hvd
    obtain ⟨hc, hch, hp, ht⟩ := hr
    rw [Derivation.height] at hlen
    have ih := newlyRecoverableParents_eq hvd (k := fuel + 1) ht (List.nodup_cons.mp hnd).2 (by omega) hcl.2 hv
    rw [newlyRecoverableParents_unary fuel hc hch hp (by omega) hno] at ih
    rw [depth, Nat.add_comm (depth v t), ← Nat.add_assoc, ih, newly, Derivation.leaves, Derivation.label]
    split_ifs <;> simp
  | .binary rel o i, fuel, hr, hnd, hlen, hcl, hv => by
    have hno := not_isRecoverable hr hlen hcl rfl hr.1 (by rw [hr.2.1]; exact List.cons_ne_nil _ _) hv hvd
    obtain ⟨hc, hch, hpo, hpi, ho, hi⟩ := hr
    obtain ⟨-, -, hndo, hndi, hdisj⟩ := Derivation.nodup_binary hnd
    rw [Derivation.height] at hlen
    have tail : ∀ (l u : List IndexVar) (p q : Prop) [Decidable p] [Decidable q] [Decidable (p ∧ q)],
        (l ++ if p then (if q then rel.parentVar :: u else []) else []) =
          (l ++ if p ∧ q then [rel.parentVar] else []) ++ if p ∧ q then u else [] := fun l u p q => by
      by_cases hp : p <;> by_cases hq : q <;> simp [hp, hq]
    by_cases hvo : v ∈ o.leaves
    · have hvi : v ∉ i.leaves := fun h => Derivation.not_mem_outer hnd h hvo
      have hstep := newlyRecoverableParents_binary fuel hc (.inl hch) hpo hi (by omega) hcl.2.2
        (hdisj _ o.label_mem_labels) hno
      have ih := newlyRecoverableParents_eq hvd (k := fuel + 1) ho hndo (by omega) hcl.2.1 hvo
      rw [hstep] at ih
      rw [depth, if_pos hvo, newly, if_pos hvo, Nat.add_comm (depth v o), ← Nat.add_assoc, ih]
      simp only [Derivation.leaves, Derivation.label, List.append_subset, leaves_subset_cons_iff hvi, List.map_append,
        apply_ite (List.map IndexVarRel.parentVar), List.map_cons, List.map_nil]
      exact tail _ _ _ _
    · have hvi : v ∈ i.leaves := (List.mem_append.mp hv).resolve_left hvo
      have hstep := newlyRecoverableParents_binary fuel hc (.inr hch) hpi ho (by omega) hcl.2.1
        (fun h => hdisj _ h i.label_mem_labels) hno
      have ih := newlyRecoverableParents_eq hvd (k := fuel + 1) hi hndi (by omega) hcl.2.2 hvi
      rw [hstep] at ih
      rw [depth, if_neg hvo, newly, if_neg hvo, Nat.add_comm (depth v i), ← Nat.add_assoc, ih]
      simp only [Derivation.leaves, Derivation.label, List.append_subset, leaves_subset_cons_iff hvo, List.map_append,
        apply_ite (List.map IndexVarRel.parentVar), List.map_cons, List.map_nil, and_comm (a := o.leaves ⊆ defined)]
      exact tail _ _ _ _

end

/-- On a graph of the tree, the newly recoverable parents are those of the tree. -/
theorem DerivedFrom.newlyRecoverableParents {g : ProvenanceGraph} {t : Derivation} (d : DerivedFrom g t)
    {defined : List IndexVar} {v : IndexVar} (hcl : Closed defined t) (hv : v ∈ t.leaves) (hvd : v ∉ defined) :
    g.newlyRecoverableParents defined g.relations.length v = (newly defined v t).map IndexVarRel.parentVar := by
  obtain ⟨fuel, hfuel⟩ : ∃ fuel, g.relations.length = fuel + depth v t :=
    ⟨g.relations.length - depth v t, by have := depth_le_height v t; have := d.height_le; omega⟩
  have hnone : g.newlyRecoverableParents defined fuel t.label = [] := by
    cases fuel with
    | zero => rfl
    | succ fuel => simp [ProvenanceGraph.newlyRecoverableParents, ProvenanceGraph.getParents, d.parentRel?_root]
  rw [hfuel, newlyRecoverableParents_eq hvd d.represents d.nodup d.height_le hcl hv, hnone, ite_self, List.append_nil]

end Scheduling
end Taco
