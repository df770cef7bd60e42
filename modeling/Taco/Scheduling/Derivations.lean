import Taco.Scheduling.GuardedNest

/-! The tree of the variables that are derived from one underived variable. On a graph that holds the relations of
    the tree, the walks of the source are recursions over the tree. -/

namespace Taco
namespace Scheduling

/-- A variable that is iterated itself, or one that relations derive one or two variables from. -/
inductive Derivation where
  | leaf (v : IndexVar)
  | unary (rel : IndexVarRel) (child : Derivation)
  | binary (rel : IndexVarRel) (outer inner : Derivation)

namespace Derivation

def label : Derivation → IndexVar
  | leaf v => v
  | unary rel _ | binary rel _ _ => rel.parentVar

/-- The variables that are iterated, outermost first. -/
@[grind =]
def leaves : Derivation → List IndexVar
  | leaf v => [v]
  | unary _ t => t.leaves
  | binary _ o i => o.leaves ++ i.leaves

/-- The variables that are recovered. -/
def inner : Derivation → List IndexVar
  | leaf _ => []
  | unary rel t => rel.parentVar :: t.inner
  | binary rel o i => rel.parentVar :: (o.inner ++ i.inner)

@[grind =]
def labels : Derivation → List IndexVar
  | leaf v => [v]
  | unary rel t => rel.parentVar :: t.labels
  | binary rel o i => rel.parentVar :: (o.labels ++ i.labels)

@[grind =]
def relations : Derivation → List IndexVarRel
  | leaf _ => []
  | unary rel t => rel :: t.relations
  | binary rel o i => rel :: (o.relations ++ i.relations)

/-- Each relation derives the labels of the subtrees below it. -/
def Linked : Derivation → Prop
  | leaf _ => True
  | unary rel t => rel.getChildren = [t.label] ∧ t.Linked
  | binary rel o i => rel.getChildren = [o.label, i.label] ∧ o.Linked ∧ i.Linked

def height : Derivation → ℕ
  | leaf _ => 0
  | unary _ t => t.height + 1
  | binary _ o i => max o.height i.height + 1

theorem label_mem_labels : ∀ t : Derivation, t.label ∈ t.labels
  | leaf _ => List.mem_singleton_self _
  | unary .. | binary .. => List.mem_cons_self

theorem leaves_ne_nil : ∀ t : Derivation, t.leaves ≠ []
  | leaf _ => List.cons_ne_nil _ _
  | unary _ t => t.leaves_ne_nil
  | binary _ o _ => List.append_ne_nil_of_left_ne_nil o.leaves_ne_nil _

theorem leaves_subset_labels : ∀ t : Derivation, t.leaves ⊆ t.labels
  | leaf _ => List.Subset.refl _
  | unary _ t => List.subset_cons_of_subset _ t.leaves_subset_labels
  | binary _ o i => List.subset_cons_of_subset _
      (List.append_subset.mpr ⟨List.subset_append_of_subset_left _ o.leaves_subset_labels,
        List.subset_append_of_subset_right _ i.leaves_subset_labels⟩)

theorem leaves_sublist_labels : ∀ t : Derivation, t.leaves.Sublist t.labels
  | leaf _ => List.Sublist.refl _
  | unary _ t => t.leaves_sublist_labels.cons _
  | binary _ o i => (o.leaves_sublist_labels.append i.leaves_sublist_labels).cons _

theorem inner_subset_labels : ∀ t : Derivation, t.inner ⊆ t.labels
  | leaf _ => List.nil_subset _
  | unary _ t => List.cons_subset_cons _ t.inner_subset_labels
  | binary _ o i => List.cons_subset_cons _
      (List.append_subset.mpr ⟨List.subset_append_of_subset_left _ o.inner_subset_labels,
        List.subset_append_of_subset_right _ i.inner_subset_labels⟩)

theorem mem_labels {w : IndexVar} : ∀ {t : Derivation}, w ∈ t.labels → w ∈ t.leaves ∨ w ∈ t.inner
  | leaf _, h => .inl h
  | unary _ t, h => by
    rcases List.mem_cons.mp h with rfl | h
    · exact .inr List.mem_cons_self
    · exact (mem_labels h).imp_right (List.mem_cons_of_mem _)
  | binary _ o i, h => by
    rcases List.mem_cons.mp h with rfl | h
    · exact .inr List.mem_cons_self
    · rcases List.mem_append.mp h with h | h
      · exact (mem_labels h).imp (List.mem_append_left _) fun h => List.mem_cons_of_mem _ (List.mem_append_left _ h)
      · exact (mem_labels h).imp (List.mem_append_right _) fun h => List.mem_cons_of_mem _ (List.mem_append_right _ h)

theorem height_le : ∀ t : Derivation, t.height ≤ t.relations.length
  | leaf _ => Nat.le_refl 0
  | unary _ t => Nat.succ_le_succ t.height_le
  | binary _ o i => by
    have ho := o.height_le
    have hi := i.height_le
    rw [height, relations, List.length_cons, List.length_append]
    omega

/-- Labels of the two parts of a tree are different, and none is the label of the tree. -/
theorem nodup_binary {rel : IndexVarRel} {o i : Derivation} (h : (binary rel o i).labels.Nodup) :
    rel.parentVar ∉ o.labels ∧ rel.parentVar ∉ i.labels ∧ o.labels.Nodup ∧ i.labels.Nodup ∧
      ∀ w ∈ o.labels, w ∉ i.labels := by
  obtain ⟨hv, hnd⟩ := List.nodup_cons.mp h
  rw [List.mem_append, not_or] at hv
  obtain ⟨ho, hi, hoi⟩ := List.nodup_append.mp hnd
  exact ⟨hv.1, hv.2, ho, hi, fun w hw hw' => hoi w hw w hw' rfl⟩

/-- A recovered variable is not iterated. -/
theorem not_mem_leaves_of_inner {w : IndexVar} : ∀ {t : Derivation}, t.labels.Nodup → w ∈ t.inner → w ∉ t.leaves
  | leaf _, _, hw, _ => by cases hw
  | unary rel t, hnd, hw, hl => by
    obtain ⟨hv, hnd⟩ := List.nodup_cons.mp hnd
    rcases List.mem_cons.mp hw with rfl | hw
    · exact hv (t.leaves_subset_labels hl)
    · exact not_mem_leaves_of_inner hnd hw hl
  | binary rel o i, hnd, hw, hl => by
    obtain ⟨hvo, hvi, hndo, hndi, hdisj⟩ := nodup_binary hnd
    rcases List.mem_cons.mp hw with rfl | hw
    · exact (List.mem_append.mp hl).elim (fun h => hvo (o.leaves_subset_labels h)) fun h => hvi (i.leaves_subset_labels h)
    · rcases List.mem_append.mp hw with hw | hw
      · rcases List.mem_append.mp hl with hl | hl
        · exact not_mem_leaves_of_inner hndo hw hl
        · exact hdisj w (o.inner_subset_labels hw) (i.leaves_subset_labels hl)
      · rcases List.mem_append.mp hl with hl | hl
        · exact hdisj w (o.leaves_subset_labels hl) (i.inner_subset_labels hw)
        · exact not_mem_leaves_of_inner hndi hw hl

/-- A leaf of the inner part is none of the outer part. -/
theorem not_mem_outer {w : IndexVar} {rel : IndexVarRel} {o i : Derivation} (h : (binary rel o i).labels.Nodup)
    (hw : w ∈ i.leaves) : w ∉ o.leaves := fun hw' =>
  (nodup_binary h).2.2.2.2 w (o.leaves_subset_labels hw') (i.leaves_subset_labels hw)

end Derivation

/-! ### Graphs of a tree -/

/-- The maps of `g` hold the nodes of the tree. -/
def Represents (g : ProvenanceGraph) : Derivation → Prop
  | .leaf v => g.childRel? v = none
  | .unary rel t =>
    g.childRel? rel.parentVar = some rel ∧ rel.getChildren = [t.label] ∧ g.parentRel? t.label = some rel ∧ Represents g t
  | .binary rel o i =>
    g.childRel? rel.parentVar = some rel ∧ rel.getChildren = [o.label, i.label] ∧ g.parentRel? o.label = some rel ∧
      g.parentRel? i.label = some rel ∧ Represents g o ∧ Represents g i

/-- A graph whose relations are those of a tree with distinct labels. -/
structure DerivedFrom (g : ProvenanceGraph) (t : Derivation) : Prop where
  perm : g.relations.Perm t.relations
  linked : t.Linked
  nodup : t.labels.Nodup

theorem find?_eq_of_unique {α : Type} {p : α → Bool} {l : List α} {a : α} (ha : a ∈ l) (hp : p a = true)
    (h : ∀ b ∈ l, p b = true → b = a) : l.find? p = some a := by
  cases hf : l.find? p with
  | none => exact absurd hp (List.find?_eq_none.mp hf a ha)
  | some b => rw [h b (List.mem_of_find?_eq_some hf) (List.find?_some hf)]

theorem Derivation.parentVar_mem : ∀ {t : Derivation} {rel : IndexVarRel}, rel ∈ t.relations → rel.parentVar ∈ t.inner
  | .leaf _, _, h => by cases h
  | .unary _ t, _, h => by
    rcases List.mem_cons.mp h with rfl | h
    · exact List.mem_cons_self
    · exact List.mem_cons_of_mem _ (parentVar_mem h)
  | .binary _ o i, _, h => by
    rcases List.mem_cons.mp h with rfl | h
    · exact List.mem_cons_self
    · refine List.mem_cons_of_mem _ (List.mem_append.mpr ?_)
      exact (List.mem_append.mp h).imp parentVar_mem parentVar_mem

/-- The children of a relation of the tree are labels of the tree below its root. -/
theorem Derivation.child_mem : ∀ {t : Derivation} {rel : IndexVarRel} {c : IndexVar}, t.Linked → rel ∈ t.relations →
    c ∈ rel.getChildren → c ∈ t.labels.tail
  | .leaf _, _, _, _, h, _ => by cases h
  | .unary rel t, rel', c, hl, h, hc => by
    rcases List.mem_cons.mp h with rfl | h
    · rw [hl.1, List.mem_singleton] at hc
      exact hc ▸ t.label_mem_labels
    · exact List.mem_of_mem_tail (child_mem hl.2 h hc)
  | .binary rel o i, rel', c, hl, h, hc => by
    show c ∈ o.labels ++ i.labels
    rcases List.mem_cons.mp h with rfl | h
    · rw [hl.1] at hc
      rcases List.mem_cons.mp hc with rfl | hc
      · exact List.mem_append_left _ o.label_mem_labels
      · rw [List.mem_singleton.mp hc]
        exact List.mem_append_right _ i.label_mem_labels
    · rcases List.mem_append.mp h with h | h
      · exact List.mem_append_left _ (List.mem_of_mem_tail (child_mem hl.2.1 h hc))
      · exact List.mem_append_right _ (List.mem_of_mem_tail (child_mem hl.2.2 h hc))

theorem Derivation.label_eq_head (t : Derivation) : t.labels = t.label :: t.labels.tail := by
  cases t <;> rfl

/-- The label of a tree is no child of a relation in it. -/
theorem Derivation.label_not_child {t : Derivation} {rel : IndexVarRel} (hl : t.Linked) (hnd : t.labels.Nodup)
    (h : rel ∈ t.relations) : t.label ∉ rel.getChildren := fun hc => by
  rw [t.label_eq_head] at hnd
  exact (List.nodup_cons.mp hnd).1 (child_mem hl h hc)

theorem Derivation.eq_of_parentVar_eq : ∀ {t : Derivation} {rel rel' : IndexVarRel}, t.labels.Nodup →
    rel ∈ t.relations → rel' ∈ t.relations → rel.parentVar = rel'.parentVar → rel = rel'
  | .leaf _, _, _, _, h, _, _ => by cases h
  | .unary r t, rel, rel', hnd, h, h', heq => by
    obtain ⟨hv, hnd⟩ := List.nodup_cons.mp hnd
    have hne : ∀ x ∈ t.relations, r.parentVar ≠ x.parentVar := fun x hx he =>
      hv (he ▸ t.inner_subset_labels (parentVar_mem hx))
    rcases List.mem_cons.mp h with rfl | ht <;> rcases List.mem_cons.mp h' with rfl | ht'
    · rfl
    · exact absurd heq (hne _ ht')
    · exact absurd heq.symm (hne _ ht)
    · exact eq_of_parentVar_eq hnd ht ht' heq
  | .binary r o i, rel, rel', hnd, h, h', heq => by
    obtain ⟨hvo, hvi, hndo, hndi, hdisj⟩ := nodup_binary hnd
    have hmemo : ∀ x ∈ o.relations, x.parentVar ∈ o.labels := fun x hx => o.inner_subset_labels (parentVar_mem hx)
    have hmemi : ∀ x ∈ i.relations, x.parentVar ∈ i.labels := fun x hx => i.inner_subset_labels (parentVar_mem hx)
    have hne : ∀ x ∈ o.relations ++ i.relations, r.parentVar ≠ x.parentVar := fun x hx he => by
      rcases List.mem_append.mp hx with hx | hx
      · exact hvo (he ▸ hmemo x hx)
      · exact hvi (he ▸ hmemi x hx)
    rcases List.mem_cons.mp h with rfl | ht <;> rcases List.mem_cons.mp h' with rfl | ht'
    · rfl
    · exact absurd heq (hne _ ht')
    · exact absurd heq.symm (hne _ ht)
    · rcases List.mem_append.mp ht with h | h <;> rcases List.mem_append.mp ht' with h' | h'
      · exact eq_of_parentVar_eq hndo h h' heq
      · exact absurd (hmemi _ h') (heq ▸ hdisj _ (hmemo _ h))
      · exact absurd (hmemi _ h) (heq ▸ hdisj _ (hmemo _ h'))
      · exact eq_of_parentVar_eq hndi h h' heq

theorem Derivation.eq_of_child : ∀ {t : Derivation} {rel rel' : IndexVarRel} {c : IndexVar}, t.Linked →
    t.labels.Nodup → rel ∈ t.relations → rel' ∈ t.relations → c ∈ rel.getChildren → c ∈ rel'.getChildren → rel = rel'
  | .leaf _, _, _, _, _, _, h, _, _, _ => by cases h
  | .unary r t, rel, rel', c, hl, hnd, h, h', hc, hc' => by
    have hndt := (List.nodup_cons.mp hnd).2
    have hne : ∀ x ∈ t.relations, c ∈ x.getChildren → c ∉ r.getChildren := fun x hx hcx hcr => by
      rw [hl.1, List.mem_singleton] at hcr
      exact label_not_child hl.2 hndt hx (hcr ▸ hcx)
    rcases List.mem_cons.mp h with rfl | ht <;> rcases List.mem_cons.mp h' with rfl | ht'
    · rfl
    · exact absurd hc (hne _ ht' hc')
    · exact absurd hc' (hne _ ht hc)
    · exact eq_of_child hl.2 hndt ht ht' hc hc'
  | .binary r o i, rel, rel', c, hl, hnd, h, h', hc, hc' => by
    obtain ⟨-, -, hndo, hndi, hdisj⟩ := nodup_binary hnd
    have hmemo : ∀ x ∈ o.relations, c ∈ x.getChildren → c ∈ o.labels := fun x hx hcx =>
      List.mem_of_mem_tail (child_mem hl.2.1 hx hcx)
    have hmemi : ∀ x ∈ i.relations, c ∈ x.getChildren → c ∈ i.labels := fun x hx hcx =>
      List.mem_of_mem_tail (child_mem hl.2.2 hx hcx)
    have hne : ∀ x ∈ o.relations ++ i.relations, c ∈ x.getChildren → c ∉ r.getChildren := fun x hx hcx hcr => by
      rw [hl.1, List.mem_cons, List.mem_singleton] at hcr
      rcases List.mem_append.mp hx with hx | hx
      · rcases hcr with rfl | rfl
        · exact label_not_child hl.2.1 hndo hx hcx
        · exact hdisj _ (hmemo x hx hcx) i.label_mem_labels
      · rcases hcr with rfl | rfl
        · exact hdisj _ o.label_mem_labels (hmemi x hx hcx)
        · exact label_not_child hl.2.2 hndi hx hcx
    rcases List.mem_cons.mp h with rfl | ht <;> rcases List.mem_cons.mp h' with rfl | ht'
    · rfl
    · exact absurd hc (hne _ ht' hc')
    · exact absurd hc' (hne _ ht hc)
    · rcases List.mem_append.mp ht with h | h <;> rcases List.mem_append.mp ht' with h' | h'
      · exact eq_of_child hl.2.1 hndo h h' hc hc'
      · exact absurd (hmemi _ h' hc') (hdisj _ (hmemo _ h hc))
      · exact absurd (hmemi _ h hc) (hdisj _ (hmemo _ h' hc'))
      · exact eq_of_child hl.2.2 hndi h h' hc hc'

namespace DerivedFrom

variable {g : ProvenanceGraph} {t : Derivation} (d : DerivedFrom g t)

include d

theorem childRel?_eq {rel : IndexVarRel} (h : rel ∈ t.relations) : g.childRel? rel.parentVar = some rel :=
  find?_eq_of_unique (d.perm.mem_iff.mpr h) (decide_eq_true rfl) fun _ hb he =>
    Derivation.eq_of_parentVar_eq d.nodup (d.perm.mem_iff.mp hb) h (of_decide_eq_true he)

theorem parentRel?_eq {rel : IndexVarRel} {c : IndexVar} (h : rel ∈ t.relations) (hc : c ∈ rel.getChildren) :
    g.parentRel? c = some rel :=
  find?_eq_of_unique (d.perm.mem_iff.mpr h) (by rwa [List.contains_iff_mem]) fun _ hb hcb =>
    Derivation.eq_of_child d.linked d.nodup (d.perm.mem_iff.mp hb) h (by rwa [List.contains_iff_mem] at hcb) hc

theorem childRel?_leaf {v : IndexVar} (h : v ∈ t.leaves) : g.childRel? v = none := by
  refine List.find?_eq_none.mpr fun rel hrel heq => ?_
  have hinner := Derivation.parentVar_mem (d.perm.mem_iff.mp hrel)
  rw [of_decide_eq_true heq] at hinner
  exact Derivation.not_mem_leaves_of_inner d.nodup hinner h

/-- The root is underived. -/
theorem parentRel?_root : g.parentRel? t.label = none := by
  refine List.find?_eq_none.mpr fun rel hrel hc => ?_
  rw [List.contains_iff_mem] at hc
  exact Derivation.label_not_child d.linked d.nodup (d.perm.mem_iff.mp hrel) hc

theorem represents_subtree : ∀ {s : Derivation}, s.Linked → s.relations ⊆ t.relations → s.leaves ⊆ t.leaves →
    Represents g s
  | .leaf v, _, _, hleaves => d.childRel?_leaf (hleaves (List.mem_singleton_self v))
  | .unary rel s, hl, hrels, hleaves => by
    have hrel := hrels List.mem_cons_self
    exact ⟨d.childRel?_eq hrel, hl.1, d.parentRel?_eq hrel (hl.1 ▸ List.mem_singleton_self _),
      represents_subtree hl.2 (List.subset_of_cons_subset hrels) hleaves⟩
  | .binary rel o i, hl, hrels, hleaves => by
    have hrel := hrels List.mem_cons_self
    obtain ⟨hro, hri⟩ := List.append_subset.mp (List.subset_of_cons_subset hrels)
    obtain ⟨hlo, hli⟩ := List.append_subset.mp hleaves
    exact ⟨d.childRel?_eq hrel, hl.1, d.parentRel?_eq hrel (hl.1 ▸ List.mem_cons_self),
      d.parentRel?_eq hrel (hl.1 ▸ List.mem_cons_of_mem _ (List.mem_singleton_self _)),
      represents_subtree hl.2.1 hro hlo, represents_subtree hl.2.2 hri hli⟩

theorem represents : Represents g t := d.represents_subtree d.linked (List.Subset.refl _) (List.Subset.refl _)

theorem height_le : t.height ≤ g.relations.length := d.perm.length_eq ▸ t.height_le

end DerivedFrom

end Scheduling
end Taco
