import Taco.Scheduling.Recoveries

/-! The iterations of a nest over the leaves of a tree: the variables in them are the recovered values of the leaves,
    which are in their ranges and pass the guards, and each of them is run once. -/

namespace Taco
namespace Scheduling

/-- What the recovery code of a relation does: the value that it gives to the parent, and whether its guards let the
    iteration pass. Both are read from the variables of the relation. -/
structure Recovery where
  value : IndexVarRel → Env → ℕ
  passes : IndexVarRel → Env → Bool
  value_congr : ∀ rel env env', (∀ w ∈ rel.getChildren, env w = env' w) → value rel env = value rel env'
  passes_congr : ∀ rel env env', (∀ w ∈ rel.parentVar :: rel.getChildren, env w = env' w) →
    passes rel env = passes rel env'

section Recovered

variable (S : Recovery)

/-- The variables whose leaves are defined have their recovered values, and pass the guards. -/
def Recovered (defined : List IndexVar) (env : Env) : Derivation → Prop
  | .leaf _ => True
  | .unary rel t => Recovered defined env t ∧
      (t.leaves ⊆ defined → env rel.parentVar = S.value rel env ∧ S.passes rel env = true)
  | .binary rel o i => (Recovered defined env o ∧ Recovered defined env i) ∧
      (o.leaves ++ i.leaves ⊆ defined → env rel.parentVar = S.value rel env ∧ S.passes rel env = true)

end Recovered

/-! ### Covered variables -/

/-- The recovered variables whose leaves are defined. -/
@[grind =]
def covered (defined : List IndexVar) : Derivation → List IndexVar
  | .leaf _ => []
  | .unary rel t => covered defined t ++ if t.leaves ⊆ defined then [rel.parentVar] else []
  | .binary rel o i =>
    (covered defined o ++ covered defined i) ++ if o.leaves ++ i.leaves ⊆ defined then [rel.parentVar] else []

theorem covered_subset_inner (defined : List IndexVar) : ∀ t : Derivation, covered defined t ⊆ t.inner
  | .leaf _ => List.nil_subset _
  | .unary rel t => by
    refine List.append_subset.mpr ⟨List.subset_cons_of_subset _ (covered_subset_inner defined t), ?_⟩
    split_ifs
    · exact List.cons_subset_cons _ (List.nil_subset _)
    · exact List.nil_subset _
  | .binary rel o i => by
    have ho := covered_subset_inner defined o
    have hi := covered_subset_inner defined i
    refine List.append_subset.mpr ⟨List.append_subset.mpr ⟨?_, ?_⟩, ?_⟩
    · exact List.subset_cons_of_subset _ (List.subset_append_of_subset_left _ ho)
    · exact List.subset_cons_of_subset _ (List.subset_append_of_subset_right _ hi)
    · split_ifs
      · exact List.cons_subset_cons _ (List.nil_subset _)
      · exact List.nil_subset _

theorem inner_subset_covered {defined : List IndexVar} : ∀ {t : Derivation}, t.leaves ⊆ defined → t.inner ⊆ covered defined t
  | .leaf _, _ => List.nil_subset _
  | .unary rel t, h => by
    have h : t.leaves ⊆ defined := h
    rw [covered, if_pos h, Derivation.inner]
    refine List.cons_subset.mpr ⟨List.mem_append_right _ (List.mem_singleton_self _), ?_⟩
    exact List.subset_append_of_subset_left _ (inner_subset_covered h)
  | .binary rel o i, h => by
    have h : o.leaves ++ i.leaves ⊆ defined := h
    obtain ⟨ho, hi⟩ := List.append_subset.mp h
    rw [covered, if_pos h, Derivation.inner]
    refine List.cons_subset.mpr ⟨List.mem_append_right _ (List.mem_singleton_self _), ?_⟩
    refine List.subset_append_of_subset_left _ (List.append_subset.mpr ⟨?_, ?_⟩)
    · exact List.subset_append_of_subset_left _ (inner_subset_covered ho)
    · exact List.subset_append_of_subset_right _ (inner_subset_covered hi)

theorem newly_subset_relations (defined : List IndexVar) (v : IndexVar) :
    ∀ t : Derivation, newly defined v t ⊆ t.relations
  | .leaf _ => List.nil_subset _
  | .unary rel t => by
    refine List.append_subset.mpr ⟨List.subset_cons_of_subset _ (newly_subset_relations defined v t), ?_⟩
    split_ifs
    · exact List.cons_subset_cons _ (List.nil_subset _)
    · exact List.nil_subset _
  | .binary rel o i => by
    have ho := newly_subset_relations defined v o
    have hi := newly_subset_relations defined v i
    refine List.append_subset.mpr ⟨?_, ?_⟩
    · split_ifs
      · exact List.subset_cons_of_subset _ (List.subset_append_of_subset_left _ ho)
      · exact List.subset_cons_of_subset _ (List.subset_append_of_subset_right _ hi)
    · split_ifs
      · exact List.cons_subset_cons _ (List.nil_subset _)
      · exact List.nil_subset _

/-- The parents that a leaf makes recoverable. -/
def newParents (defined : List IndexVar) (v : IndexVar) (t : Derivation) : List IndexVar :=
  (newly defined v t).map IndexVarRel.parentVar

theorem newParents_subset_inner (defined : List IndexVar) (v : IndexVar) (t : Derivation) :
    newParents defined v t ⊆ t.inner := fun w hw => by
  obtain ⟨rel, hrel, rfl⟩ := List.mem_map.mp hw
  exact Derivation.parentVar_mem (newly_subset_relations defined v t hrel)

/-- Membership in the defined variables is all that matters. -/
theorem covered_congr {defined defined' : List IndexVar} : ∀ {t : Derivation},
    (∀ w ∈ t.leaves, w ∈ defined ↔ w ∈ defined') → covered defined t = covered defined' t
  | .leaf _, _ => rfl
  | .unary rel t, h => by
    have hsub : t.leaves ⊆ defined ↔ t.leaves ⊆ defined' := forall_congr' fun w => forall_congr' fun hw => h w hw
    simp only [covered, covered_congr (t := t) h, hsub]
  | .binary rel o i, h => by
    have ho : ∀ w ∈ o.leaves, w ∈ defined ↔ w ∈ defined' := fun w hw => h w (List.mem_append_left _ hw)
    have hi : ∀ w ∈ i.leaves, w ∈ defined ↔ w ∈ defined' := fun w hw => h w (List.mem_append_right _ hw)
    have hsub : o.leaves ++ i.leaves ⊆ defined ↔ o.leaves ++ i.leaves ⊆ defined' :=
      forall_congr' fun w => forall_congr' fun hw => h w hw
    simp only [covered, covered_congr ho, covered_congr hi, hsub]

theorem covered_concat (ds : List IndexVar) (v : IndexVar) (t : Derivation) :
    covered (ds ++ [v]) t = covered (v :: ds) t := covered_congr fun _ _ => by simp [or_comm]

theorem covered_mono {defined defined' : List IndexVar} (h : defined ⊆ defined') : ∀ t : Derivation,
    covered defined t ⊆ covered defined' t
  | .leaf _ => List.nil_subset _
  | .unary rel t => by
    refine List.append_subset.mpr ⟨List.subset_append_of_subset_left _ (covered_mono h t), ?_⟩
    by_cases hsub : t.leaves ⊆ defined
    · rw [if_pos hsub, covered, if_pos (List.Subset.trans hsub h)]
      exact List.subset_append_right _ _
    · rw [if_neg hsub]
      exact List.nil_subset _
  | .binary rel o i => by
    refine List.append_subset.mpr ⟨List.append_subset.mpr ⟨?_, ?_⟩, ?_⟩
    · exact List.subset_append_of_subset_left _ (List.subset_append_of_subset_left _ (covered_mono h o))
    · exact List.subset_append_of_subset_left _ (List.subset_append_of_subset_right _ (covered_mono h i))
    · by_cases hsub : o.leaves ++ i.leaves ⊆ defined
      · rw [if_pos hsub, covered, if_pos (List.Subset.trans hsub h)]
        exact List.subset_append_right _ _
      · rw [if_neg hsub]
        exact List.nil_subset _

/-- What is covered after a leaf: what was covered before it, and the new parents. -/
theorem mem_covered_cons {defined : List IndexVar} {v w : IndexVar} : ∀ {t : Derivation}, t.labels.Nodup → v ∈ t.leaves →
    v ∉ defined → (w ∈ covered (v :: defined) t ↔ w ∈ covered defined t ∨ w ∈ newParents defined v t)
  | .leaf _, _, _, _ => by simp [covered, newParents, newly]
  | .unary rel t, hnd, hv, hvd => by
    have hnot : ¬ t.leaves ⊆ defined := fun h => hvd (h hv)
    have ih := mem_covered_cons (w := w) (List.nodup_cons.mp hnd).2 hv hvd
    simp only [covered, newParents, newly, if_neg hnot, List.append_nil, List.map_append, List.mem_append]
    rw [ih]
    by_cases hsub : t.leaves ⊆ v :: defined
    · simp [hsub, newParents, or_assoc]
    · simp [hsub, newParents]
  | .binary rel o i, hnd, hv, hvd => by
    obtain ⟨-, -, hndo, hndi, hdisj⟩ := Derivation.nodup_binary hnd
    have hnot : ¬ o.leaves ++ i.leaves ⊆ defined := fun h => hvd (h hv)
    have hsame : ∀ {s : Derivation}, v ∉ s.leaves → covered (v :: defined) s = covered defined s := fun hvs =>
      covered_congr fun u hu => by
        rw [List.mem_cons]
        exact or_iff_right fun he => hvs (he ▸ hu)
    simp only [covered, newParents, newly, if_neg hnot, List.append_nil, List.map_append, List.mem_append]
    by_cases hvo : v ∈ o.leaves
    · have hvi : v ∉ i.leaves := fun h => Derivation.not_mem_outer hnd h hvo
      rw [mem_covered_cons (w := w) hndo hvo hvd, hsame hvi, if_pos hvo]
      by_cases hsub : o.leaves ++ i.leaves ⊆ v :: defined
      · simp only [if_pos hsub, newParents]
        tauto
      · simp only [if_neg hsub, newParents, List.not_mem_nil, List.map_nil, or_false]
        tauto
    · have hvi : v ∈ i.leaves := (List.mem_append.mp hv).resolve_left hvo
      rw [mem_covered_cons (w := w) hndi hvi hvd, hsame hvo, if_neg hvo]
      by_cases hsub : o.leaves ++ i.leaves ⊆ v :: defined
      · simp only [if_pos hsub, newParents]
        tauto
      · simp only [if_neg hsub, newParents, List.not_mem_nil, List.map_nil, or_false]
        tauto

/-- A new parent was not covered before. -/
theorem not_mem_covered_of_new {defined : List IndexVar} {v w : IndexVar} : ∀ {t : Derivation}, t.labels.Nodup →
    v ∈ t.leaves → v ∉ defined → w ∈ newParents defined v t → w ∉ covered defined t
  | .leaf _, _, _, _, h => by cases h
  | .unary rel t, hnd, hv, hvd, h => by
    obtain ⟨hp, hnd⟩ := List.nodup_cons.mp hnd
    have hnot : ¬ t.leaves ⊆ defined := fun h => hvd (h hv)
    rw [covered, if_neg hnot, List.append_nil]
    rw [newParents, newly, List.map_append, List.mem_append] at h
    rcases h with h | h
    · exact not_mem_covered_of_new hnd hv hvd h
    · split_ifs at h
      · rw [List.map_singleton, List.mem_singleton] at h
        exact fun hw => hp (h ▸ t.inner_subset_labels (covered_subset_inner _ t hw))
      · cases h
  | .binary rel o i, hnd, hv, hvd, h => by
    obtain ⟨hpo, hpi, hndo, hndi, hdisj⟩ := Derivation.nodup_binary hnd
    have hnot : ¬ o.leaves ++ i.leaves ⊆ defined := fun h => hvd (h hv)
    have hlab : ∀ (s : Derivation) {u : IndexVar}, u ∈ covered defined s → u ∈ s.labels := fun s _ hu =>
      s.inner_subset_labels (covered_subset_inner _ s hu)
    rw [covered, if_neg hnot, List.append_nil, List.mem_append, not_or]
    rw [newParents, newly, List.map_append, List.mem_append] at h
    rcases h with h | h
    · by_cases hvo : v ∈ o.leaves
      · rw [if_pos hvo] at h
        have hwo := o.inner_subset_labels (newParents_subset_inner _ _ _ h)
        exact ⟨not_mem_covered_of_new hndo hvo hvd h, fun hw => hdisj _ hwo (hlab i hw)⟩
      · rw [if_neg hvo] at h
        have hvi : v ∈ i.leaves := (List.mem_append.mp hv).resolve_left hvo
        have hwi := i.inner_subset_labels (newParents_subset_inner _ _ _ h)
        exact ⟨fun hw => hdisj _ (hlab o hw) hwi, not_mem_covered_of_new hndi hvi hvd h⟩
    · split_ifs at h
      · rw [List.map_singleton, List.mem_singleton] at h
        exact ⟨fun hw => hpo (h ▸ hlab o hw), fun hw => hpi (h ▸ hlab i hw)⟩
      · cases h

/-! ### Running the recovery code -/

section

variable {S : Recovery}

/-- The recovery code of some relations, one after the other. -/
def runRels (S : Recovery) : List IndexVarRel → Env → Option Env
  | [], env => some env
  | rel :: rels, env =>
    let env' := Function.update env rel.parentVar (S.value rel env)
    if S.passes rel env' then runRels S rels env' else none

theorem runRels_append (b : List IndexVarRel) : ∀ (a : List IndexVarRel) (env : Env),
    runRels S (a ++ b) env = (runRels S a env).bind (runRels S b)
  | [], _ => rfl
  | rel :: a, env => by
    rw [List.cons_append, runRels, runRels]
    split_ifs
    · exact runRels_append b a _
    · rfl

/-- The recovered variables depend only on the leaves that are defined and on the variables that these cover. -/
theorem Recovered.congr {defined defined' : List IndexVar} {env env' : Env} : ∀ {t : Derivation}, t.Linked →
    (∀ w ∈ t.leaves, w ∈ defined' → w ∈ defined ∧ env w = env' w) → (∀ w ∈ covered defined' t, env w = env' w) →
    Recovered S defined env t → Recovered S defined' env' t
  | .leaf _, _, _, _, _ => trivial
  | .unary rel t, hl, hw, hc, ⟨ht, hv⟩ => by
    refine ⟨ht.congr hl.2 hw fun w h => hc w (List.mem_append_left _ h), fun hsub => ?_⟩
    have hsub' : t.leaves ⊆ defined := fun w h => (hw w h (hsub h)).1
    have hp : env rel.parentVar = env' rel.parentVar :=
      hc _ (List.mem_append_right _ (by rw [if_pos hsub]; exact List.mem_singleton_self _))
    have hch : ∀ w ∈ rel.getChildren, env w = env' w := fun w h => by
      rw [hl.1, List.mem_singleton] at h
      subst h
      rcases Derivation.mem_labels t.label_mem_labels with h | h
      · exact (hw _ h (hsub h)).2
      · exact hc _ (List.mem_append_left _ (inner_subset_covered hsub h))
    obtain ⟨hval, hpass⟩ := hv hsub'
    refine ⟨by rw [← hp, hval, S.value_congr rel env env' hch], ?_⟩
    rw [← S.passes_congr rel env env' fun w h => (List.mem_cons.mp h).elim (fun h => h ▸ hp) (hch w)]
    exact hpass
  | .binary rel o i, hl, hw, hc, ⟨⟨ho, hi⟩, hv⟩ => by
    have hwo : ∀ w ∈ o.leaves, w ∈ defined' → w ∈ defined ∧ env w = env' w := fun w h => hw w (List.mem_append_left _ h)
    have hwi : ∀ w ∈ i.leaves, w ∈ defined' → w ∈ defined ∧ env w = env' w := fun w h => hw w (List.mem_append_right _ h)
    have hco : ∀ w ∈ covered defined' o, env w = env' w := fun w h =>
      hc w (List.mem_append_left _ (List.mem_append_left _ h))
    have hci : ∀ w ∈ covered defined' i, env w = env' w := fun w h =>
      hc w (List.mem_append_left _ (List.mem_append_right _ h))
    refine ⟨⟨ho.congr hl.2.1 hwo hco, hi.congr hl.2.2 hwi hci⟩, fun hsub => ?_⟩
    obtain ⟨hso, hsi⟩ := List.append_subset.mp hsub
    have hsub' : o.leaves ++ i.leaves ⊆ defined := fun w h => (hw w h (hsub h)).1
    have hp : env rel.parentVar = env' rel.parentVar :=
      hc _ (List.mem_append_right _ (by rw [if_pos hsub]; exact List.mem_singleton_self _))
    have hch : ∀ w ∈ rel.getChildren, env w = env' w := fun w h => by
      rw [hl.1, List.mem_cons, List.mem_singleton] at h
      rcases h with rfl | rfl
      · rcases Derivation.mem_labels o.label_mem_labels with h | h
        · exact (hwo _ h (hso h)).2
        · exact hco _ (inner_subset_covered hso h)
      · rcases Derivation.mem_labels i.label_mem_labels with h | h
        · exact (hwi _ h (hsi h)).2
        · exact hci _ (inner_subset_covered hsi h)
    obtain ⟨hval, hpass⟩ := hv hsub'
    refine ⟨by rw [← hp, hval, S.value_congr rel env env' hch], ?_⟩
    rw [← S.passes_congr rel env env' fun w h => (List.mem_cons.mp h).elim (fun h => h ▸ hp) (hch w)]
    exact hpass

/-- Once all leaves are defined, every recovered variable has its value. -/
theorem Recovered.all {defined : List IndexVar} {env : Env} {rel : IndexVarRel} : ∀ {t : Derivation},
    Recovered S defined env t → t.leaves ⊆ defined → rel ∈ t.relations →
      env rel.parentVar = S.value rel env ∧ S.passes rel env = true
  | .leaf _, _, _, h => by cases h
  | .unary _ t, ⟨ht, hrec⟩, hsub, h => by
    rcases List.mem_cons.mp h with rfl | h
    · exact hrec hsub
    · exact ht.all hsub h
  | .binary _ o i, ⟨⟨ho, hi⟩, hrec⟩, hsub, h => by
    obtain ⟨hso, hsi⟩ := List.append_subset.mp hsub
    rcases List.mem_cons.mp h with rfl | h
    · exact hrec hsub
    · exact (List.mem_append.mp h).elim (ho.all hso) (hi.all hsi)

theorem recovered_of_values {defined : List IndexVar} {env : Env} : ∀ {t : Derivation},
    (∀ rel ∈ t.relations, env rel.parentVar = S.value rel env ∧ S.passes rel env = true) → Recovered S defined env t
  | .leaf _, _ => trivial
  | .unary rel _, h => ⟨recovered_of_values fun rel' h' => h rel' (List.mem_cons_of_mem _ h'), fun _ => h rel List.mem_cons_self⟩
  | .binary rel _ _, h =>
    ⟨⟨recovered_of_values fun rel' h' => h rel' (List.mem_cons_of_mem _ (List.mem_append_left _ h')),
      recovered_of_values fun rel' h' => h rel' (List.mem_cons_of_mem _ (List.mem_append_right _ h'))⟩,
      fun _ => h rel List.mem_cons_self⟩

/-- The covered variables are determined by the defined leaves. -/
theorem Recovered.unique {defined : List IndexVar} {env env' : Env} : ∀ {t : Derivation}, t.Linked →
    (∀ w ∈ t.leaves, w ∈ defined → env w = env' w) → Recovered S defined env t → Recovered S defined env' t →
      ∀ w ∈ covered defined t, env w = env' w
  | .leaf _, _, _, _, _, _, h => by cases h
  | .unary rel t, hl, hw, ⟨ht, hv⟩, ⟨ht', hv'⟩, w, h => by
    have ih := ht.unique hl.2 hw ht'
    rw [covered, List.mem_append] at h
    rcases h with h | h
    · exact ih w h
    · split_ifs at h with hsub
      · rw [List.mem_singleton.mp h, (hv hsub).1, (hv' hsub).1]
        refine S.value_congr rel _ _ fun c hc => ?_
        rw [hl.1, List.mem_singleton] at hc
        subst hc
        rcases Derivation.mem_labels t.label_mem_labels with hc | hc
        · exact hw _ hc (hsub hc)
        · exact ih _ (inner_subset_covered hsub hc)
      · cases h
  | .binary rel o i, hl, hw, ⟨⟨ho, hi⟩, hv⟩, ⟨⟨ho', hi'⟩, hv'⟩, w, h => by
    have iho := ho.unique hl.2.1 (fun w hwo => hw w (List.mem_append_left _ hwo)) ho'
    have ihi := hi.unique hl.2.2 (fun w hwi => hw w (List.mem_append_right _ hwi)) hi'
    rw [covered, List.mem_append, List.mem_append] at h
    rcases h with (h | h) | h
    · exact iho w h
    · exact ihi w h
    · split_ifs at h with hsub
      · obtain ⟨hso, hsi⟩ := List.append_subset.mp hsub
        rw [List.mem_singleton.mp h, (hv hsub).1, (hv' hsub).1]
        refine S.value_congr rel _ _ fun c hc => ?_
        rw [hl.1, List.mem_cons, List.mem_singleton] at hc
        rcases hc with rfl | rfl
        · rcases Derivation.mem_labels o.label_mem_labels with hc | hc
          · exact hw _ (List.mem_append_left _ hc) (hso hc)
          · exact iho _ (inner_subset_covered hso hc)
        · rcases Derivation.mem_labels i.label_mem_labels with hc | hc
          · exact hw _ (List.mem_append_right _ hc) (hsi hc)
          · exact ihi _ (inner_subset_covered hsi hc)
      · cases h

/-- Any values of the leaves are completed by those of the recovered variables. -/
theorem exists_values (S : Recovery) : ∀ {t : Derivation} (env : Env), t.Linked → t.labels.Nodup →
    ∃ e : Env, (∀ w, w ∉ t.inner → e w = env w) ∧ ∀ rel ∈ t.relations, e rel.parentVar = S.value rel e
  | .leaf _, env, _, _ => ⟨env, fun _ _ => rfl, fun _ h => by cases h⟩
  | .unary rel t, env, hl, hnd => by
    obtain ⟨hp, hnd⟩ := List.nodup_cons.mp hnd
    obtain ⟨e, hout, hval⟩ := exists_values S env hl.2 hnd
    have hsame : ∀ w ∈ t.labels, Function.update e rel.parentVar (S.value rel e) w = e w := fun w hw =>
      Function.update_of_ne (ne_of_mem_of_not_mem hw hp) _ _
    refine ⟨Function.update e rel.parentVar (S.value rel e), fun w hw => ?_, fun rel' h => ?_⟩
    · obtain ⟨hne, hw⟩ := List.ne_and_not_mem_of_not_mem_cons hw
      rw [Function.update_of_ne hne, hout w hw]
    · rcases List.mem_cons.mp h with rfl | h
      · rw [Function.update_self]
        refine S.value_congr rel' _ _ fun w hw => (hsame w ?_).symm
        rw [hl.1, List.mem_singleton] at hw
        exact hw ▸ t.label_mem_labels
      · rw [hsame _ (t.inner_subset_labels (Derivation.parentVar_mem h)), hval rel' h]
        exact S.value_congr rel' _ _ fun w hw => (hsame w (List.mem_of_mem_tail (Derivation.child_mem hl.2 h hw))).symm
  | .binary rel o i, env, hl, hnd => by
    obtain ⟨hpo, hpi, hndo, hndi, hdisj⟩ := Derivation.nodup_binary hnd
    obtain ⟨e₁, hout₁, hval₁⟩ := exists_values S env hl.2.1 hndo
    obtain ⟨e, hout, hval⟩ := exists_values S e₁ hl.2.2 hndi
    have hkeep : ∀ w ∈ o.labels, e w = e₁ w := fun w hw => hout w fun hi => hdisj w hw (i.inner_subset_labels hi)
    have hsame : ∀ w ∈ o.labels ++ i.labels, Function.update e rel.parentVar (S.value rel e) w = e w := fun w hw =>
      Function.update_of_ne (ne_of_mem_of_not_mem hw fun h => (List.mem_append.mp h).elim hpo hpi) _ _
    refine ⟨Function.update e rel.parentVar (S.value rel e), fun w hw => ?_, fun rel' h => ?_⟩
    · obtain ⟨hne, hw⟩ := List.ne_and_not_mem_of_not_mem_cons hw
      rw [List.mem_append, not_or] at hw
      rw [Function.update_of_ne hne, hout w hw.2, hout₁ w hw.1]
    · rcases List.mem_cons.mp h with rfl | h
      · rw [Function.update_self]
        refine S.value_congr rel' _ _ fun w hw => (hsame w ?_).symm
        rw [hl.1, List.mem_cons, List.mem_singleton] at hw
        rcases hw with rfl | rfl
        · exact List.mem_append_left _ o.label_mem_labels
        · exact List.mem_append_right _ i.label_mem_labels
      · rcases List.mem_append.mp h with h | h
        · have hp := o.inner_subset_labels (Derivation.parentVar_mem h)
          rw [hsame _ (List.mem_append_left _ hp), hkeep _ hp, hval₁ rel' h]
          refine S.value_congr rel' _ _ fun w hw => ?_
          have hw := List.mem_of_mem_tail (Derivation.child_mem hl.2.1 h hw)
          rw [hsame w (List.mem_append_left _ hw), hkeep w hw]
        · have hp := i.inner_subset_labels (Derivation.parentVar_mem h)
          rw [hsame _ (List.mem_append_right _ hp), hval rel' h]
          exact S.value_congr rel' _ _ fun w hw =>
            (hsame w (List.mem_append_right _ (List.mem_of_mem_tail (Derivation.child_mem hl.2.2 h hw)))).symm

theorem recovered_perm {defined defined' : List IndexVar} {env : Env} {t : Derivation} (hl : t.Linked)
    (h : ∀ w, w ∈ defined ↔ w ∈ defined') : Recovered S defined env t ↔ Recovered S defined' env t :=
  ⟨fun hr => hr.congr hl (fun w _ hw => ⟨(h w).mpr hw, rfl⟩) fun _ _ => rfl,
    fun hr => hr.congr hl (fun w _ hw => ⟨(h w).mp hw, rfl⟩) fun _ _ => rfl⟩

/-- A tree in which nothing is written stays recovered. -/
theorem Recovered.frame {defined : List IndexVar} {v : IndexVar} {env env' : Env} {t : Derivation} (hl : t.Linked)
    (hv : v ∉ t.leaves) (he : ∀ w ∈ t.labels, env w = env' w) (h : Recovered S defined env t) :
    Recovered S (v :: defined) env' t := by
  refine h.congr hl (fun w hw hd => ⟨(List.mem_cons.mp hd).resolve_left fun heq => hv (heq ▸ hw), ?_⟩) fun w hw => ?_
  · exact he w (t.leaves_subset_labels hw)
  · exact he w (t.inner_subset_labels (covered_subset_inner _ t hw))

theorem recovered_update {defined : List IndexVar} {env : Env} {p : IndexVar} {x : ℕ} {t : Derivation} (hl : t.Linked)
    (hp : p ∉ t.labels) : Recovered S defined (Function.update env p x) t ↔ Recovered S defined env t := by
  have hsame : ∀ w ∈ t.labels, Function.update env p x w = env w := fun w hw =>
    Function.update_of_ne (ne_of_mem_of_not_mem hw hp) _ _
  have hlab : ∀ w ∈ covered defined t, w ∈ t.labels := fun w hw => t.inner_subset_labels (covered_subset_inner _ t hw)
  constructor <;> intro h
  · exact h.congr hl (fun w hw hd => ⟨hd, hsame w (t.leaves_subset_labels hw)⟩) fun w hw => hsame w (hlab w hw)
  · exact h.congr hl (fun w hw hd => ⟨hd, (hsame w (t.leaves_subset_labels hw)).symm⟩)
      fun w hw => (hsame w (hlab w hw)).symm

/-- The code of some relations leaves exactly the environments in which `P` holds and only their parents are
    changed. -/
def Leaves (S : Recovery) (rels : List IndexVarRel) (env : Env) (P : Env → Prop) : Prop :=
  ∀ env', runRels S rels env = some env' ↔ P env' ∧ ∀ w ∉ rels.map IndexVarRel.parentVar, env' w = env w

/-- The step to a parent, which the code below it does not change and `P` does not read. -/
theorem Leaves.parent {rels : List IndexVarRel} {env : Env} {P : Env → Prop} (h : Leaves S rels env P) {rel : IndexVarRel}
    (hch : rel.parentVar ∉ rel.getChildren)
    (hP : ∀ env' x, P (Function.update env' rel.parentVar x) ↔ P env') (c : Prop) [Decidable c] :
    Leaves S (rels ++ if c then [rel] else []) env fun env' =>
      P env' ∧ (c → env' rel.parentVar = S.value rel env' ∧ S.passes rel env' = true) := by
  intro env'
  by_cases hc : c
  · have hvalue : ∀ env₁ x, S.value rel (Function.update env₁ rel.parentVar x) = S.value rel env₁ := fun env₁ x =>
      S.value_congr rel _ _ fun w hw => Function.update_of_ne (ne_of_mem_of_not_mem hw hch) _ _
    rw [if_pos hc, runRels_append, Option.bind_eq_some_iff, List.map_append, List.map_singleton]
    simp only [forall_const, hc, List.mem_append, List.mem_singleton, not_or]
    constructor
    · rintro ⟨env₁, h₁, hrun⟩
      obtain ⟨hP₁, hframe⟩ := (h env₁).mp h₁
      simp only [runRels] at hrun
      split_ifs at hrun with hpass
      obtain rfl := Option.some.inj hrun
      refine ⟨⟨(hP _ _).mpr hP₁, by rw [Function.update_self, hvalue], hpass⟩, fun w hw => ?_⟩
      rw [Function.update_of_ne hw.2, hframe w hw.1]
    · rintro ⟨⟨hP', hval, hpass⟩, hframe⟩
      have hback : Function.update (Function.update env' rel.parentVar (env rel.parentVar)) rel.parentVar
          (S.value rel (Function.update env' rel.parentVar (env rel.parentVar))) = env' := by
        rw [Function.update_idem, hvalue, ← hval, Function.update_eq_self]
      refine ⟨Function.update env' rel.parentVar (env rel.parentVar), (h _).mpr ⟨(hP _ _).mpr hP', fun w hw => ?_⟩, ?_⟩
      · by_cases hwp : w = rel.parentVar
        · rw [hwp, Function.update_self]
        · rw [Function.update_of_ne hwp, hframe w ⟨hw, hwp⟩]
      · simp only [runRels]
        rw [hback, if_pos hpass]
  · rw [if_neg hc, List.append_nil, h env']
    simp only [hc, false_implies, and_true]

/-- The code for the parents that a leaf makes recoverable. -/
theorem leaves_newly {defined : List IndexVar} {v : IndexVar} (hvd : v ∉ defined) (env : Env) (x : ℕ) :
    ∀ {t : Derivation}, t.Linked → t.labels.Nodup → v ∈ t.leaves → Recovered S defined env t →
      Leaves S (newly defined v t) (Function.update env v x) fun env' => Recovered S (v :: defined) env' t
  | .leaf _, _, _, _, _ => fun env' => by
    simp only [newly, runRels, Option.some.injEq, List.map_nil, List.not_mem_nil, not_false_eq_true, forall_true_left,
      Recovered, true_and]
    exact ⟨fun h w => h ▸ rfl, fun h => funext fun w => (h w).symm⟩
  | .unary rel t, hl, hnd, hv, ⟨ht, _⟩ => by
    obtain ⟨hp, hnd⟩ := List.nodup_cons.mp hnd
    refine (leaves_newly hvd env x hl.2 hnd hv ht).parent (fun h => ?_) (fun env' y => recovered_update hl.2 hp) _
    rw [hl.1, List.mem_singleton] at h
    exact hp (h ▸ t.label_mem_labels)
  | .binary rel o i, hl, hnd, hv, ⟨⟨ho, hi⟩, _⟩ => by
    obtain ⟨hpo, hpi, hndo, hndi, hdisj⟩ := Derivation.nodup_binary hnd
    have hvar : v ∈ (Derivation.binary rel o i).labels := Derivation.leaves_subset_labels _ hv
    have hchildren : Leaves S (if v ∈ o.leaves then newly defined v o else newly defined v i)
        (Function.update env v x) fun env' => Recovered S (v :: defined) env' o ∧ Recovered S (v :: defined) env' i := by
      intro env'
      by_cases hvo : v ∈ o.leaves
      · have hvi : v ∉ i.labels := hdisj v (o.leaves_subset_labels hvo)
        rw [if_pos hvo, leaves_newly hvd env x hl.2.1 hndo hvo ho env']
        refine ⟨?_, fun h => ⟨h.1.1, h.2⟩⟩
        rintro ⟨h, hframe⟩
        refine ⟨⟨h, hi.frame hl.2.2 (fun h => hvi (i.leaves_subset_labels h)) fun w hw => ?_⟩, hframe⟩
        rw [hframe w fun hn => hdisj w (o.inner_subset_labels (newParents_subset_inner _ _ o hn)) hw,
          Function.update_of_ne (ne_of_mem_of_not_mem hw hvi)]
      · have hvi : v ∈ i.leaves := (List.mem_append.mp hv).resolve_left hvo
        have hvo' : v ∉ o.labels := fun h => hdisj v h (i.leaves_subset_labels hvi)
        rw [if_neg hvo, leaves_newly hvd env x hl.2.2 hndi hvi hi env']
        refine ⟨?_, fun h => ⟨h.1.2, h.2⟩⟩
        rintro ⟨h, hframe⟩
        refine ⟨⟨ho.frame hl.2.1 hvo fun w hw => ?_, h⟩, hframe⟩
        rw [hframe w fun hn => hdisj w hw (i.inner_subset_labels (newParents_subset_inner _ _ i hn)),
          Function.update_of_ne (ne_of_mem_of_not_mem hw hvo')]
    refine hchildren.parent (fun h => ?_)
      (fun env' y => and_congr (recovered_update hl.2.1 hpo) (recovered_update hl.2.2 hpi)) _
    rw [hl.1, List.mem_cons, List.mem_singleton] at h
    rcases h with h | h
    · exact hpo (h ▸ o.label_mem_labels)
    · exact hpi (h ▸ i.label_mem_labels)

end

/-! ### Runs -/

/-- What `lowerForall` makes of a nest over the leaves of a tree in some order: the loops have ranges that depend on the
    variables before them, and the recovery code does what the recovery says. -/
structure Lowers (S : Recovery) (g : ProvenanceGraph) (underivedBounds : IndexVar → Option Bounds) (emit : Bool)
    (t : Derivation) (order : List IndexVar) (range : IndexVar → Env → List ℕ) : Prop where
  derived : DerivedFrom g t
  perm : order.Perm t.leaves
  bounds : ∀ ds v vs, order = ds ++ v :: vs → ∃ b, g.iterBounds underivedBounds (ds ++ [v]) v = some b ∧
    (∀ env, Bounds.values b env = range v env) ∧
    ∀ env env', (∀ w, w ∈ ds ∨ w ∈ covered ds t → env w = env' w) → range v env = range v env'
  steps : ∀ ds v vs, order = ds ++ v :: vs → ∀ rel ∈ newly ds v t,
    ∃ steps, g.recoverySteps underivedBounds ds emit v rel.parentVar = some steps ∧
      ∀ env rest, runRecovery (steps ++ rest) env =
        if S.passes rel (Function.update env rel.parentVar (S.value rel env)) then
          runRecovery rest (Function.update env rel.parentVar (S.value rel env))
        else none

section

variable {S : Recovery} {g : ProvenanceGraph} {underivedBounds : IndexVar → Option Bounds} {emit : Bool} {t : Derivation}
  {order : List IndexVar} {range : IndexVar → Env → List ℕ}

/-- The recovery code of a loop is that of the relations whose parents become recoverable. -/
theorem Lowers.recovery (h : Lowers S g underivedBounds emit t order range) {ds vs : List IndexVar} {v : IndexVar}
    (horder : order = ds ++ v :: vs) : ∀ rels ⊆ newly ds v t,
    ∃ steps, (rels.map IndexVarRel.parentVar).mapM (g.recoverySteps underivedBounds ds emit v) = some steps ∧
      ∀ env, runRecovery steps.flatten env = runRels S rels env
  | [], _ => ⟨[], rfl, fun _ => rfl⟩
  | rel :: rels, hsub => by
    obtain ⟨hrel, hrels⟩ := List.cons_subset.mp hsub
    obtain ⟨first, hfirst, hrun⟩ := h.steps ds v vs horder rel hrel
    obtain ⟨rest, hrest, hrun'⟩ := h.recovery horder rels hrels
    refine ⟨first :: rest, ?_, fun env => ?_⟩
    · rw [List.map_cons, List.mapM_cons, hfirst, hrest]
      rfl
    · rw [List.flatten_cons, hrun, runRels]
      split_ifs
      · exact hrun' _
      · rfl

/-- What a loop of the nest needs: its variable is new, and no recovered variable is defined around it. -/
theorem Lowers.at_loop (h : Lowers S g underivedBounds emit t order range) {ds vs : List IndexVar} {v : IndexVar}
    (horder : order = ds ++ v :: vs) : v ∈ t.leaves ∧ v ∉ ds ∧ v ∉ vs ∧ (∀ w ∈ ds, w ∉ vs) ∧
      (∀ w ∈ t.inner, w ≠ v ∧ w ∉ ds ∧ w ∉ vs) := by
  have hleaf : ∀ w ∈ ds ++ v :: vs, w ∈ t.leaves := fun w hw => h.perm.subset (horder ▸ hw)
  have hnd : (ds ++ v :: vs).Nodup := horder ▸ h.perm.nodup_iff.mpr (t.leaves_sublist_labels.nodup h.derived.nodup)
  obtain ⟨-, hndv, hdisj⟩ := List.nodup_append.mp hnd
  refine ⟨hleaf v (List.mem_append_right _ List.mem_cons_self), fun hv => hdisj v hv v List.mem_cons_self rfl,
    (List.nodup_cons.mp hndv).1, fun w hw hw' => hdisj w hw w (List.mem_cons_of_mem _ hw') rfl, fun w hw => ?_⟩
  have hnot := Derivation.not_mem_leaves_of_inner h.derived.nodup hw
  refine ⟨fun he => hnot (hleaf w ?_), fun hd => hnot (hleaf w (List.mem_append_left _ hd)), fun hv => hnot (hleaf w ?_)⟩
  · exact List.mem_append_right _ (he ▸ List.mem_cons_self)
  · exact List.mem_append_right _ (List.mem_cons_of_mem _ hv)

/-- The code that a loop over `v` starts its iteration with. -/
theorem Lowers.step (h : Lowers S g underivedBounds emit t order range) {ds vs : List IndexVar} {v : IndexVar}
    (horder : order = ds ++ v :: vs) : ∃ steps,
    (g.newlyRecoverableParents ds g.relations.length v).mapM (g.recoverySteps underivedBounds ds emit v) = some steps ∧
      ∀ env, Recovered S ds env t → ∀ x env',
        runRecovery steps.flatten (Function.update env v x) = some env' ↔
          Recovered S (ds ++ [v]) env' t ∧ ∀ w ∉ newParents ds v t, env' w = Function.update env v x w := by
  obtain ⟨hv, hvd, -, -, hinner⟩ := h.at_loop horder
  obtain ⟨steps, hsteps, hrun⟩ := h.recovery horder _ (List.Subset.refl _)
  rw [← h.derived.newlyRecoverableParents (Closed.of_inner fun w hw => (hinner w hw).2.1) hv hvd] at hsteps
  refine ⟨steps, hsteps, fun env henv x env' => ?_⟩
  rw [hrun, leaves_newly hvd env x h.derived.linked h.derived.nodup hv henv env']
  exact and_congr_left' (recovered_perm h.derived.linked fun w => by simp [or_comm])

/-- The order in which loops over `ms` run their iterations. -/
def Before (ms : List IndexVar) (e e' : Env) : Prop := ms.map e < ms.map e'

instance (ms : List IndexVar) : Std.Irrefl (Before ms) := ⟨fun _ h => lt_irrefl _ h⟩

instance (ms : List IndexVar) : Std.Antisymm (Before ms) := ⟨fun _ _ h h' => absurd h' (lt_asymm h)⟩

/-- The loops over the leaves `ms`, after those over `ds`, run what is below them once for each continuation of the
    variables so far to an iteration of these loops, in lexicographic order. -/
theorem Lowers.run (h : Lowers S g underivedBounds emit t order range) : ∀ (ms ds vs : List IndexVar),
    order = ds ++ (ms ++ vs) → ∃ nest, g.lowerForall underivedBounds emit ds ms = some nest ∧
      ∀ env, Recovered S ds env t → (nest.run env).Pairwise (Before ms) ∧
        ∀ e, e ∈ nest.run env ↔ Recovered S (ds ++ ms) e t ∧ (∀ v ∈ ms, e v ∈ range v e) ∧
          ∀ w, w ∉ ms → (w ∈ covered (ds ++ ms) t → w ∈ covered ds t) → e w = env w
  | [], ds, vs, horder => by
    refine ⟨.body, rfl, fun env henv => ⟨List.pairwise_singleton _ env, fun e => ?_⟩⟩
    rw [LoopNest.run, List.mem_singleton, List.append_nil]
    constructor
    · rintro rfl
      exact ⟨henv, fun v hv => absurd hv List.not_mem_nil, fun _ _ _ => rfl⟩
    · rintro ⟨-, -, hframe⟩
      exact funext fun w => hframe w List.not_mem_nil id
  | v :: ms, ds, vs, horder => by
    obtain ⟨hv, hvd, hvrest, hdrest, hinner⟩ := h.at_loop horder
    have hvms : v ∉ ms := fun hw => hvrest (List.mem_append_left _ hw)
    have hdms : ∀ w ∈ ds, w ∉ ms := fun w hw hm => hdrest w hw (List.mem_append_left _ hm)
    have hinner : ∀ w ∈ t.inner, w ≠ v ∧ w ∉ ds ∧ w ∉ ms := fun w hw =>
      ⟨(hinner w hw).1, (hinner w hw).2.1, fun hm => (hinner w hw).2.2 (List.mem_append_left _ hm)⟩
    have hcov : ∀ w, w ∈ covered (ds ++ [v]) t ↔ w ∈ covered ds t ∨ w ∈ newParents ds v t := fun w => by
      rw [covered_concat]
      exact mem_covered_cons h.derived.nodup hv hvd
    have hall : covered (ds ++ [v]) t ⊆ covered (ds ++ v :: ms) t := covered_mono (by simp) t
    have hvinner : v ∉ t.inner := fun hw => (hinner v hw).1 rfl
    have hnew : ∀ w ∈ newParents ds v t, w ∈ t.inner := fun w hw => newParents_subset_inner _ _ _ hw
    obtain ⟨steps, hsteps, hstep⟩ := h.step horder
    obtain ⟨b, hb, hvalues, hrange⟩ := h.bounds ds v (ms ++ vs) horder
    obtain ⟨contents, hcontents, hrun⟩ := h.run ms (ds ++ [v]) vs (by rw [horder, List.append_assoc]; rfl)
    rw [List.append_assoc, List.singleton_append] at hrun
    refine ⟨.for v b steps.flatten contents, ?_, fun env henv => ?_⟩
    · rw [ProvenanceGraph.lowerForall, hsteps, hb, hcontents]
      rfl
    -- What the loop around the contents leaves of the variables before it.
    have hkept : ∀ e : Env, (∀ w, w ∉ v :: ms → (w ∈ covered (ds ++ v :: ms) t → w ∈ covered ds t) → e w = env w) →
        range v e = range v env := fun e he => by
      refine hrange e env fun w hw => he w ?_ fun hc => ?_
      · rcases hw with hw | hw
        · exact List.not_mem_cons_of_ne_of_not_mem (fun he => hvd (he ▸ hw)) (hdms w hw)
        · obtain ⟨hne, -, hms⟩ := hinner w (covered_subset_inner _ t hw)
          exact List.not_mem_cons_of_ne_of_not_mem hne hms
      · exact hw.resolve_left (hinner w (covered_subset_inner _ t hc)).2.1
    have hvalue : ∀ x env', runRecovery steps.flatten (Function.update env v x) = some env' → env' v = x := by
      intro x env' hx
      rw [((hstep env henv x env').mp hx).2 v fun hw => hvinner (hnew v hw), Function.update_self]
    have hframe : ∀ x env' (e : Env), runRecovery steps.flatten (Function.update env v x) = some env' →
        (∀ w, w ∉ ms → (w ∈ covered (ds ++ v :: ms) t → w ∈ covered (ds ++ [v]) t) → e w = env' w) →
        e v = x ∧ ∀ w, w ∉ v :: ms → (w ∈ covered (ds ++ v :: ms) t → w ∈ covered ds t) → e w = env w := by
      intro x env' e hx he
      refine ⟨(he v hvms fun hw => absurd (covered_subset_inner _ t hw) hvinner).trans (hvalue x env' hx), fun w hw hc => ?_⟩
      obtain ⟨hne, hms⟩ := List.ne_and_not_mem_of_not_mem_cons hw
      rw [he w hms fun hi => (hcov w).mpr (.inl (hc hi)), ((hstep env henv x env').mp hx).2 w fun hn => ?_,
        Function.update_of_ne hne]
      exact not_mem_covered_of_new h.derived.nodup hv hvd hn (hc (hall ((hcov w).mpr (.inr hn))))
    rw [LoopNest.run, hvalues]
    constructor
    · have hlt : (range v env).Pairwise (· < ·) := hvalues env ▸ List.pairwise_lt_range'
      refine List.pairwise_flatMap.mpr ⟨fun x _ => ?_, hlt.imp fun {x y} hxy e hex e' hey => ?_⟩
      · cases hx : runRecovery steps.flatten (Function.update env v x) with
        | none => exact List.Pairwise.nil
        | some env' =>
          obtain ⟨hpair, hmem⟩ := hrun env' ((hstep env henv x env').mp hx).1
          refine hpair.imp_of_mem fun {e e'} he he' hlt => ?_
          have hv := (hframe x env' e hx ((hmem e).mp he).2.2).1
          have hv' := (hframe x env' e' hx ((hmem e').mp he').2.2).1
          rw [Before, List.map_cons, List.map_cons, hv, hv']
          exact List.Lex.cons hlt
      · cases hx : runRecovery steps.flatten (Function.update env v x) with
        | none => rw [hx] at hex; cases hex
        | some env' =>
          cases hy : runRecovery steps.flatten (Function.update env v y) with
          | none => rw [hy] at hey; cases hey
          | some env'' =>
            rw [hx] at hex
            rw [hy] at hey
            have h₁ := ((hrun env' ((hstep env henv x env').mp hx).1).2 e).mp hex
            have h₂ := ((hrun env'' ((hstep env henv y env'').mp hy).1).2 e').mp hey
            rw [Before, List.map_cons, List.map_cons, (hframe x env' e hx h₁.2.2).1, (hframe y env'' e' hy h₂.2.2).1]
            exact List.Lex.rel hxy
    · intro e
      rw [List.mem_flatMap]
      constructor
      · rintro ⟨x, hx, he⟩
        cases hr : runRecovery steps.flatten (Function.update env v x) with
        | none => rw [hr] at he; cases he
        | some env' =>
          rw [hr] at he
          obtain ⟨hrec, hms, hkeep⟩ := ((hrun env' ((hstep env henv x env').mp hr).1).2 e).mp he
          obtain ⟨hev, hout⟩ := hframe x env' e hr hkeep
          refine ⟨hrec, fun u hu => ?_, hout⟩
          rcases List.mem_cons.mp hu with rfl | hu
          · rw [hkept e hout, hev]
            exact hx
          · exact hms u hu
      · rintro ⟨hrec, hms, hout⟩
        classical
        -- The variables of the iteration, as far as they are known before the contents.
        let env' : Env := fun w =>
          if w ∉ ms ∧ (w ∈ covered (ds ++ v :: ms) t → w ∈ covered (ds ++ [v]) t) then e w else env w
        have henv' : ∀ w, w ∉ ms → (w ∈ covered (ds ++ v :: ms) t → w ∈ covered (ds ++ [v]) t) → e w = env' w :=
          fun w hw hc => (if_pos ⟨hw, hc⟩).symm
        have hr : runRecovery steps.flatten (Function.update env v (e v)) = some env' := by
          refine (hstep env henv (e v) env').mpr ⟨hrec.congr h.derived.linked ?_ ?_, fun w hw => ?_⟩
          · intro w hw hd
            have hsub : ds ++ [v] ⊆ ds ++ v :: ms := by simp
            refine ⟨hsub hd, henv' w ?_ fun hi => absurd hw ?_⟩
            · rcases List.mem_append.mp hd with hd | hd
              · exact hdms w hd
              · exact List.mem_singleton.mp hd ▸ hvms
            · exact Derivation.not_mem_leaves_of_inner h.derived.nodup (covered_subset_inner _ t hi)
          · exact fun w hw => henv' w (hinner w (covered_subset_inner _ t hw)).2.2 fun _ => hw
          · by_cases hwv : w = v
            · subst hwv
              rw [Function.update_self]
              exact (henv' w hvms fun hi => absurd (covered_subset_inner _ t hi) hvinner).symm
            · rw [Function.update_of_ne hwv]
              by_cases hc : w ∉ ms ∧ (w ∈ covered (ds ++ v :: ms) t → w ∈ covered (ds ++ [v]) t)
              · rw [← henv' w hc.1 hc.2]
                refine hout w (List.not_mem_cons_of_ne_of_not_mem hwv hc.1) fun hi => ?_
                exact ((hcov w).mp (hc.2 hi)).resolve_right hw
              · exact if_neg hc
        refine ⟨e v, ?_, ?_⟩
        · rw [← hkept e hout]
          exact hms v List.mem_cons_self
        · rw [hr]
          exact ((hrun env' ((hstep env henv (e v) env').mp hr).1).2 e).mpr
            ⟨hrec, fun u hu => hms u (List.mem_cons_of_mem _ hu), henv'⟩

/-- No variable is recovered before the first loop. -/
theorem recovered_nil (env : Env) : ∀ t : Derivation, Recovered S [] env t
  | .leaf _ => trivial
  | .unary _ t => ⟨recovered_nil env t, fun h => absurd (List.subset_nil.mp h) t.leaves_ne_nil⟩
  | .binary _ o i => ⟨⟨recovered_nil env o, recovered_nil env i⟩, fun h =>
      absurd (List.append_eq_nil_iff.mp (List.subset_nil.mp h)).1 o.leaves_ne_nil⟩

end

end Scheduling
end Taco
