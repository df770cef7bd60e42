import Taco.Lower.SplitNest

/-! The body of a split nest is executed for the points of the schedule's tree of strips that lie below
    the dense extent, in the order of the loops. -/

namespace Taco
namespace Lower
open Provenance Strips

/-! ### The tree of a schedule -/

/-- The schedule's relations cut the range of `i` as the tree `t` does, and its foralls iterate the leaves. -/
structure Cut (i : IndexVar) (s : Schedule) (t : StripTree IndexVar) : Prop where
  label : t.label = i
  positive : t.Positive
  nodup : t.labels.Nodup
  represents : Represents s.provGraph t
  root : s.provGraph.parentRel? i = none
  height : t.height ≤ s.provGraph.relations.length
  foralls : s.foralls.Perm t.leaves
  parents : ∀ w ∈ t.inner, w ∈ s.provGraph.relations.map SplitRelNode.parentVar
  known : ∀ rel ∈ s.provGraph.relations, rel.parentVar ∈ t.labels ∧ ∀ c ∈ rel.getChildren, c ∈ t.labels

/-- A label is the label of a leaf or of a cut. -/
theorem mem_labels {w : IndexVar} : ∀ {t : StripTree IndexVar}, w ∈ t.labels → w ∈ t.leaves ∨ w ∈ t.inner
  | .leaf _, h => Or.inl h
  | .split _ _ o i, h => by
    simp only [StripTree.labels, StripTree.leaves, StripTree.inner, List.mem_cons, List.mem_append] at h ⊢
    rcases h with rfl | h | h
    · exact Or.inr (Or.inl rfl)
    · rcases mem_labels h with h | h
      · exact Or.inl (Or.inl h)
      · exact Or.inr (Or.inr (Or.inl h))
    · rcases mem_labels h with h | h
      · exact Or.inl (Or.inr h)
      · exact Or.inr (Or.inr (Or.inr h))

theorem Cut.labels_subset_vars {i : IndexVar} {s : Schedule} {t : StripTree IndexVar} (c : Cut i s t) :
    t.labels ⊆ s.vars := fun w hw =>
  List.mem_append.mpr ((mem_labels hw).imp (fun h => c.foralls.mem_iff.mpr h) (c.parents w))

section Extend
variable {g : ProvenanceGraph} {rel : SplitRelNode}

/-- The graph with one more relation. -/
abbrev extend (g : ProvenanceGraph) (rel : SplitRelNode) : ProvenanceGraph := ⟨g.relations ++ [rel]⟩

theorem childRel?_extend (w : IndexVar) :
    (extend g rel).childRel? w = (g.childRel? w).or (if rel.getParents.contains w then some rel else none) := by
  simp only [ProvenanceGraph.childRel?, List.find?_append, List.find?_singleton]

theorem parentRel?_extend (w : IndexVar) :
    (extend g rel).parentRel? w = (g.parentRel? w).or (if rel.getChildren.contains w then some rel else none) := by
  simp only [ProvenanceGraph.parentRel?, List.find?_append, List.find?_singleton]

theorem childRel?_extend_some {w : IndexVar} {r : SplitRelNode} (h : g.childRel? w = some r) :
    (extend g rel).childRel? w = some r := by
  rw [childRel?_extend, h, Option.some_or]

theorem parentRel?_extend_some {w : IndexVar} {r : SplitRelNode} (h : g.parentRel? w = some r) :
    (extend g rel).parentRel? w = some r := by
  rw [parentRel?_extend, h, Option.some_or]

/-- Cutting a leaf by a new relation keeps every other node of the tree. -/
theorem represents_graft (h1 : g.childRel? rel.outerVar = none) (h2 : g.childRel? rel.innerVar = none)
    (hp1 : g.parentRel? rel.outerVar = none) (hp2 : g.parentRel? rel.innerVar = none)
    (hne : rel.parentVar ≠ rel.outerVar ∧ rel.parentVar ≠ rel.innerVar) :
    ∀ {t : StripTree IndexVar}, Represents g t →
      Represents (extend g rel) (t.graft rel.parentVar
        (.split rel.parentVar rel.splitFactor (.leaf rel.outerVar) (.leaf rel.innerVar)))
  | .leaf w, h => by
    have h : g.childRel? w = none := h
    rw [StripTree.graft]
    split
    · have hw := ‹w = rel.parentVar›
      subst hw
      refine ⟨?_, ?_, ?_, ?_, ?_⟩
      · rw [childRel?_extend, h]
        simp [SplitRelNode.getParents, relOf]
      · rw [parentRel?_extend, StripTree.label_leaf, hp1]
        simp [SplitRelNode.getChildren, relOf]
      · rw [parentRel?_extend, StripTree.label_leaf, hp2]
        simp [SplitRelNode.getChildren, relOf]
      · show (extend g rel).childRel? rel.outerVar = none
        rw [childRel?_extend, h1]
        simp [SplitRelNode.getParents, hne.1.symm]
      · show (extend g rel).childRel? rel.innerVar = none
        rw [childRel?_extend, h2]
        simp [SplitRelNode.getParents, hne.2.symm]
    · have hw := ‹¬w = rel.parentVar›
      show (extend g rel).childRel? w = none
      rw [childRel?_extend, h]
      simp [SplitRelNode.getParents, hw]
  | .split w s o i, ⟨hc, hpo, hpi, ho, hi⟩ => by
    have hlabel : ∀ t : StripTree IndexVar, (t.graft rel.parentVar
        (.split rel.parentVar rel.splitFactor (.leaf rel.outerVar) (.leaf rel.innerVar))).label = t.label :=
      fun t => StripTree.label_graft t rfl
    refine ⟨?_, ?_, ?_, represents_graft h1 h2 hp1 hp2 hne ho, represents_graft h1 h2 hp1 hp2 hne hi⟩
    · rw [relOf, hlabel, hlabel]
      exact childRel?_extend_some hc
    · rw [relOf, hlabel, hlabel]
      exact parentRel?_extend_some hpo
    · rw [relOf, hlabel, hlabel]
      exact parentRel?_extend_some hpi

end Extend

theorem Cut.childRel?_eq_none {i v : IndexVar} {s : Schedule} {t : StripTree IndexVar} (c : Cut i s t)
    (hv : v ∉ t.labels) : s.provGraph.childRel? v = none := by
  rw [ProvenanceGraph.childRel?, List.find?_eq_none]
  intro rel hrel h
  simp only [SplitRelNode.getParents, List.contains_eq_mem, List.mem_singleton, decide_eq_true_eq] at h
  exact hv (h ▸ (c.known rel hrel).1)

theorem Cut.parentRel?_eq_none {i v : IndexVar} {s : Schedule} {t : StripTree IndexVar} (c : Cut i s t)
    (hv : v ∉ t.labels) : s.provGraph.parentRel? v = none := by
  rw [ProvenanceGraph.parentRel?, List.find?_eq_none]
  intro rel hrel h
  simp only [List.contains_eq_mem, decide_eq_true_eq] at h
  exact hv ((c.known rel hrel).2 v h)

theorem Cut.split {i v v1 v2 : IndexVar} {s : Schedule} {t : StripTree IndexVar} {factor : ℕ} (c : Cut i s t)
    (hv : v ∈ s.foralls) (h1 : v1 ∉ s.vars) (h2 : v2 ∉ s.vars) (h12 : v1 ≠ v2) (hpos : 0 < factor) :
    Cut i (s.split v v1 v2 factor) (t.graft v (.split v factor (.leaf v1) (.leaf v2))) := by
  have hvt : v ∈ t.leaves := c.foralls.mem_iff.mp hv
  have hvl : v ∈ t.labels := t.leaves_subset_labels hvt
  have hl1 : v1 ∉ t.labels := fun h => h1 (c.labels_subset_vars h)
  have hl2 : v2 ∉ t.labels := fun h => h2 (c.labels_subset_vars h)
  have hperm := StripTree.labels_graft_perm (s := factor) (a := v1) (b := v2) c.nodup hvt
  have hsub : ∀ {w}, w ∈ t.labels → w ∈ (t.graft v (.split v factor (.leaf v1) (.leaf v2))).labels := fun hw =>
    hperm.mem_iff.mpr (List.mem_cons_of_mem _ (List.mem_cons_of_mem _ hw))
  constructor
  case label => rw [StripTree.label_graft t (StripTree.label_split v factor _ _), c.label]
  case positive =>
    have hsub : (StripTree.split v factor (.leaf v1) (.leaf v2)).Positive := ⟨hpos, trivial, trivial⟩
    exact StripTree.positive_graft hsub c.positive
  case nodup =>
    rw [hperm.nodup_iff, List.nodup_cons, List.nodup_cons, List.mem_cons, not_or]
    exact ⟨⟨h12, hl1⟩, hl2, c.nodup⟩
  case represents =>
    exact represents_graft (g := s.provGraph) (c.childRel?_eq_none hl1) (c.childRel?_eq_none hl2)
      (c.parentRel?_eq_none hl1) (c.parentRel?_eq_none hl2)
      ⟨ne_of_mem_of_not_mem hvl hl1, ne_of_mem_of_not_mem hvl hl2⟩ c.represents
  case root =>
    have hi : i ∈ t.labels := c.label ▸ t.label_mem_labels
    have hi1 : i ≠ v1 := fun h => hl1 (h ▸ hi)
    have hi2 : i ≠ v2 := fun h => hl2 (h ▸ hi)
    show (extend s.provGraph ⟨v, v1, v2, factor⟩).parentRel? i = none
    rw [parentRel?_extend, c.root]
    simp [SplitRelNode.getChildren, hi1, hi2]
  case height =>
    have : (t.graft v (.split v factor (.leaf v1) (.leaf v2))).height ≤ t.height + 1 :=
      StripTree.height_graft_le t
    have := c.height
    simp only [Schedule.split, List.length_append, List.length_singleton]
    omega
  case foralls =>
    rw [StripTree.leaves_graft]
    exact c.foralls.flatMap_right _
  case parents =>
    intro w hw
    simp only [Schedule.split, List.map_append, List.map_cons, List.map_nil, List.mem_append, List.mem_singleton]
    rcases List.mem_append.mp (StripTree.inner_graft_subset t hw) with h | h
    · exact Or.inr (by simpa [StripTree.inner] using h)
    · exact Or.inl (c.parents w h)
  case known =>
    intro rel hrel
    rcases List.mem_append.mp hrel with h | h
    · obtain ⟨hp, hc⟩ := c.known rel h
      exact ⟨hsub hp, fun w hw => hsub (hc w hw)⟩
    · obtain rfl := List.mem_singleton.mp h
      refine ⟨hsub hvl, fun w hw => hperm.mem_iff.mpr ?_⟩
      simp only [SplitRelNode.getChildren, List.mem_cons, List.not_mem_nil, or_false] at hw
      rcases hw with rfl | rfl
      · exact List.mem_cons_self
      · exact List.mem_cons_of_mem _ List.mem_cons_self

/-- Every schedule that splits and reorderings make has its tree. -/
theorem SplitsOf.cut {i : IndexVar} {s : Schedule} (h : SplitsOf i s) : ∃ t, Cut i s t := by
  induction h with
  | «forall» =>
    refine ⟨.leaf i, rfl, trivial, List.nodup_singleton i, rfl, rfl, Nat.le_refl 0, List.Perm.refl _, ?_, ?_⟩
    · intro w hw
      cases hw
    · intro rel hrel
      cases hrel
  | split _ hv h1 h2 h12 hpos ih =>
    obtain ⟨t, c⟩ := ih
    exact ⟨_, c.split hv h1 h2 h12 hpos⟩
  | reorder _ hperm ih =>
    obtain ⟨t, c⟩ := ih
    exact ⟨t, { c with foralls := hperm.trans c.foralls }⟩

/-! ### Recovery -/

/-- Each range of the tree whose leaves are all defined holds the value that the tree composes for it. -/
def Consistent (defined : List IndexVar) (env : Env) : StripTree IndexVar → Prop
  | .leaf _ => True
  | .split v s o i => Consistent defined env o ∧ Consistent defined env i ∧
      (o.leaves ++ i.leaves ⊆ defined → env v = (StripTree.split v s o i).eval env)

namespace Consistent
variable {defined defined' : List IndexVar} {env env' : Env}

theorem nil (env : Env) : ∀ t : StripTree IndexVar, Consistent [] env t
  | .leaf _ => trivial
  | .split _ _ o i => ⟨nil env o, nil env i, fun h =>
      absurd (List.append_eq_nil_iff.mp (List.subset_nil.mp h)).1 o.leaves_ne_nil⟩

theorem label : ∀ {t : StripTree IndexVar}, Consistent defined env t → t.leaves ⊆ defined → env t.label = t.eval env
  | .leaf _, _, _ => rfl
  | .split _ _ _ _, h, hd => h.2.2 hd

theorem congr : ∀ {t : StripTree IndexVar}, (∀ w ∈ t.labels, env' w = env w) →
    (t.leaves ⊆ defined' → t.leaves ⊆ defined) → (∀ w ∈ t.leaves, w ∈ defined' → w ∈ defined) →
    Consistent defined env t → Consistent defined' env' t
  | .leaf _, _, _, _, _ => trivial
  | .split v s o i, he, hd, hw, ⟨ho, hi, hv⟩ => by
    have hlo : ∀ w ∈ o.labels, env' w = env w := fun w h => he w (List.mem_cons_of_mem _ (List.mem_append_left _ h))
    have hli : ∀ w ∈ i.labels, env' w = env w := fun w h => he w (List.mem_cons_of_mem _ (List.mem_append_right _ h))
    have hwo : ∀ w ∈ o.leaves, w ∈ defined' → w ∈ defined := fun w h => hw w (List.mem_append_left _ h)
    have hwi : ∀ w ∈ i.leaves, w ∈ defined' → w ∈ defined := fun w h => hw w (List.mem_append_right _ h)
    refine ⟨congr hlo (fun h w hw => hwo w hw (h hw)) hwo ho, congr hli (fun h w hw => hwi w hw (h hw)) hwi hi, ?_⟩
    intro hsub
    rw [he v List.mem_cons_self, hv (hd hsub)]
    exact StripTree.eval_congr fun w h => (he w ((StripTree.split v s o i).leaves_subset_labels h)).symm

end Consistent

/-- A cut range is no leaf. -/
theorem not_mem_leaves_of_inner {w : IndexVar} : ∀ {t : StripTree IndexVar}, t.labels.Nodup → w ∈ t.inner → w ∉ t.leaves
  | .split v s o i, hnd, hw, hl => by
    obtain ⟨hvo, hvi, hndo, hndi, hdisj⟩ := nodup_split hnd
    rcases List.mem_cons.mp hw with rfl | hw
    · exact (List.mem_append.mp hl).elim (fun h => hvo (o.leaves_subset_labels h)) fun h => hvi (i.leaves_subset_labels h)
    · rcases List.mem_append.mp hw with hw | hw
      · rcases List.mem_append.mp hl with hl | hl
        · exact not_mem_leaves_of_inner hndo hw hl
        · exact hdisj w (o.inner_subset_labels hw) (i.leaves_subset_labels hl)
      · rcases List.mem_append.mp hl with hl | hl
        · exact hdisj w (o.leaves_subset_labels hl) (i.inner_subset_labels hw)
        · exact not_mem_leaves_of_inner hndi hw hl

theorem runRecovery_append (b : List RecoveryStep) : ∀ (a : List RecoveryStep) (env : Env),
    runRecovery (a ++ b) env = (runRecovery a env).bind (runRecovery b)
  | [], _ => rfl
  | .varDecl v rel :: a, env => runRecovery_append b a _
  | .guard v bound :: a, env => by
    simp only [List.cons_append, runRecovery]
    split
    · rfl
    · exact runRecovery_append b a env

section Recover
variable {g : ProvenanceGraph} {bounds : IndexVar → Option Bounds} {defined : List IndexVar} {v : IndexVar}

/-- The code for the ranges that the leaf `v` makes recoverable keeps the tree consistent, and writes only
    cut ranges. -/
def Recovers (g : ProvenanceGraph) (bounds : IndexVar → Option Bounds) (defined : List IndexVar) (v : IndexVar)
    (t : StripTree IndexVar) : Prop :=
  ∀ (env : Env) (x : ℕ), Consistent defined env t →
    ∃ env', runRecovery ((newly defined v t).flatMap (recoverySteps g bounds)) (Function.update env v x) = some env' ∧
      Consistent (v :: defined) env' t ∧ ∀ w ∉ t.inner, env' w = Function.update env v x w

/-- A tree without the leaf `v` stays consistent when nothing of it is written. -/
theorem Consistent.frame {env env' : Env} {t : StripTree IndexVar} (hv : v ∉ t.labels)
    (hframe : ∀ w ∈ t.labels, env' w = env w) (h : Consistent defined env t) : Consistent (v :: defined) env' t :=
  h.congr hframe (leaves_subset_cons_iff fun h => hv (t.leaves_subset_labels h)).mp fun _ hw hd =>
    (List.mem_cons.mp hd).resolve_left fun he => hv (he ▸ t.leaves_subset_labels hw)

/-- Below a cut, the code of the child that holds `v` leaves both children consistent. -/
theorem recovers_children {w : IndexVar} {s : ℕ} {o i : StripTree IndexVar} (hnd : (StripTree.split w s o i).labels.Nodup)
    (hv : v ∈ (StripTree.split w s o i).leaves) (ho : v ∈ o.leaves → Recovers g bounds defined v o)
    (hi : v ∈ i.leaves → Recovers g bounds defined v i) {env : Env} {x : ℕ}
    (hco : Consistent defined env o) (hci : Consistent defined env i) :
    ∃ env', runRecovery ((if v ∈ o.leaves then newly defined v o else newly defined v i).flatMap
        (recoverySteps g bounds)) (Function.update env v x) = some env' ∧
      Consistent (v :: defined) env' o ∧ Consistent (v :: defined) env' i ∧
      ∀ u ∉ o.inner ++ i.inner, env' u = Function.update env v x u := by
  obtain ⟨-, -, hndo, hndi, hdisj⟩ := nodup_split hnd
  by_cases hvo : v ∈ o.leaves
  · rw [if_pos hvo]
    obtain ⟨env', hrun, hc, hframe⟩ := ho hvo env x hco
    have hvi : v ∉ i.labels := hdisj v (o.leaves_subset_labels hvo)
    refine ⟨env', hrun, hc, hci.frame hvi fun u hu => ?_, fun u hu => hframe u fun h => hu (List.mem_append_left _ h)⟩
    rw [hframe u fun h => hdisj u (o.inner_subset_labels h) hu,
      Function.update_of_ne (ne_of_mem_of_not_mem hu hvi)]
  · rw [if_neg hvo]
    have hvi : v ∈ i.leaves := (List.mem_append.mp hv).resolve_left hvo
    obtain ⟨env', hrun, hc, hframe⟩ := hi hvi env x hci
    have hvo' : v ∉ o.labels := fun h => hdisj v h (i.leaves_subset_labels hvi)
    refine ⟨env', hrun, hco.frame hvo' fun u hu => ?_, hc, fun u hu => hframe u fun h => hu (List.mem_append_right _ h)⟩
    rw [hframe u fun h => hdisj u hu (i.inner_subset_labels h),
      Function.update_of_ne (ne_of_mem_of_not_mem hu hvo')]

/-- Declaring a cut range from consistent children makes the cut consistent. -/
theorem Consistent.update {w : IndexVar} {s : ℕ} {o i : StripTree IndexVar} {env : Env}
    (hnd : (StripTree.split w s o i).labels.Nodup) (ho : Consistent defined env o) (hi : Consistent defined env i)
    (hsub : o.leaves ++ i.leaves ⊆ defined) :
    Consistent defined (Function.update env w ((relOf w s o i).recoverVariable env)) (.split w s o i) := by
  obtain ⟨hwo, hwi, -⟩ := nodup_split hnd
  obtain ⟨hso, hsi⟩ := List.append_subset.mp hsub
  have heo : ∀ u ∈ o.labels, Function.update env w ((relOf w s o i).recoverVariable env) u = env u := fun u hu =>
    Function.update_of_ne (ne_of_mem_of_not_mem hu hwo) _ _
  have hei : ∀ u ∈ i.labels, Function.update env w ((relOf w s o i).recoverVariable env) u = env u := fun u hu =>
    Function.update_of_ne (ne_of_mem_of_not_mem hu hwi) _ _
  refine ⟨ho.congr heo id fun _ _ h => h, hi.congr hei id fun _ _ h => h, fun _ => ?_⟩
  rw [Function.update_self, StripTree.eval, StripTree.eval_congr fun u hu => heo u (o.leaves_subset_labels hu),
    StripTree.eval_congr fun u hu => hei u (i.leaves_subset_labels hu)]
  simp only [SplitRelNode.recoverVariable, relOf, ho.label hso, hi.label hsi]

theorem recovers : ∀ {t : StripTree IndexVar}, Represents g t → t.labels.Nodup → (∀ w ∈ t.inner, bounds w = none) →
    v ∈ t.leaves → Recovers g bounds defined v t
  | .leaf _, _, _, _, _ => fun env x _ => ⟨Function.update env v x, rfl, trivial, fun _ _ => rfl⟩
  | .split w s o i, ⟨hc, _, _, hro, hri⟩, hnd, hb, hv => by
    obtain ⟨hwo, hwi, hndo, hndi, hdisj⟩ := nodup_split hnd
    intro env x hcons
    obtain ⟨env', hrun, hco, hci, hframe⟩ := recovers_children hnd hv
      (recovers hro hndo fun u hu => hb u (List.mem_cons_of_mem _ (List.mem_append_left _ hu)))
      (recovers hri hndi fun u hu => hb u (List.mem_cons_of_mem _ (List.mem_append_right _ hu)))
      hcons.1 hcons.2.1
    rw [newly, List.flatMap_append, runRecovery_append, hrun, Option.bind_some]
    by_cases hsub : o.leaves ++ i.leaves ⊆ v :: defined
    · refine ⟨Function.update env' w ((relOf w s o i).recoverVariable env'), ?_, hco.update hnd hci hsub, fun u hu => ?_⟩
      · simp only [if_pos hsub, List.flatMap_cons, List.flatMap_nil, recoverySteps, hc, hb w List.mem_cons_self,
          List.append_nil, runRecovery]
      · rw [StripTree.inner, List.mem_cons, not_or] at hu
        rw [Function.update_of_ne hu.1, hframe u hu.2]
    · refine ⟨env', ?_, ⟨hco, hci, fun h => absurd h hsub⟩, fun u hu => hframe u fun h => hu (List.mem_cons_of_mem _ h)⟩
      rw [if_neg hsub]
      rfl

/-! ### Runs -/

/-- What the recovery code of a loop does at the root of the tree: the guard fires exactly when the root is
    recovered to a value beyond its range. -/
theorem recovery_root {t : StripTree IndexVar} {i n x : ℕ} {env : Env} (hl : t.label = i) (hr : Represents g t)
    (hnd : t.labels.Nodup) (hroot : g.parentRel? i = none) (hlen : t.height ≤ g.relations.length)
    (hd : ∀ w ∈ defined, w ∈ t.leaves) (hv : v ∈ t.leaves) (hvd : v ∉ defined) (hx : t = .leaf v → x < n)
    (hcons : Consistent defined env t) :
    (runRecovery ((g.newlyRecoverableParents defined g.relations.length v).flatMap
          (recoverySteps g (denseBounds i n))) (Function.update env v x) = none ∧
        t.leaves ⊆ v :: defined ∧ n ≤ t.eval (Function.update env v x)) ∨
      ∃ env', runRecovery ((g.newlyRecoverableParents defined g.relations.length v).flatMap
          (recoverySteps g (denseBounds i n))) (Function.update env v x) = some env' ∧
        Consistent (v :: defined) env' t ∧ (∀ w ∉ t.inner, env' w = Function.update env v x w) ∧
        (t.leaves ⊆ v :: defined → t.eval (Function.update env v x) < n) := by
  obtain ⟨fuel, hfuel⟩ : ∃ fuel, g.relations.length = fuel + depth v t :=
    ⟨g.relations.length - depth v t, by have := depth_le_height v t; omega⟩
  have hnone : g.newlyRecoverableParents defined fuel i = [] := by
    cases fuel with
    | zero => rfl
    | succ fuel => simp [ProvenanceGraph.newlyRecoverableParents, ProvenanceGraph.getParents, hroot]
  have hnewly : g.newlyRecoverableParents defined g.relations.length v = newly defined v t := by
    rw [hfuel, newlyRecoverableParents_eq hvd hr hnd hlen
      (fun w hw hwd => not_mem_leaves_of_inner hnd hw (hd w hwd)) hv, hl, hnone, ite_self, List.append_nil]
  rw [hnewly]
  cases t with
  | leaf w =>
    obtain rfl : v = w := List.mem_singleton.mp hv
    refine Or.inr ⟨_, rfl, trivial, fun _ _ => rfl, fun _ => ?_⟩
    rw [StripTree.eval, Function.update_self]
    exact hx rfl
  | split w s o i' =>
    obtain ⟨hc, _, _, hro, hri⟩ := hr
    obtain ⟨hwo, hwi, hndo, hndi, hdisj⟩ := nodup_split hnd
    obtain rfl : w = i := hl
    have hbo : ∀ u ∈ o.inner, denseBounds w n u = none := fun u hu =>
      if_neg (ne_of_mem_of_not_mem (o.inner_subset_labels hu) hwo)
    have hbi : ∀ u ∈ i'.inner, denseBounds w n u = none := fun u hu =>
      if_neg (ne_of_mem_of_not_mem (i'.inner_subset_labels hu) hwi)
    obtain ⟨env', hrun, hco, hci, hframe⟩ := recovers_children (x := x) hnd hv (recovers hro hndo hbo)
      (recovers hri hndi hbi) hcons.1 hcons.2.1
    rw [newly, List.flatMap_append, runRecovery_append, hrun, Option.bind_some]
    by_cases hsub : o.leaves ++ i'.leaves ⊆ v :: defined
    · have hup := hco.update hnd hci hsub
      -- The value that the declaration gives to the root is the one the leaves compose.
      have heval : Function.update env' w ((relOf w s o i').recoverVariable env') w =
          (StripTree.split w s o i').eval (Function.update env v x) := by
        rw [hup.2.2 hsub]
        refine StripTree.eval_congr fun u hu => ?_
        have huw : u ∉ (StripTree.split w s o i').inner := fun h => not_mem_leaves_of_inner hnd h hu
        rw [StripTree.inner, List.mem_cons, not_or] at huw
        rw [Function.update_of_ne huw.1, hframe u huw.2]
      simp only [if_pos hsub, List.flatMap_cons, List.flatMap_nil, recoverySteps, hc, denseBounds, ite_true,
        List.append_nil, runRecovery, heval]
      by_cases hn : n ≤ (StripTree.split w s o i').eval (Function.update env v x)
      · exact Or.inl ⟨if_pos hn, hsub, hn⟩
      · refine Or.inr ⟨_, if_neg hn, hup, fun u hu => ?_, fun _ => not_le.mp hn⟩
        rw [StripTree.inner, List.mem_cons, not_or] at hu
        rw [Function.update_of_ne hu.1, hframe u hu.2]
    · rw [if_neg hsub]
      exact Or.inr ⟨env', rfl, ⟨hco, hci, fun h => absurd h hsub⟩,
        fun u hu => hframe u fun h => hu (List.mem_cons_of_mem _ h), fun h => absurd h hsub⟩

end Recover

theorem map_eval_assignments_congr {t : StripTree IndexVar} : ∀ {r : List (IndexVar × ℕ)} {env env' : Env},
    (∀ w ∈ t.leaves, env w = env' w) →
    (StripTree.assignments r env).map t.eval = (StripTree.assignments r env').map t.eval
  | [], _, _, h => by simp only [StripTree.assignments, List.map_cons, List.map_nil, StripTree.eval_congr h]
  | (v, k) :: r, env, env', h => by
    simp only [StripTree.assignments, List.map_flatMap]
    refine List.flatMap_congr fun x _ => map_eval_assignments_congr fun w hw => ?_
    by_cases hwv : w = v
    · rw [hwv, Function.update_self, Function.update_self]
    · rw [Function.update_of_ne hwv, Function.update_of_ne hwv, h w hw]

/-- The loops over the remaining leaves run the body for the points that their states compose below `n`. -/
theorem run_lowerForall {g : ProvenanceGraph} {t : StripTree IndexVar} {i n : ℕ} (hl : t.label = i)
    (hr : Represents g t) (hnd : t.labels.Nodup) (hroot : g.parentRel? i = none) (hlen : t.height ≤ g.relations.length) :
    ∀ {ranges : List (IndexVar × ℕ)} {defined : List IndexVar}, (ranges.map Prod.fst).Nodup →
      (∀ w ∈ ranges.map Prod.fst, w ∉ defined) → (∀ w, w ∈ t.leaves ↔ w ∈ defined ∨ w ∈ ranges.map Prod.fst) →
      (∀ p ∈ ranges, p ∈ t.extents n) →
      ∃ nest, lowerForall g (denseBounds i n) defined (ranges.map Prod.fst) = some nest ∧
        ∀ env, Consistent defined env t → (ranges = [] → t.eval env < n) →
          nest.run i env = ((StripTree.assignments ranges env).map t.eval).filter (· < n)
  | [], defined, _, _, hall, _ => by
    refine ⟨.body, rfl, fun env hcons hlt => ?_⟩
    have hsub : t.leaves ⊆ defined := fun w hw => ((hall w).mp hw).resolve_right List.not_mem_nil
    have heq : env i = t.eval env := hl ▸ hcons.label hsub
    simp only [LoopNest.run, StripTree.assignments, List.map_cons, List.map_nil, heq]
    rw [List.filter_cons_of_pos (by simpa using hlt rfl), List.filter_nil]
  | (v, k) :: ranges, defined, hnodup, hdisj, hall, hext => by
    obtain ⟨hvr, hnodup'⟩ := List.nodup_cons.mp hnodup
    have hvd : v ∉ defined := hdisj v List.mem_cons_self
    have hv : v ∈ t.leaves := (hall v).mpr (Or.inr List.mem_cons_self)
    have hd : ∀ w ∈ defined, w ∈ t.leaves := fun w hw => (hall w).mpr (Or.inl hw)
    have hk : (v, k) ∈ t.extents n := hext _ List.mem_cons_self
    have hbound : g.deriveIterBounds (denseBounds i n) g.relations.length v = some (0, k) := by
      obtain ⟨fuel, hfuel⟩ : ∃ fuel, g.relations.length = fuel + depth v t :=
        ⟨g.relations.length - depth v t, by have := depth_le_height v t; omega⟩
      rw [hfuel]
      refine deriveIterBounds_leaf hr hnd hk ?_
      have hdense : denseBounds i n i = some (0, n) := if_pos rfl
      rw [hl]
      cases fuel with
      | zero => exact hdense
      | succ fuel => simp only [ProvenanceGraph.deriveIterBounds, hroot, hdense]
    have hdisj' : ∀ w ∈ ranges.map Prod.fst, w ∉ v :: defined := fun w hw hwd => by
      rcases List.mem_cons.mp hwd with rfl | hwd
      · exact hvr hw
      · exact hdisj w (List.mem_cons_of_mem _ hw) hwd
    have hall' : ∀ w, w ∈ t.leaves ↔ w ∈ v :: defined ∨ w ∈ ranges.map Prod.fst := fun w => by
      rw [hall w, List.map_cons, List.mem_cons, List.mem_cons]
      tauto
    obtain ⟨contents, hcontents, hrun⟩ := run_lowerForall hl hr hnd hroot hlen hnodup' hdisj' hall'
      fun p hp => hext p (List.mem_cons_of_mem _ hp)
    refine ⟨.for v 0 k ((g.newlyRecoverableParents defined g.relations.length v).flatMap
      (recoverySteps g (denseBounds i n))) contents, ?_, fun env hcons _ => ?_⟩
    · rw [List.map_cons, lowerForall, hbound, hcontents]
      rfl
    · rw [LoopNest.run, Nat.sub_zero, ← List.range_eq_range', StripTree.assignments, List.map_flatMap, List.filter_flatMap]
      refine List.flatMap_congr fun x hx => ?_
      have hleaf : t = .leaf v → x < n := fun he => by
        rw [he, StripTree.extents, List.mem_singleton] at hk
        rw [← (Prod.mk.inj hk).2]
        exact List.mem_range.mp hx
      rcases recovery_root hl hr hnd hroot hlen hd hv hvd hleaf hcons with
          ⟨hnone, hsub, hge⟩ | ⟨env', hsome, hcons', hframe, hlt⟩
      · -- The guard fires: this is the innermost loop, and its point is filtered out.
        have hnil : ranges = [] := by
          cases ranges with
          | nil => rfl
          | cons p ranges =>
            have hp : p.1 ∈ (p :: ranges).map Prod.fst := List.mem_cons_self
            exact absurd (hsub ((hall' p.1).mpr (Or.inr hp))) (hdisj' p.1 hp)
        rw [hnone, hnil]
        simp only [StripTree.assignments, List.map_cons, List.map_nil]
        rw [List.filter_cons_of_neg (by simpa using hge), List.filter_nil]
      · have heq : ∀ w ∈ t.leaves, env' w = Function.update env v x w := fun w hw =>
          hframe w fun h => not_mem_leaves_of_inner hnd h hw
        rw [hsome]
        show contents.run i env' = _
        rw [hrun env' hcons', map_eval_assignments_congr heq]
        intro hnil
        rw [StripTree.eval_congr heq]
        refine hlt fun w hw => ((hall' w).mp hw).resolve_right ?_
        rw [hnil]
        exact List.not_mem_nil

/-! ### Schedules -/

/-- The tree that the relations of a schedule cut the range of `i` into. -/
def Schedule.stripTree (s : Schedule) (i : IndexVar) : StripTree IndexVar :=
  s.provGraph.stripTree s.provGraph.relations.length i

theorem Cut.stripTree_eq {i : IndexVar} {s : Schedule} {t : StripTree IndexVar} (c : Cut i s t) : s.stripTree i = t := by
  rw [Schedule.stripTree, ← c.label]
  exact Provenance.stripTree_eq c.represents c.height

/-- A list of pairs can be reordered with its keys. -/
theorem exists_perm_map_fst {α β : Type} {l : List (α × β)} {keys : List α} (h : keys.Perm (l.map Prod.fst)) :
    ∃ l' : List (α × β), l'.map Prod.fst = keys ∧ l'.Perm l := by
  have hcomp : Relation.Comp (fun a b => a = List.map Prod.fst b) List.Perm keys l := by
    rw [List.eq_map_comp_perm]
    exact h
  obtain ⟨l', hkeys, hperm⟩ := hcomp
  exact ⟨l', hkeys.symm, hperm⟩

/-- The body of a split nest is executed for the points of the tree below `n`, up to their order. -/
theorem SplitsOf.run_perm {i n : ℕ} {s : Schedule} (h : SplitsOf i s) :
    ∃ nest, s.lower i n = some nest ∧ ∀ env, (nest.run i env).Perm (((s.stripTree i).points n).filter (· < n)) := by
  obtain ⟨t, c⟩ := h.cut
  have hkeys : s.foralls.Perm ((t.extents n).map Prod.fst) := by
    rw [t.map_fst_extents]
    exact c.foralls
  have hnodup : ((t.extents n).map Prod.fst).Nodup := by
    rw [t.map_fst_extents]
    exact StripTree.nodup_leaves c.nodup
  obtain ⟨ranges, hfst, hperm⟩ := exists_perm_map_fst hkeys
  have hall : ∀ w, w ∈ t.leaves ↔ w ∈ [] ∨ w ∈ ranges.map Prod.fst := fun w => by
    rw [hfst, c.foralls.mem_iff]
    simp
  obtain ⟨nest, hlower, hrun⟩ := run_lowerForall c.label c.represents c.nodup c.root c.height
    ((hperm.map Prod.fst).nodup_iff.mpr hnodup) (fun _ _ => List.not_mem_nil) hall fun p hp => hperm.mem_iff.mp hp
  refine ⟨nest, by rw [← hlower, hfst]; rfl, fun env => ?_⟩
  rw [hrun env (Consistent.nil env t) ?_, c.stripTree_eq, ← StripTree.map_eval_assignments env (StripTree.nodup_leaves c.nodup)]
  · exact ((StripTree.assignments_perm hperm ((hperm.map Prod.fst).nodup_iff.mpr hnodup) env).map _).filter _
  · rintro rfl
    rw [List.nil_perm] at hperm
    exact absurd (by rw [← t.map_fst_extents n, hperm]; rfl) t.leaves_ne_nil

/-- A variable split by 4, the inner variable again by 2. -/
def splitBy4Then2 : Schedule := ((⟨[0], ⟨[]⟩⟩ : Schedule).split 0 1 2 4).split 2 3 4 2

/-- A variable split by 3, the inner variable again by 2, which does not divide 3. -/
def splitBy3Then2 : Schedule := ((⟨[0], ⟨[]⟩⟩ : Schedule).split 0 1 2 3).split 2 3 4 2

end Lower
end Taco
