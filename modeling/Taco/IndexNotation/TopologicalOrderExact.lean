import Taco.IndexNotation.TopologicalOrder

/-! When the order of the loops respects the levels of the accesses. -/

namespace Taco
namespace Concrete

open Workspace (Format ModeFormat)
open Dependencies (Before Cyclic Respects)

variable {V : Type}

/-! ### Sorting -/

section Sorting

variable {hardDeps softDeps : IndexVar → List IndexVar} {order sortedVars vars : List IndexVar} {n : ℕ} {v : IndexVar}

theorem scanFreeVar_some (h : scanFreeVar hardDeps softDeps order = some v) : v ∈ order ∧ hardDeps v = [] := by
  have hmem := List.argmin_mem h
  rw [List.mem_filter, List.isEmpty_iff] at hmem
  exact hmem

theorem scanFreeVar_none (h : scanFreeVar hardDeps softDeps order = none) (hv : v ∈ order) : hardDeps v ≠ [] := by
  have hnone := List.argmin_eq_none.mp h
  intro hfree
  have hmem : v ∈ order.filter fun var => (hardDeps var).isEmpty :=
    List.mem_filter.mpr ⟨hv, List.isEmpty_iff.mpr hfree⟩
  rw [hnone] at hmem
  exact List.not_mem_nil hmem

/-- What the loop adds is an order of the variables that are left. -/
theorem sortLoop_some (hn : n = order.length) (h : sortLoop n hardDeps softDeps order sortedVars = some vars) :
    ∃ added, vars = sortedVars ++ added ∧ added.Perm order ∧ Respects hardDeps added := by
  induction n generalizing hardDeps softDeps order sortedVars with
  | zero =>
    have hempty := List.eq_nil_of_length_eq_zero hn.symm
    subst hempty
    exact ⟨[], by simpa [sortLoop] using h.symm, List.Perm.refl _, Dependencies.respects_nil⟩
  | succ n ih =>
    rw [sortLoop] at h
    cases hscan : scanFreeVar hardDeps softDeps order with
    | none => simp [hscan] at h
    | some freeVar =>
      rw [hscan] at h
      obtain ⟨hmem, hfree⟩ := scanFreeVar_some hscan
      obtain ⟨added, rfl, hperm, hrespects⟩ := ih (by rw [List.length_erase_of_mem hmem]; omega) h
      refine ⟨freeVar :: added, by simp, (hperm.cons freeVar).trans (List.perm_cons_erase hmem).symm, ?_⟩
      intro before v after heq u hu
      cases before with
      | nil =>
        rw [List.nil_append, List.cons.injEq] at heq
        rw [← heq.1, hfree] at hu
        exact absurd hu List.not_mem_nil
      | cons first before =>
        rw [List.cons_append, List.cons.injEq] at heq
        rw [← heq.1]
        by_cases hfirst : u = freeVar
        · exact hfirst ▸ List.mem_cons_self
        · refine List.mem_cons_of_mem _ (hrespects before v after heq.2 u ?_)
          rw [removeDependency, List.mem_filter]
          exact ⟨hu, by simpa using hfirst⟩

/-- The loop stops at variables that depend on each other. -/
theorem sortLoop_none (hn : n = order.length) (hclosed : ∀ v ∈ order, ∀ u ∈ hardDeps v, u ∈ order)
    (h : sortLoop n hardDeps softDeps order sortedVars = none) :
    ∃ left, left ≠ [] ∧ ∀ v ∈ left, ∃ u ∈ left, u ∈ hardDeps v := by
  induction n generalizing hardDeps softDeps order sortedVars with
  | zero => simp [sortLoop] at h
  | succ n ih =>
    rw [sortLoop] at h
    cases hscan : scanFreeVar hardDeps softDeps order with
    | none =>
      refine ⟨order, List.ne_nil_of_length_pos (by omega), fun v hv => ?_⟩
      obtain ⟨u, hu⟩ := List.exists_mem_of_ne_nil _ (scanFreeVar_none hscan hv)
      exact ⟨u, hclosed v hv u hu, hu⟩
    | some freeVar =>
      rw [hscan] at h
      have hmem := (scanFreeVar_some hscan).1
      obtain ⟨left, hleft, hdeps⟩ := ih (by rw [List.length_erase_of_mem hmem]; omega)
        (fun v hv u hu => by
          rw [removeDependency, List.mem_filter] at hu
          exact (List.mem_erase_of_ne (by simpa using hu.2)).mpr (hclosed v (List.mem_of_mem_erase hv) u hu.1)) h
      refine ⟨left, hleft, fun v hv => ?_⟩
      obtain ⟨u, hu, hdep⟩ := hdeps v hv
      exact ⟨u, hu, (List.mem_filter.mp hdep).1⟩

/-- The order is complete and respects the dependencies. -/
theorem topologicallySort_some (h : topologicallySort hardDeps softDeps order = some vars) :
    vars.Perm order ∧ Respects hardDeps vars := by
  obtain ⟨added, rfl, hperm, hrespects⟩ := sortLoop_some rfl h
  exact ⟨hperm, hrespects⟩

/-- There is no order exactly when the dependencies are cyclic. -/
theorem topologicallySort_none_iff (hclosed : ∀ v, ∀ u ∈ hardDeps v, u ∈ order ∧ v ∈ order) :
    topologicallySort hardDeps softDeps order = none ↔ Cyclic (Before hardDeps) := by
  constructor
  · intro h
    obtain ⟨left, hleft, hdeps⟩ := sortLoop_none rfl (fun v _ u hu => (hclosed v u hu).1) h
    exact Dependencies.cyclic_of_no_free hleft hdeps
  · intro hcyclic
    cases hsort : topologicallySort hardDeps softDeps order with
    | none => rfl
    | some vars =>
      obtain ⟨hperm, hrespects⟩ := topologicallySort_some hsort
      refine absurd hcyclic (hrespects.not_cyclic fun v hv => ?_)
      obtain ⟨u, hu⟩ := List.exists_mem_of_ne_nil _ hv
      exact hperm.mem_iff.mpr (hclosed v u hu).2

end Sorting

/-! ### Dependencies of an order -/

/-- A sort by level; variables of one level are left in some order. -/
structure SortsByLevel (sort : List TensorLevelVar → List TensorLevelVar) : Prop where
  perm : ∀ l, (sort l).Perm l
  sorted : ∀ l, (sort l).Pairwise fun a b => a.level ≤ b.level

theorem mem_depsFromVarOrder {varOrder : List (IndexVar × Bool)} {first second : IndexVar × Bool}
    (h : [first, second].Sublist varOrder) (henforces : (first.2 || second.2) = true) :
    first.1 ∈ depsFromVarOrder varOrder second.1 := by
  induction varOrder with
  | nil => cases h
  | cons head varOrder ih =>
    rw [depsFromVarOrder, List.mem_append]
    cases h with
    | cons _ h => exact Or.inr (ih h)
    | cons_cons _ h =>
      refine Or.inl (List.mem_map.mpr ⟨second, List.mem_filter.mpr ⟨List.singleton_sublist.mp h, ?_⟩, rfl⟩)
      simp [henforces]

theorem of_mem_depsFromVarOrder {varOrder : List (IndexVar × Bool)} {u v : IndexVar}
    (h : u ∈ depsFromVarOrder varOrder v) : u ∈ varOrder.map Prod.fst ∧ v ∈ varOrder.map Prod.fst := by
  induction varOrder with
  | nil => cases h
  | cons first varOrder ih =>
    rw [depsFromVarOrder, List.mem_append] at h
    rcases h with h | h
    · obtain ⟨second, hsecond, rfl⟩ := List.mem_map.mp h
      rw [List.mem_filter, Bool.and_eq_true, decide_eq_true_eq] at hsecond
      exact ⟨List.mem_cons_self, List.mem_cons_of_mem _ (List.mem_map.mpr ⟨second, hsecond.1, hsecond.2.2⟩)⟩
    · exact ⟨List.mem_cons_of_mem _ (ih h).1, List.mem_cons_of_mem _ (ih h).2⟩

/-- Elements of different keys stand in the order of their keys. -/
theorem pair_sublist_of_sorted {l : List TensorLevelVar} (hsorted : l.Pairwise fun a b => a.level ≤ b.level)
    {a b : TensorLevelVar} (ha : a ∈ l) (hb : b ∈ l) (hlt : a.level < b.level) : [a, b].Sublist l := by
  induction l with
  | nil => cases ha
  | cons head l ih =>
    rw [List.pairwise_cons] at hsorted
    rcases List.mem_cons.mp ha with rfl | ha'
    · have hne : b ≠ a := by
        rintro rfl
        exact lt_irrefl _ hlt
      exact (List.singleton_sublist.mpr ((List.mem_cons.mp hb).resolve_left hne)).cons_cons _
    · rcases List.mem_cons.mp hb with rfl | hb'
      · exact absurd hlt (not_lt.mpr (hsorted.1 a ha'))
      · exact (ih hsorted.2 ha' hb').cons _

variable {format : TensorVar → Format} {sort : List TensorLevelVar → List TensorLevelVar} {s : IndexStmt V}

/-- Levels of one tensor of which one enforces constraints order their variables. -/
theorem mem_hardDeps (hsort : SortsByLevel sort) {a b : TensorLevelVar} (ha : a ∈ s.tensorLevelVars format)
    (hb : b ∈ s.tensorLevelVars format) (htensor : a.tensor = b.tensor) (hlt : a.level < b.level)
    (henforces : (a.enforces || b.enforces) = true) : a.var ∈ s.hardDeps format sort b.var := by
  rw [IndexStmt.hardDeps, depsFromVarOrders, List.mem_flatMap]
  refine ⟨_, List.mem_map.mpr ⟨a.tensor, List.mem_dedup.mpr (List.mem_map_of_mem ha), rfl⟩, ?_⟩
  have hmem : ∀ c ∈ s.tensorLevelVars format, c.tensor = a.tensor →
      c ∈ sort ((s.tensorLevelVars format).filter fun levelVar => levelVar.tensor = a.tensor).dedup := by
    intro c hc hctensor
    rw [(hsort.perm _).mem_iff, List.mem_dedup, List.mem_filter]
    exact ⟨hc, by simpa using hctensor⟩
  have hpair := pair_sublist_of_sorted (hsort.sorted _) (hmem a ha rfl) (hmem b hb htensor.symm) hlt
  exact mem_depsFromVarOrder (hpair.map fun levelVar => (levelVar.var, levelVar.enforces)) henforces

theorem var_mem_originalOrder {levelVar : TensorLevelVar} (h : levelVar ∈ s.tensorLevelVars format) :
    levelVar.var ∈ s.originalOrder := by
  induction s with
  | assignment lhs rhs compound => cases h
  | «forall» i stmt ih =>
    rw [IndexStmt.tensorLevelVars, List.mem_append] at h
    rcases h with h | h
    · rw [IndexStmt.levelVars, List.mem_filterMap] at h
      obtain ⟨⟨iterator, enforces⟩, -, heq⟩ := h
      cases iterator with
      | dimension => cases heq
      | level a level =>
        cases heq
        exact List.mem_cons_self
    · exact List.mem_cons_of_mem _ (ih h)
  | «where» consumer producer => cases h

theorem hardDeps_closed (hsort : SortsByLevel sort) {u v : IndexVar} (h : u ∈ s.hardDeps format sort v) :
    u ∈ s.originalOrder ∧ v ∈ s.originalOrder := by
  rw [IndexStmt.hardDeps, depsFromVarOrders, List.mem_flatMap] at h
  obtain ⟨varOrder, hvarOrder, hu⟩ := h
  obtain ⟨tensor, -, rfl⟩ := List.mem_map.mp hvarOrder
  have hvars : ∀ w ∈ (varOrderFromTensorLevels sort
      ((s.tensorLevelVars format).filter fun levelVar => levelVar.tensor = tensor)).map Prod.fst,
      w ∈ s.originalOrder := by
    intro w hw
    rw [varOrderFromTensorLevels, List.map_map] at hw
    obtain ⟨levelVar, hlevelVar, rfl⟩ := List.mem_map.mp hw
    rw [(hsort.perm _).mem_iff, List.mem_dedup, List.mem_filter] at hlevelVar
    exact var_mem_originalOrder hlevelVar.1
  exact ⟨hvars u (of_mem_depsFromVarOrder hu).1, hvars v (of_mem_depsFromVarOrder hu).2⟩

/-! ### What a point iterates and locates -/

namespace MergePoint

variable {format : TensorVar → Format} {point left right : MergePoint} {it : Iterator}

/-- The level is located, if it can be, else it is iterated. -/
def Covers (format : TensorVar → Format) (point : MergePoint) (it : Iterator) : Prop :=
  if it.hasLocate format then it ∈ point.locators else it ∈ point.iterators

theorem mem_deduplicateDimensionIterators {iterators : List Iterator} (h : it ∈ iterators)
    (hlevel : it.isDimensionIterator = false) : it ∈ deduplicateDimensionIterators iterators := by
  induction iterators with
  | nil => cases h
  | cons first iterators ih =>
    rw [deduplicateDimensionIterators]
    rcases List.mem_cons.mp h with rfl | h
    · rw [if_neg (by simp [hlevel])]
      exact List.mem_cons_self
    · split_ifs
      · exact List.mem_cons_of_mem _ (List.mem_filter.mpr ⟨h, by simp [hlevel]⟩)
      · exact List.mem_cons_of_mem _ (ih h)

theorem Covers.intersect (hlevel : it.isDimensionIterator = false)
    (h : left.Covers format it ∨ right.Covers format it) : (MergePoint.intersect format left right).Covers format it := by
  unfold Covers at *
  by_cases hlocate : it.hasLocate format = true
  · simp only [hlocate, if_true] at h ⊢
    simp only [MergePoint.intersect]
    split_ifs <;> simp only [List.mem_append] <;> tauto
  · simp only [hlocate, Bool.false_eq_true, if_false] at h ⊢
    simp only [MergePoint.intersect]
    refine mem_deduplicateDimensionIterators ?_ hlevel
    have hkept : ∀ iterators : List Iterator, it ∈ iterators →
        it ∈ (iterators.filter fun it => !it.hasLocate format).filter fun it => !it.isDimensionIterator := by
      intro iterators hit
      simp [hit, hlocate, hlevel]
    split_ifs <;> rw [List.mem_append]
    · exact h.imp (hkept _) id
    · exact h.imp id (hkept _)

theorem Covers.union (hlevel : it.isDimensionIterator = false)
    (h : left.Covers format it ∨ right.Covers format it) : (MergePoint.union format left right).Covers format it := by
  have hcombined : (⟨deduplicateDimensionIterators (left.iterators ++ right.iterators), left.locators ++ right.locators,
      left.results ++ right.results⟩ : MergePoint).Covers format it := by
    unfold Covers at *
    by_cases hlocate : it.hasLocate format = true
    · simpa [hlocate] using h
    · simp only [hlocate, Bool.false_eq_true, if_false] at h ⊢
      exact mem_deduplicateDimensionIterators (List.mem_append.mpr h) hlevel
  have hinsert : ∀ point : MergePoint, point.Covers format it →
      (insertDimensionIteratorIfNotOrdered format point).Covers format it := by
    intro point hpoint
    unfold Covers at *
    rw [insertDimensionIteratorIfNotOrdered]
    split_ifs at * <;> simp_all
  have hmove : ∀ point : MergePoint, point.Covers format it →
      (moveLocateSubsetIteratorsToLocateSet format point).Covers format it := by
    intro point hpoint
    unfold Covers at *
    rw [moveLocateSubsetIteratorsToLocateSet]
    cases point.iterators.find? (Iterator.isFull format) with
    | none => exact hpoint
    | some firstFull => split_ifs at * <;> simp_all
  exact hmove _ (hinsert _ hcombined)

end MergePoint

/-! ### What a lattice covers -/

section Lattices

variable {format : TensorVar → Format} {i : IndexVar} {temporaries : LatticesOfTemporaries} {it : Iterator}

/-- The lattice of an expression covers what those of its accesses do. -/
theorem buildExpr_covers (hlevel : it.isDimensionIterator = false) {e : IndexExpr V} {a : Access}
    (ha : a ∈ e.accesses) (h : (buildExpr (V := V) format i temporaries (.access a)).Covers format it) :
    (buildExpr format i temporaries e).Covers format it := by
  induction e with
  | access b => rwa [List.mem_singleton.mp ha] at h
  | literal val => cases ha
  | neg e ih => exact ih ha
  | add l r ihl ihr | sub l r ihl ihr => exact MergePoint.Covers.union hlevel ((List.mem_append.mp ha).imp ihl ihr)
  | mul l r ihl ihr => exact MergePoint.Covers.intersect hlevel ((List.mem_append.mp ha).imp ihl ihr)

/-- An access of a tensor that is no temporary is covered. -/
theorem buildExpr_access_covers {a : Access} (hnone : temporaries.lookup a.tensorVar = none) (hi : i ∈ a.indexVars) :
    (buildExpr (V := V) format i temporaries (.access a)).Covers format (getIterator format a i) := by
  simp only [buildExpr, hnone, hi, if_true, getIterator, MergePoint.Covers, Iterator.hasPosIter, Iterator.hasLocate]
  by_cases hdense : isDense (a.modeFormat format (a.levelOf format i)) = true <;> simp [hdense]

namespace IndexStmt

/-- The consumer of each where statement reads what the producer assigns to. -/
def consumesTemporaries : IndexStmt V → Bool
  | assignment _ _ _ => true
  | .forall _ stmt => stmt.consumesTemporaries
  | .where consumer producer =>
    (producer.getResults.all fun t => consumer.reads.any fun a => a.tensorVar = t) &&
      consumer.consumesTemporaries && producer.consumesTemporaries

theorem exists_result (s : IndexStmt V) : ∃ a, s.getResultAccesses = [a] := by
  induction s with
  | assignment lhs rhs compound => exact ⟨lhs, rfl⟩
  | «forall» i stmt ih => exact ih
  | «where» consumer producer ihc _ => exact ihc

/-- An access of a tensor that is no temporary is read or the result. -/
theorem mem_accesses {s : IndexStmt V} {a : Access} (h : a ∈ s.accesses) (ha : a.tensorVar ∉ s.getTemporaries) :
    a ∈ s.reads ∨ a ∈ s.getResultAccesses := by
  induction s with
  | assignment lhs rhs compound =>
    rcases List.mem_cons.mp h with rfl | h
    · exact Or.inr List.mem_cons_self
    · exact Or.inl h
  | «forall» i stmt ih => exact ih h ha
  | «where» consumer producer ihc ihp =>
    simp only [getTemporaries, List.mem_append, not_or] at ha
    rcases List.mem_append.mp h with h | h
    · exact (ihc h ha.1.2).imp (List.mem_append_left _) id
    · rcases ihp h ha.2 with hread | hresult
      · exact Or.inl (List.mem_append_right _ hread)
      · exact absurd (List.mem_map_of_mem hresult) ha.1.1

theorem result_covered {s : IndexStmt V} {a : Access} (ha : a ∈ s.getResultAccesses) (hi : i ∈ a.indexVars) :
    getIterator format a i ∈ (buildStmt format i s temporaries).1.results := by
  induction s generalizing temporaries with
  | assignment lhs rhs compound =>
    rw [List.mem_singleton.mp ha] at hi ⊢
    simp [buildStmt, hi]
  | «forall» j stmt ih => exact ih ha
  | «where» consumer producer ihc _ => exact ihc ha

/-- The tensors that get lattices. -/
theorem buildStmt_temporaries (s : IndexStmt V) (temporaries : LatticesOfTemporaries) :
    ∃ added : LatticesOfTemporaries, (buildStmt format i s temporaries).2 = temporaries ++ added ∧
      ∀ t ∈ added.map Prod.fst, t ∈ s.getResults ∨ t ∈ s.getTemporaries := by
  induction s generalizing temporaries with
  | assignment lhs rhs compound =>
    refine ⟨_, rfl, fun t ht => Or.inl ?_⟩
    simpa [getResults, getResultAccesses] using ht
  | «forall» j stmt ih => exact ih temporaries
  | «where» consumer producer ihc ihp =>
    obtain ⟨added, heq, hadded⟩ := ihp temporaries
    obtain ⟨added', heq', hadded'⟩ := ihc (temporaries ++ added)
    refine ⟨added ++ added', ?_, fun t ht => ?_⟩
    · rw [buildStmt, heq, heq', List.append_assoc]
    · rw [List.map_append, List.mem_append] at ht
      simp only [getTemporaries, List.mem_append]
      rcases ht with ht | ht
      · rcases hadded t ht with h | h
        · exact Or.inr (Or.inl (Or.inl h))
        · exact Or.inr (Or.inr h)
      · rcases hadded' t ht with h | h
        · exact Or.inl h
        · exact Or.inr (Or.inl (Or.inr h))

theorem lookup_append_of_notMem {added : LatticesOfTemporaries} {t : TensorVar} (h : t ∉ added.map Prod.fst) :
    (temporaries ++ added).lookup t = temporaries.lookup t := by
  have hnone : added.lookup t = none := by
    rw [List.lookup_eq_none_iff]
    intro p hp
    have hne : t ≠ p.1 := fun heq => h (heq ▸ List.mem_map_of_mem hp)
    simpa using hne
  rw [List.lookup_append, hnone, Option.or_none]

/-- A statement keeps the lattices of tensors that it does not assign to. -/
theorem buildStmt_lookup {s : IndexStmt V} {t : TensorVar} (hresult : t ∉ s.getResults) (ht : t ∉ s.getTemporaries) :
    (buildStmt format i s temporaries).2.lookup t = temporaries.lookup t := by
  obtain ⟨added, heq, hadded⟩ := @buildStmt_temporaries V format i s temporaries
  rw [heq, lookup_append_of_notMem fun hmem => (hadded t hmem).elim hresult ht]

/-- The lattice that is kept for the tensor that a statement assigns to. -/
theorem buildStmt_result {s : IndexStmt V} {t : TensorVar} (hresult : t ∈ s.getResults) (ht : t ∉ s.getTemporaries)
    (hnone : temporaries.lookup t = none) :
    ∃ point, (buildStmt format i s temporaries).2.lookup t = some point ∧
      ∀ it, (buildStmt format i s temporaries).1.Covers format it → point.Covers format it := by
  induction s generalizing temporaries with
  | assignment lhs rhs compound =>
    have hlhs : t = lhs.tensorVar := by simpa [getResults, getResultAccesses] using hresult
    subst hlhs
    refine ⟨buildExpr format i temporaries rhs, ?_, fun it h => ?_⟩
    · simp [buildStmt, List.lookup_append, hnone]
    · rw [buildStmt] at h
      dsimp only at h
      split_ifs at h <;> exact h
  | «forall» j stmt ih => exact ih hresult ht hnone
  | «where» consumer producer ihc _ =>
    simp only [getTemporaries, List.mem_append, not_or] at ht
    exact ihc hresult ht.1.2 (by rw [buildStmt_lookup ht.1.1 ht.2, hnone])

/-- The lattice of a statement covers what those of its operands do, also of those of producers. -/
theorem buildStmt_covers (hlevel : it.isDimensionIterator = false) {s : IndexStmt V}
    (hconsumes : s.consumesTemporaries = true) (hdistinct : s.getTemporaries.Nodup)
    (hnone : ∀ t ∈ s.getTemporaries, temporaries.lookup t = none) {a : Access} (ha : a ∈ s.reads)
    (hoperand : a.tensorVar ∉ s.getTemporaries)
    (h : (buildExpr (V := V) format i temporaries (.access a)).Covers format it) :
    (buildStmt format i s temporaries).1.Covers format it := by
  induction s generalizing temporaries a with
  | assignment lhs rhs compound =>
    have hrhs := buildExpr_covers hlevel (e := rhs) ha h
    rw [buildStmt]
    dsimp only
    split_ifs <;> exact hrhs
  | «forall» j stmt ih => exact ih hconsumes hdistinct hnone ha hoperand h
  | «where» consumer producer ihc ihp =>
    obtain ⟨result, hresult⟩ := producer.exists_result
    have hresults : producer.getResults = [result.tensorVar] := by rw [getResults, hresult, List.map_singleton]
    simp only [consumesTemporaries, hresults, List.all_cons, List.all_nil, Bool.and_true, Bool.and_eq_true,
      List.any_eq_true, decide_eq_true_eq] at hconsumes
    obtain ⟨⟨⟨b, hb, hbt⟩, hconsumer⟩, hproducer⟩ := hconsumes
    have htemporaries : (IndexStmt.where consumer producer).getTemporaries =
        result.tensorVar :: (consumer.getTemporaries ++ producer.getTemporaries) := by rw [getTemporaries, hresults]; rfl
    rw [htemporaries, List.nodup_cons, List.nodup_append, List.mem_append, not_or] at hdistinct
    obtain ⟨⟨hrc, hrp⟩, hdc, hdp, hdisjoint⟩ := hdistinct
    simp only [htemporaries, List.mem_cons, List.mem_append, not_or] at hoperand hnone
    have hkept : ∀ t, t ≠ result.tensorVar → t ∉ producer.getTemporaries →
        (buildStmt format i producer temporaries).2.lookup t = temporaries.lookup t :=
      fun t hne ht => buildStmt_lookup (by rwa [hresults, List.mem_singleton]) ht
    have hnone' : ∀ t ∈ consumer.getTemporaries, (buildStmt format i producer temporaries).2.lookup t = none := by
      intro t ht
      rw [hkept t (fun heq => hrc (heq ▸ ht)) fun htp => hdisjoint t ht t htp rfl]
      exact hnone t (Or.inr (Or.inl ht))
    rw [buildStmt]
    rcases List.mem_append.mp ha with ha | ha
    · refine ihc hconsumer hdc hnone' ha hoperand.2.1 ?_
      rwa [buildExpr, hkept _ hoperand.1 hoperand.2.2]
    · -- What the producer reads is covered by the temporary that the consumer reads.
      have hpoint := ihp hproducer hdp (fun t ht => hnone t (Or.inr (Or.inr ht))) ha hoperand.2.2 h
      obtain ⟨point, hlookup, hcovers⟩ := buildStmt_result (t := result.tensorVar)
        (hresults ▸ List.mem_singleton_self _) hrp (hnone _ (Or.inl rfl))
      refine ihc hconsumer hdc hnone' hb (hbt ▸ hrc) ?_
      rw [buildExpr, hbt, hlookup]
      exact hcovers it hpoint

end IndexStmt

end Lattices

/-! ### Orders of accesses -/

/-- The level of a variable can only be iterated in the order in which it is stored. -/
def Access.enforces (format : TensorVar → Format) (a : Access) (i : IndexVar) : Bool :=
  !isDense (a.modeFormat format (a.levelOf format i))

/-- The level of `u` is stored above that of `v`, and one of them can only be iterated in that order. -/
def Access.Orders (format : TensorVar → Format) (a : Access) (u v : IndexVar) : Prop :=
  u ∈ a.indexVars ∧ v ∈ a.indexVars ∧ a.levelOf format u < a.levelOf format v ∧
    (a.enforces format u || a.enforces format v) = true

namespace IndexStmt

/-- An access of an operand or of the result orders two loops; temporaries are stored as arrays. -/
def Orders (format : TensorVar → Format) (s : IndexStmt V) (u v : IndexVar) : Prop :=
  u ∈ s.originalOrder ∧ v ∈ s.originalOrder ∧ ∃ a ∈ s.accesses, a.tensorVar ∉ s.getTemporaries ∧ a.Orders format u v

/-- Each where statement produces a temporary of its own that is consumed on the left-hand side. -/
structure ConsumesTemporaries (s : IndexStmt V) : Prop where
  consumed : s.consumesTemporaries = true
  distinct : s.getTemporaries.Nodup

/-- What the levels of a lattice collect of an access. -/
theorem mem_levelVars {format : TensorVar → Format} {i : IndexVar} {s : IndexStmt V} (h : s.ConsumesTemporaries)
    {a : Access} (ha : a ∈ s.accesses) (htemporary : a.tensorVar ∉ s.getTemporaries) (hi : i ∈ a.indexVars) :
    ⟨a.tensorVar, i, a.levelOf format i, a.enforces format i⟩ ∈ s.levelVars format i := by
  have hiterator : (getIterator format a i).isDimensionIterator = false := rfl
  have hlocate : (getIterator format a i).hasLocate format = isDense (a.modeFormat format (a.levelOf format i)) := rfl
  rw [levelVars, List.mem_filterMap]
  refine ⟨(getIterator format a i, a.enforces format i), ?_, rfl⟩
  rw [List.mem_append, List.mem_append]
  rcases mem_accesses ha htemporary with hread | hresult
  · have haccess : (buildExpr (V := V) format i [] (.access a)).Covers format (getIterator format a i) :=
      buildExpr_access_covers rfl hi
    have hcovers := buildStmt_covers hiterator h.consumed h.distinct (fun _ _ => rfl) hread htemporary haccess
    rw [MergePoint.Covers, hlocate] at hcovers
    refine Or.inl ?_
    rw [Access.enforces]
    by_cases hdense : isDense (a.modeFormat format (a.levelOf format i)) = true
    · rw [if_pos hdense] at hcovers
      exact Or.inr (List.mem_map.mpr ⟨_, hcovers, by rw [hdense]; rfl⟩)
    · rw [if_neg hdense] at hcovers
      refine Or.inl (List.mem_map.mpr ⟨_, List.mem_filter.mpr ⟨hcovers, by rw [hiterator]; rfl⟩, ?_⟩)
      rw [Bool.eq_false_of_not_eq_true hdense]
      rfl
  · exact Or.inr (List.mem_map.mpr ⟨_, result_covered hresult hi, rfl⟩)

theorem mem_tensorLevelVars {format : TensorVar → Format} {i : IndexVar} {s : IndexStmt V} (h : s.ConsumesTemporaries)
    (hloop : i ∈ s.originalOrder) {a : Access} (ha : a ∈ s.accesses) (htemporary : a.tensorVar ∉ s.getTemporaries)
    (hi : i ∈ a.indexVars) :
    ⟨a.tensorVar, i, a.levelOf format i, a.enforces format i⟩ ∈ s.tensorLevelVars format := by
  induction s with
  | assignment lhs rhs compound => cases hloop
  | «forall» j stmt ih =>
    rw [tensorLevelVars, List.mem_append]
    rcases List.mem_cons.mp hloop with rfl | hloop
    · exact Or.inl (mem_levelVars ⟨h.consumed, h.distinct⟩ ha htemporary hi)
    · exact Or.inr (ih ⟨h.consumed, h.distinct⟩ hloop ha htemporary)
  | «where» consumer producer => cases hloop

/-- The dependencies that the pass collects contain those of each access. -/
theorem Orders.before {format : TensorVar → Format} {sort : List TensorLevelVar → List TensorLevelVar}
    (hsort : SortsByLevel sort) {s : IndexStmt V} (h : s.ConsumesTemporaries) {u v : IndexVar}
    (horders : s.Orders format u v) : Before (s.hardDeps format sort) u v := by
  obtain ⟨hu, hv, a, ha, htemporary, hua, hva, hlt, henforces⟩ := horders
  have hu' := @mem_tensorLevelVars V format u s h hu a ha htemporary hua
  have hv' := @mem_tensorLevelVars V format v s h hv a ha htemporary hva
  exact mem_hardDeps hsort hu' hv' rfl hlt henforces

theorem innerBody_originalOrder (s : IndexStmt V) : s.innerBody.originalOrder = [] := by
  induction s with
  | assignment lhs rhs compound => rfl
  | «forall» i stmt ih => exact ih
  | «where» consumer producer => rfl

theorem innerBody_innerBody (s : IndexStmt V) : s.innerBody.innerBody = s.innerBody := by
  induction s with
  | assignment lhs rhs compound => rfl
  | «forall» i stmt ih => exact ih
  | «where» consumer producer => rfl

theorem foldr_forall (vars : List IndexVar) (s : IndexStmt V) :
    (vars.foldr IndexStmt.forall s).originalOrder = vars ++ s.originalOrder ∧
      (vars.foldr IndexStmt.forall s).innerBody = s.innerBody := by
  induction vars with
  | nil => exact ⟨rfl, rfl⟩
  | cons i vars ih => exact ⟨congrArg (List.cons i) ih.1, ih.2⟩

/-! ### The pass -/

/-- The statement has its loops in an order that respects all accesses, or these are cyclic. -/
def ReorderedOrCyclic (format : TensorVar → Format) (s : IndexStmt V) : Option (IndexStmt V) → Prop
  | some reordered =>
    reordered.originalOrder.Perm s.originalOrder ∧ reordered.innerBody = s.innerBody ∧
      ∀ u v, s.Orders format u v → reordered.originalOrder.idxOf u < reordered.originalOrder.idxOf v
  | none => Cyclic (s.Orders format)

/-- The square of a matrix. -/
def square : IndexStmt ℤ :=
  .forall 0 (.forall 1 (.forall 2 (.assignment (.make 0 [0, 2])
    (.mul (.access (.make 1 [0, 1])) (.access (.make 1 [1, 2]))) true)))

/-- The result is dense, the rows of the operand are compressed. -/
def squareFormat : TensorVar → Format := fun t =>
  if t = 0 then ⟨[.Dense, .Dense], [0, 1], Format.perm_matrix⟩ else ⟨[.Dense, .compressed false true], [0, 1], Format.perm_matrix⟩

def sortByLevel : List TensorLevelVar → List TensorLevelVar := List.insertionSort fun a b => a.level ≤ b.level

theorem sortByLevel_sorts : SortsByLevel sortByLevel where
  perm l := List.perm_insertionSort _ l
  sorted l := by
    have : Std.Total fun a b : TensorLevelVar => a.level ≤ b.level := ⟨fun a b => le_total a.level b.level⟩
    have : IsTrans TensorLevelVar fun a b => a.level ≤ b.level := ⟨fun _ _ _ => le_trans⟩
    exact List.pairwise_insertionSort _ l

theorem square_consumes : square.ConsumesTemporaries := ⟨rfl, List.nodup_nil⟩

end IndexStmt

end Concrete
end Taco
