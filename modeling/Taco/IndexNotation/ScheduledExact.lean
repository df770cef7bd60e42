import Taco.IndexNotation.Scheduled

/-! When a scheduled statement has each listed loop once. -/

namespace Taco
namespace Concrete

variable {V : Type}

/-! ### Repeated loops -/

theorem count_flatMap_replicate (n : IndexVar → ℕ) (l : List IndexVar) (i : IndexVar) :
    (l.flatMap fun j => List.replicate (n j) j).count i = n i * l.count i := by
  induction l with
  | nil => simp
  | cons j l ih =>
    rw [List.flatMap_cons, List.count_append, ih, List.count_cons, List.count_replicate]
    by_cases hj : j = i
    · simp [hj, Nat.mul_add, Nat.add_comm]
    · simp [hj]

/-- Loops that are repeated are the listed ones when each is there once. -/
theorem flatMap_replicate_eq_iff (n : IndexVar → ℕ) (l : List IndexVar) :
    (l.flatMap fun j => List.replicate (n j) j) = l ↔ ∀ i ∈ l, n i = 1 := by
  constructor
  · intro heq i hi
    have hcount := count_flatMap_replicate n l i
    rw [heq] at hcount
    exact Nat.eq_of_mul_eq_mul_right (List.count_pos_iff.mpr hi) (by rw [← hcount, Nat.one_mul])
  · intro hone
    induction l with
    | nil => rfl
    | cons j l ih =>
      rw [List.flatMap_cons, hone j List.mem_cons_self, ih fun i hi => hone i (List.mem_cons_of_mem _ hi)]
      rfl

theorem emittedLoops_eq (g : ProvenanceGraph) (reductionAndFreeVars : List IndexVar) (i : IndexVar) :
    emittedLoops g reductionAndFreeVars i =
      List.replicate (if i ∈ reductionAndFreeVars then 1
        else (g.getUnderivedAncestors i).countP (· ∈ reductionAndFreeVars)) i := by
  rw [emittedLoops]
  split_ifs
  · rfl
  · rw [List.map_const', List.countP_eq_length_filter]

/-! ### What is around the result -/

namespace IndexStmt

/-- The loops around the assignment of the result, the outermost one first. -/
def enclosing : IndexStmt V → List IndexVar
  | assignment _ _ _ => []
  | .forall i stmt => i :: stmt.enclosing
  | .where consumer _ => consumer.enclosing

/-- The assignment of the result has an operator. -/
def accumulates : IndexStmt V → Bool
  | assignment _ _ compound => compound
  | .forall _ stmt => stmt.accumulates
  | .where consumer _ => consumer.accumulates

theorem enclosing_foldr (loops : List IndexVar) (s : IndexStmt V) :
    (loops.foldr IndexStmt.forall s).enclosing = loops ++ s.enclosing ∧
      (loops.foldr IndexStmt.forall s).accumulates = s.accumulates := by
  induction loops with
  | nil => exact ⟨rfl, rfl⟩
  | cons i loops ih => exact ⟨congrArg (List.cons i) ih.1, ih.2⟩

end IndexStmt

/-- Producers leave the loops and the operator of the assignment. -/
theorem enclosing_replaceReductions (lhs : Access) (compound : Bool) (rhs : ReductionExpr V) (fresh : TensorVar) :
    (replaceReductionsWithWheres lhs compound rhs fresh).1.enclosing = [] ∧
      (replaceReductionsWithWheres lhs compound rhs fresh).1.accumulates = compound := by
  fun_induction replaceReductionsWithWheres lhs compound rhs fresh with
  | case1 => exact ⟨rfl, rfl⟩
  | case2 lhs compound rhs fresh var body h consumer producer ihc ihp => exact ihc

/-! ### Variables that are bound -/

section Bound

variable {g : ProvenanceGraph} {boundVars boundVars' defined defined' : List IndexVar} {i : IndexVar}

/-- A variable is bound by loops over its fully derived descendants. -/
theorem isBound_of_descendants (h : ∀ d ∈ g.getFullyDerivedDescendants i, d ∈ boundVars ∧ d ∈ defined) :
    IndexStmt.isBound g boundVars defined i = true := by
  simp only [IndexStmt.isBound, Bool.or_eq_true, Bool.and_eq_true, List.contains_iff_mem]
  cases hderived : g.isFullyDerived i with
  | true =>
    have hself : i ∈ g.getFullyDerivedDescendants i := by
      rw [ProvenanceGraph.getFullyDerivedDescendants, ProvenanceGraph.descendants_of_isFullyDerived hderived]
      exact List.mem_singleton_self i
    exact Or.inl (Or.inl (h i hself).1)
  | false => exact Or.inr ⟨rfl, ProvenanceGraph.isRecoverable_of_descendants fun d hd => (h d hd).2⟩

namespace ReductionExpr

/-- The variables of accesses are bound by loops or by reductions around them. -/
def Covered (g : ProvenanceGraph) (boundVars defined : List IndexVar) : ReductionExpr V → Prop
  | access a => ∀ i ∈ a.indexVars, IndexStmt.isBound g boundVars defined i = true
  | literal _ => True
  | neg a => a.Covered g boundVars defined
  | add a b | sub a b | mul a b => a.Covered g boundVars defined ∧ b.Covered g boundVars defined
  | reduction var a => a.Covered g (var :: boundVars) defined

/-- The variables of the accesses that are below no reduction. -/
def outerVars : ReductionExpr V → List IndexVar
  | access a => a.indexVars
  | literal _ | reduction _ _ => []
  | neg a => a.outerVars
  | add a b | sub a b | mul a b => a.outerVars ++ b.outerVars

theorem Covered.mono {e : ReductionExpr V} (h : e.Covered g boundVars defined) (hbound : boundVars ⊆ boundVars')
    (hdefined : defined ⊆ defined') : e.Covered g boundVars' defined' := by
  induction e generalizing boundVars boundVars' with
  | access a => exact fun i hi => IndexStmt.isBound_mono hbound hdefined (h i hi)
  | literal val => trivial
  | neg a ih => exact ih h hbound
  | add a b iha ihb | sub a b iha ihb | mul a b iha ihb => exact ⟨iha h.1 hbound, ihb h.2 hbound⟩
  | reduction var a ih => exact ih h (List.cons_subset_cons var hbound)

/-- Reduction notation is covered by loops that bind its free variables. -/
theorem covered_of_isBound {e : ReductionExpr V} {vars : List IndexVar} (h : e.isBound vars = true)
    (hvars : ∀ i ∈ vars, IndexStmt.isBound g boundVars defined i = true) : e.Covered g boundVars defined := by
  induction e generalizing vars boundVars with
  | access a =>
    rw [isBound, List.all_eq_true] at h
    exact fun i hi => hvars i (of_decide_eq_true (h i hi))
  | literal val => trivial
  | neg a ih => exact ih h hvars
  | add a b iha ihb | sub a b iha ihb | mul a b iha ihb =>
    rw [isBound, Bool.and_eq_true] at h
    exact ⟨iha h.1 hvars, ihb h.2 hvars⟩
  | reduction var a ih =>
    refine ih h fun i hi => ?_
    rcases List.mem_cons.mp hi with rfl | hi
    · simp [IndexStmt.isBound]
    · exact IndexStmt.isBound_mono (List.subset_cons_self _ _) (List.Subset.refl _) (hvars i hi)

theorem outerVars_of_isBound {e : ReductionExpr V} {vars : List IndexVar} (h : e.isBound vars = true) :
    e.outerVars ⊆ vars := by
  induction e with
  | access a =>
    rw [isBound, List.all_eq_true] at h
    exact fun i hi => of_decide_eq_true (h i hi)
  | literal val => exact List.nil_subset _
  | neg a ih => exact ih h
  | add a b iha ihb | sub a b iha ihb | mul a b iha ihb =>
    rw [isBound, Bool.and_eq_true] at h
    exact List.append_subset.mpr ⟨iha h.1, ihb h.2⟩
  | reduction var a ih => exact List.nil_subset _

/-- Without reductions, every access is an outer one. -/
theorem replaceReduction_none {t : Access} {e : ReductionExpr V} (h : (e.replaceReduction t).2 = none) :
    e.toIndexExpr.accesses.flatMap Access.indexVars = e.outerVars ∧
      (e.Covered g boundVars defined → ∀ i ∈ e.outerVars, IndexStmt.isBound g boundVars defined i = true) := by
  induction e with
  | access a => exact ⟨by simp [toIndexExpr, IndexExpr.accesses, outerVars], fun hcovered => hcovered⟩
  | literal val => exact ⟨rfl, fun _ i hi => by cases hi⟩
  | neg a ih => exact ih h
  | add a b iha ihb | sub a b iha ihb | mul a b iha ihb =>
    rw [replaceReduction, replaceOperand] at h
    cases ha : (a.replaceReduction t).2 with
    | some found =>
      rw [ha] at h
      cases h
    | none =>
      rw [ha] at h
      obtain ⟨hvarsa, hcovereda⟩ := iha ha
      obtain ⟨hvarsb, hcoveredb⟩ := ihb h
      refine ⟨?_, fun hcovered i hi => ?_⟩
      · rw [toIndexExpr, IndexExpr.accesses, List.flatMap_append, hvarsa, hvarsb, outerVars]
      · rcases List.mem_append.mp hi with hi | hi
        · exact hcovereda hcovered.1 i hi
        · exact hcoveredb hcovered.2 i hi
  | reduction var a ih => cases h

/-- What is known of an expression and of its first reduction, when that is replaced. -/
theorem replaceReduction_some {t : TensorVar} {e : ReductionExpr V} {var : IndexVar} {body : ReductionExpr V}
    (h : (e.replaceReduction (.make t [])).2 = some (var, body)) :
    (e.replaceReduction (.make t [])).1.outerVars ⊆ e.outerVars ∧
      (e.Covered g boundVars defined → (e.replaceReduction (.make t [])).1.Covered g boundVars defined ∧
        body.Covered g (var :: boundVars) defined) := by
  induction e with
  | access a => cases h
  | literal val => cases h
  | neg a ih => exact ih h
  | add a b iha ihb | sub a b iha ihb | mul a b iha ihb =>
    rw [replaceReduction, replaceOperand] at h ⊢
    cases ha : (a.replaceReduction (.make t [])).2 with
    | some found =>
      rw [ha] at h
      obtain ⟨hvars, hcovered⟩ := iha (ha.trans h)
      refine ⟨List.append_subset.mpr ⟨List.subset_append_of_subset_left _ hvars, List.subset_append_right _ _⟩, ?_⟩
      exact fun hboth => ⟨⟨(hcovered hboth.1).1, hboth.2⟩, (hcovered hboth.1).2⟩
    | none =>
      rw [ha] at h
      obtain ⟨hvars, hcovered⟩ := ihb h
      refine ⟨List.append_subset.mpr ⟨List.subset_append_left _ _, List.subset_append_of_subset_right _ hvars⟩, ?_⟩
      exact fun hboth => ⟨⟨hboth.1, (hcovered hboth.2).1⟩, (hcovered hboth.2).2⟩
  | reduction var' a ih =>
    cases h
    exact ⟨List.nil_subset _, fun hcovered => ⟨fun i hi => absurd hi List.not_mem_nil, hcovered⟩⟩

end ReductionExpr

/-! ### Valid statements -/

namespace IndexStmt

/-- The statement is valid below loops, and the variables of its own loops are defined after it. -/
def IsConcreteBelow (g : ProvenanceGraph) (boundVars : List IndexVar) (inWhereProducer : Bool)
    (defined : List IndexVar) (s : IndexStmt V) : Prop :=
  (s.isConcrete g boundVars inWhereProducer defined).1 = true ∧
    defined ⊆ (s.isConcrete g boundVars inWhereProducer defined).2

theorem numReductionVars_eq_zero {lhs : Access} {rhs : IndexExpr V}
    (h : rhs.accesses.flatMap Access.indexVars ⊆ lhs.indexVars) : numReductionVars g lhs rhs = 0 := by
  have hnone : getReductionVars lhs rhs = [] := by
    rw [getReductionVars, List.filter_eq_nil_iff]
    intro i hi
    simpa using h hi
  rw [numReductionVars, hnone]
  rfl

theorem isConcreteBelow_where {consumer producer : IndexStmt V} {inWhereProducer : Bool}
    (hproducer : producer.IsConcreteBelow g boundVars true defined)
    (hconsumer : ∀ defined', defined ⊆ defined' → consumer.IsConcreteBelow g boundVars inWhereProducer defined') :
    (IndexStmt.where consumer producer).IsConcreteBelow g boundVars inWhereProducer defined := by
  obtain ⟨hvalid, hsubset⟩ := hconsumer _ hproducer.2
  refine ⟨?_, List.Subset.trans hproducer.2 hsubset⟩
  have hboth := Bool.and_eq_true_iff.mpr ⟨hproducer.1, hvalid⟩
  exact hboth

theorem isConcreteBelow_foldr {inWhereProducer : Bool} {s : IndexStmt V} (loops : List IndexVar)
    (h : s.IsConcreteBelow g (loops.reverse ++ boundVars) inWhereProducer (loops.reverse ++ defined)) :
    (loops.foldr IndexStmt.forall s).IsConcreteBelow g boundVars inWhereProducer defined := by
  induction loops generalizing boundVars defined with
  | nil => exact h
  | cons i loops ih =>
    rw [List.reverse_cons, List.append_assoc, List.append_assoc] at h
    obtain ⟨hvalid, hsubset⟩ := ih h
    exact ⟨hvalid, List.Subset.trans (List.subset_cons_self _ _) hsubset⟩

end IndexStmt

/-- Producers compute the reductions of an assignment whose variables are bound. -/
theorem isConcreteBelow_replaceReductions {lhs : Access} {compound : Bool} {rhs : ReductionExpr V} {fresh : TensorVar}
    {inWhereProducer : Bool} (hlhs : ∀ i ∈ lhs.indexVars, IndexStmt.isBound g boundVars defined i = true)
    (hrhs : rhs.Covered g boundVars defined)
    (hreduction : compound = true ∨ inWhereProducer = true ∨ rhs.outerVars ⊆ lhs.indexVars) :
    (replaceReductionsWithWheres lhs compound rhs fresh).1.IsConcreteBelow g boundVars inWhereProducer defined := by
  fun_induction replaceReductionsWithWheres lhs compound rhs fresh
    generalizing boundVars defined inWhereProducer with
  | case1 lhs compound rhs fresh h =>
    obtain ⟨hvars, hcovered⟩ := ReductionExpr.replaceReduction_none (g := g) h
    refine ⟨?_, List.Subset.refl _⟩
    rw [IndexStmt.isConcrete, Bool.and_eq_true]
    refine ⟨?_, ?_⟩
    · rcases hreduction with hcompound | hproducer | hsubset
      · simp [hcompound]
      · simp [hproducer]
      · rw [IndexStmt.numReductionVars_eq_zero (hvars ▸ hsubset)]
        simp
    · rw [List.all_eq_true]
      intro a ha
      rw [List.all_eq_true]
      intro i hi
      rcases List.mem_cons.mp ha with rfl | ha
      · exact hlhs i hi
      · exact hcovered hrhs i (hvars ▸ List.mem_flatMap.mpr ⟨a, ha, hi⟩)
  | case2 lhs compound rhs fresh var body h consumer producer =>
    rename_i ihc ihp
    obtain ⟨hvars, hcovered⟩ := ReductionExpr.replaceReduction_some (g := g) h
    obtain ⟨hrest, hbody⟩ := hcovered hrhs
    have hproducer : (IndexStmt.forall var producer.1).IsConcreteBelow g boundVars true defined := by
      obtain ⟨hvalid, hsubset⟩ := ihp (fun i hi => absurd hi List.not_mem_nil)
        (hbody.mono (List.Subset.refl _) (List.subset_cons_self var defined)) (Or.inl rfl)
      exact ⟨hvalid, List.Subset.trans (List.subset_cons_self _ _) hsubset⟩
    refine IndexStmt.isConcreteBelow_where hproducer fun defined' hdefined => ?_
    exact ihc (fun i hi => IndexStmt.isBound_mono (List.Subset.refl _) hdefined (hlhs i hi))
      (hrest.mono (List.Subset.refl _) hdefined) (hreduction.imp id fun h => h.imp id fun h => List.Subset.trans hvars h)

end Bound

/-! ### Scheduled statements -/

/-- The statement is valid, its result is below the listed loops, and reductions that cover the right-hand side
    accumulate. -/
structure PlacedOnce (g : ProvenanceGraph) (s : ReductionAssignment V) (forallIndexVars : List IndexVar)
    (stmt : IndexStmt V) : Prop where
  valid : (stmt.isConcrete g [] false []).1 = true
  loops : stmt.enclosing = forallIndexVars
  accumulates : s.rhs.topLevelReductions.1 ≠ [] → stmt.accumulates = true

/-- Each fully derived descendant of the variables is listed once. -/
structure ListsDescendants (g : ProvenanceGraph) (s : ReductionAssignment V) (forallIndexVars : List IndexVar) :
    Prop where
  nodup : forallIndexVars.Nodup
  mem_iff : ∀ i, i ∈ forallIndexVars ↔ ∃ v ∈ s.indexVars, i ∈ g.getFullyDerivedDescendants v

section Scheduled

variable {g : ProvenanceGraph} {s : ReductionAssignment V} {l : List IndexVar}

theorem descendants_ne_nil (g : ProvenanceGraph) (fuel : ℕ) (i : IndexVar) : g.descendants fuel i ≠ [] := by
  induction fuel generalizing i with
  | zero => exact List.cons_ne_nil _ _
  | succ fuel ih =>
    rw [ProvenanceGraph.descendants]
    split_ifs with h
    · exact List.cons_ne_nil _ _
    · rw [ProvenanceGraph.isFullyDerived, List.isEmpty_iff] at h
      obtain ⟨child, hchild⟩ := List.exists_mem_of_ne_nil _ h
      obtain ⟨d, hd⟩ := List.exists_mem_of_ne_nil _ (ih child)
      exact List.ne_nil_of_mem (List.mem_flatMap.mpr ⟨child, hchild, hd⟩)

/-- Without listed loops, there are no variables. -/
theorem ListsDescendants.indexVars_eq_nil (h : ListsDescendants g s []) : s.indexVars = [] := by
  by_contra hne
  obtain ⟨v, hv⟩ := List.exists_mem_of_ne_nil _ hne
  obtain ⟨d, hd⟩ := List.exists_mem_of_ne_nil _ (descendants_ne_nil g g.relations.length v)
  exact List.not_mem_nil ((h.mem_iff d).mpr ⟨v, hv, hd⟩)

theorem ReductionExpr.topLevelReductions_subset (e : ReductionExpr V) : e.topLevelReductions.1 ⊆ e.indexVars := by
  induction e with
  | reduction var a ih => exact List.cons_subset_cons var ih
  | _ => exact List.nil_subset _

/-- What the covering reductions reduce is bound by them. -/
theorem ReductionExpr.isBound_topLevelReductions {e : ReductionExpr V} {vars : List IndexVar}
    (h : e.isBound vars = true) : e.topLevelReductions.2.isBound (e.topLevelReductions.1.reverse ++ vars) = true := by
  induction e generalizing vars with
  | reduction var a ih =>
    rw [topLevelReductions, List.reverse_cons, List.append_assoc]
    exact ih h
  | _ => exact h

theorem reductionAndFreeVars_subset (s : ReductionAssignment V) : s.reductionAndFreeVars ⊆ s.indexVars :=
  List.append_subset.mpr ⟨List.subset_append_of_subset_right _ s.rhs.topLevelReductions_subset,
    List.subset_append_left _ _⟩

/-- The loops that are emitted are the listed ones when each listed variable is emitted once. -/
theorem enclosing_iff (hlist : ListsDescendants g s l) (fresh : TensorVar) :
    (makeConcreteNotationScheduled g fresh s l).enclosing = l ↔
      ∀ i ∈ l, i ∈ s.reductionAndFreeVars ∨
        (g.getUnderivedAncestors i).countP (· ∈ s.reductionAndFreeVars) = 1 := by
  rw [makeConcreteNotationScheduled]
  dsimp only
  rw [(IndexStmt.enclosing_foldr _ _).1, (enclosing_replaceReductions _ _ _ _).1, List.append_nil]
  cases hl : l.isEmpty with
  | true =>
    rw [List.isEmpty_iff] at hl
    subst hl
    have hvars := hlist.indexVars_eq_nil
    have hloops : s.reductionAndFreeVars = [] := List.subset_nil.mp (hvars ▸ reductionAndFreeVars_subset s)
    rw [ReductionAssignment.reductionAndFreeVars, List.append_eq_nil_iff] at hloops
    rw [hloops.1, hloops.2]
    simp
  | false =>
    rw [if_neg Bool.false_ne_true, show emittedLoops g s.reductionAndFreeVars = _ from funext (emittedLoops_eq g _),
      flatMap_replicate_eq_iff]
    refine forall₂_congr fun i _ => ?_
    by_cases hi : i ∈ s.reductionAndFreeVars <;> simp [hi]

/-- A scheduled statement has each listed loop once exactly when each listed variable is a free variable or a covering
    reduction, or has one walk up to one of these. -/
theorem makeConcreteNotationScheduled_iff (hreduction : s.isReductionNotationScheduled = true)
    (hlist : ListsDescendants g s l) (fresh : TensorVar) :
    PlacedOnce g s l (makeConcreteNotationScheduled g fresh s l) ↔
      ∀ i ∈ l, i ∈ s.reductionAndFreeVars ∨
        (g.getUnderivedAncestors i).countP (· ∈ s.reductionAndFreeVars) = 1 := by
  refine ⟨fun h => (enclosing_iff hlist fresh).mp h.loops, fun h => ?_⟩
  have hloops := (enclosing_iff hlist fresh).mpr h
  refine ⟨?_, hloops, fun htop => ?_⟩
  · have hbound : ∀ i ∈ s.rhs.topLevelReductions.1.reverse ++ s.getFreeVars,
        IndexStmt.isBound g (l.reverse ++ []) (l.reverse ++ []) i = true := by
      intro i hi
      rw [List.mem_append, List.mem_reverse, ← List.mem_append] at hi
      refine isBound_of_descendants fun d hd => ?_
      have hd' := (hlist.mem_iff d).mpr ⟨i, reductionAndFreeVars_subset s hi, hd⟩
      simpa using hd'
    have hbody := ReductionExpr.isBound_topLevelReductions hreduction
    rw [makeConcreteNotationScheduled] at hloops ⊢
    dsimp only at hloops ⊢
    rw [(IndexStmt.enclosing_foldr _ _).1, (enclosing_replaceReductions _ _ _ _).1, List.append_nil] at hloops
    rw [hloops]
    refine (IndexStmt.isConcreteBelow_foldr l (isConcreteBelow_replaceReductions ?_ ?_ ?_)).1
    · exact fun i hi => hbound i (List.mem_append_right _ hi)
    · exact ReductionExpr.covered_of_isBound hbody hbound
    · cases htop : s.rhs.topLevelReductions.1 with
      | nil =>
        rw [htop] at hbody
        exact Or.inr (Or.inr (ReductionExpr.outerVars_of_isBound hbody))
      | cons var vars => exact Or.inl rfl
  · rw [makeConcreteNotationScheduled]
    dsimp only
    rw [(IndexStmt.enclosing_foldr _ _).2, (enclosing_replaceReductions _ _ _ _).2]
    cases htop' : s.rhs.topLevelReductions.1 with
    | nil => exact absurd htop' htop
    | cons var vars => rfl

end Scheduled

/-! ### A split and a fused loop -/

/-- A vector is copied. -/
def vectorCopy : ReductionAssignment ℤ := ⟨.make 0 [0], .access (.make 1 [0]), false⟩

theorem vectorCopy_lists : ListsDescendants ⟨[.split 0 1 2]⟩ vectorCopy [1, 2] where
  nodup := by decide
  mem_iff i := by
    have hvars : vectorCopy.indexVars = [0, 0] := rfl
    have hdescendants : (⟨[.split 0 1 2]⟩ : ProvenanceGraph).getFullyDerivedDescendants 0 = [1, 2] := rfl
    simp [hvars, hdescendants]

theorem vectorCopy_placed_iff :
    PlacedOnce ⟨[.split 0 1 2]⟩ vectorCopy [1, 2]
        (makeConcreteNotationScheduled ⟨[.split 0 1 2]⟩ 2 vectorCopy [1, 2]) ↔
      ∀ i ∈ [1, 2], i ∈ vectorCopy.reductionAndFreeVars ∨
        ((⟨[.split 0 1 2]⟩ : ProvenanceGraph).getUnderivedAncestors i).countP (· ∈ vectorCopy.reductionAndFreeVars) = 1 :=
  makeConcreteNotationScheduled_iff rfl vectorCopy_lists 2

/-- A matrix is copied. -/
def matrixCopy : ReductionAssignment ℤ := ⟨.make 0 [0, 1], .access (.make 1 [0, 1]), false⟩

theorem matrixCopy_lists : ListsDescendants ⟨[.fuse 0 1 2]⟩ matrixCopy [2] where
  nodup := by decide
  mem_iff i := by
    have hvars : matrixCopy.indexVars = [0, 1, 0, 1] := rfl
    have hdescendants0 : (⟨[.fuse 0 1 2]⟩ : ProvenanceGraph).getFullyDerivedDescendants 0 = [2] := rfl
    have hdescendants1 : (⟨[.fuse 0 1 2]⟩ : ProvenanceGraph).getFullyDerivedDescendants 1 = [2] := rfl
    simp [hvars, hdescendants0, hdescendants1]

/-- The fused loop is there twice. -/
theorem fused_not_placed : ¬ ∀ (g : ProvenanceGraph) (s : ReductionAssignment ℤ) (l : List IndexVar) (fresh : TensorVar),
    s.isReductionNotationScheduled = true → ListsDescendants g s l →
    PlacedOnce g s l (makeConcreteNotationScheduled g fresh s l) := by
  intro hall
  have hloops := (hall ⟨[.fuse 0 1 2]⟩ matrixCopy [2] 2 rfl matrixCopy_lists).loops
  rw [makeConcreteNotationScheduled] at hloops
  dsimp only at hloops
  rw [(IndexStmt.enclosing_foldr _ _).1, (enclosing_replaceReductions _ _ _ _).1] at hloops
  exact absurd hloops (by decide)

end Concrete
end Taco
