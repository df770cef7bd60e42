import Taco.IndexNotation.TopologicalOrderExact
import Taco.Notation.ReplacedLoops

/-! What `Reorder::apply` and `reorderLoopsTopologically` keep of the annotations of loops. -/

namespace Taco
namespace Notation

open Dependencies (Before Cyclic)

/-! ### Topological reordering -/

/-- What the first loops are collected into; the last annotation of a variable comes first. -/
structure DAGBuilder where
  innerBody : IndexStmt
  forallParallelUnit : List (IndexVar × ParallelUnit)
  forallOutputRaceStrategy : List (IndexVar × OutputRaceStrategy)
  indexVarOriginalOrder : List IndexVar

namespace DAGBuilder

/-- Only the first contiguous section of loops is collected. -/
def visit (b : DAGBuilder) : IndexStmt → DAGBuilder
  | .undefined | .assignment _ _ _ | .yield _ _ => b
  | .forall i stmt tags =>
    let b : DAGBuilder :=
      { b with
        forallParallelUnit := (i, tags.parallelUnit) :: b.forallParallelUnit
        forallOutputRaceStrategy := (i, tags.outputRaceStrategy) :: b.forallOutputRaceStrategy
        indexVarOriginalOrder := b.indexVarOriginalOrder ++ [i] }
    if !stmt.isForall then { b with innerBody := stmt } else b.visit stmt
  | .where consumer producer => (b.visit producer).visit consumer
  | .sequence definition mutation => (b.visit definition).visit mutation
  | .assemble queries compute _ => (b.visit queries).visit compute
  | .multi stmt1 stmt2 => (b.visit stmt1).visit stmt2
  | .suchThat stmt _ => b.visit stmt

/-- A loop that is made for a variable, with the unroll factor of the loop that is replaced. -/
def loopOf (b : DAGBuilder) (unrollFactor : ℕ) (i : IndexVar) : Loop :=
  ⟨i, (b.forallParallelUnit.lookup i).getD .notParallel, (b.forallOutputRaceStrategy.lookup i).getD .ignoreRaces, unrollFactor⟩

/-- `TopoReorderRewriter`. -/
def rewrite (b : DAGBuilder) (sortedVars : List IndexVar) : IndexStmt → IndexStmt
  | .undefined => .undefined
  | .assignment lhs rhs op => .assignment lhs rhs op
  | .yield indexVars expr => .yield indexVars expr
  | .forall _ _ tags => .nest (sortedVars.map (b.loopOf tags.unrollFactor)) b.innerBody
  | .where consumer producer => .where (b.rewrite sortedVars consumer) (b.rewrite sortedVars producer)
  | .sequence definition mutation => .sequence (b.rewrite sortedVars definition) (b.rewrite sortedVars mutation)
  | .assemble queries compute results => .assemble (b.rewrite sortedVars queries) (b.rewrite sortedVars compute) results
  | .multi stmt1 stmt2 => .multi (b.rewrite sortedVars stmt1) (b.rewrite sortedVars stmt2)
  | .suchThat stmt predicate => .suchThat (b.rewrite sortedVars stmt) predicate

end DAGBuilder

/-- The accesses of a statement, on both sides of its assignments. -/
def IndexStmt.accesses : IndexStmt → List Access
  | undefined => []
  | assignment lhs rhs _ => lhs :: rhs.accesses
  | yield _ expr => expr.accesses
  | .forall _ stmt _ | suchThat stmt _ => stmt.accesses
  | .where consumer producer => producer.accesses ++ consumer.accesses
  | sequence stmt1 stmt2 | assemble stmt1 stmt2 _ | multi stmt1 stmt2 => stmt1.accesses ++ stmt2.accesses

/-- `CollectSoftDependencies`: the variables of the level before, once for each access. -/
def softDeps (stmt : IndexStmt) (v : IndexVar) : List IndexVar :=
  stmt.accesses.flatMap fun a =>
    let vars := a.tensorVar.format.modeOrdering.filterMap fun mode => a.indexVars[mode]?
    ((vars.zip vars.tail).filter fun pair => pair.2 = v).map Prod.fst

section Topological

variable (hardDeps : IndexStmt → IndexVar → List IndexVar)

/-- What the iterators of the levels make a variable depend on is a parameter. Nothing if the assertion on cycles fails. -/
def reorderLoopsTopologically (stmt : IndexStmt) : Option IndexStmt :=
  let dagBuilder := DAGBuilder.visit ⟨.undefined, [], [], []⟩ stmt
  (Concrete.topologicallySort (hardDeps stmt) (softDeps stmt) dagBuilder.indexVarOriginalOrder).map fun sortedVars =>
    dagBuilder.rewrite sortedVars stmt

end Topological

/-! ### What is kept -/

/-- For every loop there is one over its variable with its annotations. -/
def KeepsLoops (stmt result : IndexStmt) : Prop := ∀ loop ∈ stmt.loops, loop ∈ result.loops

namespace Reorder

variable {getName : IndexVar → String} {r : Reorder} {stmt : IndexStmt}

/-- The loops over the pattern are directly nested, and one of them is annotated. -/
def Annotated (getName : IndexVar → String) (r : Reorder) (stmt : IndexStmt) : Prop :=
  isConcreteNotation getName stmt = none ∧
    ∃ c loops body, r.Nested stmt c loops body ∧ ∃ loop ∈ loops, loop.tags ≠ .none

theorem keepsLoops_eq (r : Reorder) (stmt : IndexStmt) :
    (∀ result, r.apply getName stmt = .ok result → KeepsLoops stmt result) ↔ ¬ r.Annotated getName stmt := by
  constructor
  · rintro hkeeps ⟨hconcrete, c, loops, body, hnested, loop, hloop, htags⟩
    have hmatch := hnested.isMatch_of_mem loop hloop
    obtain ⟨hbefore, hbody, hafter⟩ := hnested.others
    have hmem : loop ∈ stmt.loops := by
      rw [hnested.loops_eq]
      exact List.mem_append_left _ (List.mem_append_right _ (List.mem_append_left _ hloop))
    have hkept := hkeeps _ (apply_ok_iff.mpr ⟨hconcrete, c, loops, body, hnested, rfl⟩) loop hmem
    rw [Context.loops_fill, IndexStmt.loops_nest, List.mem_append, List.mem_append, List.mem_append] at hkept
    obtain (hkept | hkept | hkept) | hkept := hkept
    · exact List.filter_eq_nil_iff.mp hbefore loop hkept hmatch
    · obtain ⟨i, -, rfl⟩ := List.mem_map.mp hkept
      exact htags rfl
    · exact List.filter_eq_nil_iff.mp hbody loop hkept hmatch
    · exact List.filter_eq_nil_iff.mp hafter loop hkept hmatch
  · intro hplain result hresult loop hloop
    obtain ⟨hconcrete, c, loops, body, hnested, rfl⟩ := apply_ok_iff.mp hresult
    rw [Context.loops_fill, IndexStmt.loops_nest, List.mem_append, List.mem_append, List.mem_append]
    rw [hnested.loops_eq, List.mem_append, List.mem_append, List.mem_append] at hloop
    obtain (hloop | hloop | hloop) | hloop := hloop
    · exact Or.inl (Or.inl hloop)
    · have htags : loop.tags = .none := by
        by_contra hne
        exact hplain ⟨hconcrete, c, loops, body, hnested, loop, hloop, hne⟩
      have hvar : loop.indexVar ∈ r.newOrdering (loops.map Loop.indexVar) :=
        (r.newOrdering_perm _).symm.subset (List.contains_iff_mem.mp (hnested.isMatch_of_mem loop hloop))
      exact Or.inl (Or.inr (Or.inl (List.mem_map.mpr ⟨loop.indexVar, hvar, by rw [← htags]⟩)))
    · exact Or.inl (Or.inr (Or.inr hloop))
    · exact Or.inr hloop

end Reorder

/-! ### Nests -/

/-- Directly nested loops, below a `SuchThat` or not. -/
structure ForallNest where
  loops : List Loop
  body : IndexStmt
  predicate : Option (List IndexVarRel)
  ne_nil : loops ≠ []
  body_not_forall : body.isForall = false

namespace ForallNest

def wrap (n : ForallNest) (stmt : IndexStmt) : IndexStmt :=
  match n.predicate with
  | none => stmt
  | some predicate => .suchThat stmt predicate

def stmt (n : ForallNest) : IndexStmt := n.wrap (.nest n.loops n.body)

def vars (n : ForallNest) : List IndexVar := n.loops.map Loop.indexVar

/-- The annotations of the last loop over a variable. -/
def lastTags (n : ForallNest) (i : IndexVar) : LoopTags :=
  ((n.loops.reverse.find? fun loop => loop.indexVar = i).map Loop.tags).getD .none

/-- A loop has the unit and the strategy of the last loop over its variable, and the unroll factor of the first loop. -/
structure Agrees (n : ForallNest) (loop : Loop) : Prop where
  parallelUnit : loop.tags.parallelUnit = (n.lastTags loop.indexVar).parallelUnit
  outputRaceStrategy : loop.tags.outputRaceStrategy = (n.lastTags loop.indexVar).outputRaceStrategy
  unrollFactor : loop.tags.unrollFactor = (n.loops.head n.ne_nil).tags.unrollFactor

variable (n : ForallNest)

theorem loops_wrap (loops : List Loop) : (n.wrap (.nest loops n.body)).loops = loops ++ n.body.loops := by
  rw [wrap]
  cases n.predicate with
  | none => exact IndexStmt.loops_nest _ _
  | some predicate => exact IndexStmt.loops_nest _ _

/-- What the builder collects of a nest. -/
theorem visit_nest {loops : List Loop} {body : IndexStmt} (hne : loops ≠ []) (hbody : body.isForall = false) (b : DAGBuilder) :
    b.visit (.nest loops body) =
      ⟨body, (loops.map fun loop => (loop.indexVar, loop.tags.parallelUnit)).reverse ++ b.forallParallelUnit,
        (loops.map fun loop => (loop.indexVar, loop.tags.outputRaceStrategy)).reverse ++ b.forallOutputRaceStrategy,
        b.indexVarOriginalOrder ++ loops.map Loop.indexVar⟩ := by
  induction loops generalizing b with
  | nil => exact absurd rfl hne
  | cons loop loops ih =>
    rw [IndexStmt.nest, List.foldr_cons, ← IndexStmt.nest, DAGBuilder.visit]
    cases loops with
    | nil => simp [IndexStmt.nest, hbody]
    | cons next loops =>
      have hforall : (IndexStmt.nest (next :: loops) body).isForall = true := rfl
      simp [hforall, ih (List.cons_ne_nil _ _)]

/-- A side table of the nest has the entry of the last loop over a variable. -/
theorem lookup_eq {β : Type} (f : LoopTags → β) (i : IndexVar) :
    ((n.loops.map fun loop => (loop.indexVar, f loop.tags)).reverse.lookup i) =
      ((n.loops.reverse.find? fun loop => loop.indexVar = i).map Loop.tags).map f := by
  rw [← List.map_reverse]
  induction n.loops.reverse with
  | nil => rfl
  | cons loop loops ih =>
    rw [List.map_cons, List.lookup_cons, List.find?_cons]
    by_cases h : i = loop.indexVar
    · simp [h]
    · rw [beq_false_of_ne h, ih]
      simp [Ne.symm h]

variable (hardDeps : IndexStmt → IndexVar → List IndexVar)

/-- The loop that is made for a variable of the nest. -/
def newLoop (i : IndexVar) : Loop :=
  ⟨i, (n.lastTags i).parallelUnit, (n.lastTags i).outputRaceStrategy, (n.loops.head n.ne_nil).tags.unrollFactor⟩

theorem getD_lookup {β : Type} (f : LoopTags → β) (i : IndexVar) :
    ((n.loops.map fun loop => (loop.indexVar, f loop.tags)).reverse.lookup i).getD (f .none) = f (n.lastTags i) := by
  rw [lookup_eq, lastTags]
  cases (n.loops.reverse.find? fun loop => loop.indexVar = i).map Loop.tags <;> rfl

theorem reorderLoopsTopologically_eq : reorderLoopsTopologically hardDeps n.stmt =
    (Concrete.topologicallySort (hardDeps n.stmt) (softDeps n.stmt) n.vars).map fun sortedVars =>
      n.wrap (.nest (sortedVars.map n.newLoop) n.body) := by
  have hvisit : ∀ b : DAGBuilder, b.visit n.stmt = b.visit (.nest n.loops n.body) := fun b => by
    rw [stmt, wrap]
    cases n.predicate <;> rfl
  have hrewrite : ∀ (b : DAGBuilder) (sortedVars : List IndexVar), b.rewrite sortedVars n.stmt =
      n.wrap (.nest (sortedVars.map (b.loopOf (n.loops.head n.ne_nil).tags.unrollFactor)) b.innerBody) := fun b sortedVars => by
    obtain ⟨first, rest, hloops⟩ := List.exists_cons_of_ne_nil n.ne_nil
    have hnest : IndexStmt.nest n.loops n.body = .forall first.indexVar (.nest rest n.body) first.tags := by
      rw [hloops]
      rfl
    have hhead : n.loops.head n.ne_nil = first := by simp [hloops]
    rw [stmt, hnest, hhead, wrap, wrap]
    cases n.predicate <;> rfl
  have hloop : ∀ i, DAGBuilder.loopOf ⟨n.body, (n.loops.map fun loop => (loop.indexVar, loop.tags.parallelUnit)).reverse,
      (n.loops.map fun loop => (loop.indexVar, loop.tags.outputRaceStrategy)).reverse, n.vars⟩
        (n.loops.head n.ne_nil).tags.unrollFactor i = n.newLoop i := fun i => by
    rw [DAGBuilder.loopOf, newLoop, ← n.getD_lookup LoopTags.parallelUnit, ← n.getD_lookup LoopTags.outputRaceStrategy]
    rfl
  rw [reorderLoopsTopologically, hvisit, visit_nest n.ne_nil n.body_not_forall, List.append_nil, List.append_nil, List.nil_append]
  dsimp only
  refine congrArg (Option.map · _) (funext fun sortedVars => ?_)
  rw [hrewrite]
  exact congrArg (fun loops => n.wrap (.nest loops n.body)) (List.map_congr_left fun i _ => hloop i)

theorem newLoop_eq_iff {loop : Loop} : n.newLoop loop.indexVar = loop ↔ n.Agrees loop := by
  obtain ⟨i, parallelUnit, outputRaceStrategy, unrollFactor⟩ := loop
  rw [newLoop]
  constructor
  · intro h
    simp only [Loop.mk.injEq, LoopTags.mk.injEq, true_and] at h
    exact ⟨h.1.symm, h.2.1.symm, h.2.2.symm⟩
  · rintro ⟨hunit, hstrategy, hunroll⟩
    simp only [Loop.mk.injEq, LoopTags.mk.injEq, true_and]
    exact ⟨hunit.symm, hstrategy.symm, hunroll.symm⟩

variable {hardDeps}

theorem keepsLoops_eq (hclosed : ∀ v, ∀ u ∈ hardDeps n.stmt v, u ∈ n.vars ∧ v ∈ n.vars) :
    (∀ result, reorderLoopsTopologically hardDeps n.stmt = some result → KeepsLoops n.stmt result) ↔
      Cyclic (Before (hardDeps n.stmt)) ∨ ∀ loop ∈ n.loops, n.Agrees loop ∨ loop ∈ n.body.loops := by
  have hnone : Concrete.topologicallySort (hardDeps n.stmt) (softDeps n.stmt) n.vars = none ↔ Cyclic (Before (hardDeps n.stmt)) :=
    Concrete.topologicallySort_none_iff hclosed
  rw [reorderLoopsTopologically_eq, ← hnone]
  cases hsort : Concrete.topologicallySort (hardDeps n.stmt) (softDeps n.stmt) n.vars with
  | none => simp
  | some sortedVars =>
    have hperm := (Concrete.topologicallySort_some hsort).1
    have hmem : ∀ loop ∈ n.loops, loop ∈ sortedVars.map n.newLoop ↔ n.Agrees loop := by
      intro loop hloop
      rw [← newLoop_eq_iff, List.mem_map]
      constructor
      · rintro ⟨i, -, rfl⟩
        rfl
      · exact fun heq => ⟨loop.indexVar, hperm.symm.subset (List.mem_map_of_mem hloop), heq⟩
    simp only [Option.map_some, Option.some.injEq, forall_eq', reduceCtorEq, false_or]
    rw [KeepsLoops, stmt, loops_wrap, loops_wrap]
    constructor
    · exact fun h loop hloop =>
        (List.mem_append.mp (h loop (List.mem_append_left _ hloop))).imp_left (hmem loop hloop).mp
    · intro h loop hloop
      rcases List.mem_append.mp hloop with hloop | hloop
      · exact List.mem_append.mpr ((h loop hloop).imp_left (hmem loop hloop).mpr)
      · exact List.mem_append_right _ hloop

end ForallNest

/-- A reordering keeps the annotations exactly if it is refused or the loops over its pattern have none; the topological
    order keeps those of a nest exactly if there is none or the loops agree on what their side tables do not keep apart. -/
theorem annotations_iff (getName : IndexVar → String) (hardDeps : IndexStmt → IndexVar → List IndexVar)
    (hclosed : ∀ n : ForallNest, ∀ v, ∀ u ∈ hardDeps n.stmt v, u ∈ n.vars ∧ v ∈ n.vars) :
    (∀ (r : Reorder) (stmt : IndexStmt),
      (∀ result, r.apply getName stmt = .ok result → KeepsLoops stmt result) ↔ ¬ r.Annotated getName stmt) ∧
      ∀ n : ForallNest,
        (∀ result, reorderLoopsTopologically hardDeps n.stmt = some result → KeepsLoops n.stmt result) ↔
          Cyclic (Before (hardDeps n.stmt)) ∨ ∀ loop ∈ n.loops, n.Agrees loop ∨ loop ∈ n.body.loops :=
  ⟨fun r stmt => r.keepsLoops_eq stmt, fun n => n.keepsLoops_eq (hclosed n)⟩

/-- `A(i,j) = B(i,j)` of dense matrices, the levels of which are located, so that no variable depends on another. -/
def copyMatrix : IndexStmt :=
  .assignment ((TensorVar.dense 0 [3, 4]).access [0, 1] (by decide))
    (.access ((TensorVar.dense 1 [3, 4]).access [0, 1] (by decide))) .undefined

/-- A nest with the annotations of its two loops. -/
def copyNest (outer inner : LoopTags) : ForallNest where
  loops := [⟨0, outer⟩, ⟨1, inner⟩]
  body := copyMatrix
  predicate := none
  ne_nil := List.cons_ne_nil _ _
  body_not_forall := rfl

/-- Two loops of which the outer one is parallel. -/
def parallelRows : ForallNest := copyNest ⟨.cpuThread, .noRaces, 0⟩ .none

theorem annotations_parallelRows :
    reorderLoopsTopologically (fun _ _ => []) parallelRows.stmt = some parallelRows.stmt ∧
      KeepsLoops parallelRows.stmt parallelRows.stmt := by
  have hsame : reorderLoopsTopologically (fun _ _ => []) parallelRows.stmt = some parallelRows.stmt := by rfl
  refine ⟨hsame, ((annotations_iff (fun _ => "i") (fun _ _ => []) fun _ _ _ hu => by cases hu).2 _).mpr (Or.inr ?_) _ hsame⟩
  intro loop hloop
  simp only [parallelRows, copyNest, List.mem_cons, List.not_mem_nil, or_false] at hloop
  rcases hloop with rfl | rfl
  · exact Or.inl ⟨rfl, rfl, rfl⟩
  · exact Or.inl ⟨rfl, rfl, rfl⟩

/-- An unroll factor of the outer loop comes to the inner one, and a reordered loop is no longer parallel. -/
theorem copyNest_not_annotated :
    (¬ ∀ (n : ForallNest) (result : IndexStmt), reorderLoopsTopologically (fun _ _ => []) n.stmt = some result →
      KeepsLoops n.stmt result) ∧
    ¬ ∀ (r : Reorder) (stmt result : IndexStmt), r.apply (fun _ => "i") stmt = .ok result → KeepsLoops stmt result := by
  constructor
  · intro h
    have hclosed : ∀ v, ∀ u ∈ ([] : List IndexVar), u ∈ [0, 1] ∧ v ∈ [0, 1] := fun _ _ hu => by cases hu
    rcases ((copyNest ⟨.notParallel, .ignoreRaces, 4⟩ .none).keepsLoops_eq hclosed).mp (h _) with hcyclic | hagrees
    · exact Dependencies.not_cyclic_of_lt (fun _ => 0) (fun _ _ hu => by cases hu) hcyclic
    · rcases hagrees ⟨1, .none⟩ (List.mem_cons_of_mem _ List.mem_cons_self) with hagrees | hbody
      · exact absurd hagrees.unrollFactor (by decide)
      · cases hbody
  · intro h
    exact ((Reorder.keepsLoops_eq (.pair 0 1) (copyNest ⟨.cpuThread, .noRaces, 0⟩ .none).stmt).mp (h _ _))
      ⟨by decide, [], _, copyMatrix, ⟨rfl, rfl, rfl, List.cons_ne_nil _ _⟩, _, List.mem_cons_self, by decide⟩

end Notation
end Taco
