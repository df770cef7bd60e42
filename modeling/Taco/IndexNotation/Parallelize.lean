import Taco.IndexNotation.Footprint
import Taco.IndexNotation.ProvenanceGraph
import Taco.IndexNotation.TopologicalOrder

/-! `Parallelize` without synchronisation, and loops whose iterations are executed in any order. -/

namespace Taco
namespace Concrete

open Workspace (Format ModeFormat)

variable {V : Type}

namespace Parallelize

/-! ### Reduction variables -/

/-- The variables of the loops so far, around the where statement of the producer and around that of the consumer. -/
structure Scopes where
  scopedVars : List IndexVar
  producerScopedVars : List IndexVar
  consumerScopedVars : List IndexVar

namespace Scopes

def empty : Scopes := ⟨[], [], []⟩

def enter (g : ProvenanceGraph) (sc : Scopes) (i : IndexVar) : Scopes :=
  { sc with scopedVars := sc.scopedVars ++ g.getUnderivedAncestors i }

def toProducer (sc : Scopes) : Scopes := { sc with producerScopedVars := sc.scopedVars }

def toConsumer (sc : Scopes) : Scopes := { sc with consumerScopedVars := sc.scopedVars }

end Scopes

/-- The variables over which an assignment reduces. -/
def assignmentReductionVars (sc : Scopes) (lhs : Access) (rhs : IndexExpr V) : List IndexVar :=
  ((rhs.accesses.flatMap Access.indexVars ++ sc.consumerScopedVars).filter
    (· ∉ lhs.indexVars ++ sc.producerScopedVars)).eraseDups

/-- `getReductionVars` of a statement. -/
def getReductionVars (g : ProvenanceGraph) : Scopes → IndexStmt V → List IndexVar
  | sc, .assignment lhs rhs _ => assignmentReductionVars sc lhs rhs
  | sc, .forall i stmt => getReductionVars g (sc.enter g i) stmt
  | sc, .where consumer producer =>
    getReductionVars g sc.toProducer producer ++ getReductionVars g sc.toConsumer consumer

/-- `IndexStmt::getIndexVars`: the variables of the accesses. -/
def getIndexVars (s : IndexStmt V) : List IndexVar := (s.accesses.flatMap Access.indexVars).eraseDups

/-- The loop variables that are derived from variables over which some assignment reduces. -/
def reductionIndexVars (g : ProvenanceGraph) (s : IndexStmt V) : List IndexVar :=
  ((getIndexVars s).filter (· ∈ getReductionVars g .empty s)).flatMap g.getFullyDerivedDescendants

/-! ### The transformation -/

/-- The variables of the loops of a statement. -/
@[grind =]
def loopVars : IndexStmt V → List IndexVar
  | .assignment _ _ _ => []
  | .forall i stmt => i :: loopVars stmt
  | .where consumer producer => loopVars producer ++ loopVars consumer

/-- The rewriter, with the variables defined so far. A loop over `i` is marked if it meets all preconditions, of which
    `preconditions` are those on the merge lattice and the result's iterators; otherwise there is no result. -/
def rewrite (preconditions : List IndexVar → IndexVar → IndexStmt V → Bool) (reductionIndexVars : List IndexVar)
    (i : IndexVar) : List IndexVar → IndexStmt V → Option (IndexStmt V) × List IndexVar
  | defined, .assignment lhs rhs compound => (some (.assignment lhs rhs compound), defined)
  | defined, .forall j stmt =>
    let defined := j :: defined
    if j = i then
      if i ∈ reductionIndexVars then (none, defined)
      else if preconditions defined i stmt then (some (.forall i stmt), loopVars stmt ++ defined)
      else (none, defined)
    else
      let (stmt, defined) := rewrite preconditions reductionIndexVars i defined stmt
      (stmt.map (.forall j), defined)
  | defined, .where consumer producer =>
    let (producer, defined) := rewrite preconditions reductionIndexVars i defined producer
    let (consumer, defined) := rewrite preconditions reductionIndexVars i defined consumer
    (producer.bind fun producer => consumer.map fun consumer => .where consumer producer, defined)

/-- `Parallelize::apply` with `OutputRaceStrategy::NoRaces`. -/
def apply (preconditions : List IndexVar → IndexVar → IndexStmt V → Bool) (g : ProvenanceGraph) (i : IndexVar)
    (s : IndexStmt V) : Option (IndexStmt V) :=
  (rewrite preconditions (reductionIndexVars g s) i [] s).1

/-- Whether a level and those below it can be inserted into. -/
def hasInserts (format : TensorVar → Format) : Iterator → Bool
  | .dimension => false
  | .level a level => (List.range a.indexVars.length).all fun l => l < level || (Iterator.level a l).hasInsert format

/-- The preconditions at a loop over a variable that is not derived: it merges nothing, and the result is inserted into. -/
def isForLoop (format : TensorVar → Format) (i : IndexVar) (body : IndexStmt V) : Bool :=
  let point := (buildStmt format i body []).1
  point.iterators.length = 1 && point.results.all (hasInserts format)

/-! ### Marked loops -/

/-- The body of a loop that is marked, and the scopes in it. -/
structure MarkedLoop (V : Type) where
  scopes : Scopes
  body : IndexStmt V

/-- The loops over a variable, none of which is in another one. -/
def markedLoops (g : ProvenanceGraph) (i : IndexVar) : Scopes → IndexStmt V → List (MarkedLoop V)
  | _, .assignment _ _ _ => []
  | sc, .forall j stmt => if j = i then [⟨sc.enter g i, stmt⟩] else markedLoops g i (sc.enter g j) stmt
  | sc, .where consumer producer => markedLoops g i sc.toProducer producer ++ markedLoops g i sc.toConsumer consumer

/-- The assignment to the result, and the scopes at it. -/
def resultAssignment (g : ProvenanceGraph) : Scopes → IndexStmt V → Scopes × Access × IndexExpr V
  | sc, .assignment lhs rhs _ => (sc, lhs, rhs)
  | sc, .forall i stmt => resultAssignment g (sc.enter g i) stmt
  | sc, .where consumer _ => resultAssignment g sc.toConsumer consumer

/-! ### Orders of execution -/

/-- What a statement does if the iterations of the marked loops are executed in a chosen order. -/
def execOrdered [Ring V] (space : Space) (i : IndexVar) (order : Env → Store V → List ℕ) :
    IndexStmt V → Env → Store V → Store V
  | .assignment lhs rhs compound, env, σ => assign lhs rhs compound env σ
  | .forall j stmt, env, σ =>
    if j = i then (order env σ).foldl (stmt.iteration space i env) σ
    else (List.range (space.dims j)).foldl
      (fun σ c => match space.enter j c env with
        | some env => execOrdered space i order stmt env σ
        | none => σ) σ
  | .where consumer producer, env, σ =>
    (execOrdered space i order consumer env
      (execOrdered space i order producer env (σ.zero producer.getResults))).restore σ producer.getResults

/-- The iterations of the marked loops can be executed in any order and write different components of the results. -/
structure RaceFree [Ring V] (space : Space) (g : ProvenanceGraph) (i : IndexVar) (s : IndexStmt V) : Prop where
  result : ∀ order : Env → Store V → List ℕ, (∀ env σ, (order env σ).Perm (List.range (space.dims i))) →
    ∀ env σ, execOrdered space i order s env σ = s.exec space env σ
  loops : ∀ loop ∈ markedLoops g i .empty s, ∀ env σ (order : List ℕ), order.Perm (List.range (space.dims i)) →
    order.foldl (loop.body.iteration space i env) σ = (IndexStmt.forall i loop.body).exec space env σ
  apart : ∀ loop ∈ markedLoops g i .empty s, loop.body.WritesApart space i

/-- The iterations of the marked loops reach different values of the variables that the loop variable is derived from. -/
def VisitsOnce (space : Space) (g : ProvenanceGraph) (i : IndexVar) (s : IndexStmt V) : Prop :=
  ∀ loop ∈ markedLoops g i .empty s, ∀ env c c', c < space.dims i → c' < space.dims i → c ≠ c' →
    ∀ e ∈ loop.body.iterationEnvs space i env c, ∀ e' ∈ loop.body.iterationEnvs space i env c',
      ∃ u ∈ g.getUnderivedAncestors i, e u < space.dims u ∧ e' u < space.dims u ∧ e u ≠ e' u

end Parallelize

end Concrete
end Taco
