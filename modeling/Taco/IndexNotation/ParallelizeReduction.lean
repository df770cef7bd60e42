import Taco.IndexNotation.Parallelize
import Taco.IndexNotation.ScalarPromote

/-! `Parallelize` with a strategy for the races of a reduction: a temporary for each iteration, or atomic stores. -/

namespace Taco
namespace Concrete
namespace ParallelizeReduction

open Parallelize (loopVars reductionIndexVars)
open ScalarPromote (Position scalarPromote)

variable {V : Type}

inductive OutputRaceStrategy where
  | IgnoreRaces
  | NoRaces
  | Atomics
  | Temporary
  | ParallelReduction
  deriving DecidableEq

/-- Why there is no statement: a precondition that is not met, or an assertion that fails. -/
inductive Failure where
  | precondition
  | assertion
  deriving DecidableEq

/-- The tensors that are made at a loop: the temporaries of its assignments, and the scalars of its body. -/
structure Names where
  w : Position → ℕ → TensorVar
  val : Position → Position → Access → TensorVar

/-- `precomputeAssignments`: what is assigned to where the loop reduces, and whether there is an operator. -/
def precomputeAssignments (g : ProvenanceGraph) (i : IndexVar) : IndexStmt V → List (Access × Bool)
  | .assignment lhs rhs compound =>
    if (g.getUnderivedAncestors i).any (· ∈ IndexStmt.getReductionVars lhs rhs) then [(lhs, compound)] else []
  | .forall _ stmt => precomputeAssignments g i stmt
  | .where consumer producer => precomputeAssignments g i producer ++ precomputeAssignments g i consumer

/-- `underivedForall`: the last loop below that has the underived ancestor of the loop. -/
def underivedForall (g : ProvenanceGraph) (i : IndexVar) (body : IndexStmt V) : IndexVar :=
  (((loopVars body).filter fun j =>
    (g.getUnderivedAncestors j).getLast? = (g.getUnderivedAncestors i).getLast?).getLast?).getD i

/-- A producer that writes a temporary for each iteration, and a consumer that reduces it; the statement must be a loop. -/
def precompute (w : TensorVar) (i : IndexVar) (stmt : IndexStmt V) (a : Access) (compound : Bool) :
    Except Failure (IndexStmt V) :=
  match stmt.replaceReductionExpr a (.make w [i]) with
  | .forall j body => .ok (.where (.forall i (.assignment a (.access (.make w [i])) compound)) (.forall j body))
  | .assignment _ _ _ | .where _ _ => .error .assertion

/-- The reductions of a loop are precomputed one after the other. -/
def precomputeAll (g : ProvenanceGraph) (w : ℕ → TensorVar) (i : IndexVar) (body : IndexStmt V) :
    Except Failure (IndexStmt V) :=
  let assignments := precomputeAssignments g i body
  if assignments.isEmpty then .error .assertion
  else assignments.zipIdx.foldlM (fun stmt entry => precompute (w entry.2) i stmt entry.1.1 entry.1.2) (.forall i body)

section

variable (strategy : OutputRaceStrategy) (preconditions : List IndexVar → IndexVar → IndexStmt V → Bool)
variable (g : ProvenanceGraph) (names : Names) (reductionIndexVars : List IndexVar) (i : IndexVar)

/-- What becomes of a loop that meets the preconditions. -/
def parallelize (position : Position) (body : IndexStmt V) : Except Failure (IndexStmt V) :=
  if strategy = .Temporary ∧ underivedForall g i body ∈ reductionIndexVars then precomputeAll g (names.w position) i body
  else if strategy = .Atomics then .ok (.forall i (scalarPromote g false true (names.val position) body))
  else .ok (.forall i body)

/-- The where statement of two rewritten ones; a precondition that the producer does not meet does not stop the rewriter. -/
def rewriteWhere : (producer consumer : Except Failure (IndexStmt V)) → Except Failure (IndexStmt V)
  | .ok producer, .ok consumer => .ok (.where consumer producer)
  | .ok _, .error failure => .error failure
  | .error .precondition, .error failure => .error failure
  | .error failure, _ => .error failure

/-- The rewriter, with the variables defined so far; `preconditions` are those on the merge lattice and the result's
    iterators. -/
def rewrite : Position → List IndexVar → IndexStmt V → Except Failure (IndexStmt V) × List IndexVar
  | _, defined, .assignment lhs rhs compound => (.ok (.assignment lhs rhs compound), defined)
  | position, defined, .forall j stmt =>
    let defined := j :: defined
    if j = i then
      if strategy = .NoRaces ∧ i ∈ reductionIndexVars then (.error .precondition, defined)
      else if preconditions defined i stmt then
        (parallelize strategy g names reductionIndexVars i position stmt, loopVars stmt ++ defined)
      else (.error .precondition, defined)
    else
      let (stmt, defined) := rewrite (.stmt :: position) defined stmt
      (stmt.map (.forall j), defined)
  | position, defined, .where consumer producer =>
    let (producer, defined) := rewrite (.producer :: position) defined producer
    let (consumer, defined) := rewrite (.consumer :: position) defined consumer
    (rewriteWhere producer consumer, defined)

end

/-- `Parallelize::apply`. -/
def apply (strategy : OutputRaceStrategy) (preconditions : List IndexVar → IndexVar → IndexStmt V → Bool)
    (g : ProvenanceGraph) (names : Names) (i : IndexVar) (s : IndexStmt V) : Except Failure (IndexStmt V) :=
  (rewrite strategy preconditions g names (reductionIndexVars g s) i [] [] s).1

end ParallelizeReduction
end Concrete
end Taco
