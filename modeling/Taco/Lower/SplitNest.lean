import Taco.Provenance.Linked

/-! The loop nest that `lowerForall` emits for a forall nest over split variables: bounds from
    `deriveIterBounds`, a declaration for each parent that becomes recoverable, and a guard for the
    underived one. -/

namespace Taco
namespace Lower
open Provenance

/-! ### Schedules -/

/-- A forall nest under a `SuchThat`: the nest's variables, outermost first, and the relations. -/
structure Schedule where
  foralls : List IndexVar
  provGraph : ProvenanceGraph
  deriving DecidableEq, Repr

namespace Schedule

/-- `IndexStmt::split`: the relation joins the predicates and the forall of `i` becomes two. -/
def split (s : Schedule) (i i1 i2 : IndexVar) (splitFactor : ℕ) : Schedule where
  foralls := s.foralls.flatMap fun v => if v = i then [i1, i2] else [v]
  provGraph := ⟨s.provGraph.relations ++ [⟨i, i1, i2, splitFactor⟩]⟩

/-- The variables of the schedule: those that are iterated and those that were split. -/
def vars (s : Schedule) : List IndexVar :=
  s.foralls ++ s.provGraph.relations.map SplitRelNode.parentVar

end Schedule

/-- The schedules that splits and reorderings make of one forall over `i`. -/
inductive SplitsOf (i : IndexVar) : Schedule → Prop
  | forall : SplitsOf i ⟨[i], ⟨[]⟩⟩
  | split {s : Schedule} {v v1 v2 : IndexVar} {splitFactor : ℕ} : SplitsOf i s → v ∈ s.foralls → v1 ∉ s.vars →
      v2 ∉ s.vars → v1 ≠ v2 → 0 < splitFactor → SplitsOf i (s.split v v1 v2 splitFactor)
  | reorder {s : Schedule} {order : List IndexVar} : SplitsOf i s → order.Perm s.foralls →
      SplitsOf i { s with foralls := order }

/-! ### Emitted code -/

/-- A statement of the recovery code in front of a loop body. -/
inductive RecoveryStep where
  | varDecl (v : IndexVar) (rel : SplitRelNode)
  | guard (v : IndexVar) (bound : ℕ)
  deriving DecidableEq, Repr

/-- The emitted loops; `body` stands for the statement below all foralls. -/
inductive LoopNest where
  | body
  | for (coordinate : IndexVar) (start stop : ℕ) (recovery : List RecoveryStep) (contents : LoopNest)
  deriving DecidableEq, Repr

section
variable (g : ProvenanceGraph) (underivedBounds : IndexVar → Option Bounds)

/-- The code that recovers `varToRecover`; only an underived variable is guarded. -/
def recoverySteps (varToRecover : IndexVar) : List RecoveryStep :=
  match g.childRel? varToRecover with
  | none => []
  | some rel =>
    .varDecl varToRecover rel ::
      match underivedBounds varToRecover with
      | none => []
      | some bounds => [.guard varToRecover bounds.2]

/-- `lowerForall` over a nest; the variables of the loops around it are defined. -/
def lowerForall (definedIndexVars : List IndexVar) : List IndexVar → Option LoopNest
  | [] => some .body
  | v :: foralls => do
    let bounds ← g.deriveIterBounds underivedBounds g.relations.length v
    let contents ← lowerForall (v :: definedIndexVars) foralls
    let recovery := (g.newlyRecoverableParents definedIndexVars g.relations.length v).flatMap
      (recoverySteps g underivedBounds)
    pure (.for v bounds.1 bounds.2 recovery contents)

end

/-- The bounds of the only underived variable, a dense dimension of `n`. -/
def denseBounds (i : IndexVar) (n : ℕ) (v : IndexVar) : Option Bounds := if v = i then some (0, n) else none

def Schedule.lower (s : Schedule) (i : IndexVar) (n : ℕ) : Option LoopNest :=
  lowerForall s.provGraph (denseBounds i n) [] s.foralls

/-! ### Running the code -/

abbrev Env := IndexVar → ℕ

/-- The variables after the recovery code, or `none` when a guard continues with the next iteration. -/
def runRecovery : List RecoveryStep → Env → Option Env
  | [], env => some env
  | .varDecl v rel :: steps, env => runRecovery steps (Function.update env v (rel.recoverVariable env))
  | .guard v bound :: steps, env => if bound ≤ env v then none else runRecovery steps env

/-- The values of `i` for which the body is executed, in order. -/
def LoopNest.run (i : IndexVar) : LoopNest → Env → List ℕ
  | .body, env => [env i]
  | .for v start stop recovery contents, env =>
    (List.range' start (stop - start)).flatMap fun x =>
      match runRecovery recovery (Function.update env v x) with
      | none => []
      | some env' => contents.run i env'

/-- The body is executed once for each value of `[0, n)`, and for no other value. -/
def VisitsOnce (trace : List ℕ) (n : ℕ) : Prop := ∀ x, trace.count x = if x < n then 1 else 0

end Lower
end Taco
