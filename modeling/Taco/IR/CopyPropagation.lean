import Taco.IR.Simplify
import Taco.IR.Stmt
import Taco.Library.ScopedMap

/-! Copy propagation, and the removal of the declarations that it makes redundant. A statement has no result
    where an expression has none, or where the invalidation of copies does not come to an end. -/

namespace Taco
namespace IR
open Expr

namespace Expr

mutual

/-- The variables of an expression, in the order in which they are visited. -/
def vars : Expr → List Var
  | literal _ => []
  | var v => [v]
  | neg a | cast a _ | load _ a => a.vars
  | binary _ a b | compare _ a b | and a b | or a b => a.vars ++ b.vars
  | min es _ | max es _ => varsAll es

def varsAll : List Expr → List Var
  | [] => []
  | e :: es => e.vars ++ varsAll es

end

end Expr

/-! ### Loop dependent variables -/

/-- The loop dependent variables, and the loop level of the first declaration of each variable. -/
structure FindLoopDependentVars where
  loopDependentVars : List Var
  defLevel : List (Var × ℕ)

namespace FindLoopDependentVars

def visitDecl (f : FindLoopDependentVars) (loopLevel : ℕ) (v : Var) : FindLoopDependentVars :=
  if (f.defLevel.lookup v).isSome then f else ⟨f.loopDependentVars, (v, loopLevel) :: f.defLevel⟩

def visitAssign (f : FindLoopDependentVars) (loopLevel : ℕ) (lhs : Var) : FindLoopDependentVars :=
  match f.defLevel.lookup lhs with
  | some level => if level < loopLevel then ⟨lhs :: f.loopDependentVars, f.defLevel⟩ else f
  | none => f

mutual

def visit (loopLevel : ℕ) : Stmt → FindLoopDependentVars → FindLoopDependentVars
  | .block contents, f => visitAll loopLevel contents f
  | .scope s, f => visit loopLevel s f
  | .varDecl v _, f => f.visitDecl loopLevel v
  | .assign lhs _, f => f.visitAssign loopLevel lhs
  | .ifThenElse _ s none, f => visit loopLevel s f
  | .ifThenElse _ s (some t), f => visit loopLevel t (visit loopLevel s f)
  | .case clauses _, f | .switch clauses _, f => visitClauses loopLevel clauses f
  | .for v _ _ _ s, f => visit (loopLevel + 1) s ⟨v :: f.loopDependentVars, f.defLevel⟩
  | .while _ s, f => visit (loopLevel + 1) s f
  | .store .., f | .yield .., f => f

def visitAll (loopLevel : ℕ) : List Stmt → FindLoopDependentVars → FindLoopDependentVars
  | [], f => f
  | s :: ss, f => visitAll loopLevel ss (visit loopLevel s f)

def visitClauses (loopLevel : ℕ) : List (Expr × Stmt) → FindLoopDependentVars → FindLoopDependentVars
  | [], f => f
  | (_, s) :: clauses, f => visitClauses loopLevel clauses (visit loopLevel s f)

end

end FindLoopDependentVars

def findLoopDependentVars (s : Stmt) : List Var := (FindLoopDependentVars.visit 0 s ⟨[], []⟩).loopDependentVars

/-! ### The simplifier -/

/-- A rewritten statement, and whether it is another node than the original one. -/
structure RewrittenStmt where
  stmt : Stmt
  isNew : Bool

/-- The state of `Simplifier`. A declaration statement is known by its number in the order of visits. -/
structure Simplifier where
  varsToReplace : ScopedMap Var Var
  necessaryDecls : List ℕ
  /-- The variables that were declared as copies of a variable, paired with it. -/
  dependencies : List (Var × Var)
  declarations : ScopedMap Var ℕ
  visitedDecls : ℕ

namespace Simplifier

def start : Simplifier := ⟨.empty, [], [], .empty, 0⟩

/-- What a variable is replaced by. -/
def copyOf (P : Simplifier) : Var → Option Var := P.varsToReplace.get?

def replacement (P : Simplifier) (v : Var) : Var := (P.copyOf v).getD v

/-- The declaration in scope of a variable is necessary. -/
def markDecl (P : Simplifier) (v : Var) : Simplifier :=
  match P.declarations.get? v with
  | some d => { P with necessaryDecls := d :: P.necessaryDecls }
  | none => P

/-- `visit` of a variable. -/
def visitVar (P : Simplifier) (v : Var) : Simplifier := P.markDecl (P.replacement v)

def visitVars (P : Simplifier) (vs : List Var) : Simplifier := vs.foldl visitVar P

/-- `rewrite` of an expression. -/
def visitExpr (P : Simplifier) (e : Expr) : Option (Rewritten × Simplifier) :=
  (simplifyWith P.copyOf e).map fun r => (r, P.visitVars e.vars)

def scope (P : Simplifier) : Simplifier :=
  { P with varsToReplace := P.varsToReplace.scope, declarations := P.declarations.scope }

def unscope (P : Simplifier) : Simplifier :=
  { P with varsToReplace := P.varsToReplace.unscope, declarations := P.declarations.unscope }

/-- `visit` of a declaration, given its rewritten right-hand side. -/
def declare (loopDependentVars : List Var) (P : Simplifier) (v : Var) (rhs : Expr) : Simplifier :=
  let Q := { P with declarations := P.declarations.insert v P.visitedDecls, visitedDecls := P.visitedDecls + 1 }
  match rhs with
  | var a =>
    if v.type.isInt && v ∉ loopDependentVars then
      { Q with varsToReplace := Q.varsToReplace.insert v a, dependencies := (a, v) :: Q.dependencies }
    else Q
  | _ => Q

/-- The copies of the variables. -/
def dependents (dependencies : List (Var × Var)) (vs : List Var) : List Var :=
  vs.flatMap fun v => (dependencies.filter fun d => d.1 = v).map Prod.snd

/-- The queue of invalid variables, one level of copies after the other; where it is not empty after as many levels
    as there are dependencies, the copies form a cycle and it never is. -/
def invalidate (dependencies : List (Var × Var)) : ℕ → List Var → ScopedMap Var Var → Option (ScopedMap Var Var)
  | _, [], m => some m
  | 0, _ :: _, _ => none
  | n + 1, v :: vs, m =>
    invalidate dependencies n (dependents dependencies (v :: vs))
      ((v :: vs).foldl (fun m v => if m.contains v then m.remove v else m) m)

/-- `visit` of an assignment, after its right-hand side. -/
def assign (P : Simplifier) (lhs : Var) : Option Simplifier :=
  let Q := P.markDecl lhs
  if lhs.type.isInt then do
    let m ← invalidate Q.dependencies (Q.dependencies.length + 1) [lhs] Q.varsToReplace
    some { Q with varsToReplace := m }
  else some Q

variable (loopDependentVars : List Var)

mutual

def visit : Stmt → Simplifier → Option (RewrittenStmt × Simplifier)
  | .block contents, P => do
    let (rs, P) ← visitAll contents P
    let ss := rs.map RewrittenStmt.stmt
    some (if rs.any RewrittenStmt.isNew then ⟨.makeBlock ss, true⟩ else ⟨.block ss, false⟩, P)
  | .scope s, P => do
    let (r, P) ← visit s P.scope
    some (⟨.makeScope r.stmt, r.isNew⟩, P.unscope)
  | .varDecl v rhs, P => do
    let (r, P) ← P.visitExpr rhs
    some (⟨.varDecl v r.expr, r.isNew⟩, P.declare loopDependentVars v r.expr)
  | .assign lhs rhs, P => do
    let (r, P) ← P.visitExpr rhs
    let P ← P.assign lhs
    some (⟨.assign lhs r.expr, r.isNew⟩, P)
  | .store arr loc data, P => do
    let (l, P) ← P.visitExpr loc
    let (d, P) ← P.visitExpr data
    some (⟨.store arr l.expr d.expr, l.isNew || d.isNew⟩, P)
  | .yield coords val, P => do
    -- the rewritten coordinates are computed, and the original ones are kept
    let coordsSame := coords.all fun c => P.replacement c = c
    let (r, P) ← (P.visitVars coords).visitExpr val
    some (⟨.yield coords r.expr, !coordsSame || r.isNew⟩, P)
  | .ifThenElse cond s otherwise, P => do
    let (c, P) ← P.visitExpr cond
    let (r, P) ← visit s P
    match otherwise with
    | none => some (⟨.ifThenElse c.expr (.makeScope r.stmt) none, c.isNew || r.isNew⟩, P)
    | some t => do
      let (q, P) ← visit t P
      some (⟨.ifThenElse c.expr (.makeScope r.stmt) (some (.makeScope q.stmt)), c.isNew || r.isNew || q.isNew⟩, P)
  | .case clauses alwaysMatch, P => do
    let (cs, isNew, P) ← visitClauses clauses P
    some (⟨.case cs alwaysMatch, isNew⟩, P)
  | .switch cases controlExpr, P => do
    let (c, P) ← P.visitExpr controlExpr
    let (cs, isNew, P) ← visitClauses cases P
    some (⟨.switch cs c.expr, c.isNew || isNew⟩, P)
  | .for v start e increment s, P => do
    let v' := P.replacement v
    let (b, P) ← (P.visitVar v).visitExpr start
    let e' := P.replacement e
    let (i, P) ← (P.visitVar e).visitExpr increment
    let (r, P) ← visit s P
    let loop := .for v' b.expr e' i.expr (.makeScope r.stmt)
    -- `For::make` returns a block
    if v' ≠ v || b.isNew || e' ≠ e || i.isNew || r.isNew then some (⟨.block [loop], true⟩, P)
    else some (⟨loop, false⟩, P)
  | .while cond s, P => do
    let (c, P) ← P.visitExpr cond
    let (r, P) ← visit s P
    some (⟨.while c.expr (.makeScope r.stmt), c.isNew || r.isNew⟩, P)

def visitAll : List Stmt → Simplifier → Option (List RewrittenStmt × Simplifier)
  | [], P => some ([], P)
  | s :: ss, P => do
    let (r, P) ← visit s P
    let (rs, P) ← visitAll ss P
    some (r :: rs, P)

def visitClauses : List (Expr × Stmt) → Simplifier → Option (List (Expr × Stmt) × Bool × Simplifier)
  | [], P => some ([], false, P)
  | (c, s) :: clauses, P => do
    let (c, P) ← P.visitExpr c
    let (r, P) ← visit s P
    let (cs, isNew, P) ← visitClauses clauses P
    some ((c.expr, .makeScope r.stmt) :: cs, c.isNew || r.isNew || isNew, P)

end

end Simplifier

/-! ### Redundant declarations -/

namespace RemoveRedundantStmts

variable (necessaryDecls : List ℕ)

mutual

/-- `visit`, which counts the declarations that it passes. -/
def visit : Stmt → ℕ → RewrittenStmt × ℕ
  | .block contents, n =>
    let (rs, n) := visitAll contents n
    let ss := rs.map RewrittenStmt.stmt
    (if rs.any RewrittenStmt.isNew then ⟨.makeBlock ss, true⟩ else ⟨.block ss, false⟩, n)
  | .scope s, n =>
    let (r, n) := visit s n
    (⟨.makeScope r.stmt, r.isNew⟩, n)
  | .varDecl v rhs, n => (if n ∈ necessaryDecls then ⟨.varDecl v rhs, false⟩ else ⟨.makeBlock [], true⟩, n + 1)
  | .ifThenElse cond s none, n =>
    let (r, n) := visit s n
    (⟨.ifThenElse cond (.makeScope r.stmt) none, r.isNew⟩, n)
  | .ifThenElse cond s (some t), n =>
    let (r, n) := visit s n
    let (q, n) := visit t n
    (⟨.ifThenElse cond (.makeScope r.stmt) (some (.makeScope q.stmt)), r.isNew || q.isNew⟩, n)
  | .case clauses alwaysMatch, n =>
    let (cs, isNew, n) := visitClauses clauses n
    (⟨.case cs alwaysMatch, isNew⟩, n)
  | .switch cases controlExpr, n =>
    let (cs, isNew, n) := visitClauses cases n
    (⟨.switch cs controlExpr, isNew⟩, n)
  | .for v start e increment s, n =>
    let (r, n) := visit s n
    let loop := .for v start e increment (.makeScope r.stmt)
    (if r.isNew then ⟨.block [loop], true⟩ else ⟨loop, false⟩, n)
  | .while cond s, n =>
    let (r, n) := visit s n
    (⟨.while cond (.makeScope r.stmt), r.isNew⟩, n)
  | s, n => (⟨s, false⟩, n)

def visitAll : List Stmt → ℕ → List RewrittenStmt × ℕ
  | [], n => ([], n)
  | s :: ss, n =>
    let (r, n) := visit s n
    let (rs, n) := visitAll ss n
    (r :: rs, n)

def visitClauses : List (Expr × Stmt) → ℕ → List (Expr × Stmt) × Bool × ℕ
  | [], n => ([], false, n)
  | (c, s) :: clauses, n =>
    let (r, n) := visit s n
    let (cs, isNew, n) := visitClauses clauses n
    ((c, .makeScope r.stmt) :: cs, r.isNew || isNew, n)

end

end RemoveRedundantStmts

/-- The first two passes of `ir::simplify` on statements. -/
def propagateCopies (s : Stmt) : Option Stmt := do
  let (r, P) ← Simplifier.visit (findLoopDependentVars s) s .start
  some (RemoveRedundantStmts.visit P.necessaryDecls r.stmt 0).1.stmt

end IR
end Taco
