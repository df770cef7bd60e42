import Taco.IR.CopyPropagation
import Taco.IR.RedundantLoops

/-! `ir::simplify` on statements: the three passes one after the other. -/

namespace Taco
namespace IR

namespace RemoveRedundantLoops

/-- What a node becomes, given what stands in its place if it is a loop that is redundant. -/
def visitLoop (redundant : Option (Option Stmt)) (rewritten : Option RewrittenStmt) : Option RewrittenStmt := do
  match ← redundant with
  | some s => some ⟨s, true⟩
  | none => rewritten

mutual

def visit : Stmt → Option RewrittenStmt
  | .block contents => do
    let rs ← visitAll contents
    let ss := rs.map RewrittenStmt.stmt
    some (if rs.any RewrittenStmt.isNew then ⟨.makeBlock ss, true⟩ else ⟨.block ss, false⟩)
  | .scope s => do
    let r ← visit s
    some ⟨.makeScope r.stmt, r.isNew⟩
  | .ifThenElse cond s none => do
    let r ← visit s
    some ⟨.ifThenElse cond (.makeScope r.stmt) none, r.isNew⟩
  | .ifThenElse cond s (some t) => do
    let r ← visit s
    let q ← visit t
    some ⟨.ifThenElse cond (.makeScope r.stmt) (some (.makeScope q.stmt)), r.isNew || q.isNew⟩
  | .case clauses alwaysMatch => do
    let (cs, isNew) ← visitClauses clauses
    some ⟨.case cs alwaysMatch, isNew⟩
  | .switch cases controlExpr => do
    let (cs, isNew) ← visitClauses cases
    some ⟨.switch cs controlExpr, isNew⟩
  | .for v start e increment s =>
    visitLoop (redundantFor start e increment s) do
      let r ← visit s
      let loop := .for v start e increment (.makeScope r.stmt)
      some (if r.isNew then ⟨.block [loop], true⟩ else ⟨loop, false⟩)
  | .while cond s =>
    visitLoop (redundantWhile cond s) do
      let r ← visit s
      some ⟨.while cond (.makeScope r.stmt), r.isNew⟩
  | s => some ⟨s, false⟩

def visitAll : List Stmt → Option (List RewrittenStmt)
  | [] => some []
  | s :: ss => do
    let r ← visit s
    let rs ← visitAll ss
    some (r :: rs)

def visitClauses : List (Expr × Stmt) → Option (List (Expr × Stmt) × Bool)
  | [] => some ([], false)
  | (e, s) :: clauses => do
    let r ← visit s
    let (cs, isNew) ← visitClauses clauses
    some ((e, .makeScope r.stmt) :: cs, r.isNew || isNew)

end

end RemoveRedundantLoops

/-- `ir::simplify`, and whether its result is another node. -/
def simplifyStmt (s : Stmt) : Option RewrittenStmt := do
  let (r, P) ← Simplifier.visit (findLoopDependentVars s) s .start
  let q := (RemoveRedundantStmts.visit P.necessaryDecls r.stmt 0).1
  let t ← RemoveRedundantLoops.visit q.stmt
  some ⟨t.stmt, r.isNew || q.isNew || t.isNew⟩

/-- The loop that simplifies a statement until it stays the same; `fuel` bounds its turns. -/
def simplifyFully : ℕ → Stmt → Option Stmt
  | 0, _ => none
  | fuel + 1, s => do
    let r ← simplifyStmt s
    if r.isNew then simplifyFully fuel r.stmt else some r.stmt

/-- `IRPrinter::print` up to the visit of the statement. -/
def print (simplify : Bool) (fuel : ℕ) (s : Stmt) : Option Stmt :=
  let s := match s with
    | .scope scopedStmt => scopedStmt
    | s => s
  if simplify then simplifyFully fuel s else some s

end IR
end Taco
