import Taco.IR.Expr

/-! Statements of the IR and their runs. A run has no result where it does not terminate or divides by zero. -/

namespace Taco
namespace IR
open Expr

/-! ### Syntax -/

inductive Stmt where
  | block (contents : List Stmt)
  | scope (scopedStmt : Stmt)
  | varDecl (var : Var) (rhs : Expr)
  | assign (lhs : Var) (rhs : Expr)
  | store (arr : ArrayVar) (loc data : Expr)
  | yield (coords : List Var) (val : Expr)
  | ifThenElse (cond : Expr) (thenStmt : Stmt) (otherwise : Option Stmt)
  | case (clauses : List (Expr × Stmt)) (alwaysMatch : Bool)
  | switch (cases : List (Expr × Stmt)) (controlExpr : Expr)
  /-- `For::make` caches the end bound in a variable. -/
  | for (var : Var) (start : Expr) (endVar : Var) (increment : Expr) (contents : Stmt)
  | while (cond : Expr) (contents : Stmt)

namespace Stmt

/-- A block without contents. -/
def isNop : Stmt → Bool
  | block [] => true
  | _ => false

/-- `Block::make` drops empty blocks. -/
def makeBlock (stmts : List Stmt) : Stmt := block (stmts.filter fun s => !s.isNop)

/-- `Scope::make` does not nest scopes. -/
def makeScope : Stmt → Stmt
  | scope s => scope s
  | s => scope s

/-- `IfThenElse::make` without an else branch. -/
def makeIf (cond : Expr) (thenStmt : Stmt) : Stmt := ifThenElse cond (makeScope thenStmt) none

mutual

/-- The variables that a statement assigns, at any depth. -/
def assigned : Stmt → List Var
  | block contents => assignedAll contents
  | scope s | .for _ _ _ _ s | .while _ s => s.assigned
  | assign lhs _ => [lhs]
  | ifThenElse _ s none => s.assigned
  | ifThenElse _ s (some t) => s.assigned ++ t.assigned
  | case clauses _ | switch clauses _ => assignedClauses clauses
  | varDecl .. | store .. | yield .. => []

def assignedAll : List Stmt → List Var
  | [] => []
  | s :: ss => s.assigned ++ assignedAll ss

def assignedClauses : List (Expr × Stmt) → List Var
  | [] => []
  | (_, s) :: clauses => s.assigned ++ assignedClauses clauses

/-- The variables that a statement declares outside its inner scopes. -/
def declared : Stmt → List Var
  | block contents => declaredAll contents
  | varDecl v _ => [v]
  | _ => []

def declaredAll : List Stmt → List Var
  | [] => []
  | s :: ss => s.declared ++ declaredAll ss

end

end Stmt

/-! ### Runs -/

/-- The memory, and what has been yielded. -/
structure State where
  mem : Memory
  output : List (List Val × Val)

namespace State

def set (σ : State) (v : Var) (x : Val) : State :=
  ⟨⟨Function.update σ.mem.vars v (v.type.conv x), σ.mem.arrays⟩, σ.output⟩

def write (σ : State) (arr : ArrayVar) (loc x : Val) : State :=
  let elements := Function.update (σ.mem.arrays arr) (trunc loc) (arr.type.conv x)
  ⟨⟨σ.mem.vars, Function.update σ.mem.arrays arr elements⟩, σ.output⟩

def emit (σ : State) (coords : List Var) (x : Val) : State :=
  ⟨σ.mem, σ.output ++ [(coords.map fun v => v.type.conv (σ.mem.vars v), x)]⟩

/-- On leaving a scope, its variables are those of the enclosing scope again. -/
def leave (declared : List Var) (outer σ : State) : State :=
  ⟨⟨fun v => if v ∈ declared then outer.mem.vars v else σ.mem.vars v, σ.mem.arrays⟩, σ.output⟩

end State

/-- The first clause whose condition holds; the last one is printed as an `else` if one always matches. -/
def firstMatch (m : Memory) (alwaysMatch : Bool) : List (Expr × Stmt) → Option (Option Stmt)
  | [] => some none
  | (c, s) :: clauses => do
    if alwaysMatch && clauses.isEmpty then some (some s)
    else if (← c.eval m) ≠ 0 then some (some s)
    else firstMatch m alwaysMatch clauses

/-- The first case whose label equals the control value. -/
def matchingCase (m : Memory) (x : Val) : List (Expr × Stmt) → Option (Option Stmt)
  | [] => some none
  | (c, s) :: cases => do if (← c.eval m) = x then some (some s) else matchingCase m x cases

/-- Running a statement; `fuel` bounds the depth. -/
def run : ℕ → Stmt → State → Option State
  | 0, _, _ => none
  | fuel + 1, .block contents, σ => contents.foldlM (fun σ s => run fuel s σ) σ
  | fuel + 1, .scope s, σ => (run fuel s σ).map (State.leave s.declared σ)
  | _ + 1, .varDecl v rhs, σ | _ + 1, .assign v rhs, σ => (rhs.eval σ.mem).map (σ.set v)
  | _ + 1, .store arr loc data, σ => do
    let l ← loc.eval σ.mem
    let x ← data.eval σ.mem
    some (σ.write arr l x)
  | _ + 1, .yield coords val, σ => (val.eval σ.mem).map (σ.emit coords)
  | fuel + 1, .ifThenElse cond s otherwise, σ => do
    if (← cond.eval σ.mem) ≠ 0 then run fuel s σ
    else match otherwise with
      | some t => run fuel t σ
      | none => some σ
  | fuel + 1, .case clauses alwaysMatch, σ => do
    match ← firstMatch σ.mem alwaysMatch clauses with
    | some s => run fuel s σ
    | none => some σ
  | fuel + 1, .switch cases controlExpr, σ => do
    match ← matchingCase σ.mem (← controlExpr.eval σ.mem) cases with
    | some s => run fuel s σ
    | none => some σ
  | fuel + 1, .for v start e inc body, σ => do
    let x ← start.eval σ.mem
    let loop := Stmt.while (.compare .lt (.var v) (.var e)) (.block [body, .assign v (.binary .add (.var v) inc)])
    (run fuel loop (σ.set v x)).map (State.leave [v] σ)
  | fuel + 1, .while cond body, σ => do
    if (← cond.eval σ.mem) ≠ 0 then (run fuel body σ).bind (run fuel (.while cond body))
    else some σ

/-- Some run of the statement from `σ` ends in `σ'`. -/
def Runs (s : Stmt) (σ σ' : State) : Prop := ∃ fuel, run fuel s σ = some σ'

end IR
end Taco
