import Taco.IR.Expr

/-! `ExpressionSimplifier`: the rewrite rules of each node over rewritten operands, and the bottom-up
    rewriting itself. A rewrite has no result where the code asserts, is not supported or divides by zero. -/

namespace Taco
namespace IR
open Expr

/-! ### Rules -/

/-- What the rules of a node make of its rewritten operands. -/
inductive Rule where
  /-- A literal computed from literals. -/
  | fold (l : Literal)
  /-- One of the operands. -/
  | keep (e : Expr)
  /-- `Neg::make` of an operand. -/
  | negate (e : Expr)
  /-- A new expression that is simplified again. -/
  | reassociate (e : Expr)
  /-- No rule applies. -/
  | rebuild

/-- `isa<Literal>(e) && to<Literal>(e)->equalsScalar(scalar)`. -/
def isScalarLiteral (scalar : Val) : Expr → Option Bool
  | literal l => l.equalsScalar scalar
  | _ => some false

/-- Two literals of integer result type are converted to it and combined. -/
def foldLiterals (f : Val → Val → Val) (la lb : Literal) : Option Literal :=
  let resulttype := Datatype.maxType la.type lb.type
  if resulttype.isInteger then
    some (Literal.make resulttype (f (la.convertTo resulttype).val (lb.convertTo resulttype).val))
  else
    none

/-- The rules that combine two literals into one, before any other rule. -/
def foldRule (f : Val → Val → Val) (a b : Expr) : Option Literal :=
  match a, b with
  | literal la, literal lb => foldLiterals f la lb
  | _, _ => none

/-- `typec == typed && typed == typeb` for an integer type. -/
def sameInteger (typec typed typeb : Datatype) : Bool := typec = typed && typed = typeb && typeb.isInteger

/-- `(c + d) + b = c + (d + b)` and `(c - d) + b = c + (b - d)`. -/
def reassociateAdd : Expr → Expr → Option Expr
  | binary .add c (literal d), literal b =>
    if sameInteger c.type d.type b.type then some (binary .add c (literal (.make b.type (d.val + b.val)))) else none
  | binary .sub c (literal d), literal b =>
    if sameInteger c.type d.type b.type then some (binary .add c (literal (.make b.type (b.val - d.val)))) else none
  | _, _ => none

/-- `(c * d) * b = c * db`. -/
def reassociateMul : Expr → Expr → Option Expr
  | binary .mul c (literal d), literal b =>
    if sameInteger c.type d.type b.type then some (binary .mul c (literal (.make b.type (d.val * b.val)))) else none
  | _, _ => none

/-- `0 + b = b` and `a + 0 = a`. -/
def identityAdd (a b : Expr) : Option Rule := do
  if ← isScalarLiteral 0 a then some (.keep b)
  else if ← isScalarLiteral 0 b then some (.keep a)
  else some .rebuild

/-- `0 - b = -b` and `a - 0 = a`. -/
def identitySub (a b : Expr) : Option Rule := do
  if ← isScalarLiteral 0 a then some (.negate b)
  else if ← isScalarLiteral 0 b then some (.keep a)
  else some .rebuild

/-- `0 * b = 0`, `1 * b = b`, `a * 0 = 0` and `a * 1 = a`. -/
def identityMul (a b : Expr) : Option Rule := do
  if ← isScalarLiteral 0 a then some (.keep a)
  else if ← isScalarLiteral 1 a then some (.keep b)
  else if ← isScalarLiteral 0 b then some (.keep b)
  else if ← isScalarLiteral 1 b then some (.keep a)
  else some .rebuild

/-- `a / 1 = a`. -/
def identityDiv (a b : Expr) : Option Rule := do
  if ← isScalarLiteral 1 b then some (.keep a)
  else some .rebuild

/-- The quotient of two literals of one integer type, computed at compile time in 64 bits. -/
def foldDiv (la lb : Literal) : Option Literal :=
  if la.type.is128 || lb.val == 0 || (la.val == -2 ^ 63 && lb.val == -1) then none
  else some (.make la.type (trunc (la.val / lb.val) : ℤ))

def addRule (a b : Expr) : Option Rule :=
  match foldRule (· + ·) a b with
  | some l => some (.fold l)
  | none =>
    match reassociateAdd a b with
    | some e => some (.reassociate e)
    | none => identityAdd a b

def subRule (a b : Expr) : Option Rule :=
  match foldRule (· - ·) a b with
  | some l => some (.fold l)
  | none => identitySub a b

def mulRule (a b : Expr) : Option Rule :=
  match foldRule (· * ·) a b with
  | some l => some (.fold l)
  | none =>
    match reassociateMul a b with
    | some e => some (.reassociate e)
    | none => identityMul a b

def divRule (a b : Expr) : Option Rule :=
  match a, b with
  | literal la, literal lb =>
    if la.type = lb.type && la.type.isInteger then (foldDiv la lb).map .fold else identityDiv a b
  | _, _ => identityDiv a b

/-- `true && b = b`, `false && b = false`, `a && true = a` and `a && false = false`. -/
def andRule (a b : Expr) : Option Rule :=
  match a, b with
  | literal l, _ => do some (.keep (if ← l.getBool then b else a))
  | _, literal l => do some (.keep (if ← l.getBool then a else b))
  | _, _ => some .rebuild

/-- `true || b = true`, `false || b = b`, `a || true = true` and `a || false = a`. -/
def orRule (a b : Expr) : Option Rule :=
  match a, b with
  | literal l, _ => do some (.keep (if ← l.getBool then a else b))
  | _, literal l => do some (.keep (if ← l.getBool then b else a))
  | _, _ => some .rebuild

/-- `(T)true = T(1)` and `(T)false = T(0)`. -/
def castRule (type : Datatype) : Expr → Rule
  | literal l => if l.type.isBool then .fold (.make type l.val) else .rebuild
  | _ => .rebuild

/-- The rules of a node over its rewritten operands. -/
def Expr.rule : Expr → List Expr → Option Rule
  | binary .add _ _, [a, b] => addRule a b
  | binary .sub _ _, [a, b] => subRule a b
  | binary .mul _ _, [a, b] => mulRule a b
  | binary .div _ _, [a, b] => divRule a b
  | and _ _, [a, b] => andRule a b
  | or _ _, [a, b] => orRule a b
  | cast _ t, [a] => some (castRule t a)
  | _, _ => some .rebuild

/-! ### Rewriting -/

/-- A rewritten expression, and whether it is another node than the original one. -/
structure Rewritten where
  expr : Expr
  isNew : Bool

/-- `visit` of a node, given its rewritten operands and the simplifier for new expressions. -/
def finish (simplify : Expr → Option Rewritten) (e : Expr) (rs : List Rewritten) : Option Rewritten := do
  let es := rs.map Rewritten.expr
  match ← e.rule es with
  | .fold l => some ⟨literal l, true⟩
  | .keep k => some ⟨k, true⟩
  | .negate k => some ⟨neg k, true⟩
  | .reassociate k => (simplify k).map fun r => ⟨r.expr, true⟩
  | .rebuild => if rs.any Rewritten.isNew then some ⟨e.make es, true⟩ else some ⟨e, false⟩

/-- Bottom-up rewriting, in which a variable may be replaced by another; `fuel` bounds the recursion. -/
def rewrite : ℕ → (Var → Option Var) → Expr → Option Rewritten
  | 0, _, _ => none
  | _ + 1, sub, var v => some (match sub v with | some a => ⟨var a, true⟩ | none => ⟨var v, false⟩)
  | fuel + 1, sub, e => do
    let rs ← e.operands.mapM (rewrite fuel sub)
    finish (rewrite fuel fun _ => none) e rs

/-- The simplifier with replacements; each recursion is on a smaller expression. -/
def simplifyWith (sub : Var → Option Var) (e : Expr) : Option Rewritten := rewrite e.size sub e

/-- `ir::simplify` on expressions. -/
def simplify (e : Expr) : Option Expr := (simplifyWith (fun _ => none) e).map Rewritten.expr

end IR
end Taco
