import Taco.IndexNotation.Intrinsic

/-! Index expressions with all their operators, their values, and the rewriter that zeroes accesses. -/

namespace Taco
namespace IndexNotation

/-- An access: a node of its own, with the type of its tensor's components. -/
structure Access where
  node : ℕ
  type : Datatype
  deriving DecidableEq

inductive BinaryOp where
  | add | sub | mul | div
  deriving DecidableEq, Repr

/-- Index expressions; a reduction over an index variable has a binary operator. -/
inductive Expr where
  | access (a : Access)
  | literal (l : Literal)
  | neg (a : Expr)
  | sqrt (a : Expr)
  | binary (op : BinaryOp) (a b : Expr)
  | cast (a : Expr) (type : Datatype)
  | call (func : Intrinsic) (args : List Expr)
  | reduction (op : BinaryOp) (var : ℕ) (a : Expr)

namespace Expr

mutual

/-- The data type of a node. -/
@[grind =]
def type : Expr → Datatype
  | access a => a.type
  | literal l => l.type
  | neg a | sqrt a | reduction _ _ a => a.type
  | binary _ a b => a.type.maxType b.type
  | cast _ t => t
  | call f args => (f.inferReturnType (typeList args)).toOption.getD (.real .bool)

@[grind =]
def typeList : List Expr → List Datatype
  | [] => []
  | a :: as => a.type :: typeList as

end

/-- What an intrinsic function reads of the expression. -/
def arg : Expr → Arg
  | literal l => ⟨l.type, some l⟩
  | e => ⟨e.type, none⟩

/-- The operands of a node. -/
def operands : Expr → List Expr
  | access _ | literal _ => []
  | neg a | sqrt a | cast a _ | reduction _ _ a => [a]
  | binary _ a b => [a, b]
  | call _ args => args

/-- `s` occurs in `e`. -/
inductive Subexpr (s : Expr) : Expr → Prop
  | refl : Subexpr s s
  | operand {c e : Expr} : c ∈ e.operands → Subexpr s c → Subexpr s e

end Expr

/-! ### Values -/

/-- The dimensions of the index variables, which are not empty, and the values of the accesses at their
    coordinates. -/
structure Env where
  dimension : ℕ → ℕ
  dimension_pos : ∀ var, 0 < dimension var
  value : ℕ → (ℕ → ℕ) → ℂ

open Classical in
/-- The value of an operation whose operands have been converted to its type. -/
noncomputable def BinaryOp.apply (t : Datatype) (x y : ℂ) : BinaryOp → Option ℂ
  | add => some (t.conv (x + y))
  | sub => some (t.conv (x - y))
  | mul => some (t.conv (x * y))
  | div => if y = 0 then none else some (t.conv (t.quot x y))

open Classical in
/-- `sqrt`, which a negative number of a real type does not have. -/
noncomputable def squareRoot : Datatype → ℂ → Option ℂ
  | .real _, z => if z.re < 0 then none else some (Real.sqrt z.re)
  | .complex64, z | .complex128, z => Intrinsic.sqrt.onComplex z

namespace Expr

mutual

/-- The value of an expression at coordinates, if it has one. A reduction starts at zero and takes the
    coordinates of its variable in order. -/
@[grind =]
noncomputable def eval (env : Env) (coords : ℕ → ℕ) : Expr → Option ℂ
  | access a => some (a.type.conv (env.value a.node coords))
  | literal l => some l.val
  | neg a => (a.eval env coords).map fun x => a.type.conv (-x)
  | sqrt a => do return a.type.conv (← squareRoot a.type (← a.eval env coords))
  | binary op a b => do
    let x ← a.eval env coords
    let y ← b.eval env coords
    let t := a.type.maxType b.type
    op.apply t (t.conv x) (t.conv y)
  | cast a t => (a.eval env coords).map t.conv
  | call f args => do
    let t ← (f.inferReturnType (typeList args)).toOption
    return t.conv (← f.apply (← evalList env coords args))
  | reduction op var a =>
    (List.range (env.dimension var)).foldlM (fun acc i => do
      op.apply a.type acc (← a.eval env (Function.update coords var i))) 0

/-- The arguments of a call, with their types. -/
@[grind =]
noncomputable def evalList (env : Env) (coords : ℕ → ℕ) : List Expr → Option (List (Datatype × ℂ))
  | [] => some []
  | a :: as => do return (a.type, ← a.eval env coords) :: (← evalList env coords as)

end

/-! ### Zero -/

def visitUnaryOp (op : Expr → Expr) (a : Option Expr) : Option Expr := a.map op

def visitDisjunctionOp (op : BinaryOp) : Option Expr → Option Expr → Option Expr
  | none, none => none
  | none, some b => some b
  | some a, none => some a
  | some a, some b => some (binary op a b)

def visitConjunctionOp (op : BinaryOp) : Option Expr → Option Expr → Option Expr
  | some a, some b => some (binary op a b)
  | _, _ => none

def visitSub : Option Expr → Option Expr → Option Expr
  | none, none => none
  | none, some b => some (neg b)
  | some a, none => some a
  | some a, some b => some (binary .sub a b)

def visitBinary : BinaryOp → Option Expr → Option Expr → Option Expr
  | .add => visitDisjunctionOp .add
  | .sub => visitSub
  | .mul => visitConjunctionOp .mul
  | .div => visitConjunctionOp .div

/-- The indices of the arguments of which nothing is left. -/
def zeroArgs {α : Type*} (args : List (Option α)) : List ℕ :=
  (List.range args.length).filter fun i => (args[i]?.join).isNone

/-- `std::includes` of one of the declared sets. -/
def includesAny (sets : List (List ℕ)) (zeroed : List ℕ) : Bool :=
  sets.any fun set => set.all zeroed.contains

/-- An argument of which nothing is left is the zero of the argument's type. -/
def rewrittenArg (arg : Expr) (rewritten : Option Expr) : Except Failure Expr :=
  match rewritten with
  | some e => .ok e
  | none => do return literal (← Literal.zero arg.type)

/-- The call with rewritten arguments, unless a declared set of them is zero. The constructor of the call
    asserts the types of the arguments, as it did for the call that is rewritten. -/
def visitCall (f : Intrinsic) (args : List (Option Expr × Expr)) : Except Failure (Option Expr) := do
  let sets ← f.zeroPreservingArgs (args.map (·.2.arg))
  if includesAny sets (zeroArgs (args.map Prod.fst)) then return none
  else
    let _ ← f.inferReturnType (typeList (args.map Prod.snd))
    return some (call f (args.map Prod.snd))

mutual

/-- `zero`: the expression whose zeroed accesses are left out; nothing is left of one that is zero. -/
@[grind =]
def zero (zeroed : List ℕ) : Expr → Except Failure (Option Expr)
  | access a => .ok (if zeroed.contains a.node then none else some (access a))
  | literal l => .ok (some (literal l))
  | neg a => do return visitUnaryOp neg (← a.zero zeroed)
  | sqrt a => do return visitUnaryOp sqrt (← a.zero zeroed)
  | binary op a b => do return visitBinary op (← a.zero zeroed) (← b.zero zeroed)
  | cast a t => do return visitUnaryOp (cast · t) (← a.zero zeroed)
  | call f args => do visitCall f (← zeroList zeroed args)
  | reduction op var a => do return visitUnaryOp (reduction op var) (← a.zero zeroed)

/-- What is left of each argument, and the rewritten argument. -/
@[grind =]
def zeroList (zeroed : List ℕ) : List Expr → Except Failure (List (Option Expr × Expr))
  | [] => .ok []
  | a :: as => do
    let r ← a.zero zeroed
    let a' ← rewrittenArg a r
    return (r, a') :: (← zeroList zeroed as)

end

end Expr
end IndexNotation
end Taco
