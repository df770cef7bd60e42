import Taco.IR.Datatype

/-! Expressions of the IR, their datatypes and their values. -/

namespace Taco
namespace IR

/-! ### Literals -/

/-- A literal holds a value that its type can store. -/
structure Literal where
  type : Datatype
  val : Val
  stored : type.store val = val

namespace Literal

/-- `Literal::make`. -/
def make (type : Datatype) (val : Val) : Literal := ⟨type, type.store val, type.store_store val⟩

theorem conv_val (l : Literal) : l.type.conv l.val = l.val := Datatype.conv_of_store l.stored

/-- `equalsScalar`, which 128-bit literals do not support. -/
def equalsScalar (l : Literal) (scalar : Val) : Option Bool :=
  if l.type.is128 then none else some (l.val == scalar)

/-- `getValue<bool>`, which asserts that the literal is boolean. -/
def getBool (l : Literal) : Option Bool :=
  if l.type.isBool then some (l.val != 0) else none

/-- `(int) getAsIndex()`: the value passes through `size_t` and `int`. -/
def getAsInt (l : Literal) : ℤ := (trunc l.val % 2 ^ 64).bmod (2 ^ 32)

/-- The literal as one of the result type. -/
def convertTo (l : Literal) (resulttype : Datatype) : Literal :=
  if l.type = resulttype then l else make resulttype (l.getAsInt : ℤ)

end Literal

/-! ### Syntax -/

/-- A variable: a node of its own, with a type. -/
structure Var where
  id : ℕ
  type : Datatype
  deriving DecidableEq, Repr

/-- An array: a pointer variable or a property of a tensor, with the type of its elements. -/
structure ArrayVar where
  id : ℕ
  type : Datatype
  deriving DecidableEq, Repr

inductive BinaryOp where
  | add | sub | mul | div | rem
  deriving DecidableEq, Repr

inductive CompareOp where
  | eq | neq | gt | lt | gte | lte
  deriving DecidableEq, Repr

inductive Expr where
  | literal (l : Literal)
  | var (v : Var)
  | neg (a : Expr)
  | binary (op : BinaryOp) (a b : Expr)
  | min (operands : List Expr) (type : Datatype)
  | max (operands : List Expr) (type : Datatype)
  | compare (op : CompareOp) (a b : Expr)
  | and (a b : Expr)
  | or (a b : Expr)
  | cast (a : Expr) (type : Datatype)
  | load (arr : ArrayVar) (loc : Expr)

namespace Expr

/-- The datatype of a node; a binary operation has the maximum of its operands' types. -/
def type : Expr → Datatype
  | literal l => l.type
  | var v => v.type
  | neg a => a.type
  | binary _ a b => Datatype.maxType a.type b.type
  | min _ t | max _ t => t
  | compare .. | and .. | or .. => .bool
  | cast _ t => t
  | load arr _ => arr.type

mutual

/-- The number of nodes. -/
def size : Expr → ℕ
  | literal _ | var _ => 1
  | neg a | cast a _ | load _ a => a.size + 1
  | binary _ a b | compare _ a b | and a b | or a b => a.size + b.size + 1
  | min operands _ | max operands _ => sizeList operands + 1

def sizeList : List Expr → ℕ
  | [] => 0
  | e :: es => e.size + sizeList es

end

/-- The operands of a node, in the order in which a rewriter visits them. -/
def operands : Expr → List Expr
  | literal _ | var _ => []
  | neg a | cast a _ | load _ a => [a]
  | binary _ a b | compare _ a b | and a b | or a b => [a, b]
  | min es _ | max es _ => es

/-- The `make` of a node over rewritten operands; the type of a new min or max is that of its first
    operand. -/
def make : Expr → List Expr → Expr
  | neg _, [a] => neg a
  | cast _ t, [a] => cast a t
  | load arr _, [a] => load arr a
  | binary op _ _, [a, b] => binary op a b
  | compare op _ _, [a, b] => compare op a b
  | and _ _, [a, b] => and a b
  | or _ _, [a, b] => or a b
  | min _ _, a :: es => min (a :: es) a.type
  | max _ _, a :: es => max (a :: es) a.type
  | e, _ => e

theorem sizeList_eq_sum : ∀ es : List Expr, sizeList es = (es.map size).sum
  | [] => rfl
  | e :: es => by rw [sizeList, sizeList_eq_sum es, List.map_cons, List.sum_cons]

theorem size_eq (e : Expr) : e.size = (e.operands.map size).sum + 1 := by
  cases e <;> simp [size, operands, sizeList_eq_sum]

theorem size_pos (e : Expr) : 0 < e.size := by
  rw [size_eq]
  omega

/-- `s` occurs in `e`. -/
inductive Subexpr (s : Expr) : Expr → Prop
  | refl : Subexpr s s
  | operand {c e : Expr} : c ∈ e.operands → Subexpr s c → Subexpr s e

end Expr

/-! ### Values -/

/-- The values of the variables and of the elements of the arrays. -/
structure Memory where
  vars : Var → Val
  arrays : ArrayVar → ℤ → Val

def BinaryOp.apply (t : Datatype) (x y : Val) : BinaryOp → Option Val
  | add => some (t.conv (x + y))
  | sub => some (t.conv (x - y))
  | mul => some (t.conv (x * y))
  | div => if y = 0 then none else some (t.conv (t.quot x y))
  | rem => if y = 0 then none else some (t.conv (x - y * (trunc (x / y) : ℤ)))

def CompareOp.apply (x y : Val) : CompareOp → Bool
  | eq => x = y
  | neq => x ≠ y
  | gt => x > y
  | lt => x < y
  | gte => x ≥ y
  | lte => x ≤ y

/-- A truth value as a value of type `bool`. -/
def ofBool (b : Bool) : Val := if b then 1 else 0

/-- The values of min and max, whose operands are converted to the type of the node. -/
def pick (choose : Val → Val → Val) (t : Datatype) : List Val → Option Val
  | [] => none
  | v :: vs => some (vs.foldl (fun m x => choose m (t.conv x)) (t.conv v))

namespace Expr

mutual

/-- The value of an expression, if it has one: a division by zero has none, and the second operand of `&&`
    and `||` is evaluated on demand. -/
def eval (m : Memory) : Expr → Option Val
  | literal l => some l.val
  | var v => some (v.type.conv (m.vars v))
  | neg a => (a.eval m).map fun x => a.type.conv (-x)
  | binary op a b => do
    let x ← a.eval m
    let y ← b.eval m
    let t := Datatype.maxType a.type b.type
    op.apply t (t.conv x) (t.conv y)
  | min operands t => do pick Min.min t (← evalList m operands)
  | max operands t => do pick Max.max t (← evalList m operands)
  | compare op a b => do
    let x ← a.eval m
    let y ← b.eval m
    let t := Datatype.maxType a.type b.type
    some (ofBool (op.apply (t.conv x) (t.conv y)))
  | and a b => do
    if (← a.eval m) = 0 then some 0
    else some (ofBool ((← b.eval m) ≠ 0))
  | or a b => do
    if (← a.eval m) = 0 then some (ofBool ((← b.eval m) ≠ 0))
    else some 1
  | cast a t => (a.eval m).map t.conv
  | load arr loc => (loc.eval m).map fun x => arr.type.conv (m.arrays arr (trunc x))

def evalList (m : Memory) : List Expr → Option (List Val)
  | [] => some []
  | e :: es => do
    let v ← e.eval m
    let vs ← evalList m es
    some (v :: vs)

end

mutual

/-- The value of an expression depends only on the variables that occur in it, and on the arrays. -/
theorem eval_congr {m m' : Memory} (harr : m.arrays = m'.arrays) : ∀ {e : Expr},
    (∀ v, Subexpr (var v) e → m.vars v = m'.vars v) → e.eval m = e.eval m'
  | literal _, _ => rfl
  | var v, h => congrArg some (congrArg v.type.conv (h v .refl))
  | neg a, h | cast a _, h => by
    rw [eval, eval, eval_congr harr fun v hv => h v (.operand (List.mem_singleton_self a) hv)]
  | load arr a, h => by
    rw [eval, eval, eval_congr harr fun v hv => h v (.operand (List.mem_singleton_self a) hv), harr]
  | binary _ a b, h | compare _ a b, h | and a b, h | or a b, h => by
    rw [eval, eval, eval_congr harr fun v hv => h v (.operand List.mem_cons_self hv),
      eval_congr harr fun v hv => h v (.operand (List.mem_cons_of_mem _ (List.mem_singleton_self b)) hv)]
  | min es t, h | max es t, h => by
    have hes : evalList m es = evalList m' es := evalList_congr harr fun c hc v hv => h v (.operand hc hv)
    rw [eval, eval, hes]

theorem evalList_congr {m m' : Memory} (harr : m.arrays = m'.arrays) : ∀ {es : List Expr},
    (∀ c ∈ es, ∀ v, Subexpr (var v) c → m.vars v = m'.vars v) → evalList m es = evalList m' es
  | [], _ => rfl
  | e :: es, h => by
    rw [evalList, evalList, eval_congr harr (h e List.mem_cons_self),
      evalList_congr harr fun c hc => h c (List.mem_cons_of_mem e hc)]

end

end Expr
end IR
end Taco
