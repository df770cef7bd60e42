import Mathlib.Analysis.SpecialFunctions.Arcosh
import Mathlib.Analysis.SpecialFunctions.Arsinh
import Mathlib.Analysis.SpecialFunctions.Artanh
import Mathlib.Analysis.SpecialFunctions.Log.Base
import Taco.IndexNotation.Datatype

/-! The intrinsic functions of index expressions: their values, and the sets of arguments that they declare
    to make the result zero. -/

namespace Taco
namespace IndexNotation

/-- What stops the rewriter: an assertion, or a case that is not there. -/
inductive Failure where
  | notSupportedYet
  | unsupportedType
  | wrongType
  | argTypes
  deriving DecidableEq

/-! ### Literals -/

/-- A literal node: a number and its type. -/
inductive Literal where
  | real (l : IR.Literal)
  | complex64 (re im : ℚ)
  | complex128 (re im : ℚ)

namespace Literal

def type : Literal → Datatype
  | real l => .real l.type
  | complex64 .. => .complex64
  | complex128 .. => .complex128

noncomputable def val : Literal → ℂ
  | real l => ((l.val : ℝ) : ℂ)
  | complex64 re im | complex128 re im => ⟨re, im⟩

/-- `equals` with the zero of the literal's own type. -/
def isZero : Literal → Bool
  | real l => l.val = 0
  | complex64 re im | complex128 re im => re = 0 ∧ im = 0

/-- `Literal::zero`. -/
def zero : Datatype → Except Failure Literal
  | .real t => if t.is128 then .error .unsupportedType else .ok (real (.make t 0))
  | .complex64 => .ok (complex64 0 0)
  | .complex128 => .ok (complex128 0 0)

theorem conv_val (l : Literal) : l.type.conv l.val = l.val := by
  cases l with
  | real l => exact Datatype.conv_real (convReal_of_conv l.conv_val)
  | complex64 re im | complex128 re im => rfl

theorem isZero_iff (l : Literal) : l.isZero = true ↔ l.val = 0 := by
  cases l with
  | real l => simp [isZero, val]
  | complex64 re im | complex128 re im => simp [isZero, val, Complex.ext_iff]

theorem zero_spec {t : Datatype} {l : Literal} (h : zero t = .ok l) : l.type = t ∧ l.val = 0 := by
  cases t with
  | real t =>
    rw [zero] at h
    split at h
    · cases h
    · cases h
      refine ⟨rfl, ?_⟩
      cases t <;> simp [val, IR.Literal.make, IR.Datatype.store, IR.Datatype.wrapBits_zero]
  | complex64 | complex128 =>
    cases h
    exact ⟨rfl, by simp [val, Complex.ext_iff]⟩

end Literal

/-! ### Arguments -/

/-- What an intrinsic function reads of an argument: its type, and the literal that it is. -/
structure Arg where
  type : Datatype
  literal : Option Literal

namespace Arg

/-- `isa<Literal>(arg) && to<Literal>(arg).getVal<T>()` with a test of the value; the type of the literal has
    to be `T`. -/
def test (arg : Arg) (t : IR.Datatype) (p : ℚ → Bool) : Except Failure Bool :=
  match arg.literal with
  | none => .ok false
  | some (.real l) => if l.type = t then .ok (p l.val) else .error .wrongType
  | some _ => .error .wrongType

/-- `equals(arg, Literal::zero(arg.getDataType()))`. -/
def equalsZero (arg : Arg) : Except Failure Bool := do
  let _ ← Literal.zero arg.type
  return arg.literal.any Literal.isZero

end Arg

/-! ### Intrinsic functions -/

inductive Intrinsic where
  | mod | abs | pow | square | cube | sqrt | cbrt | exp | log | log10
  | sin | cos | tan | asin | acos | atan | atan2 | sinh | cosh | tanh | asinh | acosh | atanh
  | gt | lt | gte | lte | eq | neq | max | min | heaviside | not
  deriving DecidableEq

namespace Intrinsic

/-- The type of the result of a function whose arguments have one type. -/
def sameType : List Datatype → Except Failure Datatype
  | [s, t] => if s = t then .ok s else .error .argTypes
  | _ => .error .argTypes

/-- `inferReturnType`. -/
def inferReturnType (f : Intrinsic) (argTypes : List Datatype) : Except Failure Datatype :=
  match f with
  | gt | lt | gte | lte | eq | neq | not => .ok (.real .bool)
  | mod | pow | atan2 | max | min | heaviside => sameType argTypes
  | _ =>
    match argTypes with
    | [t] => .ok t
    | _ => .error .argTypes

/-! ### Zero-preserving arguments -/

/-- `GtIntrinsic::zeroPreservingArgs`. -/
def gtArgs (a b : Arg) : Except Failure (List (List ℕ)) :=
  match b.type with
  | .real (.uint .w128) | .real (.int .w128) | .real .bool | .complex64 | .complex128 => .error .notSupportedYet
  | .real (.uint _) => .ok [[0]]
  | .real t => do
    if ← b.test t (0 ≤ ·) then return [[0]]
    else if ← a.test t (· ≤ 0) then return [[1]]
    else return [[0, 1]]

/-- `LtIntrinsic::zeroPreservingArgs`. -/
def ltArgs (a b : Arg) : Except Failure (List (List ℕ)) :=
  match b.type with
  | .real (.uint .w128) | .real (.int .w128) | .real .bool | .complex64 | .complex128 => .error .notSupportedYet
  | .real (.uint _) => .ok [[1]]
  | .real t => do
    if ← a.test t (0 ≤ ·) then return [[1]]
    else if ← b.test t (· ≤ 0) then return [[0]]
    else return [[0, 1]]

/-- `GteIntrinsic::zeroPreservingArgs`. -/
def gteArgs (a b : Arg) : Except Failure (List (List ℕ)) :=
  match b.type with
  | .real (.uint .w128) | .real (.int .w128) | .real .bool | .complex64 | .complex128 => .error .notSupportedYet
  | .real (.uint w) => do
    if ← b.test (.uint w) (0 < ·) then return [[0]]
    else return []
  | .real t => do
    if ← b.test t (0 < ·) then return [[0]]
    else if ← a.test t (· < 0) then return [[1]]
    else return []

/-- `LteIntrinsic::zeroPreservingArgs`. -/
def lteArgs (a b : Arg) : Except Failure (List (List ℕ)) :=
  match b.type with
  | .real (.uint .w128) | .real (.int .w128) | .real .bool | .complex64 | .complex128 => .error .notSupportedYet
  | .real (.uint w) => do
    if ← a.test (.uint w) (0 < ·) then return [[1]]
    else return []
  | .real t => do
    if ← a.test t (0 < ·) then return [[1]]
    else if ← b.test t (· < 0) then return [[0]]
    else return []

/-- `Atan2Intrinsic::zeroPreservingArgs`. -/
def atan2Args (b : Arg) : Except Failure (List (List ℕ)) :=
  match b.type with
  | .real .float32 => do if ← b.test .float32 (0 < ·) then return [[0]] else return [[0, 1]]
  | .real .float64 => do if ← b.test .float64 (0 < ·) then return [[0]] else return [[0, 1]]
  | _ => .error .notSupportedYet

/-- `zeroPreservingArgs` of `NeqIntrinsic`, `MaxIntrinsic` and `MinIntrinsic`. -/
def extremeArgs (a b : Arg) : Except Failure (List (List ℕ)) := do
  if ← a.equalsZero then return [[1]]
  else if ← b.equalsZero then return [[0]]
  else return [[0, 1]]

/-- `HeavisideIntrinsic::zeroPreservingArgs`. -/
def heavisideArgs (b : Arg) : Except Failure (List (List ℕ)) := do
  if ← b.equalsZero then return [[0]] else return []

/-- `zeroPreservingArgs`: sets of arguments that, if they are all zero, make the result zero. -/
def zeroPreservingArgs (f : Intrinsic) (args : List Arg) : Except Failure (List (List ℕ)) :=
  match f, args with
  | mod, _ => .ok [[0], [1]]
  | pow, _ | abs, _ | square, _ | cube, _ | sqrt, _ | cbrt, _ | sin, _ | tan, _ | asin, _ | atan, _ | sinh, _ | tanh, _
  | asinh, _ | atanh, _ => .ok [[0]]
  | exp, _ | log, _ | log10, _ | cos, _ | acos, _ | cosh, _ | acosh, _ | eq, _ | not, _ => .ok []
  | atan2, [_, b] => atan2Args b
  | gt, [a, b] => gtArgs a b
  | lt, [a, b] => ltArgs a b
  | gte, [a, b] => gteArgs a b
  | lte, [a, b] => lteArgs a b
  | neq, [a, b] | max, [a, b] | min, [a, b] => extremeArgs a b
  | heaviside, [_, b] => heavisideArgs b
  | _, _ => .error .argTypes

/-! ### Values -/

open Classical in
/-- The function of the C library for a float; there is no value outside of its domain. -/
noncomputable def onFloat : Intrinsic → ℝ → Option ℝ
  | sqrt, x => if 0 ≤ x then some (Real.sqrt x) else none
  | cbrt, x => some ((SignType.sign x : ℝ) * |x| ^ (1 / 3 : ℝ))
  | exp, x => some (Real.exp x)
  | log, x => if 0 < x then some (Real.log x) else none
  | log10, x => if 0 < x then some (Real.logb 10 x) else none
  | sin, x => some (Real.sin x)
  | cos, x => some (Real.cos x)
  | tan, x => if Real.cos x = 0 then none else some (Real.tan x)
  | asin, x => if |x| ≤ 1 then some (Real.arcsin x) else none
  | acos, x => if |x| ≤ 1 then some (Real.arccos x) else none
  | atan, x => some (Real.arctan x)
  | sinh, x => some (Real.sinh x)
  | cosh, x => some (Real.cosh x)
  | tanh, x => some (Real.tanh x)
  | asinh, x => some (Real.arsinh x)
  | acosh, x => if 1 ≤ x then some (Real.arcosh x) else none
  | atanh, x => if |x| < 1 then some (Real.artanh x) else none
  | _, _ => none

open Classical in
/-- The function of the C library for a complex number. -/
noncomputable def onComplex : Intrinsic → ℂ → Option ℂ
  | sqrt, z => some (z ^ (1 / 2 : ℂ))
  | exp, z => some (Complex.exp z)
  | log, z => if z = 0 then none else some (Complex.log z)
  | sin, z => some (Complex.sin z)
  | cos, z => some (Complex.cos z)
  | tan, z => if Complex.cos z = 0 then none else some (Complex.tan z)
  | asin, z => some (-Complex.I * Complex.log (Complex.I * z + (1 - z ^ 2) ^ (1 / 2 : ℂ)))
  | acos, z => some (Real.pi / 2 + Complex.I * Complex.log (Complex.I * z + (1 - z ^ 2) ^ (1 / 2 : ℂ)))
  | atan, z => if z ^ 2 = -1 then none else some (Complex.arctan z)
  | sinh, z => some (Complex.sinh z)
  | cosh, z => some (Complex.cosh z)
  | tanh, z => if Complex.cosh z = 0 then none else some (Complex.tanh z)
  | asinh, z => some (Complex.log (z + (z ^ 2 + 1) ^ (1 / 2 : ℂ)))
  | acosh, z => some (Complex.log (z + (z + 1) ^ (1 / 2 : ℂ) * (z - 1) ^ (1 / 2 : ℂ)))
  | atanh, z => if z ^ 2 = 1 then none else some (Complex.log ((1 + z) / (1 - z)) / 2)
  | _, _ => none

open Classical in
/-- A function of one argument. -/
noncomputable def unary (f : Intrinsic) (t : Datatype) (z : ℂ) : Option ℂ :=
  match f, t with
  | abs, .real t => if t.isBool || t.is128 then none else some ((|z.re| : ℝ) : ℂ)
  | abs, .complex64 | abs, .complex128 => some ‖z‖
  | square, _ => some (z * z)
  | cube, _ => some (z * z * z)
  | not, _ => some (if z = 0 then 1 else 0)
  | f, .real t => if t.isFloat then (f.onFloat z.re).map Complex.ofReal else none
  | f, .complex64 | f, .complex128 => f.onComplex z

open Classical in
/-- A comparison, whose operands are brought to their common type. -/
noncomputable def compare (f : Intrinsic) (s t : IR.Datatype) (x y : ℝ) : Option ℂ :=
  let x := convReal (common s t) x
  let y := convReal (common s t) y
  match f with
  | gt => some (if x > y then 1 else 0)
  | lt => some (if x < y then 1 else 0)
  | gte => some (if x ≥ y then 1 else 0)
  | lte => some (if x ≤ y then 1 else 0)
  | eq => some (if x = y then 1 else 0)
  | neq => some (if x ≠ y then 1 else 0)
  | _ => none

open Classical in
/-- `pow`: a power of zero has a value for no negative exponent, one of a negative number for an integer only. -/
noncomputable def power (x y : ℝ) : Option ℝ :=
  if x = 0 ∧ y < 0 ∨ x < 0 ∧ y ≠ truncate y then none else some (x ^ y)

open Classical in
/-- A function of two arguments of one real type. -/
@[grind =]
noncomputable def paired (f : Intrinsic) (t : IR.Datatype) (x y : ℝ) : Option ℝ :=
  match f with
  | mod => if t.isBool || t.is128 || y = 0 then none else some (x - y * truncate (x / y))
  | pow => if t.isFloat then power x y else none
  | atan2 => if t.isFloat then some (Complex.arg ⟨y, x⟩) else none
  | max => some (x ⊔ y)
  | min => some (x ⊓ y)
  | heaviside => some (if x = 0 then y else if 0 < x then 1 else 0)
  | _ => none

open Classical in
/-- A function of two arguments; those that are not comparisons have arguments of one type. -/
@[grind =]
noncomputable def binary (f : Intrinsic) (s t : Datatype) (x y : ℂ) : Option ℂ :=
  match f, s, t with
  | gt, .real s, .real t | lt, .real s, .real t | gte, .real s, .real t | lte, .real s, .real t
  | eq, .real s, .real t | neq, .real s, .real t => f.compare s t x.re y.re
  | eq, _, _ => some (if x = y then 1 else 0)
  | neq, _, _ => some (if x ≠ y then 1 else 0)
  | f, .real s, .real t => if s = t then (f.paired s x.re y.re).map Complex.ofReal else none
  | pow, s, t => if s ≠ t ∨ x = 0 ∧ y ≠ 0 ∧ y.re ≤ 0 then none else some (x ^ y)
  | _, _, _ => none

/-- The value of a call, if it has one. -/
noncomputable def apply (f : Intrinsic) : List (Datatype × ℂ) → Option ℂ
  | [(t, z)] => f.unary t z
  | [(s, x), (t, y)] => f.binary s t x y
  | _ => none

end Intrinsic

end IndexNotation
end Taco
