import Mathlib.Analysis.SpecialFunctions.Complex.Arctan
import Taco.IR.Expr

/-! Data types of index expressions, and how a number becomes a value of a type. Floats are read as real
    numbers and complex types as complex numbers; an integer type holds the residue of its width. -/

namespace Taco
namespace IndexNotation

/-- The kinds of `Datatype`, without the undefined one. -/
inductive Datatype where
  | real (type : IR.Datatype)
  | complex64
  | complex128
  deriving DecidableEq

/-- C's conversion of a real number to an integer. -/
noncomputable def truncate (v : ℝ) : ℤ := if 0 ≤ v then ⌊v⌋ else ⌈v⌉

@[simp] theorem truncate_intCast (n : ℤ) : truncate (n : ℝ) = n := by
  simp [truncate]

@[simp] theorem truncate_zero : truncate 0 = 0 := by
  simp [truncate]

/-- Conversion of a real number to a type that is not complex. -/
noncomputable def convReal : IR.Datatype → ℝ → ℝ
  | .bool, v => if v = 0 then 0 else 1
  | .uint w, v => (IR.Datatype.wrapBits false w.bits (truncate v) : ℤ)
  | .int w, v => (IR.Datatype.wrapBits true w.bits (truncate v) : ℤ)
  | .float32, v | .float64, v => v

theorem convReal_zero (t : IR.Datatype) : convReal t 0 = 0 := by
  cases t <;> simp [convReal, IR.Datatype.wrapBits_zero]

theorem convReal_convReal (t : IR.Datatype) (v : ℝ) : convReal t (convReal t v) = convReal t v := by
  cases t with
  | bool => by_cases hv : v = 0 <;> simp [convReal, hv]
  | uint w | int w => simp only [convReal, truncate_intCast, IR.Datatype.wrapBits_wrapBits]
  | float32 | float64 => rfl

/-- A value that the IR's rationals hold is held by the reals. -/
theorem convReal_of_conv {t : IR.Datatype} {v : ℚ} (h : t.conv v = v) : convReal t v = v := by
  cases t with
  | bool =>
    rw [← h]
    by_cases hv : v = 0 <;> simp [convReal, IR.Datatype.conv, hv]
  | uint w | int w =>
    rw [IR.Datatype.conv] at h
    rw [← h, Rat.cast_intCast]
    simp only [convReal, truncate_intCast, IR.Datatype.wrapBits_wrapBits]
  | float32 | float64 => rfl

namespace Datatype

def isComplex : Datatype → Bool
  | real _ => false
  | complex64 | complex128 => true

/-- `max_type`. -/
def maxType : Datatype → Datatype → Datatype
  | real a, real b => real (IR.Datatype.maxType a b)
  | complex64, complex64 => complex64
  | complex128, _ | _, complex128 => complex128
  | real a, complex64 | complex64, real a => if a = .float64 then complex128 else complex64

@[simp] theorem maxType_self (t : Datatype) : maxType t t = t := by
  cases t <;> simp [maxType]

/-- Conversion of a number to a type. -/
noncomputable def conv : Datatype → ℂ → ℂ
  | real .bool, z => if z = 0 then 0 else 1
  | real t, z => (convReal t z.re : ℝ)
  | complex64, z | complex128, z => z

@[simp] theorem conv_zero (t : Datatype) : t.conv 0 = 0 := by
  cases t with
  | real t => cases t <;> simp [conv, convReal_zero]
  | complex64 | complex128 => rfl

@[simp] theorem conv_conv (t : Datatype) (z : ℂ) : t.conv (t.conv z) = t.conv z := by
  cases t with
  | real t =>
    cases t with
    | bool => by_cases hz : z = 0 <;> simp [conv, hz]
    | uint w | int w | float32 | float64 => simp only [conv, Complex.ofReal_re, convReal_convReal]
  | complex64 | complex128 => rfl

theorem conv_real {t : IR.Datatype} {v : ℝ} (h : convReal t v = v) : (real t).conv v = v := by
  cases t with
  | bool =>
    simp only [convReal] at h
    simp only [conv, Complex.ofReal_eq_zero]
    rw [← h]
    split <;> simp
  | uint w | int w | float32 | float64 => exact congrArg Complex.ofReal h

/-- A value of a real type is a real number. -/
theorem re_of_conv {t : IR.Datatype} {z : ℂ} (h : (real t).conv z = z) : (z.re : ℂ) = z := by
  cases t with
  | bool =>
    rw [← h]
    simp only [conv]
    split <;> simp
  | uint w | int w | float32 | float64 =>
    rw [← h]
    simp only [conv, Complex.ofReal_re]

theorem convReal_of_conv {t : IR.Datatype} {z : ℂ} (h : (real t).conv z = z) : convReal t z.re = z.re := by
  cases t with
  | bool =>
    simp only [conv] at h
    split at h <;> simp [convReal, ← h]
  | uint w | int w => exact congrArg Complex.re h
  | float32 | float64 => rfl

/-- Division: C truncates the quotient of integers. -/
noncomputable def quot (t : Datatype) (x y : ℂ) : ℂ :=
  match t with
  | real t => if t.isFloat then x / y else (truncate (x / y).re : ℤ)
  | complex64 | complex128 => x / y

theorem quot_zero (t : Datatype) (y : ℂ) : t.quot 0 y = 0 := by
  cases t with
  | real t => cases h : t.isFloat <;> simp [quot, h]
  | complex64 | complex128 => simp [quot]

end Datatype

theorem nonneg_of_uint {w : IR.Width} {v : ℝ} (h : convReal (.uint w) v = v) : 0 ≤ v := by
  rw [← h, convReal]
  exact_mod_cast Int.emod_nonneg _ (by positivity)

/-! ### Common types -/

/-- The integer type of which C's integer promotions make a type. -/
def promote : IR.Datatype → IR.Datatype
  | .bool => .int .w32
  | .uint w => if w.bits < 32 then .int .w32 else .uint w
  | .int w => if w.bits < 32 then .int .w32 else .int w
  | t => t

/-- The type to which C's usual arithmetic conversions bring two operands. -/
def common (s t : IR.Datatype) : IR.Datatype :=
  if s = .float64 || t = .float64 then .float64
  else if s.isFloat || t.isFloat then .float32
  else match promote s, promote t with
    | .int a, .int b => .int (if a.bits < b.bits then b else a)
    | .uint a, .uint b => .uint (if a.bits < b.bits then b else a)
    | .uint a, .int b | .int b, .uint a => if a.bits < b.bits then .int b else .uint a
    | p, _ => p

/-- The bits that hold the value of a number that is not negative. -/
def valueBits : IR.Datatype → ℕ
  | .bool => 1
  | .uint w => w.bits
  | .int w => w.bits - 1
  | .float32 | .float64 => 0

theorem wrapBits_of_lt {signed : Bool} {m n : ℕ} {v : ℤ} (hv : 0 ≤ v) (hlt : v < 2 ^ m)
    (hle : m + signed.toNat ≤ n) : IR.Datatype.wrapBits signed n v = v := by
  cases signed with
  | false =>
    have hpow : (2 : ℤ) ^ m ≤ 2 ^ n := pow_le_pow_right₀ (by norm_num) hle
    exact Int.emod_eq_of_lt hv (hlt.trans_le hpow)
  | true =>
    have hpow : (2 : ℤ) ^ (m + 1) ≤ 2 ^ n := pow_le_pow_right₀ (by norm_num) hle
    rw [pow_succ] at hpow
    simp only [IR.Datatype.wrapBits, ite_true]
    apply Int.bmod_eq_of_le_mul_two <;> rw [Nat.cast_pow, Nat.cast_ofNat] <;> omega

/-- A number of a type that is not a float is an integer, bounded by what the type can hold. -/
theorem exists_int_of_convReal {t : IR.Datatype} {v : ℝ} (ht : t.isFloat = false) (h : convReal t v = v) :
    ∃ n : ℤ, v = n ∧ n < 2 ^ valueBits t := by
  cases t with
  | bool =>
    by_cases hv : v = 0
    · exact ⟨0, by simp [hv], by norm_num [valueBits]⟩
    · simp only [convReal, hv, if_false] at h
      exact ⟨1, by simp [← h], by norm_num [valueBits]⟩
  | uint w => exact ⟨_, h.symm, Int.emod_lt_of_pos _ (by positivity)⟩
  | int w =>
    refine ⟨_, h.symm, ?_⟩
    have hlt := Int.bmod_lt (x := truncate v) (m := 2 ^ w.bits) (by positivity)
    have hpos : 0 < w.bits := by cases w <;> decide
    obtain ⟨n, hn⟩ : ∃ n, w.bits = n + 1 := ⟨w.bits - 1, by omega⟩
    simp only [IR.Datatype.wrapBits, ite_true, valueBits]
    rw [hn, Nat.cast_pow, Nat.cast_ofNat, pow_succ] at hlt
    rw [hn, Nat.add_sub_cancel, pow_succ]
    omega
  | float32 | float64 => cases ht

/-- The common type is a float or an integer type that is at least as wide. -/
theorem common_wide (s t : IR.Datatype) : (common s t).isFloat = true ∨
    t.isFloat = false ∧ (common s t).isInteger = true ∧ valueBits t ≤ valueBits (common s t) := by
  rcases s with _ | w | w | _ | _ <;> rcases t with _ | w' | w' | _ | _ <;>
    first | decide | (cases w <;> first | decide | (cases w' <;> decide)) | (cases w' <;> decide)

/-- The common type of two types holds what either holds, if it is not negative. -/
theorem convReal_common_of_nonneg (s : IR.Datatype) {t : IR.Datatype} {v : ℝ} (hv : 0 ≤ v) (h : convReal t v = v) :
    convReal (common s t) v = v := by
  rcases common_wide s t with hu | ⟨ht, hu, hle⟩
  · cases hc : common s t <;> rw [hc] at hu <;> first | rfl | cases hu
  · obtain ⟨n, rfl, hlt⟩ := exists_int_of_convReal ht h
    have hn : 0 ≤ n := by exact_mod_cast hv
    cases hc : common s t with
    | uint w =>
      rw [hc] at hle
      rw [convReal, truncate_intCast, wrapBits_of_lt hn hlt hle]
    | int w =>
      rw [hc] at hle
      have hpos : 0 < w.bits := by cases w <;> decide
      have hle' : valueBits t ≤ w.bits - 1 := hle
      rw [convReal, truncate_intCast, wrapBits_of_lt hn hlt (by rw [Bool.toNat_true]; omega)]
    | bool | float32 | float64 =>
      rw [hc] at hu
      cases hu

theorem convReal_common_self {t : IR.Datatype} {v : ℝ} (h : convReal t v = v) : convReal (common t t) v = v := by
  cases t with
  | float32 | float64 => rfl
  | bool =>
    have hv : 0 ≤ v := by
      rw [← h, convReal]
      split <;> norm_num
    exact convReal_common_of_nonneg _ hv h
  | uint w => exact convReal_common_of_nonneg _ (nonneg_of_uint h) h
  | int w =>
    obtain ⟨u, hu, hle⟩ : ∃ u : IR.Width, common (.int w) (.int w) = .int u ∧ w.bits ≤ u.bits := by
      cases w <;> exact ⟨_, rfl, by decide⟩
    rw [← h, hu]
    simp only [convReal, truncate_intCast, IR.Datatype.wrapBits_of_le true hle]

end IndexNotation
end Taco
