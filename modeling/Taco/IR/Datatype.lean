import Mathlib.Tactic

/-! Datatypes of the IR, their promotion, and how a value is converted to a type. Values are rationals:
    floats are read as real numbers, an integer type holds the residue of its width, a boolean 0 or 1. -/

namespace Taco
namespace IR

/-- The number of bits of an integer type. -/
inductive Width where
  | w8 | w16 | w32 | w64 | w128
  deriving DecidableEq, Repr

def Width.bits : Width → ℕ
  | w8 => 8
  | w16 => 16
  | w32 => 32
  | w64 => 64
  | w128 => 128

/-- The kinds of `Datatype`, without the complex ones and the undefined one. -/
inductive Datatype where
  | bool
  | uint (width : Width)
  | int (width : Width)
  | float32
  | float64
  deriving DecidableEq, Repr

abbrev Val := ℚ

/-- C's conversion of a real number to an integer. -/
def trunc (v : Val) : ℤ := v.num.tdiv v.den

@[simp] theorem trunc_intCast (n : ℤ) : trunc (n : Val) = n := by
  simp [trunc]

@[simp] theorem trunc_zero : trunc 0 = 0 := trunc_intCast 0

@[simp] theorem trunc_one : trunc 1 = 1 := trunc_intCast 1

namespace Datatype

def isBool : Datatype → Bool
  | bool => true
  | _ => false

def isUInt : Datatype → Bool
  | uint _ => true
  | _ => false

def isInt : Datatype → Bool
  | int _ => true
  | _ => false

def isFloat : Datatype → Bool
  | float32 | float64 => true
  | _ => false

/-- `isInt() || isUInt()`. -/
def isInteger (t : Datatype) : Bool := t.isInt || t.isUInt

/-- A type whose literals `equalsScalar` and `getIntValue` do not support. -/
def is128 : Datatype → Bool
  | uint .w128 | int .w128 => true
  | _ => false

/-- `getNumBits`; a boolean has `sizeof(bool)` of them. -/
def getNumBits : Datatype → ℕ
  | bool => 1
  | uint w | int w => w.bits
  | float32 => 32
  | float64 => 64

/-- The width of the wider of two non-float types. -/
def maxWidth : Datatype → Datatype → Width
  | uint a, uint b | uint a, int b | int a, uint b | int a, int b => if a.bits > b.bits then a else b
  | uint a, _ | int a, _ => a
  | _, uint b | _, int b => b
  | _, _ => .w8

/-- `max_type`: equal types stay, floats win over integers, signed wins over unsigned at the wider width. -/
def maxType (a b : Datatype) : Datatype :=
  if a = b then a
  else if a.isFloat || b.isFloat then
    if a = float64 || b = float64 then float64 else float32
  else if a.isInt || b.isInt then int (maxWidth a b)
  else uint (maxWidth a b)

@[simp] theorem maxType_self (a : Datatype) : maxType a a = a := if_pos rfl

/-! ### Conversion -/

/-- The residue that an integer of `n` bits holds. -/
def wrapBits (signed : Bool) (n : ℕ) (v : ℤ) : ℤ := if signed then v.bmod (2 ^ n) else v % 2 ^ n

/-- Conversion of a value to a type. -/
def conv : Datatype → Val → Val
  | bool, v => if v = 0 then 0 else 1
  | uint w, v => (wrapBits false w.bits (trunc v) : ℤ)
  | int w, v => (wrapBits true w.bits (trunc v) : ℤ)
  | float32, v | float64, v => v

/-- The bits in which a literal stores its value: `uint128Value` and `int128Value` are `long long`s. -/
def storedBits (w : Width) : ℕ := min w.bits 64

theorem storedBits_le (w : Width) : storedBits w ≤ w.bits := Nat.min_le_left _ _

/-- Storing a value in a literal of the type. -/
def store : Datatype → Val → Val
  | bool, v => if v = 0 then 0 else 1
  | uint w, v => (wrapBits false (storedBits w) (trunc v) : ℤ)
  | int w, v => (wrapBits true (storedBits w) (trunc v) : ℤ)
  | float32, v | float64, v => v

/-- Division: C truncates the quotient of integers. -/
def quot (t : Datatype) (x y : Val) : Val :=
  if t.isFloat then x / y else (trunc (x / y) : ℤ)

/-! ### Residues -/

theorem wrapBits_modEq (signed : Bool) (n : ℕ) (v : ℤ) : wrapBits signed n v ≡ v [ZMOD 2 ^ n] := by
  cases signed
  · exact Int.mod_modEq v _
  · have h : v.bmod (2 ^ n) % ((2 ^ n : ℕ) : ℤ) = v % ((2 ^ n : ℕ) : ℤ) := Int.bmod_emod
    rw [Nat.cast_pow, Nat.cast_ofNat] at h
    exact h

theorem wrapBits_eq_iff {signed : Bool} {n : ℕ} {a b : ℤ} :
    wrapBits signed n a = wrapBits signed n b ↔ a ≡ b [ZMOD 2 ^ n] := by
  constructor
  · intro h
    have hab : wrapBits signed n a ≡ wrapBits signed n b [ZMOD 2 ^ n] := by rw [h]
    exact ((wrapBits_modEq signed n a).symm.trans hab).trans (wrapBits_modEq signed n b)
  · intro h
    cases signed
    · exact h
    · have h' : a % ((2 ^ n : ℕ) : ℤ) = b % ((2 ^ n : ℕ) : ℤ) := by
        rw [Nat.cast_pow, Nat.cast_ofNat]
        exact h
      simp only [wrapBits, ite_true, Int.bmod_def, h']

theorem wrapBits_wrapBits (signed : Bool) (n : ℕ) (v : ℤ) :
    wrapBits signed n (wrapBits signed n v) = wrapBits signed n v :=
  wrapBits_eq_iff.mpr (wrapBits_modEq signed n v)

/-- A residue of fewer bits is one of more bits. -/
theorem wrapBits_of_le {m n : ℕ} (signed : Bool) (h : m ≤ n) (v : ℤ) :
    wrapBits signed n (wrapBits signed m v) = wrapBits signed m v := by
  have hpow : (2 : ℤ) ^ m ≤ 2 ^ n := pow_le_pow_right₀ (by norm_num) h
  have hpos : (0 : ℤ) < 2 ^ m := by positivity
  cases signed
  · exact Int.emod_eq_of_lt (Int.emod_nonneg _ hpos.ne') ((Int.emod_lt_of_pos _ hpos).trans_le hpow)
  · have hpos' : 0 < (2 ^ m : ℕ) := by positivity
    have hlo := Int.le_bmod (x := v) hpos'
    have hhi := Int.bmod_lt (x := v) hpos'
    simp only [wrapBits, ite_true]
    rw [Nat.cast_pow, Nat.cast_ofNat] at hlo hhi
    apply Int.bmod_eq_of_le_mul_two <;> rw [Nat.cast_pow, Nat.cast_ofNat] <;> omega

theorem wrapBits_zero (signed : Bool) (n : ℕ) : wrapBits signed n 0 = 0 := by
  cases signed <;> simp [wrapBits]

theorem conv_integer {t : Datatype} (ht : t.isInteger = true) (v : Val) :
    t.conv v = (wrapBits t.isInt t.getNumBits (trunc v) : ℤ) := by
  cases t <;> first | rfl | cases ht

theorem conv_of_isFloat {t : Datatype} (ht : t.isFloat = true) (v : Val) : t.conv v = v := by
  cases t <;> first | rfl | cases ht

theorem conv_conv (t : Datatype) (v : Val) : t.conv (t.conv v) = t.conv v := by
  cases t with
  | bool =>
    simp only [conv]
    by_cases hv : v = 0 <;> simp [hv]
  | uint w => simp only [conv, trunc_intCast, wrapBits_wrapBits]
  | int w => simp only [conv, trunc_intCast, wrapBits_wrapBits]
  | float32 | float64 => rfl

@[simp] theorem conv_zero (t : Datatype) : t.conv 0 = 0 := by
  cases t <;> simp [conv, wrapBits_zero]

/-- What a literal can store is a value of its type. -/
theorem conv_of_store {t : Datatype} {v : Val} (h : t.store v = v) : t.conv v = v := by
  cases t with
  | bool => exact h
  | uint w =>
    rw [← h]
    simp only [conv, store, trunc_intCast]
    rw [wrapBits_of_le false (storedBits_le w)]
  | int w =>
    rw [← h]
    simp only [conv, store, trunc_intCast]
    rw [wrapBits_of_le true (storedBits_le w)]
  | float32 | float64 => rfl

theorem store_store (t : Datatype) (v : Val) : t.store (t.store v) = t.store v := by
  cases t with
  | bool =>
    simp only [store]
    by_cases hv : v = 0 <;> simp [hv]
  | uint w => simp only [store, trunc_intCast, wrapBits_wrapBits]
  | int w => simp only [store, trunc_intCast, wrapBits_wrapBits]
  | float32 | float64 => rfl

/-- Types of at most 64 bits store all their values. -/
theorem store_eq_conv {t : Datatype} (h : t.is128 = false) : t.store = t.conv := by
  funext v
  cases t with
  | bool | float32 | float64 => rfl
  | uint w | int w => cases w <;> first | rfl | cases h

/-- A value of an integer type is an integer. -/
theorem eq_trunc_of_conv {t : Datatype} (ht : t.isInteger = true) {v : Val} (h : t.conv v = v) : v = (trunc v : ℤ) := by
  rw [conv_integer ht] at h
  rw [← h, trunc_intCast]

theorem quot_one {t : Datatype} {v : Val} (h : t.conv v = v) : t.conv (t.quot v 1) = v := by
  rw [quot]
  split
  · rwa [div_one]
  · rw [div_one]
    cases t with
    | bool =>
      simp only [conv] at h ⊢
      by_cases hv : v = 0
      · simp [hv]
      · simp only [hv, if_false] at h
        simp [← h]
    | uint w | int w =>
      rw [← eq_trunc_of_conv rfl h]
      exact h
    | float32 | float64 => contradiction

end Datatype

end IR
end Taco
