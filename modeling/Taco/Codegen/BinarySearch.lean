import Taco.Library.Bisection

/-! The binary searches that generated code calls. -/

namespace Taco
namespace Codegen

open Bisection (mid Part)

/-- The largest value of an `int`. -/
def intMax : ℕ := 2147483647

/-- What a search returns, and the positions that it reads. -/
structure Search where
  result : ℕ
  reads : List ℕ
  deriving DecidableEq

def Search.read (position : ℕ) (s : Search) : Search := { s with reads := position :: s.reads }

/-- The loop of a search, which returns `last` of the bounds where it does not find the target; a sum of bounds that is no
    `int` has no defined value. -/
def narrow (array : ℕ → ℤ) (target : ℤ) (last : ℕ → ℕ → ℕ) (lowerBound upperBound : ℕ) : Option Search :=
  if h : 1 < upperBound - lowerBound then
    if intMax < upperBound + lowerBound then none
    else
      have _ := Bisection.lt_mid h
      have _ := Bisection.mid_lt h
      let midValue := array (mid lowerBound upperBound)
      let found :=
        if midValue < target then narrow array target last (mid lowerBound upperBound) upperBound
        else if midValue > target then narrow array target last lowerBound (mid lowerBound upperBound)
        else some ⟨mid lowerBound upperBound, []⟩
      found.map (Search.read (mid lowerBound upperBound))
  else some ⟨last lowerBound upperBound, []⟩
termination_by upperBound - lowerBound
decreasing_by all_goals omega

/-- `taco_binarySearchAfter`. -/
def binarySearchAfter (array : ℕ → ℤ) (arrayStart arrayEnd : ℕ) (target : ℤ) : Option Search :=
  (if array arrayStart ≥ target then some ⟨arrayStart, []⟩
    else narrow array target (fun _ upperBound => upperBound) arrayStart arrayEnd).map (Search.read arrayStart)

/-- `taco_binarySearchBefore`. -/
def binarySearchBefore (array : ℕ → ℤ) (arrayStart arrayEnd : ℕ) (target : ℤ) : Option Search :=
  (if array arrayEnd ≤ target then some ⟨arrayEnd, []⟩
    else narrow array target (fun lowerBound _ => lowerBound) arrayStart arrayEnd).map (Search.read arrayEnd)

/-! ### What the searches find -/

/-- The search ends, reads positions of a kind, and returns a position of a kind. -/
def Finds (found : Option Search) (readable : ℕ → Prop) (right : ℕ → Prop) : Prop :=
  ∃ s, found = some s ∧ (∀ i ∈ s.reads, readable i) ∧ right s.result

section

variable (array : ℕ → ℤ) (arrayStart arrayEnd : ℕ) (target : ℤ)

/-- The least position whose element is not below the target, or the end. -/
def FindsAfter : Prop :=
  Finds (binarySearchAfter array arrayStart arrayEnd target) (fun i => arrayStart ≤ i ∧ i < arrayEnd)
    (IsLeast {p | arrayStart ≤ p ∧ p ≤ arrayEnd ∧ (p = arrayEnd ∨ array p ≥ target)})

/-- The greatest position whose element is not above the target. -/
def FindsBefore : Prop :=
  Finds (binarySearchBefore array arrayStart arrayEnd target) (fun i => arrayStart ≤ i ∧ i ≤ arrayEnd)
    (IsGreatest {p | arrayStart ≤ p ∧ p ≤ arrayEnd ∧ array p ≤ target})

/-- The elements from a position up to another one do not decrease. -/
def SortedUpTo (bound : ℕ) : Prop := ∀ i j, arrayStart ≤ i → i ≤ j → j < bound → array i ≤ array j

/-- Where halving the range reaches a part around all elements equal to the target, the sum of its bounds is an `int`, and
    if its middle is one of these elements it is the right one. -/
def SplitsWell (right : ℕ → Prop) : Prop :=
  ∀ a b, Part arrayStart arrayEnd a b → (a = arrayStart ∨ array a < target) → (b = arrayEnd ∨ target < array b) →
    1 < b - a → b + a ≤ intMax ∧ (array (mid a b) = target → right (mid a b))

end

end Codegen
end Taco
