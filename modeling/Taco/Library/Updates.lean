import Mathlib.Tactic

/-! A location that is repeatedly set and added to, in any order. Its final content is what the last set
    left there plus what was added afterwards, and so has a closed form under repetition. -/

namespace Taco
namespace Updates

variable {A : Type}

inductive Op (A : Type) where
  | set (a : A)
  | add (a : A)

/-- The value last set. -/
def lastSet : List (Op A) → Option A
  | [] => none
  | .set a :: ops => (lastSet ops).or (some a)
  | .add _ :: ops => lastSet ops

variable [AddCommMonoid A]

def Op.apply : Op A → A → A
  | set a, _ => a
  | add a, v => v + a

def applyAll (ops : List (Op A)) (v : A) : A := ops.foldl (fun v op => op.apply v) v

/-- What is added after the last set. -/
def total : List (Op A) → A
  | [] => 0
  | .set _ :: ops => total ops
  | .add a :: ops => if (lastSet ops).isSome then total ops else a + total ops

@[simp] theorem applyAll_nil (v : A) : applyAll [] v = v := rfl

@[simp] theorem applyAll_cons (op : Op A) (ops : List (Op A)) (v : A) :
    applyAll (op :: ops) v = applyAll ops (op.apply v) := rfl

theorem applyAll_append (ops ops' : List (Op A)) (v : A) :
    applyAll (ops ++ ops') v = applyAll ops' (applyAll ops v) := by
  rw [applyAll, List.foldl_append]
  rfl

theorem applyAll_eq (ops : List (Op A)) (v : A) : applyAll ops v = (lastSet ops).getD v + total ops := by
  induction ops generalizing v with
  | nil => simp [lastSet, total]
  | cons op ops ih =>
    rw [applyAll_cons, ih]
    cases op with
    | set a => cases h : lastSet ops <;> simp [Op.apply, lastSet, total, h]
    | add a =>
      cases h : lastSet ops with
      | none => simp [Op.apply, lastSet, total, h, add_assoc]
      | some b => simp [lastSet, total, h]

/-- How often the additions count when the operations are repeated `T` times. -/
def weight (ops : List (Op A)) (T : ℕ) : ℕ := if (lastSet ops).isSome then 1 else T

/-- The operations repeated at least once. -/
theorem iterate_applyAll (ops : List (Op A)) (v : A) {T : ℕ} (hT : 0 < T) :
    (applyAll ops)^[T] v = (lastSet ops).getD v + weight ops T • total ops := by
  induction T with
  | zero => cases hT
  | succ T ih =>
    rw [Function.iterate_succ_apply', applyAll_eq]
    cases h : lastSet ops with
    | some a => simp [weight, h]
    | none =>
      simp only [weight, h, Option.isSome_none, Option.getD_none, Bool.false_eq_true, if_false] at ih ⊢
      rcases Nat.eq_zero_or_pos T with rfl | hpos
      · simp
      · rw [ih hpos, add_assoc, succ_nsmul]

end Updates
end Taco
