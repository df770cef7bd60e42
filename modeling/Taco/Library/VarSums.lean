import Mathlib.Algebra.BigOperators.Group.List.Basic
import Mathlib.Algebra.BigOperators.Group.Finset.Sigma
import Mathlib.Algebra.BigOperators.Group.Finset.Basic
import Mathlib.Tactic

/-! Sums over variables, each of which takes the values below its dimension. -/

namespace Taco
namespace VarSums

variable {Var R : Type*} [DecidableEq Var] (dims : Var → ℕ)

section Monoid

variable [AddCommMonoid R] {f g : (Var → ℕ) → R} {vars vars' : List Var}

/-- The sum of what depends on an environment over the values of the variables. -/
def sumOver : List Var → ((Var → ℕ) → R) → (Var → ℕ) → R
  | [], f, env => f env
  | v :: vars, f, env => ∑ x ∈ Finset.range (dims v), sumOver vars f (Function.update env v x)

theorem sumOver_append (vars vars' : List Var) (env : Var → ℕ) :
    sumOver dims (vars ++ vars') f env = sumOver dims vars (sumOver dims vars' f) env := by
  induction vars generalizing env with
  | nil => rfl
  | cons v vars ih => exact Finset.sum_congr rfl fun x _ => ih _

/-- The order of the variables does not matter. -/
theorem sumOver_perm (h : vars.Perm vars') (env : Var → ℕ) : sumOver dims vars f env = sumOver dims vars' f env := by
  induction h generalizing env with
  | nil => rfl
  | cons v _ ih => exact Finset.sum_congr rfl fun x _ => ih _
  | swap u v vars =>
    by_cases huv : u = v
    · rw [huv]
    · simp only [sumOver]
      rw [Finset.sum_comm]
      refine Finset.sum_congr rfl fun x _ => Finset.sum_congr rfl fun y _ => ?_
      rw [Function.update_comm huv]
  | trans _ _ ih ih' => exact (ih env).trans (ih' env)

theorem sumOver_add (env : Var → ℕ) :
    sumOver dims vars (fun env => f env + g env) env = sumOver dims vars f env + sumOver dims vars g env := by
  induction vars generalizing env with
  | nil => rfl
  | cons v vars ih =>
    simp only [sumOver, ih]
    exact Finset.sum_add_distrib

theorem sumOver_zero (env : Var → ℕ) : sumOver dims vars (fun _ => (0 : R)) env = 0 := by
  induction vars generalizing env with
  | nil => rfl
  | cons v vars ih => exact Finset.sum_eq_zero fun x _ => ih _

/-- A sum of sums over the same variables. -/
theorem sumOver_sum {ι : Type*} (l : List ι) (h : ι → (Var → ℕ) → R) (env : Var → ℕ) :
    sumOver dims vars (fun env => (l.map fun i => h i env).sum) env = (l.map fun i => sumOver dims vars (h i) env).sum := by
  induction l with
  | nil => exact sumOver_zero dims env
  | cons i l ih =>
    simp only [List.map_cons, List.sum_cons]
    rw [sumOver_add, ih]

end Monoid

theorem sumOver_neg [AddCommGroup R] {f : (Var → ℕ) → R} {vars : List Var} (env : Var → ℕ) :
    sumOver dims vars (fun env => - f env) env = - sumOver dims vars f env := by
  induction vars generalizing env with
  | nil => rfl
  | cons v vars ih =>
    simp only [sumOver, ih]
    exact Finset.sum_neg_distrib _

end VarSums
end Taco
