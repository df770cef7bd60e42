import Taco.Scheduling.GuardedNest

/-! Fused loops: the range that the fused variable takes from its parents, and the values that the parents are
    recovered to. -/

namespace Taco
namespace Scheduling
open Expr

structure FuseRelNode where
  outerParentVar : IndexVar
  innerParentVar : IndexVar
  fusedVar : IndexVar
  parents_ne : outerParentVar ≠ innerParentVar

namespace FuseRelNode

/-- For `i` in `[a, b)` and `j` in `[c, d)`, the range `[a * (d - c) + c, b * (d - c) + c)`. -/
def combineParentBounds (outerParentBound innerParentBound : Bounds) : Bounds :=
  let innerSize := sub innerParentBound.2 innerParentBound.1
  (add (mul outerParentBound.1 innerSize) innerParentBound.1, add (mul outerParentBound.2 innerSize) innerParentBound.1)

variable (rel : FuseRelNode)

/-- The quotient or the remainder by the size of the inner parent's range. Where the fused variable is replaced by a
    position and the inner parent is a coordinate, the fused variable is the inner parent. -/
def recoverVariable (indexVar : IndexVar) (variableNames : IndexVar → Expr) (innerParentBound : Bounds)
    (coordOfPos : Bool) : Expr :=
  let innerSize := sub innerParentBound.2 innerParentBound.1
  if indexVar = rel.outerParentVar then div (variableNames rel.fusedVar) innerSize
  else if coordOfPos then variableNames rel.fusedVar
  else rem (variableNames rel.fusedVar) innerSize

/-- The pairs of parents recovered in the loop over the fused variable. -/
def visits (outerParentBound innerParentBound : Bounds) (env : Env) : List (ℕ × ℕ) :=
  (Bounds.values (combineParentBounds outerParentBound innerParentBound) env).map fun x =>
    let variableNames := Function.update var rel.fusedVar (literal x)
    ((rel.recoverVariable rel.outerParentVar variableNames innerParentBound false).eval env,
      (rel.recoverVariable rel.innerParentVar variableNames innerParentBound false).eval env)

end FuseRelNode

/-- Quotient and remainder of the numbers from `a * S` run through the rows of length `S`. -/
theorem map_divMod_range' {S : ℕ} (hS : 0 < S) (a : ℕ) :
    ∀ m : ℕ, (List.range' (a * S) (m * S)).map (fun x => (x / S, x % S)) = pairs a (a + m) 0 S
  | 0 => by rw [Nat.zero_mul, Nat.add_zero, pairs_of_le (.inl (Nat.le_refl a))]; rfl
  | m + 1 => by
    have hrow : (List.range' ((a + m) * S) S).map (fun x => (x / S, x % S)) =
        (List.range' 0 S).map fun j => (a + m, j) := by
      have hshift : List.range' ((a + m) * S) S = (List.range' 0 S).map ((a + m) * S + ·) := by
        rw [List.map_add_range', Nat.add_zero]
      rw [hshift, List.map_map]
      refine List.map_congr_left fun j hj => Prod.ext ?_ ?_
      · have hj : j < S := by simpa using hj
        show ((a + m) * S + j) / S = a + m
        rw [Nat.mul_comm, Nat.mul_add_div hS, Nat.div_eq_of_lt hj, Nat.add_zero]
      · have hj : j < S := by simpa using hj
        show ((a + m) * S + j) % S = j
        rw [Nat.mul_add_mod_self_right, Nat.mod_eq_of_lt hj]
    have hsplit : List.range' (a * S) ((m + 1) * S) = List.range' (a * S) (m * S) ++ List.range' ((a + m) * S) S := by
      rw [Nat.add_mul m 1, Nat.one_mul, ← List.range'_append_1, ← Nat.add_mul]
    rw [hsplit, List.map_append, map_divMod_range' hS a m, hrow]
    have hrows : a + (m + 1) - a = m + 1 := by omega
    have hrows' : a + m - a = m := by omega
    rw [pairs, pairs, hrows, hrows', List.range'_concat, List.flatMap_append, List.flatMap_singleton, Nat.one_mul,
      Nat.sub_zero]

namespace FuseRelNode

variable (rel : FuseRelNode) (outerParentBound innerParentBound : Bounds) (env : Env)

/-- The fused loop in terms of the two ranges. -/
theorem visits_eq {a b c d : ℕ} (ha : outerParentBound.1.eval env = a) (hb : outerParentBound.2.eval env = b)
    (hc : innerParentBound.1.eval env = c) (hd : innerParentBound.2.eval env = d) :
    rel.visits outerParentBound innerParentBound env =
      (List.range' (a * (d - c) + c) ((b - a) * (d - c))).map fun x => (x / (d - c), x % (d - c)) := by
  have hlen : b * (d - c) + c - (a * (d - c) + c) = (b - a) * (d - c) := by
    rw [Nat.add_sub_add_right, Nat.sub_mul]
  simp [visits, combineParentBounds, recoverVariable, Bounds.values, rel.parents_ne.symm, ha, hb, hc, hd, hlen]

/-- `fuse(i, j, f)` for the variables 0, 1 and 2. -/
def fuse012 : FuseRelNode := ⟨0, 1, 2, by decide⟩

end FuseRelNode

end Scheduling
end Taco
