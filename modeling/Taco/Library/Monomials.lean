import Mathlib.Tactic

/-! Sums of products of two variables each, collected at places. -/

namespace Taco
namespace Monomials

variable {P X : Type} [DecidableEq P] [DecidableEq X]

/-- The product of the two variables of a monomial. -/
def value (x : X → ℚ) (m : Sym2 X) : ℚ := (m.map x).mul

omit [DecidableEq X] in
@[simp] theorem value_mk (x : X → ℚ) (u v : X) : value x s(u, v) = x u * x v := rfl

/-- The sum of the monomials at a place. -/
def sumAt (x : X → ℚ) (l : List (P × Sym2 X)) (p : P) : ℚ := ((l.filter fun t => t.1 = p).map fun t => value x t.2).sum

omit [DecidableEq X] in
theorem sumAt_perm {x : X → ℚ} {l l' : List (P × Sym2 X)} (h : l.Perm l') (p : P) : sumAt x l p = sumAt x l' p :=
  ((h.filter _).map _).sum_eq

omit [DecidableEq X] in
theorem sumAt_cons (x : X → ℚ) (t : P × Sym2 X) (l : List (P × Sym2 X)) (p : P) :
    sumAt x (t :: l) p = (if t.1 = p then value x t.2 else 0) + sumAt x l p := by
  by_cases h : t.1 = p <;> simp [sumAt, h]

omit [DecidableEq X] in
theorem sumAt_eq_sum_map (x : X → ℚ) (l : List (P × Sym2 X)) (p : P) :
    sumAt x l p = (l.map fun t => if t.1 = p then value x t.2 else 0).sum := by
  induction l with
  | nil => rfl
  | cons t l ih => rw [sumAt_cons, ih, List.map_cons, List.sum_cons]

/-! ### Counting monomials -/

/-- The variables of a set are one, the others zero. -/
def indicator (s : List X) (y : X) : ℚ := if y ∈ s then 1 else 0

/-- Both variables of the monomial are in the set. -/
def within (s : List X) (m : Sym2 X) : Bool :=
  Sym2.lift ⟨fun u v => decide (u ∈ s) && decide (v ∈ s), fun _ _ => Bool.and_comm _ _⟩ m

@[simp] theorem within_mk (s : List X) (u v : X) : within s s(u, v) = (decide (u ∈ s) && decide (v ∈ s)) := rfl

theorem value_indicator (s : List X) (m : Sym2 X) : value (indicator s) m = if within s m then 1 else 0 := by
  induction m using Sym2.ind with
  | h u v =>
    rw [value_mk, indicator, indicator, within_mk]
    by_cases hu : u ∈ s <;> by_cases hv : v ∈ s <;> simp [hu, hv]

/-- The monomials in some variables are counted where these are one. -/
theorem sumAt_indicator (s : List X) (l : List (P × Sym2 X)) (p : P) :
    sumAt (indicator s) l p = (l.countP fun t => decide (t.1 = p) && within s t.2 : ℕ) := by
  induction l with
  | nil => rfl
  | cons t l ih =>
    rw [sumAt_cons, ih, value_indicator, List.countP_cons]
    by_cases hp : t.1 = p <;> cases hs : within s t.2 <;> simp [hp, add_comm]

theorem countP_square (l : List (P × Sym2 X)) (p : P) (u : X) :
    (l.countP fun t => decide (t.1 = p) && within [u] t.2) = l.count (p, s(u, u)) := by
  refine List.countP_congr fun t _ => ?_
  obtain ⟨q, m⟩ := t
  induction m using Sym2.ind with
  | h a b => simp [Prod.ext_iff]

theorem countP_mixed (l : List (P × Sym2 X)) (p : P) {u v : X} (huv : u ≠ v) :
    (l.countP fun t => decide (t.1 = p) && within [u, v] t.2) =
      l.count (p, s(u, u)) + l.count (p, s(v, v)) + l.count (p, s(u, v)) := by
  induction l with
  | nil => rfl
  | cons t l ih =>
    rw [List.countP_cons, List.count_cons, List.count_cons, List.count_cons, ih]
    obtain ⟨q, m⟩ := t
    induction m using Sym2.ind with
    | h a b =>
      by_cases hq : q = p
      · by_cases hau : a = u <;> by_cases hbu : b = u <;> by_cases hav : a = v <;> by_cases hbv : b = v <;>
          simp_all <;> omega
      · simp [hq]

/-- Sums that agree for all values of the variables have the same monomials. -/
theorem perm_of_sumAt_eq {l l' : List (P × Sym2 X)} (h : ∀ x p, sumAt x l p = sumAt x l' p) : l.Perm l' := by
  have hcount : ∀ (s : List X) (p : P), (l.countP fun t => decide (t.1 = p) && within s t.2) =
      l'.countP fun t => decide (t.1 = p) && within s t.2 := by
    intro s p
    have heq := h (indicator s) p
    rw [sumAt_indicator, sumAt_indicator] at heq
    exact_mod_cast heq
  refine List.perm_iff_count.mpr fun t => ?_
  obtain ⟨p, m⟩ := t
  induction m using Sym2.ind with
  | h u v =>
    have hu := hcount [u] p
    have hv := hcount [v] p
    rw [countP_square, countP_square] at hu hv
    by_cases huv : u = v
    · rw [← huv, hu]
    · have hboth := hcount [u, v] p
      rw [countP_mixed l p huv, countP_mixed l' p huv] at hboth
      omega

end Monomials
end Taco
