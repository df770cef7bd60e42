import Mathlib.Tactic

/-! `equalsTyped`: the comparison of the components of two tensors, in exact arithmetic. -/

namespace Taco
namespace Components

abbrev Coord := List ℤ

/-! ### Values -/

/-- The component types by how their values are compared. -/
inductive Domain where
  | real
  | complex
  deriving DecidableEq

abbrev Domain.Value : Domain → Type
  | real => ℚ
  | complex => ℚ × ℚ

def zero : (d : Domain) → d.Value
  | .real => (0 : ℚ)
  | .complex => ((0, 0) : ℚ × ℚ)

def isZero : {d : Domain} → d.Value → Bool
  | .real, a => decide ((a : ℚ) = 0)
  | .complex, a => decide ((a : ℚ × ℚ).1 = 0) && decide ((a : ℚ × ℚ).2 = 0)

/-- `10e-6`. -/
def tolerance : ℚ := 10 / 1000000

/-- The square of the magnitude. -/
def normSq : {d : Domain} → d.Value → ℚ
  | .real, a => (a : ℚ) * a
  | .complex, a => (a : ℚ × ℚ).1 * (a : ℚ × ℚ).1 + (a : ℚ × ℚ).2 * (a : ℚ × ℚ).2

def sub : {d : Domain} → d.Value → d.Value → d.Value
  | .real, a, b => (a : ℚ) - b
  | .complex, a, b => ((a : ℚ × ℚ).1 - (b : ℚ × ℚ).1, (a : ℚ × ℚ).2 - (b : ℚ × ℚ).2)

/-- `scalarEquals`: whether the magnitude of `(a - b) / a` is above the tolerance. The quotient by zero is infinite, or no
    number, which is not above it; the magnitude of a complex quotient is compared by its square. -/
def scalarEquals : {d : Domain} → d.Value → d.Value → Bool
  | .real, a, b =>
    if (a : ℚ) = 0 then decide ((b : ℚ) = 0)
    else if |((a : ℚ) - b) / a| > tolerance then false else true
  | .complex, a, b =>
    if isZero (d := .complex) a then isZero (d := .complex) b
    else if normSq (d := .complex) (sub (d := .complex) a b) / normSq (d := .complex) a > tolerance ^ 2 then false else true

/-- The difference is at most the tolerance times the magnitude of the first value. -/
def Within {d : Domain} (a b : d.Value) : Prop := normSq (sub a b) ≤ tolerance ^ 2 * normSq a

/-! ### The comparison -/

section Loops

variable {d : Domain}

/-- The first loop, which ends with what is left of the two iterations, or with the answer `false`. -/
def mergeLoop : List (Coord × d.Value) → List (Coord × d.Value) → Option (List (Coord × d.Value) × List (Coord × d.Value))
  | [], bs => some ([], bs)
  | as, [] => some (as, [])
  | (acoord, aval) :: as, (bcoord, bval) :: bs =>
    if acoord ≠ bcoord then
      if isZero aval then mergeLoop as ((bcoord, bval) :: bs)
      else if isZero bval then mergeLoop ((acoord, aval) :: as) bs
      else none
    else if !scalarEquals aval bval then none
    else mergeLoop as bs
termination_by as bs => as.length + bs.length

/-- The loops over what is left of one iteration. -/
def restIsZero (cs : List (Coord × d.Value)) : Bool := cs.all fun c => isZero c.2

/-- `equalsTyped`, on the components in the orders of the two iterations. -/
def equalsTyped (a b : List (Coord × d.Value)) : Bool :=
  match mergeLoop a b with
  | none => false
  | some (as, bs) => restIsZero as && restIsZero bs

/-- The value of a tensor at a coordinate. -/
def valueAt (cs : List (Coord × d.Value)) (c : Coord) : d.Value := (cs.lookup c).getD (zero d)

end Loops

/-! ### Values within the tolerance -/

variable {d : Domain}

theorem normSq_nonneg (a : d.Value) : 0 ≤ normSq a := by
  cases d with
  | real => exact mul_self_nonneg _
  | complex => exact add_nonneg (mul_self_nonneg _) (mul_self_nonneg _)

theorem normSq_eq_zero {a : d.Value} : normSq a = 0 ↔ a = zero d := by
  cases d with
  | real => exact mul_self_eq_zero
  | complex =>
    constructor
    · intro h
      have h' := (add_eq_zero_iff_of_nonneg (mul_self_nonneg _) (mul_self_nonneg _)).mp h
      exact Prod.ext (mul_self_eq_zero.mp h'.1) (mul_self_eq_zero.mp h'.2)
    · rintro rfl
      simp [normSq, zero]

theorem isZero_iff {a : d.Value} : isZero a = true ↔ a = zero d := by
  cases d with
  | real => exact decide_eq_true_iff
  | complex =>
    rw [isZero, Bool.and_eq_true, decide_eq_true_iff, decide_eq_true_iff]
    exact (Prod.ext_iff (x := a) (y := zero .complex)).symm

theorem sub_zero_right (a : d.Value) : sub a (zero d) = a := by
  cases d with
  | real => exact sub_zero (a : ℚ)
  | complex => exact Prod.ext (sub_zero _) (sub_zero _)

theorem normSq_zero_sub (b : d.Value) : normSq (sub (zero d) b) = normSq b := by
  cases d with
  | real =>
    simp only [normSq, sub, zero]
    ring
  | complex =>
    simp only [normSq, sub, zero]
    ring

theorem within_zero_left {b : d.Value} : Within (zero d) b ↔ b = zero d := by
  rw [Within, normSq_zero_sub, normSq_eq_zero.mpr rfl, mul_zero, ← normSq_eq_zero]
  exact ⟨fun h => h.antisymm (normSq_nonneg b), fun h => h.le⟩

theorem within_zero_right {a : d.Value} : Within a (zero d) ↔ a = zero d := by
  rw [Within, sub_zero_right, ← normSq_eq_zero]
  have hsmall : tolerance ^ 2 < 1 := by norm_num [tolerance]
  constructor
  · intro h
    by_contra hne
    have hpos : 0 < normSq a := lt_of_le_of_ne (normSq_nonneg a) (Ne.symm hne)
    nlinarith
  · intro h
    rw [h, mul_zero]

theorem scalarEquals_iff {a b : d.Value} : scalarEquals a b = true ↔ Within a b := by
  by_cases ha : a = zero d
  · subst ha
    rw [within_zero_left]
    cases d with
    | real => exact decide_eq_true_iff
    | complex => exact isZero_iff (d := .complex)
  · have hpos : 0 < normSq a := lt_of_le_of_ne (normSq_nonneg a) fun h => ha (normSq_eq_zero.mp h.symm)
    have hwithin : Within a b ↔ ¬ normSq (sub a b) / normSq a > tolerance ^ 2 := by
      rw [Within, gt_iff_lt, not_lt, div_le_iff₀ hpos]
    rw [hwithin]
    cases d with
    | real =>
      have hne : ¬ (a : ℚ) = 0 := ha
      have htol : (0 : ℚ) ≤ tolerance := by norm_num [tolerance]
      have hsq : normSq (d := .real) (sub (d := .real) a b) / normSq (d := .real) a = |((a : ℚ) - b) / a| ^ 2 := by
        rw [sq_abs, div_pow, sq, sq]
        rfl
      rw [hsq, gt_iff_lt, sq_lt_sq₀ htol (abs_nonneg _), scalarEquals, if_neg hne]
      split_ifs with h
      · exact iff_of_false id (not_not_intro h)
      · exact iff_of_true rfl h
    | complex =>
      have hne : ¬ isZero (d := .complex) a = true := fun h => ha (isZero_iff.mp h)
      rw [scalarEquals, if_neg hne]
      split_ifs with h
      · exact iff_of_false id (not_not_intro h)
      · exact iff_of_true rfl h

/-! ### The loops -/

section Merge

variable {as bs : List (Coord × d.Value)} {lt : Coord → Coord → Prop} {acoord bcoord c : Coord} {aval bval : d.Value}

theorem valueAt_cons : valueAt ((acoord, aval) :: as) c = if c = acoord then aval else valueAt as c := by
  unfold valueAt
  by_cases h : c = acoord
  · subst h
    rw [if_pos rfl, List.lookup_cons_self, Option.getD_some]
  · rw [if_neg h, List.lookup_cons, beq_false_of_ne h]

theorem valueAt_of_notMem (h : ∀ x ∈ as, x.1 ≠ c) : valueAt as c = zero d := by
  induction as with
  | nil => rfl
  | cons x as ih =>
    obtain ⟨acoord, aval⟩ := x
    rw [valueAt_cons, if_neg (Ne.symm (h _ List.mem_cons_self)), ih fun y hy => h y (List.mem_cons_of_mem _ hy)]

theorem restIsZero_iff (hnodup : (as.map Prod.fst).Nodup) : restIsZero as = true ↔ ∀ c, valueAt as c = zero d := by
  induction as with
  | nil => exact iff_of_true rfl fun _ => rfl
  | cons x as ih =>
    obtain ⟨acoord, aval⟩ := x
    obtain ⟨hnot, hnodup⟩ := List.nodup_cons.mp hnodup
    have habsent : valueAt as acoord = zero d :=
      valueAt_of_notMem fun y hy h => hnot (List.mem_map.mpr ⟨y, hy, h⟩)
    rw [restIsZero, List.all_cons, Bool.and_eq_true, ← restIsZero, ih hnodup, isZero_iff]
    constructor
    · rintro ⟨hval, hrest⟩ c
      rw [valueAt_cons]
      split_ifs
      · exact hval
      · exact hrest c
    · intro h
      refine ⟨by simpa [valueAt_cons] using h acoord, fun c => ?_⟩
      by_cases hc : c = acoord
      · rw [hc, habsent]
      · simpa [valueAt_cons, hc] using h c

/-- A component that is zero does not change the values. -/
theorem valueAt_cons_zero (habsent : ∀ x ∈ as, x.1 ≠ acoord) (hzero : aval = zero d) :
    valueAt ((acoord, aval) :: as) c = valueAt as c := by
  rw [valueAt_cons]
  split_ifs with h
  · rw [h, hzero, valueAt_of_notMem habsent]
  · rfl

theorem ne_of_sorted [IsStrictOrder Coord lt] (h : ((acoord, aval) :: as).Pairwise fun x y => lt x.1 y.1) :
    ∀ x ∈ as, x.1 ≠ acoord := by
  rintro x hx rfl
  exact irrefl_of lt _ ((List.pairwise_cons.mp h).1 x hx)

theorem nodup_of_sorted [IsStrictOrder Coord lt] (h : as.Pairwise fun x y => lt x.1 y.1) : (as.map Prod.fst).Nodup :=
  List.pairwise_map.mpr (h.imp fun hlt => by
    rintro heq
    exact irrefl_of lt _ (heq ▸ hlt))

/-- One of two different coordinates that the iterations have come to is no coordinate of the other one. -/
theorem exists_absent [IsStrictOrder Coord lt] (ha : ((acoord, aval) :: as).Pairwise fun x y => lt x.1 y.1)
    (hb : ((bcoord, bval) :: bs).Pairwise fun x y => lt x.1 y.1) (hne : acoord ≠ bcoord) :
    (∀ x ∈ (bcoord, bval) :: bs, x.1 ≠ acoord) ∨ ∀ x ∈ (acoord, aval) :: as, x.1 ≠ bcoord := by
  by_cases h : ∀ x ∈ (bcoord, bval) :: bs, x.1 ≠ acoord
  · exact Or.inl h
  · right
    simp only [not_forall, not_not] at h
    obtain ⟨y, hy, rfl⟩ := h
    have hlt : lt bcoord y.1 := by
      rcases List.mem_cons.mp hy with rfl | hy
      · exact absurd rfl hne
      · exact (List.pairwise_cons.mp hb).1 y hy
    intro x hx heq
    rcases List.mem_cons.mp hx with rfl | hx
    · exact hne heq
    · have hlt' : lt y.1 x.1 := (List.pairwise_cons.mp ha).1 x hx
      exact irrefl_of lt _ (trans_of lt hlt (heq ▸ hlt'))

/-- Two components that are not zero, at different coordinates, are found out at one of them. -/
theorem not_within_of_ne [IsStrictOrder Coord lt] (ha : ((acoord, aval) :: as).Pairwise fun x y => lt x.1 y.1)
    (hb : ((bcoord, bval) :: bs).Pairwise fun x y => lt x.1 y.1) (hne : acoord ≠ bcoord) (haval : aval ≠ zero d)
    (hbval : bval ≠ zero d) :
    ¬ ∀ c, Within (valueAt ((acoord, aval) :: as) c) (valueAt ((bcoord, bval) :: bs) c) := by
  intro h
  rcases exists_absent ha hb hne with habsent | habsent
  · have hat := h acoord
    rw [valueAt_cons, if_pos rfl, valueAt_of_notMem habsent, within_zero_right] at hat
    exact haval hat
  · have hat := h bcoord
    rw [valueAt_of_notMem habsent, valueAt_cons, if_pos rfl, within_zero_left] at hat
    exact hbval hat

/-- The invariant of the comparison: what is left of the two iterations decides the answer. -/
theorem equalsTyped_iff_within [IsStrictOrder Coord lt] (as bs : List (Coord × d.Value))
    (ha : as.Pairwise fun x y => lt x.1 y.1) (hb : bs.Pairwise fun x y => lt x.1 y.1) :
    equalsTyped as bs = true ↔ ∀ c, Within (valueAt as c) (valueAt bs c) := by
  have hend : ∀ as bs : List (Coord × d.Value), as.Pairwise (fun x y => lt x.1 y.1) → bs.Pairwise (fun x y => lt x.1 y.1) →
      (as = [] ∨ bs = []) →
      ((restIsZero as && restIsZero bs) = true ↔ ∀ c, Within (valueAt as c) (valueAt bs c)) := by
    rintro as bs ha hb (rfl | rfl)
    · rw [Bool.and_eq_true, restIsZero_iff (nodup_of_sorted hb)]
      exact (and_iff_right rfl).trans (forall_congr' fun c => within_zero_left.symm)
    · rw [Bool.and_eq_true, restIsZero_iff (nodup_of_sorted ha)]
      exact (and_iff_left rfl).trans (forall_congr' fun c => within_zero_right.symm)
  induction as, bs using mergeLoop.induct with
  | case1 bs =>
    rw [equalsTyped, mergeLoop]
    exact hend [] bs ha hb (Or.inl rfl)
  | case2 as hne =>
    rw [equalsTyped, mergeLoop]
    · exact hend as [] ha hb (Or.inr rfl)
    · exact hne
  | case3 acoord aval as bcoord bval bs hne hzero ih =>
    rw [equalsTyped, mergeLoop, if_pos hne, if_pos hzero]
    refine (ih ha.of_cons hb).trans (forall_congr' fun c => ?_)
    rw [valueAt_cons_zero (ne_of_sorted ha) (isZero_iff.mp hzero)]
  | case4 acoord aval as bcoord bval bs hne hnot hzero ih =>
    rw [equalsTyped, mergeLoop, if_pos hne, if_neg hnot, if_pos hzero]
    refine (ih ha hb.of_cons).trans (forall_congr' fun c => ?_)
    rw [valueAt_cons_zero (ne_of_sorted hb) (isZero_iff.mp hzero)]
  | case5 acoord aval as bcoord bval bs hne hnot hnot' =>
    rw [equalsTyped, mergeLoop, if_pos hne, if_neg hnot, if_neg hnot']
    exact iff_of_false Bool.false_ne_true
      (not_within_of_ne ha hb hne (fun h => hnot (isZero_iff.mpr h)) fun h => hnot' (isZero_iff.mpr h))
  | case6 acoord aval as bcoord bval bs heq hvals =>
    rw [equalsTyped, mergeLoop, if_neg heq, if_pos hvals]
    obtain rfl := not_not.mp heq
    refine iff_of_false Bool.false_ne_true fun h => ?_
    have hat := h acoord
    rw [valueAt_cons, valueAt_cons, if_pos rfl, if_pos rfl, ← scalarEquals_iff] at hat
    simp [hat] at hvals
  | case7 acoord aval as bcoord bval bs heq hvals ih =>
    rw [equalsTyped, mergeLoop, if_neg heq, if_neg hvals]
    obtain rfl := not_not.mp heq
    have hhead : Within aval bval := scalarEquals_iff.mp (by simpa using hvals)
    refine (ih ha.of_cons hb.of_cons).trans (forall_congr' fun c => ?_)
    rw [valueAt_cons, valueAt_cons]
    split_ifs with hc
    · rw [hc, valueAt_of_notMem (ne_of_sorted ha)]
      exact iff_of_true (within_zero_left.mpr (valueAt_of_notMem (ne_of_sorted hb))) hhead
    · exact Iff.rfl

theorem within_refl (a : d.Value) : Within a a := by
  have hzero : normSq (sub a a) = 0 := by
    cases d with
    | real =>
      simp only [normSq, sub]
      ring
    | complex =>
      simp only [normSq, sub]
      ring
  rw [Within, hzero]
  exact mul_nonneg (sq_nonneg _) (normSq_nonneg a)

end Merge

end Components
end Taco
