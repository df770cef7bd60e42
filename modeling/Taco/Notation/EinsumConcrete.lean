import Taco.Notation.MakeConcreteExact
import Taco.Notation.ReductionNotationExact

/-! From einsum notation over reduction notation to the loops of concrete notation. -/

namespace Taco
namespace Notation

open VarSums

namespace IndexExpr

/-! ### What the reductions leave as it is -/

variable {free : List IndexVar}

theorem accesses_foldr_sum (vars : List IndexVar) (e : IndexExpr) : (vars.foldr sum e).accesses = e.accesses := by
  induction vars with
  | nil => rfl
  | cons v vars ih => exact ih

theorem accesses_addReductions (free : List IndexVar) (e : IndexExpr) : (e.addReductions free).accesses = e.accesses := by
  rw [addReductions_eq, accesses_foldr_sum]

theorem accesses_rewrite : ∀ {e : IndexExpr} {mulnodeVisited : Bool}, e.IsEinsum mulnodeVisited →
    (e.rewrite free).accesses = e.accesses
  | access _, _, _ | literal _ _, _, _ => rfl
  | neg a, _, h => accesses_rewrite (e := a) h
  | add a b, _, _ | sub a b, _, _ => by
    rw [rewrite, accesses, accesses_addReductions, accesses_addReductions, accesses]
  | mul a b, _, h => by
    rw [rewrite, accesses, accesses_rewrite h.1, accesses_rewrite h.2, accesses]

theorem accesses_einsum {e : IndexExpr} (h : e.IsEinsum false) : (e.einsum free).accesses = e.accesses := by
  rw [einsum]
  split_ifs
  · rw [accesses_addReductions, accesses_rewrite h]
  · exact accesses_rewrite h

/-! ### Arithmetic -/

/-- Accesses and literals under arithmetic and sums. -/
def isArithmetic : IndexExpr → Bool
  | access _ | literal _ _ => true
  | neg a => isArithmetic a
  | add a b | sub a b | mul a b => isArithmetic a && isArithmetic b
  | reduction op _ a => op.isSum && isArithmetic a
  | _ => false

theorem isArithmetic_foldr_sum (vars : List IndexVar) (e : IndexExpr) :
    (vars.foldr sum e).isArithmetic = e.isArithmetic := by
  induction vars with
  | nil => rfl
  | cons v vars ih => exact ih

theorem isArithmetic_of_isEinsum : ∀ {e : IndexExpr} {mulnodeVisited : Bool}, e.IsEinsum mulnodeVisited → e.isArithmetic = true
  | access _, _, _ | literal _ _, _, _ => rfl
  | neg a, _, h => isArithmetic_of_isEinsum (e := a) h
  | add a b, _, h | sub a b, _, h => by rw [isArithmetic, isArithmetic_of_isEinsum h.2.1, isArithmetic_of_isEinsum h.2.2]; rfl
  | mul a b, _, h => by rw [isArithmetic, isArithmetic_of_isEinsum h.1, isArithmetic_of_isEinsum h.2]; rfl

theorem isArithmetic_rewrite : ∀ {e : IndexExpr} {mulnodeVisited : Bool}, e.IsEinsum mulnodeVisited →
    (e.rewrite free).isArithmetic = true
  | access _, _, _ | literal _ _, _, _ => rfl
  | neg a, _, h => isArithmetic_rewrite (e := a) h
  | add a b, _, h | sub a b, _, h => by
    rw [rewrite, isArithmetic, addReductions_eq, addReductions_eq, isArithmetic_foldr_sum, isArithmetic_foldr_sum,
      isArithmetic_of_isEinsum h.2.1, isArithmetic_of_isEinsum h.2.2]
    rfl
  | mul a b, _, h => by rw [rewrite, isArithmetic, isArithmetic_rewrite h.1, isArithmetic_rewrite h.2]; rfl

theorem isArithmetic_einsum {e : IndexExpr} (h : e.IsEinsum false) : (e.einsum free).isArithmetic = true := by
  rw [einsum]
  split_ifs
  · rw [addReductions_eq, isArithmetic_foldr_sum, isArithmetic_rewrite h]
  · exact isArithmetic_rewrite h

theorem onlySums_of_isArithmetic {e : IndexExpr} (h : e.isArithmetic = true) : e.onlySums = true := by
  induction e using IndexExpr.induction with
  | access _ | literal _ _ => rfl
  | neg a ih => exact ih h
  | add a b iha ihb | sub a b iha ihb | mul a b iha ihb =>
    rw [isArithmetic, Bool.and_eq_true] at h
    rw [onlySums, iha h.1, ihb h.2]
    rfl
  | reduction op var a ih =>
    rw [isArithmetic, Bool.and_eq_true] at h
    rw [onlySums, h.1, ih h.2]
    rfl
  | _ => cases h

end IndexExpr

/-- The arithmetic operations are those of a ring. -/
structure Operations.IsRing {R : Type} [CommRing R] (ops : Operations R) : Prop where
  neg : ∀ x, ops.neg x = -x
  sub : ∀ x y, ops.sub x y = x - y
  mul : ∀ x y, ops.mul x y = x * y

/-- What the components and the operations give arithmetic expressions. -/
def Operations.meaning {R : Type} [CommRing R] (ops : Operations R) (dims : IndexVar → ℕ) (σ : Component → R) : Meaning R where
  dims := dims
  value := fun t isAccessingStructure coords => σ (t, isAccessingStructure, coords)
  literal := ops.literal
  other := fun _ _ => 0

namespace IndexExpr

variable {free : List IndexVar}

theorem value_eq_denote {R : Type} [CommRing R] {ops : Operations R} (hops : ops.IsRing) (dims : IndexVar → ℕ) (σ : Component → R)
    {e : IndexExpr} (h : e.isArithmetic = true) (env : IndexVar → ℕ) :
    e.value ops dims σ env = e.denote (ops.meaning dims σ) env := by
  induction e using IndexExpr.induction generalizing env with
  | access _ | literal _ _ => rfl
  | neg a ih => rw [value, denote, hops.neg, ih h]
  | add a b iha ihb =>
    rw [isArithmetic, Bool.and_eq_true] at h
    rw [value, denote, iha h.1, ihb h.2]
  | sub a b iha ihb =>
    rw [isArithmetic, Bool.and_eq_true] at h
    rw [value, denote, hops.sub, iha h.1, ihb h.2]
  | mul a b iha ihb =>
    rw [isArithmetic, Bool.and_eq_true] at h
    rw [value, denote, hops.mul, iha h.1, ihb h.2]
  | reduction op var a ih =>
    rw [isArithmetic, Bool.and_eq_true] at h
    rw [value, denote, if_pos h.1, if_pos h.1]
    exact Finset.sum_congr rfl fun x _ => ih h.2 _
  | _ => cases h

/-! ### Variables that are bound -/

theorem foldl_checkBound_of_subset {vars boundVars : List IndexVar} (h : ∀ v ∈ vars, v ∈ boundVars) (st : ReductionCheck) :
    vars.foldl (checkBound boundVars) st = st := by
  induction vars with
  | nil => rfl
  | cons v vars ih =>
    rw [List.foldl_cons, checkBound, if_pos (List.contains_iff_mem.mpr (h v List.mem_cons_self))]
    exact ih fun u hu => h u (List.mem_cons_of_mem _ hu)

/-- Accesses whose variables are bound are no reason to reject an expression. -/
theorem matchReduction_of_subset {e : IndexExpr} {boundVars : List IndexVar}
    (h : ∀ a ∈ e.accesses, ∀ v ∈ a.indexVars, v ∈ boundVars) (st : ReductionCheck) : matchReduction boundVars st e = st := by
  induction e using IndexExpr.induction generalizing boundVars st with
  | undefined | literal _ _ => rfl
  | access a => exact foldl_checkBound_of_subset (h a (List.mem_singleton_self a)) st
  | neg a ih | sqrt a ih | cast a _ ih => exact ih h st
  | add a b iha ihb | sub a b iha ihb | mul a b iha ihb | div a b iha ihb =>
    rw [matchReduction, iha fun x hx => h x (List.mem_append_left _ hx), ihb fun x hx => h x (List.mem_append_right _ hx)]
  | callIntrinsic func args ih =>
    rw [accesses, accessesList_eq] at h
    rw [matchReduction]
    induction args with
    | nil => rfl
    | cons a as ihas =>
      rw [List.flatMap_cons] at h
      rw [matchReductions, ih a List.mem_cons_self fun x hx => h x (List.mem_append_left _ hx)]
      exact ihas (fun b hb => ih b (List.mem_cons_of_mem _ hb)) fun x hx => h x (List.mem_append_right _ hx)
  | reduction op var a ih => exact ih (fun x hx v hv => List.mem_cons_of_mem _ (h x hx v hv)) st

theorem matchReduction_foldr_sum (vars boundVars : List IndexVar) (st : ReductionCheck) (e : IndexExpr) :
    matchReduction boundVars st (vars.foldr sum e) = matchReduction (vars.reverse ++ boundVars) st e := by
  induction vars generalizing boundVars with
  | nil => rfl
  | cons v vars ih =>
    rw [List.foldr_cons, sum, matchReduction, ih, List.reverse_cons, List.append_assoc]
    rfl

/-- The variables of an operand are free or bound by the sums around it. -/
theorem matchReduction_addReductions (st : ReductionCheck) (e : IndexExpr) :
    matchReduction free st (e.addReductions free) = st := by
  rw [addReductions_eq, matchReduction_foldr_sum]
  refine matchReduction_of_subset (fun a ha v hv => ?_) st
  rw [List.mem_append, List.mem_reverse]
  by_cases hfree : v ∈ free
  · exact Or.inr hfree
  · exact Or.inl (mem_reductionVars.mpr ⟨⟨a, ha, hv⟩, hfree⟩)

theorem matchReduction_rewrite : ∀ {e : IndexExpr}, e.IsEinsum false → e.onlyOneTerm = false → ∀ st : ReductionCheck,
    matchReduction free st (e.rewrite free) = st
  | access _, _, hone, _ | literal _ _, _, hone, _ => by cases hone
  | neg a, h, hone, st => matchReduction_rewrite (e := a) h hone st
  | add a b, _, _, st | sub a b, _, _, st => by
    rw [rewrite, matchReduction, matchReduction_addReductions, matchReduction_addReductions]
  | mul a b, h, hone, _ => by
    rw [onlyOneTerm, onlyOneTerm_of_product h.1, onlyOneTerm_of_product h.2] at hone
    cases hone

theorem matchReduction_einsum {e : IndexExpr} (h : e.IsEinsum false) (st : ReductionCheck) :
    matchReduction free st (e.einsum free) = st := by
  rw [einsum]
  split_ifs with hone
  · exact matchReduction_addReductions st _
  · exact matchReduction_rewrite h (Bool.not_eq_true _ ▸ hone) st

/-! ### Sums that cover the right-hand side -/

theorem topLevelReductions_foldr_sum (vars : List IndexVar) (e : IndexExpr) :
    (vars.foldr sum e).topLevelReductions.1 = vars ++ e.topLevelReductions.1 := by
  induction vars with
  | nil => rfl
  | cons v vars ih =>
    rw [List.foldr_cons, sum, topLevelReductions, ih]
    rfl

theorem topLevelReductions_rewrite {e : IndexExpr} {mulnodeVisited : Bool} (h : e.IsEinsum mulnodeVisited) :
    (e.rewrite free).topLevelReductions.1 = [] := by
  cases e with
  | access _ | literal _ _ | neg _ | add _ _ | sub _ _ | mul _ _ => rfl
  | _ => cases h

/-- No sum is over a free variable. -/
theorem topLevelReductions_einsum {e : IndexExpr} (h : e.IsEinsum false) :
    ∀ v ∈ (e.einsum free).topLevelReductions.1, v ∉ free := by
  rw [einsum]
  split_ifs
  · rw [addReductions_eq, topLevelReductions_foldr_sum, topLevelReductions_rewrite h, List.append_nil]
    exact fun v hv => (mem_reductionVars.mp hv).2
  · rw [topLevelReductions_rewrite h]
    exact fun v hv => absurd hv List.not_mem_nil

end IndexExpr

/-! ### The two passes -/

/-- Einsum notation becomes reduction notation, whose concrete statement leaves in the result the sums of the einsum. -/
def ComputesEinsum (getName : IndexVar → String) (lhs : Access) (rhs op : IndexExpr) (fresh : ℕ) : Prop :=
  ∃ reduced, makeReductionNotation getName lhs rhs op = .assignment lhs reduced op ∧
    isReductionNotation getName (.assignment lhs reduced op) = none ∧
    ∀ (R : Type) [CommRing R] (ops : Operations R), ops.IsRing → ∀ (dims env : IndexVar → ℕ) (σ : Component → R),
      LoopsFit lhs rhs dims → (op.isUndefined = true → ∀ c, c.1 = lhs.tensorVar → σ c = 0) →
      ∀ indices, lhs.InRange dims indices →
        (makeConcreteNotation lhs reduced op fresh).exec ops dims env σ (lhs.component indices) =
          assigned ops op (σ (lhs.component indices)) (rhs.einsumValue (ops.meaning dims σ) lhs.indexVars indices)

section Passes

variable {lhs : Access} {rhs op : IndexExpr} {fresh : ℕ}

theorem isEinsum_of_isEinsumNotation {getName : IndexVar → String} (hrhs : rhs.isPolynomial = true)
    (h : isEinsumNotation getName (.assignment lhs rhs op) = none) : rhs.IsEinsum false := by
  dsimp only [isEinsumNotation] at h
  split_ifs at h with hvalid hmatch
  exact (IndexExpr.isEinsum_of_matchEinsum hrhs hmatch).2

end Passes

end Notation
end Taco
