import Taco.Notation.ReductionNotation

/-! `makeReductionNotation` gives an einsum its meaning exactly if one set of reductions serves each operand of its outermost
    addition. -/

namespace Taco
namespace Notation

open VarSums

namespace IndexExpr

/-! ### The variables of an expression -/

theorem mem_foldl_insert {vs vars : List IndexVar} {v : IndexVar} :
    v ∈ vs.foldl (fun vars v => if vars.contains v then vars else vars ++ [v]) vars ↔ v ∈ vars ∨ v ∈ vs := by
  induction vs generalizing vars with
  | nil => simp
  | cons u vs ih =>
    rw [List.foldl_cons, ih]
    split_ifs with hu
    · have hmem : u ∈ vars := List.contains_iff_mem.mp hu
      rw [List.mem_cons]
      constructor
      · exact Or.imp_right Or.inr
      · rintro (hv | rfl | hv)
        · exact Or.inl hv
        · exact Or.inl hmem
        · exact Or.inr hv
    · rw [List.mem_append, List.mem_singleton, List.mem_cons, or_assoc]

theorem nodup_foldl_insert {vs vars : List IndexVar} (h : vars.Nodup) :
    (vs.foldl (fun vars v => if vars.contains v then vars else vars ++ [v]) vars).Nodup := by
  induction vs generalizing vars with
  | nil => exact h
  | cons u vs ih =>
    rw [List.foldl_cons]
    split_ifs with hu
    · exact ih h
    · refine ih (List.nodup_append.mpr ⟨h, List.nodup_singleton u, ?_⟩)
      rintro v hv w hw rfl
      rw [List.mem_singleton.mp hw] at hv
      exact hu (List.contains_iff_mem.mpr hv)

theorem mem_indexVars {expr : IndexExpr} {v : IndexVar} : v ∈ expr.indexVars ↔ ∃ a ∈ expr.accesses, v ∈ a.indexVars := by
  rw [indexVars, mem_foldl_insert, List.mem_flatMap]
  exact or_iff_right List.not_mem_nil

theorem nodup_reductionVars (free : List IndexVar) (expr : IndexExpr) : (expr.reductionVars free).Nodup :=
  (nodup_foldl_insert List.nodup_nil).filter _

variable {free : List IndexVar}

theorem mem_reductionVars {expr : IndexExpr} {v : IndexVar} :
    v ∈ expr.reductionVars free ↔ (∃ a ∈ expr.accesses, v ∈ a.indexVars) ∧ v ∉ free := by
  rw [reductionVars, List.mem_filter, mem_indexVars]
  simp

/-! ### Terms -/

/-- The accesses of a sum are those of its terms. -/
theorem accesses_terms : ∀ expr : IndexExpr, expr.accesses = expr.terms.flatMap fun t => t.2.accesses
  | undefined | access _ | literal _ _ | sqrt _ | mul _ _ | div _ _ | cast _ _ | callIntrinsic _ _ | reduction _ _ _ => by
    simp [terms]
  | neg a => by
    rw [accesses, accesses_terms a, terms, List.flatMap_map]
  | add a b => by
    rw [accesses, accesses_terms a, accesses_terms b, terms, List.flatMap_append]
  | sub a b => by
    rw [accesses, accesses_terms a, accesses_terms b, terms, List.flatMap_append, List.flatMap_map]

theorem reductionVars_of_term {expr : IndexExpr} {t : Bool × IndexExpr} (ht : t ∈ expr.terms) {v : IndexVar}
    (hv : v ∈ t.2.reductionVars free) : v ∈ expr.reductionVars free := by
  rw [mem_reductionVars] at hv ⊢
  obtain ⟨⟨a, ha, hva⟩, hfree⟩ := hv
  rw [accesses_terms]
  exact ⟨⟨a, List.mem_flatMap.mpr ⟨t, ht, ha⟩, hva⟩, hfree⟩

/-- One set of reductions serves all terms. -/
theorem sameReductions_iff {expr : IndexExpr} :
    expr.SameReductions free ↔ ∀ t ∈ expr.terms, ∀ v, v ∈ expr.reductionVars free ↔ v ∈ t.2.reductionVars free :=
  ⟨fun h t ht v => ⟨h t ht v, reductionVars_of_term ht⟩, fun h t ht v => (h t ht v).mp⟩

section Denote

variable {R : Type} [CommRing R] (m : Meaning R)

def signed (negative : Bool) (x : R) : R := if negative then - x else x

theorem signed_not (negative : Bool) (x : R) : signed (!negative) x = - signed negative x := by
  cases negative <;> simp [signed]

theorem sum_signed_not (l : List (Bool × IndexExpr)) (value : IndexExpr → R) :
    ((l.map fun t => (!t.1, t.2)).map fun t => signed t.1 (value t.2)).sum = - (l.map fun t => signed t.1 (value t.2)).sum := by
  induction l with
  | nil => simp
  | cons t l ih =>
    simp only [List.map_cons, List.sum_cons, ih, signed_not]
    exact (neg_add _ _).symm

/-- A sum is the sum of its terms. -/
theorem denote_terms : ∀ (expr : IndexExpr) (env : IndexVar → ℕ),
    expr.denote m env = (expr.terms.map fun t => signed t.1 (t.2.denote m env)).sum
  | undefined, _ | access _, _ | literal _ _, _ | sqrt _, _ | mul _ _, _ | div _ _, _ | cast _ _, _ | callIntrinsic _ _, _
  | reduction _ _ _, _ => by simp [terms, signed]
  | neg a, env => by
    rw [denote, terms, sum_signed_not _ fun e => e.denote m env, denote_terms a]
  | add a b, env => by
    rw [denote, terms, List.map_append, List.sum_append, denote_terms a, denote_terms b]
  | sub a b, env => by
    rw [denote, terms, List.map_append, List.sum_append, sum_signed_not _ fun e => e.denote m env, denote_terms a,
      denote_terms b, sub_eq_add_neg]

end Denote

/-! ### The reductions around a term -/

theorem isSum_add : (add undefined undefined).isSum = true := rfl

theorem addReductions_eq (free : List IndexVar) (expr : IndexExpr) :
    expr.addReductions free = (expr.reductionVars free).foldr sum expr := by
  rw [addReductions, reductionVars]
  generalize expr.indexVars = vars
  induction vars with
  | nil => rfl
  | cons v vars ih =>
    rw [List.foldr_cons, ih, List.filter_cons]
    cases free.contains v <;> rfl

theorem denote_foldr_sum {R : Type} [CommRing R] (m : Meaning R) (vars : List IndexVar) (expr : IndexExpr) (env : IndexVar → ℕ) :
    (vars.foldr sum expr).denote m env = sumOver m.dims vars (expr.denote m) env := by
  induction vars generalizing env with
  | nil => rfl
  | cons v vars ih =>
    rw [List.foldr_cons, sum, denote, if_pos isSum_add]
    exact Finset.sum_congr rfl fun x _ => ih _

theorem summedTerms_foldr_sum (vars scope : List IndexVar) (expr : IndexExpr) :
    summedTerms scope (vars.foldr sum expr) = summedTerms (vars.reverse ++ scope) expr := by
  induction vars generalizing scope with
  | nil => rfl
  | cons v vars ih =>
    rw [List.foldr_cons, sum, summedTerms, if_pos isSum_add, ih, List.reverse_cons, List.append_assoc]
    rfl

/-- The value of a sum under one set of reductions, if it serves all terms. -/
theorem denote_addReductions {R : Type} [CommRing R] (m : Meaning R) {expr : IndexExpr} (h : expr.SameReductions free)
    (env : IndexVar → ℕ) : (expr.addReductions free).denote m env = expr.einsumValue m free env := by
  have hterms : expr.denote m = fun env => (expr.terms.map fun t => signed t.1 (t.2.denote m env)).sum :=
    funext (denote_terms m expr)
  rw [addReductions_eq, denote_foldr_sum, hterms, sumOver_sum, einsumValue]
  refine congrArg List.sum (List.map_congr_left fun t ht => ?_)
  have hperm : (expr.reductionVars free).Perm (t.2.reductionVars free) :=
    (List.perm_ext_iff_of_nodup (nodup_reductionVars free _) (nodup_reductionVars free _)).mpr
      (sameReductions_iff.mp h t ht)
  rw [sumOver_perm m.dims hperm]
  cases t.1 with
  | false => rfl
  | true => exact sumOver_neg m.dims env

/-! ### Einsum notation -/

/-- No additions below multiplications, and neither divisions nor reductions. -/
def IsEinsum (mulnodeVisited : Bool) : IndexExpr → Prop
  | access _ | literal _ _ => True
  | neg a => IsEinsum mulnodeVisited a
  | add a b | sub a b => mulnodeVisited = false ∧ IsEinsum false a ∧ IsEinsum false b
  | mul a b => IsEinsum true a ∧ IsEinsum true b
  | _ => False

theorem isEinsum_of_matchEinsum : ∀ {e : IndexExpr}, e.isPolynomial = true → ∀ {mulnodeVisited : Bool} {st : EinsumCheck},
    (matchEinsum mulnodeVisited st e).isEinsum = true → st.isEinsum = true ∧ e.IsEinsum mulnodeVisited
  | access _, _, _, _, h | literal _ _, _, _, _, h => ⟨h, trivial⟩
  | neg a, hp, _, _, h => isEinsum_of_matchEinsum (e := a) hp h
  | add a b, hp, true, st, h | sub a b, hp, true, st, h => by cases h
  | add a b, hp, false, st, h | sub a b, hp, false, st, h => by
    rw [isPolynomial, Bool.and_eq_true] at hp
    obtain ⟨h, hb⟩ := isEinsum_of_matchEinsum hp.2 h
    obtain ⟨h, ha⟩ := isEinsum_of_matchEinsum hp.1 h
    exact ⟨h, rfl, ha, hb⟩
  | mul a b, hp, _, st, h => by
    rw [isPolynomial, Bool.and_eq_true] at hp
    obtain ⟨h, hb⟩ := isEinsum_of_matchEinsum hp.2 h
    obtain ⟨h, ha⟩ := isEinsum_of_matchEinsum hp.1 h
    exact ⟨h, ha, hb⟩

/-- There are no sums in an einsum yet. -/
theorem summedTerms_eq (scope : List IndexVar) : ∀ {e : IndexExpr} {mulnodeVisited : Bool}, e.IsEinsum mulnodeVisited →
    e.summedTerms scope = e.terms.map fun t => (t.2, scope)
  | access _, _, _ | literal _ _, _, _ | mul _ _, _, _ => rfl
  | neg a, _, h => by
    rw [summedTerms, terms, summedTerms_eq scope (e := a) h, List.map_map]
    rfl
  | add a b, _, h => by
    rw [summedTerms, terms, summedTerms_eq scope h.2.1, summedTerms_eq scope h.2.2, List.map_append]
  | sub a b, _, h => by
    rw [summedTerms, terms, summedTerms_eq scope h.2.1, summedTerms_eq scope h.2.2, List.map_append, List.map_map]
    rfl

/-- The reductions around an operand are those of its terms exactly if one set of reductions serves all of them. -/
theorem summedExactly_addReductions {expr : IndexExpr} {mulnodeVisited : Bool} (h : expr.IsEinsum mulnodeVisited) :
    (expr.addReductions free).SummedExactly free ↔ expr.SameReductions free := by
  rw [SummedExactly, addReductions_eq, summedTerms_foldr_sum, summedTerms_eq _ h, sameReductions_iff]
  simp only [List.forall_mem_map, List.append_nil, List.mem_reverse]

/-- What has only one term. -/
theorem of_onlyOneTerm : ∀ {e : IndexExpr} {mulnodeVisited : Bool}, e.IsEinsum mulnodeVisited → e.onlyOneTerm = true →
    e.rewrite free = e ∧ e.OperandsSame free ∧ ∃ t, e.terms = [t]
  | access _, _, _, _ | literal _ _, _, _, _ => ⟨rfl, trivial, _, rfl⟩
  | neg a, _, h, hone => by
    obtain ⟨hrewrite, hsame, t, ht⟩ := of_onlyOneTerm (e := a) h hone
    exact ⟨by rw [rewrite, hrewrite], hsame, _, by rw [terms, ht]; rfl⟩
  | add _ _, _, _, hone | sub _ _, _, _, hone => by cases hone
  | mul a b, _, h, hone => by
    rw [onlyOneTerm, Bool.and_eq_true] at hone
    exact ⟨by rw [rewrite, (of_onlyOneTerm h.1 hone.1).1, (of_onlyOneTerm h.2 hone.2).1], trivial, _, rfl⟩

/-- A product has only one term. -/
theorem onlyOneTerm_of_product : ∀ {e : IndexExpr}, e.IsEinsum true → e.onlyOneTerm = true
  | access _, _ | literal _ _, _ => rfl
  | neg a, h => onlyOneTerm_of_product (e := a) h
  | add _ _, h | sub _ _, h => by cases h.1
  | mul a b, h => by rw [onlyOneTerm, onlyOneTerm_of_product h.1, onlyOneTerm_of_product h.2]; rfl

/-- The single term is served by its own reductions. -/
theorem sameReductions_of_term {expr : IndexExpr} {t : Bool × IndexExpr} (h : expr.terms = [t]) : expr.SameReductions free := by
  intro t' ht' v hv
  rw [h, List.mem_singleton] at ht'
  rw [mem_reductionVars, accesses_terms, h] at hv
  rw [ht', mem_reductionVars]
  simpa using hv

/-! ### The rewriter -/

section Value

variable {R : Type} [CommRing R] (m : Meaning R) (env : IndexVar → ℕ)

theorem einsumValue_eq (expr : IndexExpr) :
    expr.einsumValue m free env =
      (expr.terms.map fun t => signed t.1 (sumOver m.dims (t.2.reductionVars free) (t.2.denote m) env)).sum := rfl

theorem einsumValue_neg (a : IndexExpr) : (neg a).einsumValue m free env = - a.einsumValue m free env := by
  rw [einsumValue_eq, einsumValue_eq, terms]
  exact sum_signed_not a.terms fun e => sumOver m.dims (e.reductionVars free) (e.denote m) env

theorem einsumValue_add (a b : IndexExpr) :
    (add a b).einsumValue m free env = a.einsumValue m free env + b.einsumValue m free env := by
  simp only [einsumValue_eq, terms, List.map_append, List.sum_append]

theorem einsumValue_sub (a b : IndexExpr) :
    (sub a b).einsumValue m free env = a.einsumValue m free env - b.einsumValue m free env := by
  have hneg : (neg b).einsumValue m free env = - b.einsumValue m free env := einsumValue_neg m env b
  rw [einsumValue_eq, terms] at hneg
  rw [einsumValue_eq, terms, List.map_append, List.sum_append, hneg, ← einsumValue_eq, sub_eq_add_neg]

/-- Where the operands of the outermost addition are as they should be, the rewriter gives the sum its meaning. -/
theorem denote_rewrite : ∀ {e : IndexExpr}, e.IsEinsum false → e.onlyOneTerm = false → e.OperandsSame free →
    (e.rewrite free).denote m env = e.einsumValue m free env
  | access _, _, hone, _ | literal _ _, _, hone, _ => by cases hone
  | neg a, h, hone, hsame => by
    rw [rewrite, denote, einsumValue_neg, denote_rewrite (e := a) h hone hsame]
  | add a b, _, _, hsame => by
    rw [rewrite, denote, einsumValue_add, denote_addReductions m hsame.1, denote_addReductions m hsame.2]
  | sub a b, _, _, hsame => by
    rw [rewrite, denote, einsumValue_sub, denote_addReductions m hsame.1, denote_addReductions m hsame.2]
  | mul a b, h, hone, _ => by
    rw [onlyOneTerm, onlyOneTerm_of_product h.1, onlyOneTerm_of_product h.2] at hone
    cases hone

end Value

theorem summedExactly_rewrite : ∀ {e : IndexExpr}, e.IsEinsum false → e.onlyOneTerm = false →
    ((e.rewrite free).SummedExactly free ↔ e.OperandsSame free)
  | access _, _, hone | literal _ _, _, hone => by cases hone
  | neg a, h, hone => summedExactly_rewrite (e := a) h hone
  | add a b, h, _ | sub a b, h, _ => by
    rw [rewrite, SummedExactly, summedTerms, List.forall_mem_append]
    exact and_congr (summedExactly_addReductions h.2.1) (summedExactly_addReductions h.2.2)
  | mul a b, h, hone => by
    rw [onlyOneTerm, onlyOneTerm_of_product h.1, onlyOneTerm_of_product h.2] at hone
    cases hone

theorem meansEinsum_iff {expr : IndexExpr} (h : expr.IsEinsum false) :
    expr.MeansEinsum free (expr.einsum free) ↔ expr.OperandsSame free := by
  rw [einsum]
  split_ifs with hone
  · obtain ⟨hrewrite, hsame, t, ht⟩ := @of_onlyOneTerm free _ _ h hone
    have hserved : expr.SameReductions free := sameReductions_of_term ht
    rw [hrewrite]
    exact iff_of_true ⟨fun R _ m env => denote_addReductions m hserved env, (summedExactly_addReductions h).mpr hserved⟩ hsame
  · rw [Bool.not_eq_true] at hone
    refine ⟨fun hmeans => (summedExactly_rewrite h hone).mp hmeans.summed, fun hsame => ?_⟩
    exact ⟨fun R _ m env => denote_rewrite m env h hone hsame, (summedExactly_rewrite h hone).mpr hsame⟩

end IndexExpr

/-- An assignment in einsum notation gets the meaning of the einsum exactly if the terms of each operand of its outermost
    addition have the same reduction variables. -/
theorem makeReductionNotation_means_iff (getName : IndexVar → String) (lhs : Access) (rhs op : IndexExpr)
    (hrhs : rhs.isPolynomial = true) (heinsum : isEinsumNotation getName (.assignment lhs rhs op) = none) :
    (∃ result, makeReductionNotation getName lhs rhs op = .assignment lhs result op ∧
      rhs.MeansEinsum lhs.indexVars result) ↔ rhs.OperandsSame lhs.indexVars := by
  have hresult : makeReductionNotation getName lhs rhs op = .assignment lhs (rhs.einsum lhs.indexVars) op := by
    rw [makeReductionNotation, heinsum]
    rfl
  have hshape : rhs.IsEinsum false := by
    dsimp only [isEinsumNotation] at heinsum
    split_ifs at heinsum with hvalid hmatch
    exact (IndexExpr.isEinsum_of_matchEinsum hrhs hmatch).2
  rw [← IndexExpr.meansEinsum_iff hshape, hresult]
  constructor
  · rintro ⟨result, heq, hmeans⟩
    cases heq
    exact hmeans
  · exact fun hmeans => ⟨_, rfl, hmeans⟩

/-- The components of a vector. -/
def vectorTerm (id : ℕ) (i : IndexVar) : IndexExpr := .access ((TensorVar.dense id [2]).access [i] rfl)

def scalarResult : Access := (TensorVar.dense 0 []).access [] rfl

/-- The components of two vectors are summed up. -/
theorem makeReductionNotation_twoSums :
    ∃ result, makeReductionNotation (fun _ => "i") scalarResult (.add (vectorTerm 1 0) (vectorTerm 2 1)) .undefined =
      .assignment scalarResult result .undefined ∧ (IndexExpr.add (vectorTerm 1 0) (vectorTerm 2 1)).MeansEinsum [] result :=
  (makeReductionNotation_means_iff (fun _ => "i") scalarResult (.add (vectorTerm 1 0) (vectorTerm 2 1)) .undefined rfl rfl).mpr
    ⟨IndexExpr.sameReductions_of_term rfl, IndexExpr.sameReductions_of_term rfl⟩

/-- With a scalar added to both sums, the components of each vector are summed up as often as the other one has any. -/
theorem makeReductionNotation_twoSums_scalar :
    ¬ ∀ (getName : IndexVar → String) (lhs : Access) (rhs op : IndexExpr), rhs.isPolynomial = true →
      isEinsumNotation getName (.assignment lhs rhs op) = none →
      ∃ result, makeReductionNotation getName lhs rhs op = .assignment lhs result op ∧ rhs.MeansEinsum lhs.indexVars result := by
  intro h
  let rhs : IndexExpr := .add (.add (vectorTerm 1 0) (vectorTerm 2 1)) (.access ((TensorVar.dense 3 []).access [] rfl))
  obtain ⟨result, heq, hmeans⟩ := h (fun _ => "i") scalarResult rhs .undefined rfl rfl
  cases heq
  have hvalue := hmeans.value ℤ ⟨fun _ => 2, fun _ _ _ => 1, fun _ _ => 0, fun _ _ => 0⟩ fun _ => 0
  revert hvalue
  decide

end Notation
end Taco
