import Taco.IndexNotation.InsertTemporaries

/-! When a product of matrices with an inserted workspace assigns what the product does. -/

namespace Taco
namespace Concrete

open Workspace (Format ModeFormat)
open Monomials (sumAt value)

namespace IndexStmt

/-! ### Sums over loops -/

theorem sum_map_flatMap {α β V : Type} [Ring V] (l : List α) (f : α → List β) (g : β → V) :
    ((l.flatMap f).map g).sum = (l.map fun a => ((f a).map g).sum).sum := by
  induction l with
  | nil => rfl
  | cons a l ih => rw [List.flatMap_cons, List.map_append, List.sum_append, ih, List.map_cons, List.sum_cons]

theorem sum_map_range {V : Type} [Ring V] (n : ℕ) (f : ℕ → V) :
    ((List.range n).map f).sum = ∑ x ∈ Finset.range n, f x := rfl

/-- A statement with all its variables bound. -/
def run (dims : IndexVar → ℕ) (s : IndexStmt ℚ) (σ : Store ℚ) : Store ℚ := s.exec (.underived dims) (fun _ => 0) σ

/-- The values of the variables in nested loops with `n`, `m` and `p` iterations. -/
def iterations (n m p : ℕ) (i k j : IndexVar) : List Env :=
  (List.range n).flatMap fun x => (List.range m).flatMap fun z => (List.range p).map fun y =>
    Function.update (Function.update (Function.update (fun _ => 0) i x) k z) j y

/-- The components that are multiplied, and where their product is added. -/
def summands (n m p : ℕ) (i k j : IndexVar) (lhs b c : Access) : List (List ℕ × Sym2 (TensorVar × List ℕ)) :=
  (iterations n m p i k j).map fun env =>
    (lhs.coords env, s((b.tensorVar, b.coords env), (c.tensorVar, c.coords env)))

/-- The values of the components. -/
def components (σ : Store ℚ) (v : TensorVar × List ℕ) : ℚ := σ v.1 v.2

section Product

variable {dims : IndexVar → ℕ} {i k j : IndexVar} {lhs b c : Access} {σ : Store ℚ}

theorem run_product_foldl (compound : Bool) :
    (product i k j lhs b c compound).run dims σ =
      (iterations (dims i) (dims k) (dims j) i k j).foldl
        (fun σ env => assign lhs (.mul (.access b) (.access c)) compound env σ) σ := by
  rw [run, product, iterations, exec_forall_underived, List.foldl_flatMap]
  refine congrArg (fun f => List.foldl f σ (List.range (dims i))) (funext fun σ => funext fun x => ?_)
  rw [exec_forall_underived, List.foldl_flatMap]
  refine congrArg (fun f => List.foldl f σ (List.range (dims k))) (funext fun σ => funext fun z => ?_)
  rw [exec_forall_underived, List.foldl_map]
  rfl

/-- A product of other tensors than the result adds the summands. -/
theorem run_product (hb : b.tensorVar ≠ lhs.tensorVar) (hc : c.tensorVar ≠ lhs.tensorVar) (t : TensorVar)
    (q : List ℕ) :
    (product i k j lhs b c true).run dims σ t q =
      if t = lhs.tensorVar then σ t q + sumAt (components σ) (summands (dims i) (dims k) (dims j) i k j lhs b c) q
      else σ t q := by
  have hfold := foldl_accumulate lhs.tensorVar (fun env => lhs.coords env)
    (fun (σ : Store ℚ) env => σ b.tensorVar (b.coords env) * σ c.tensorVar (c.coords env))
    (fun σ σ' h => by rw [h _ hb, h _ hc]) (iterations (dims i) (dims k) (dims j) i k j) σ
  rw [run_product_foldl]
  refine (congrFun (congrFun hfold t) q).trans ?_
  by_cases ht : t = lhs.tensorVar
  · rw [if_pos ht, if_pos ht, ht, Monomials.sumAt_eq_sum_map, summands, List.map_map]
    rfl
  · rw [if_neg ht, if_neg ht]

end Product

section Workspace

variable {dims : IndexVar → ℕ} {i k j : IndexVar} {A B C w : TensorVar} {env : Env} {σ : Store ℚ}

/-- A component of the product of the first two tensors. -/
def dot (dims : IndexVar → ℕ) (k : IndexVar) (B C : TensorVar) (σ : Store ℚ) (x y : ℕ) : ℚ :=
  ∑ z ∈ Finset.range (dims k), σ B [x, z] * σ C [z, y]

/-- The producer of a row accumulates it. -/
theorem exec_producer (hik : i ≠ k) (hij : i ≠ j) (hkj : k ≠ j) (hB : B ≠ w) (hC : C ≠ w) (x : ℕ) (t : TensorVar)
    (q : List ℕ) :
    (IndexStmt.forall k (.forall j (.assignment (.make w [j])
        (.mul (.access (.make B [i, k])) (.access (.make C [k, j]))) true))).exec (.underived dims)
        (Function.update env i x) σ t q =
      if t = w then σ w q + ∑ z ∈ Finset.range (dims k), ∑ y ∈ Finset.range (dims j),
          if [y] = q then σ B [x, z] * σ C [z, y] else 0
      else σ t q := by
  have hloops : (IndexStmt.forall k (.forall j (.assignment (.make w [j])
      (.mul (.access (.make B [i, k])) (.access (.make C [k, j]))) true))).exec (.underived dims)
      (Function.update env i x) σ =
      ((List.range (dims k)).flatMap fun z => (List.range (dims j)).map fun y => (z, y)).foldl
        (fun σ p => σ.write w [p.2] (σ w [p.2] + σ B [x, p.1] * σ C [p.1, p.2])) σ := by
    rw [List.foldl_flatMap, exec_forall_underived]
    refine congrArg (fun f => List.foldl f σ (List.range (dims k))) (funext fun σ => funext fun z => ?_)
    rw [List.foldl_map, exec_forall_underived]
    refine congrArg (fun f => List.foldl f σ (List.range (dims j))) (funext fun σ => funext fun y => ?_)
    simp [exec, assign, IndexExpr.eval, Access.make, Access.coords, Access.coordinate, hik, hij, hkj]
  rw [hloops, foldl_accumulate w (fun p : ℕ × ℕ => [p.2]) (fun σ p => σ B [x, p.1] * σ C [p.1, p.2])]
  · dsimp only
    split_ifs
    · rw [sum_map_flatMap, sum_map_range]
      simp only [List.map_map, Function.comp_def, sum_map_range]
    · rfl
  · intro σ σ' h
    rw [h B hB, h C hC]

/-- The consumer copies the workspace to the row. -/
theorem exec_consumer (hij : i ≠ j) (hA : A ≠ w) (x n : ℕ) :
    (List.range n).foldl (fun σ y => (IndexStmt.assignment (.make A [i, j]) (.access (.make w [j])) false).exec
        (.underived dims) (Function.update (Function.update env i x) j y) σ) σ =
      fun t q => if t = A ∧ q ∈ (List.range n).map (fun y => [x, y]) then σ w q.tail else σ t q := by
  induction n with
  | zero => simp
  | succ n ih =>
    have hcopy : ∀ σ' : Store ℚ, (IndexStmt.assignment (.make A [i, j]) (.access (.make w [j])) false).exec
        (.underived dims) (Function.update (Function.update env i x) j n) σ' = σ'.write A [x, n] (σ' w [n]) := by
      intro σ'
      simp [exec, assign, IndexExpr.eval, Access.make, Access.coords, Access.coordinate, hij]
    rw [List.range_succ, List.foldl_append, ih, List.foldl_cons, List.foldl_nil, hcopy]
    funext t q
    by_cases hq : q = [x, n]
    · subst hq
      by_cases ht : t = A
      · subst ht
        simp [hA.symm]
      · rw [Store.write_of_ne ht]
        simp [ht]
    · rw [Store.write_of_coords_ne hq]
      simp [hq]

/-- A row of the product with the workspace. -/
def row (dims : IndexVar → ℕ) (k j : IndexVar) (A B C : TensorVar) (x : ℕ) (σ : Store ℚ) : Store ℚ := fun t q =>
  if t = A ∧ q ∈ (List.range (dims j)).map (fun y => [x, y]) then dot dims k B C σ x (q.getD 1 0) else σ t q

theorem exec_row (hik : i ≠ k) (hij : i ≠ j) (hkj : k ≠ j) (hA : A ≠ w) (hB : B ≠ w) (hC : C ≠ w) (x : ℕ) :
    (IndexStmt.where (.forall j (.assignment (.make A [i, j]) (.access (.make w [j])) false))
        (.forall k (.forall j (.assignment (.make w [j])
          (.mul (.access (.make B [i, k])) (.access (.make C [k, j]))) true)))).exec (.underived dims)
        (Function.update env i x) σ = row dims k j A B C x σ := by
  funext t q
  have hproduct := @exec_producer dims i k j B C w env (σ.zero [w]) hik hij hkj hB hC x
  rw [exec, exec_forall_underived, exec_consumer hij hA]
  have hresults : (IndexStmt.forall k (.forall j (.assignment (.make w [j])
      (.mul (.access (.make B [i, k])) (.access (.make C [k, j]))) true)) : IndexStmt ℚ).getResults = [w] := rfl
  rw [hresults, Store.restore]
  by_cases ht : t = w
  · rw [if_pos (List.mem_singleton.mpr ht), row, if_neg fun h => hA (h.1.symm.trans ht)]
  · rw [if_neg (fun h => ht (List.mem_singleton.mp h)), hproduct w, if_pos rfl, hproduct t, if_neg ht, row]
    by_cases hq : t = A ∧ q ∈ (List.range (dims j)).map (fun y => [x, y])
    · rw [if_pos hq, if_pos hq]
      obtain ⟨y, hy, rfl⟩ := List.mem_map.mp hq.2
      simp [dot, Store.zero, hB, hC, List.mem_range.mp hy, Finset.sum_ite_eq']
    · rw [if_neg hq, if_neg hq, Store.zero, if_neg fun h => ht (List.mem_singleton.mp h)]

/-- The rows one after the other. -/
theorem run_workspaceProduct (hik : i ≠ k) (hij : i ≠ j) (hkj : k ≠ j) (hA : A ≠ w) (hB : B ≠ w) (hC : C ≠ w) :
    (workspaceProduct i k j A B C w).run dims σ =
      (List.range (dims i)).foldl (fun σ x => row dims k j A B C x σ) σ := by
  rw [run, workspaceProduct, exec_forall_underived]
  exact congrArg (fun f => List.foldl f σ (List.range (dims i)))
    (funext fun σ => funext fun x => exec_row hik hij hkj hA hB hC x)

/-- The places that the rows write. -/
def places (n p : ℕ) : List (List ℕ) := (List.range n).flatMap fun x => (List.range p).map fun y => [x, y]

theorem mem_places {n p : ℕ} {q : List ℕ} : q ∈ places n p ↔ ∃ x < n, ∃ y < p, q = [x, y] := by
  simp [places, eq_comm]

/-- Rows of other tensors than the result. -/
theorem foldl_row (hB : B ≠ A) (hC : C ≠ A) (n : ℕ) :
    (List.range n).foldl (fun σ x => row dims k j A B C x σ) σ = fun t q =>
      if t = A ∧ q ∈ places n (dims j) then dot dims k B C σ (q.getD 0 0) (q.getD 1 0) else σ t q := by
  induction n with
  | zero => simp [places]
  | succ n ih =>
    have hplaces : ∀ q, q ∈ places (n + 1) (dims j) ↔
        q ∈ places n (dims j) ∨ q ∈ (List.range (dims j)).map fun y => [n, y] := by
      intro q
      rw [places, List.range_succ, List.flatMap_append, List.mem_append, List.flatMap_singleton]
      rfl
    rw [List.range_succ, List.foldl_append, ih, List.foldl_cons, List.foldl_nil]
    funext t q
    by_cases ht : t = A
    · by_cases hq : q ∈ (List.range (dims j)).map fun y => [n, y]
      · obtain ⟨y, hy, rfl⟩ := List.mem_map.mp hq
        rw [row, if_pos ⟨ht, hq⟩, if_pos ⟨ht, (hplaces _).mpr (Or.inr hq)⟩]
        simp [dot, hB, hC]
      · rw [row, if_neg fun h => hq h.2]
        simp only [hplaces, hq, or_false]
    · rw [row, if_neg fun h => ht h.1, if_neg fun h => ht h.1, if_neg fun h => ht h.1]

/-- The summands of a product without modifiers at a place. -/
theorem sumAt_summands_make (hik : i ≠ k) (hij : i ≠ j) (hkj : k ≠ j) (n p : ℕ) (q : List ℕ) :
    sumAt (components σ) (summands n (dims k) p i k j (.make A [i, j]) (.make B [i, k]) (.make C [k, j])) q =
      if q ∈ places n p then dot dims k B C σ (q.getD 0 0) (q.getD 1 0) else 0 := by
  have hsum : sumAt (components σ)
      (summands n (dims k) p i k j (.make A [i, j]) (.make B [i, k]) (.make C [k, j])) q =
      ∑ x ∈ Finset.range n, ∑ z ∈ Finset.range (dims k), ∑ y ∈ Finset.range p,
        if [x, y] = q then σ B [x, z] * σ C [z, y] else 0 := by
    rw [Monomials.sumAt_eq_sum_map, summands, List.map_map, iterations, sum_map_flatMap, sum_map_range]
    refine Finset.sum_congr rfl fun x _ => ?_
    rw [sum_map_flatMap, sum_map_range]
    refine Finset.sum_congr rfl fun z _ => ?_
    rw [List.map_map, sum_map_range]
    refine Finset.sum_congr rfl fun y _ => ?_
    simp [components, Access.make, Access.coords, Access.coordinate, hik, hij, hkj]
  rw [hsum]
  by_cases hq : q ∈ places n p
  · rw [if_pos hq]
    obtain ⟨x, hx, y, hy, rfl⟩ := mem_places.mp hq
    have hcolumn : ∀ x' z, (∑ y' ∈ Finset.range p, if [x', y'] = [x, y] then σ B [x', z] * σ C [z, y'] else 0) =
        if x' = x then σ B [x', z] * σ C [z, y] else 0 := by
      intro x' z
      by_cases hx' : x' = x <;> simp [hx', hy]
    simp only [hcolumn]
    rw [Finset.sum_comm]
    simp [dot, hx]
  · rw [if_neg hq]
    refine Finset.sum_eq_zero fun x hx => Finset.sum_eq_zero fun z _ => Finset.sum_eq_zero fun y hy => if_neg ?_
    rintro rfl
    exact hq (mem_places.mpr ⟨x, Finset.mem_range.mp hx, y, Finset.mem_range.mp hy, rfl⟩)

end Workspace

/-! ### Matched products -/

/-- The shapes of the tensors allow their product. -/
def conformable (shape : Shape) (A B C : TensorVar) : Prop :=
  shape B 0 = shape A 0 ∧ shape C 0 = shape B 1 ∧ shape C 1 = shape A 1

theorem typechecks_workspaceProduct {shape : Shape} {dims : IndexVar → ℕ} {i k j : IndexVar} {A B C w : TensorVar}
    (hA : A ≠ w) (hB : B ≠ w) (hC : C ≠ w) :
    (workspaceProduct i k j A B C w : IndexStmt ℚ).typechecks shape dims ↔
      dims i = shape A 0 ∧ dims k = shape B 1 ∧ dims j = shape A 1 ∧ conformable shape A B C := by
  have hmode : ∀ (t : TensorVar) (u v : IndexVar),
      (∀ mode i, [u, v][mode]? = some i → shape t mode = dims i) ↔ shape t 0 = dims u ∧ shape t 1 = dims v := by
    intro t u v
    constructor
    · intro h
      exact ⟨h 0 u rfl, h 1 v rfl⟩
    · rintro ⟨h0, h1⟩ (_ | _ | mode) i hi
      · cases hi
        exact h0
      · cases hi
        exact h1
      · cases hi
  have haccesses : (workspaceProduct i k j A B C w : IndexStmt ℚ).accesses =
      [.make A [i, j], .make w [j], .make w [j], .make B [i, k], .make C [k, j]] := rfl
  have htemporaries : (workspaceProduct i k j A B C w : IndexStmt ℚ).getTemporaries = [w] := rfl
  rw [typechecks, haccesses, htemporaries]
  simp only [List.forall_mem_cons, Access.dimension_make, List.not_mem_nil, false_implies, implies_true, and_true]
  simp only [List.mem_singleton, Access.make, hA, hB, hC, not_true_eq_false, not_false_eq_true, false_implies, true_implies, true_and,
    hmode, conformable]
  constructor
  · rintro ⟨⟨h1, h2⟩, ⟨h3, h4⟩, h5, h6⟩
    exact ⟨h1.symm, h4.symm, h2.symm, h3.trans h1.symm, h5.trans h4.symm, h6.trans h2.symm⟩
  · rintro ⟨h1, h2, h3, h4, h5, h6⟩
    exact ⟨⟨h1.symm, h3.symm⟩, ⟨h4.trans h1.symm, h2.symm⟩, h5.trans h2.symm, h6.trans h3.symm⟩

/-- What is known of a product that the pass replaces. -/
structure Matched (shape : Shape) (dims : IndexVar → ℕ) (w : TensorVar) (i k j : IndexVar) (lhs b c : Access) : Prop where
  hik : i ≠ k
  hij : i ≠ j
  hkj : k ≠ j
  rows : dims i ≤ shape lhs.tensorVar 0
  columns : dims j ≤ shape lhs.tensorVar 1
  hA : lhs.tensorVar ≠ w
  hB : b.tensorVar ≠ w
  hC : c.tensorVar ≠ w

theorem Matched.exists_typechecks {shape : Shape} {dims : IndexVar → ℕ} {w : TensorVar} {i k j : IndexVar}
    {lhs b c : Access} (h : Matched shape dims w i k j lhs b c)
    (hshape : conformable shape lhs.tensorVar b.tensorVar c.tensorVar) :
    ∃ dims', (workspaceProduct i k j lhs.tensorVar b.tensorVar c.tensorVar w : IndexStmt ℚ).typechecks shape dims' :=
  ⟨Function.update (Function.update (fun _ => shape lhs.tensorVar 1) k (shape b.tensorVar 1)) i
      (shape lhs.tensorVar 0),
    (typechecks_workspaceProduct h.hA h.hB h.hC).mpr
      ⟨by simp, by simp [h.hik.symm], by simp [h.hij.symm, h.hkj.symm], hshape⟩⟩

theorem dimension_le {shape : Shape} {a : Access} {mode : ℕ}
    (h : ∀ modifier, a.modifiers.lookup mode = some modifier → modifier.fits (shape a.tensorVar mode) = true) :
    a.dimension shape mode ≤ shape a.tensorVar mode := by
  rw [Access.dimension]
  cases hlookup : a.modifiers.lookup mode with
  | none => exact le_rfl
  | some modifier => exact Modifier.size_le_of_fits (h modifier hlookup)

theorem Valid.matched {shape : Shape} {dims : IndexVar → ℕ} {format : TensorVar → Format} {w : TensorVar}
    {i k j : IndexVar} {lhs b c : Access} {compound : Bool}
    (h : (product i k j lhs b c compound : IndexStmt ℚ).Valid shape dims)
    (hspmm : isSpMM format i k j lhs b c = true) (hw : w ∉ (product i k j lhs b c compound : IndexStmt ℚ).tensorVars) :
    compound = true ∧ Matched shape dims w i k j lhs b c := by
  obtain ⟨hconcrete, htyped, hfitted, hbinds⟩ := h
  simp only [isSpMM, Bool.and_eq_true, decide_eq_true_eq] at hspmm
  obtain ⟨⟨⟨⟨⟨hlhs, hb⟩, hc⟩, -⟩, -⟩, -⟩ := hspmm
  have haccesses : (product i k j lhs b c compound : IndexStmt ℚ).accesses = [lhs, b, c] := rfl
  have hnames : lhs.tensorVar ≠ w ∧ b.tensorVar ≠ w ∧ c.tensorVar ≠ w := by
    simp only [tensorVars, haccesses, List.map_cons, List.map_nil, List.mem_cons, List.not_mem_nil, or_false,
      not_or] at hw
    exact ⟨Ne.symm hw.1, Ne.symm hw.2.1, Ne.symm hw.2.2⟩
  have hvars : i ≠ k ∧ i ≠ j ∧ k ≠ j := by
    simp only [product, bindsOnce, List.not_mem_nil, not_false_eq_true, decide_true, Bool.true_and, List.mem_cons,
      or_false, Bool.and_true, Bool.and_eq_true, decide_eq_true_eq, not_or] at hbinds
    exact ⟨Ne.symm hbinds.1, Ne.symm hbinds.2.2, Ne.symm hbinds.2.1⟩
  have hreduction : k ∈ getReductionVars (V := ℚ) lhs (.mul (.access b) (.access c)) := by
    simp [getReductionVars, IndexExpr.accesses, hlhs, hb, hvars.1.symm, hvars.2.2]
  have hdims : ∀ mode v, lhs.indexVars[mode]? = some v → dims v ≤ shape lhs.tensorVar mode := by
    intro mode v hv
    rw [← htyped lhs (haccesses ▸ List.mem_cons_self) (List.not_mem_nil) mode v hv]
    exact dimension_le (hfitted lhs (haccesses ▸ List.mem_cons_self) mode)
  rw [hlhs] at hdims
  refine ⟨?_, hvars.1, hvars.2.1, hvars.2.2, hdims 0 i rfl, hdims 1 j rfl, hnames.1, hnames.2.1,
    hnames.2.2⟩
  by_contra hcompound
  simp only [product, isConcreteNotation, Bool.and_eq_true, Bool.or_eq_true, hcompound, Bool.false_eq_true, or_false,
    false_or, List.isEmpty_iff] at hconcrete
  rw [hconcrete.1] at hreduction
  exact List.not_mem_nil hreduction

/-! ### What is left in the results -/

/-- The second statement has dimensions and leaves what the first does in its results. -/
def AgreesFrom (initial : Store ℚ → Prop) (shape : Shape) (dims : IndexVar → ℕ) (s s' : IndexStmt ℚ) : Prop :=
  ∃ dims', s'.typechecks shape dims' ∧ ∀ σ, initial σ → ∀ t ∈ s.getResults, s'.run dims' σ t = s.run dims σ t

/-- The results are zero. -/
def zeroed (s : IndexStmt ℚ) (σ : Store ℚ) : Prop := ∀ t ∈ s.getResults, σ t = 0

section Matched

variable {shape : Shape} {dims dims' : IndexVar → ℕ} {w : TensorVar} {i k j : IndexVar} {lhs b c : Access}
  {σ : Store ℚ}

/-- The rows where the result is read stay as they are if it is zero. -/
theorem foldl_row_zero {A B C : TensorVar} (hread : A = B ∨ A = C) (hzero : σ A = 0) (l : List ℕ) :
    l.foldl (fun σ x => row dims k j A B C x σ) σ = σ := by
  refine List.foldl_fixed' (fun x => ?_) l
  funext t q
  rw [row]
  split_ifs with h
  · rw [h.1, hzero, dot]
    refine Finset.sum_eq_zero fun z _ => ?_
    rcases hread with rfl | rfl <;> simp [hzero]
  · rfl

theorem run_product_zero {compound : Bool} (hread : lhs.tensorVar = b.tensorVar ∨ lhs.tensorVar = c.tensorVar)
    (hzero : σ lhs.tensorVar = 0) : (product i k j lhs b c compound).run dims σ = σ := by
  have hassign : ∀ env, assign lhs (.mul (.access b) (.access c)) compound env σ = σ := by
    intro env
    have hval : (IndexExpr.mul (.access b) (.access c)).eval env σ = 0 := by
      rcases hread with h | h <;> simp [IndexExpr.eval, ← h, hzero]
    funext t q
    rw [assign, hval, Store.write]
    by_cases ht : t = lhs.tensorVar
    · subst ht
      by_cases hq : q = lhs.coords env <;> simp [hq, hzero]
    · rw [Function.update_of_ne ht]
  rw [run_product_foldl]
  exact List.foldl_fixed' hassign _

/-- The summands of the product, and of the product that the pass makes. -/
def sameSummands (shape : Shape) (dims : IndexVar → ℕ) (i k j : IndexVar) (lhs b c : Access) : Prop :=
  (summands (dims i) (dims k) (dims j) i k j lhs b c).Perm
    (summands (shape lhs.tensorVar 0) (shape b.tensorVar 1) (shape lhs.tensorVar 1) i k j
      (.make lhs.tensorVar [i, j]) (.make b.tensorVar [i, k]) (.make c.tensorVar [k, j]))

/-- From a result that is zero, when it is not read. -/
theorem run_eq_iff_sumAt (h : Matched shape dims w i k j lhs b c)
    (hdims' : (workspaceProduct i k j lhs.tensorVar b.tensorVar c.tensorVar w : IndexStmt ℚ).typechecks shape dims')
    (hb : b.tensorVar ≠ lhs.tensorVar) (hc : c.tensorVar ≠ lhs.tensorVar) (hzero : σ lhs.tensorVar = 0) :
    (workspaceProduct i k j lhs.tensorVar b.tensorVar c.tensorVar w).run dims' σ lhs.tensorVar =
        (product i k j lhs b c true).run dims σ lhs.tensorVar ↔
      ∀ q, sumAt (components σ) (summands (dims i) (dims k) (dims j) i k j lhs b c) q =
        sumAt (components σ) (summands (shape lhs.tensorVar 0) (shape b.tensorVar 1) (shape lhs.tensorVar 1) i k j
          (.make lhs.tensorVar [i, j]) (.make b.tensorVar [i, k]) (.make c.tensorVar [k, j])) q := by
  obtain ⟨hi, hk, hj, -⟩ := (typechecks_workspaceProduct h.hA h.hB h.hC).mp hdims'
  rw [run_workspaceProduct h.hik h.hij h.hkj h.hA h.hB h.hC, foldl_row hb hc, funext_iff]
  refine forall_congr' fun q => ?_
  rw [run_product hb hc, if_pos rfl, hzero, Pi.zero_apply, zero_add, ← hk,
    sumAt_summands_make h.hik h.hij h.hkj, ← hi, ← hj]
  simp only [true_and, hzero, Pi.zero_apply]
  exact eq_comm

/-- From results that are zero, the products agree if the result is read or if the summands are the same. -/
theorem matched_agrees_zeroed (h : Matched shape dims w i k j lhs b c) :
    AgreesFrom (zeroed (product i k j lhs b c true)) shape dims (product i k j lhs b c true)
        (workspaceProduct i k j lhs.tensorVar b.tensorVar c.tensorVar w) ↔
      conformable shape lhs.tensorVar b.tensorVar c.tensorVar ∧
        (lhs.tensorVar = b.tensorVar ∨ lhs.tensorVar = c.tensorVar ∨ sameSummands shape dims i k j lhs b c) := by
  have hresults : (product i k j lhs b c true : IndexStmt ℚ).getResults = [lhs.tensorVar] := rfl
  simp only [AgreesFrom, zeroed, hresults, List.mem_singleton, forall_eq]
  constructor
  · rintro ⟨dims', htyped, hagree⟩
    refine ⟨((typechecks_workspaceProduct h.hA h.hB h.hC).mp htyped).2.2.2, ?_⟩
    by_cases hb : lhs.tensorVar = b.tensorVar
    · exact Or.inl hb
    · by_cases hc : lhs.tensorVar = c.tensorVar
      · exact Or.inr (Or.inl hc)
      · refine Or.inr (Or.inr (Monomials.perm_of_sumAt_eq fun x q => ?_))
        -- The values of the variables in a store whose result is zero.
        have hsum := (run_eq_iff_sumAt (σ := fun t q => if t = lhs.tensorVar then 0 else x (t, q)) h htyped
          (Ne.symm hb) (Ne.symm hc) (by funext q; simp)).mp (hagree _ (by funext q; simp)) q
        simpa [Monomials.sumAt_eq_sum_map, summands, components, Function.comp_def, Access.make, Ne.symm hb, Ne.symm hc]
          using hsum
  · rintro ⟨hshape, hcases⟩
    obtain ⟨dims', htyped⟩ := h.exists_typechecks hshape
    refine ⟨dims', htyped, fun σ hzero => ?_⟩
    by_cases hread : lhs.tensorVar = b.tensorVar ∨ lhs.tensorVar = c.tensorVar
    · rw [run_workspaceProduct h.hik h.hij h.hkj h.hA h.hB h.hC, foldl_row_zero hread hzero,
        run_product_zero hread hzero]
    · obtain ⟨hb, hc⟩ := not_or.mp hread
      have hperm := (hcases.resolve_left hb).resolve_left hc
      exact (run_eq_iff_sumAt h htyped (Ne.symm hb) (Ne.symm hc) hzero).mpr fun q => Monomials.sumAt_perm hperm q

/-! ### Any contents -/

/-- What a nest adds is not negative if no component is. -/
theorem product_keeps_nonneg (l : List Env) (hpos : ∀ t q, 0 ≤ σ t q) (t : TensorVar) (q : List ℕ) :
    σ t q ≤ l.foldl (fun σ env => assign lhs (.mul (.access b) (.access c)) true env σ) σ t q := by
  induction l generalizing σ with
  | nil => exact le_rfl
  | cons env l ih =>
    have hval : 0 ≤ (IndexExpr.mul (.access b) (.access c)).eval env σ := mul_nonneg (hpos _ _) (hpos _ _)
    have hstep : ∀ t q, σ t q ≤ assign lhs (.mul (.access b) (.access c)) true env σ t q := by
      intro t q
      rw [assign, if_pos rfl, Store.write]
      by_cases ht : t = lhs.tensorVar
      · subst ht
        by_cases hq : q = lhs.coords env
        · subst hq
          simpa using hval
        · simp [hq]
      · rw [Function.update_of_ne ht]
    exact (hstep t q).trans (ih fun t q => (hpos t q).trans (hstep t q))

/-- The component at the origin is written by the first row. -/
theorem foldl_row_origin {A B C : TensorVar} {n : ℕ} (hn : 0 < n) (hj : 0 < dims j) :
    (List.range n).foldl (fun σ x => row dims k j A B C x σ) σ A [0, 0] = dot dims k B C σ 0 0 := by
  obtain ⟨n, rfl⟩ := Nat.exists_eq_add_of_lt hn
  have hlater : ∀ (l : List ℕ) (σ : Store ℚ),
      (l.map Nat.succ).foldl (fun σ x => row dims k j A B C x σ) σ A [0, 0] = σ A [0, 0] := by
    intro l
    induction l with
    | nil => exact fun σ => rfl
    | cons x l ih =>
      intro σ
      rw [List.map_cons, List.foldl_cons, ih, row, if_neg]
      simp
  rw [Nat.zero_add, List.range_succ_eq_map, List.foldl_cons, hlater, row, if_pos ⟨rfl, by simpa using hj⟩]
  rfl

/-- The result with a small number everywhere, the other tensors zero. -/
def level (A : TensorVar) (m : ℕ) : Store ℚ := fun t _ => if t = A then 1 / (m + 1) else 0

theorem dot_level_lt (A B C : TensorVar) : dot dims k B C (level A (dims k)) 0 0 < level A (dims k) A [0, 0] := by
  have hpos : (0 : ℚ) < 1 / ((dims k : ℚ) + 1) := by positivity
  have hle : ∀ t q, level A (dims k) t q ≤ 1 / ((dims k : ℚ) + 1) := by
    intro t q
    rw [level]
    split_ifs
    · exact le_rfl
    · exact hpos.le
  have hnonneg : ∀ t q, 0 ≤ level A (dims k) t q := by
    intro t q
    rw [level]
    split_ifs
    · exact hpos.le
    · exact le_rfl
  have hterms : dot dims k B C (level A (dims k)) 0 0 ≤
      ∑ _z ∈ Finset.range (dims k), 1 / ((dims k : ℚ) + 1) * (1 / ((dims k : ℚ) + 1)) :=
    Finset.sum_le_sum fun z _ => mul_le_mul (hle _ _) (hle _ _) (hnonneg _ _) hpos.le
  have hlt : (dims k : ℚ) * (1 / ((dims k : ℚ) + 1)) < 1 := by
    rw [mul_one_div, div_lt_one (by positivity)]
    exact lt_add_one _
  calc dot dims k B C (level A (dims k)) 0 0
      ≤ ∑ _z ∈ Finset.range (dims k), 1 / ((dims k : ℚ) + 1) * (1 / ((dims k : ℚ) + 1)) := hterms
    _ = (dims k : ℚ) * (1 / ((dims k : ℚ) + 1)) * (1 / ((dims k : ℚ) + 1)) := by
      rw [Finset.sum_const, Finset.card_range, nsmul_eq_mul, mul_assoc]
    _ < 1 * (1 / ((dims k : ℚ) + 1)) := mul_lt_mul_of_pos_right hlt hpos
    _ = level A (dims k) A [0, 0] := by rw [level, if_pos rfl, one_mul]

/-- From any contents, the products agree if the result has no components. -/
theorem matched_agrees (h : Matched shape dims w i k j lhs b c) :
    AgreesFrom (fun _ => True) shape dims (product i k j lhs b c true)
        (workspaceProduct i k j lhs.tensorVar b.tensorVar c.tensorVar w) ↔
      conformable shape lhs.tensorVar b.tensorVar c.tensorVar ∧ (shape lhs.tensorVar 0 = 0 ∨ shape lhs.tensorVar 1 = 0) := by
  have hresults : (product i k j lhs b c true : IndexStmt ℚ).getResults = [lhs.tensorVar] := rfl
  simp only [AgreesFrom, hresults, List.mem_singleton, forall_eq, true_implies]
  constructor
  · rintro ⟨dims', htyped, hagree⟩
    obtain ⟨hi, hk, hj, hshape⟩ := (typechecks_workspaceProduct h.hA h.hB h.hC).mp htyped
    refine ⟨hshape, ?_⟩
    by_contra hcomponents
    rw [not_or, ← hi, ← hj] at hcomponents
    have horigin := congrFun (hagree (level lhs.tensorVar (dims' k))) [0, 0]
    rw [run_workspaceProduct h.hik h.hij h.hkj h.hA h.hB h.hC,
      foldl_row_origin (Nat.pos_of_ne_zero hcomponents.1) (Nat.pos_of_ne_zero hcomponents.2), run_product_foldl] at horigin
    have hkept := @product_keeps_nonneg lhs b c (level lhs.tensorVar (dims' k))
      (iterations (dims i) (dims k) (dims j) i k j) (fun t q => by rw [level]; split_ifs <;> positivity)
      lhs.tensorVar [0, 0]
    rw [← horigin] at hkept
    exact absurd (dot_level_lt lhs.tensorVar b.tensorVar c.tensorVar) (not_lt.mpr hkept)
  · rintro ⟨hshape, hempty⟩
    obtain ⟨dims', htyped⟩ := h.exists_typechecks hshape
    refine ⟨dims', htyped, fun σ => ?_⟩
    have hloops : (product i k j lhs b c true).run dims σ = σ := by
      have hnone : iterations (dims i) (dims k) (dims j) i k j = [] := by
        rcases hempty with hzero | hzero
        · simp [iterations, Nat.le_zero.mp (hzero ▸ h.rows)]
        · simp [iterations, Nat.le_zero.mp (hzero ▸ h.columns)]
      rw [run_product_foldl, hnone, List.foldl_nil]
    rw [hloops, run_workspaceProduct h.hik h.hij h.hkj h.hA h.hB h.hC]
    obtain ⟨hi, -, hj, -⟩ := (typechecks_workspaceProduct h.hA h.hB h.hC).mp htyped
    rcases hempty with hzero | hzero
    · rw [hi, hzero, List.range_zero, List.foldl_nil]
    · refine congrFun (List.foldl_fixed' (fun x => ?_) _) _
      funext t q
      rw [row, hj, hzero, List.range_zero, List.map_nil, if_neg fun h => List.not_mem_nil h.2]

end Matched

/-! ### The pass -/

/-- No product is replaced, or the one that is has the shapes of the tensors and no component in its result. -/
def KeepsContents (format : TensorVar → Format) (shape : Shape) (s : IndexStmt ℚ) : Prop :=
  ∀ i k j lhs b c compound, s = product i k j lhs b c compound → isSpMM format i k j lhs b c = true →
    conformable shape lhs.tensorVar b.tensorVar c.tensorVar ∧ (shape lhs.tensorVar 0 = 0 ∨ shape lhs.tensorVar 1 = 0)

/-- No product is replaced, or the one that is has the shapes of the tensors and its modifiers change no summand, unless
    it reads its result. -/
def KeepsSummands (format : TensorVar → Format) (shape : Shape) (dims : IndexVar → ℕ) (s : IndexStmt ℚ) : Prop :=
  ∀ i k j lhs b c compound, s = product i k j lhs b c compound → isSpMM format i k j lhs b c = true →
    conformable shape lhs.tensorVar b.tensorVar c.tensorVar ∧
      (lhs.tensorVar = b.tensorVar ∨ lhs.tensorVar = c.tensorVar ∨ sameSummands shape dims i k j lhs b c)

/-- The product of a column with a number, where the rows of the column are exchanged. -/
def exchanged : IndexStmt ℚ := product 0 1 2 (.make 0 [0, 2]) ⟨1, [0, 1], [(0, .indexSet [1, 0])]⟩ (.make 2 [1, 2]) true

def exchangedShape : Shape := fun t mode => if t < 2 ∧ mode = 0 then 2 else 1

def exchangedDims : IndexVar → ℕ := fun i => if i = 0 then 2 else 1

def exchangedFormat : TensorVar → Format := fun t =>
  if t = 0 then ⟨[.Dense, .compressed false true], [0, 1], Format.perm_matrix⟩ else ⟨[.Dense, .Dense], [0, 1], Format.perm_matrix⟩

theorem exchanged_valid : exchanged.Valid exchangedShape exchangedDims where
  concrete := rfl
  typed := by
    have haccesses : exchanged.accesses = [.make 0 [0, 2], ⟨1, [0, 1], [(0, .indexSet [1, 0])]⟩, .make 2 [1, 2]] := rfl
    rw [typechecks, haccesses]
    simp only [List.forall_mem_cons, List.not_mem_nil, false_implies, implies_true, and_true]
    refine ⟨fun _ mode i h => ?_, fun _ mode i h => ?_, fun _ mode i h => ?_⟩ <;>
      · rcases mode with _ | _ | mode <;> cases h
        all_goals rfl
  fitted := by
    have haccesses : exchanged.accesses = [.make 0 [0, 2], ⟨1, [0, 1], [(0, .indexSet [1, 0])]⟩, .make 2 [1, 2]] := rfl
    rw [haccesses]
    intro a ha mode modifier h
    rcases List.mem_cons.mp ha with rfl | ha
    · cases h
    · rcases List.mem_cons.mp ha with rfl | ha
      · rcases mode with _ | mode <;> cases h
        rfl
      · rw [List.mem_singleton.mp ha] at h
        cases h
  binds := rfl

end IndexStmt
end Concrete
end Taco
