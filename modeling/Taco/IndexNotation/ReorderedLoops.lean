import Taco.IndexNotation.Accumulation
import Taco.IndexNotation.ParallelizeExact
import Taco.IndexNotation.TopologicalOrderExact
import Taco.Library.VarVisits

/-! Loops in the order that `reorderLoopsTopologically` finds do what they did before. -/

namespace Taco
namespace Concrete
namespace IndexStmt

open VarVisits (visits)

variable {V : Type} [Ring V] {space : Space} {env : Env} {σ τ : Store V} {s : IndexStmt V}

/-! ### What a statement adds -/

/-- What a statement with an operator adds to a component of its result does not depend on the result. -/
theorem exec_adds (space : Space) (env : Env) (hop : s.resultOp = true) (hread : ∀ r ∈ s.reads, r.tensorVar ≠ s.result.tensorVar)
    (hproducers : ∀ p ∈ s.producerAccesses, p.tensorVar ≠ s.result.tensorVar) (h : Store.AgreeOff [s.result.tensorVar] σ τ)
    (coords : List ℕ) : s.exec space env σ s.result.tensorVar coords - σ s.result.tensorVar coords =
      s.exec space env τ s.result.tensorVar coords - τ s.result.tensorVar coords := by
  induction s generalizing env σ τ with
  | assignment lhs rhs compound =>
    have hrhs : rhs.eval env σ = rhs.eval env τ := by
      refine IndexExpr.eval_congr fun a ha => congrFun (h _ ?_) _
      rw [List.mem_singleton]
      exact hread a ha
    rw [resultOp] at hop
    rw [exec, exec, assign, assign, if_pos hop, if_pos hop, result]
    by_cases hcoords : coords = lhs.coords env
    · rw [hcoords, Store.write_self, Store.write_self, hrhs, add_sub_cancel_left, add_sub_cancel_left]
    · rw [Store.write_of_coords_ne hcoords, Store.write_of_coords_ne hcoords, sub_self, sub_self]
  | «forall» i stmt ih =>
    rw [exec_forall, exec_forall]
    induction List.range (space.dims i) generalizing σ τ with
    | nil => rw [List.foldl_nil, List.foldl_nil, sub_self, sub_self]
    | cons c l ihl =>
      have hagree : Store.AgreeOff [stmt.result.tensorVar] (stmt.iteration space i env σ c) (stmt.iteration space i env τ c) := by
        intro t ht
        rw [iteration_of_ne (mt List.mem_singleton.mpr ht), iteration_of_ne (mt List.mem_singleton.mpr ht), h t ht]
      have hfirst : stmt.iteration space i env σ c stmt.result.tensorVar coords - σ stmt.result.tensorVar coords =
          stmt.iteration space i env τ c stmt.result.tensorVar coords - τ stmt.result.tensorVar coords := by
        rw [iteration, iteration]
        cases space.enter i c env with
        | none => rw [sub_self, sub_self]
        | some env => exact ih env hop hread hproducers h
      have hrest := ihl hagree
      rw [List.foldl_cons, List.foldl_cons]
      rw [result] at hrest ⊢
      rw [← sub_add_sub_cancel _ (stmt.iteration space i env σ c stmt.result.tensorVar coords), hrest, hfirst,
        sub_add_sub_cancel]
  | «where» consumer producer ihc _ =>
    have hproducer : producer.result.tensorVar ≠ consumer.result.tensorVar :=
      hproducers _ (List.mem_append_right _ producer.result_mem_lhsAccesses)
    have hkept : ∀ σ : Store V, producer.exec space env (σ.zero [producer.result.tensorVar]) consumer.result.tensorVar =
        σ consumer.result.tensorVar := by
      intro σ
      rw [exec_of_ne hproducer.symm, Store.zero, if_neg (mt List.mem_singleton.mp hproducer.symm)]
    have hagree : Store.AgreeOff [consumer.result.tensorVar] (producer.exec space env (σ.zero [producer.result.tensorVar]))
        (producer.exec space env (τ.zero [producer.result.tensorVar])) := by
      refine exec_agreeOff (fun r hr => ?_) (Store.AgreeOff.zero h _)
      exact mt List.mem_singleton.mp (hread r (List.mem_append_right _ hr))
    have hconsumer := ihc env hop (fun r hr => hread r (List.mem_append_left _ hr))
      (fun p hp => hproducers p (List.mem_append_left _ hp)) hagree
    rw [hkept, hkept] at hconsumer
    rw [exec_where, exec_where, result, Store.restore, Store.restore, if_neg (mt List.mem_singleton.mp hproducer.symm),
      if_neg (mt List.mem_singleton.mp hproducer.symm)]
    exact hconsumer

/-- Two runs of a statement that adds can be exchanged. -/
theorem exec_comm_of_resultOp (hop : s.resultOp = true) (hread : ∀ r ∈ s.reads, r.tensorVar ≠ s.result.tensorVar)
    (hproducers : ∀ p ∈ s.producerAccesses, p.tensorVar ≠ s.result.tensorVar) (e e' : Env) (σ : Store V) :
    s.exec space e' (s.exec space e σ) = s.exec space e (s.exec space e' σ) := by
  have hagree : ∀ e, Store.AgreeOff [s.result.tensorVar] (s.exec space e σ) σ := fun e t ht =>
    exec_of_ne (mt List.mem_singleton.mpr ht)
  funext t coords
  by_cases ht : t = s.result.tensorVar
  · rw [ht]
    have hsecond := exec_adds space e' hop hread hproducers (hagree e) coords
    have hfirst := exec_adds space e hop hread hproducers (hagree e') coords
    rw [sub_eq_iff_eq_add.mp hsecond, sub_eq_iff_eq_add.mp hfirst]
    abel
  · rw [exec_of_ne ht, exec_of_ne ht, exec_of_ne ht, exec_of_ne ht]

/-- So can two runs that assign to different components of a result that is not read. -/
theorem exec_comm_of_apart (hread : ∀ r ∈ s.reads, r.tensorVar ≠ s.result.tensorVar) {e e' : Env}
    (hapart : ∀ r ∈ s.resultEnvs space e, ∀ r' ∈ s.resultEnvs space e', s.result.coords r ≠ s.result.coords r')
    (σ : Store V) : s.exec space e' (s.exec space e σ) = s.exec space e (s.exec space e' σ) := by
  funext t coords
  by_cases ht : t = s.result.tensorVar
  · subst ht
    by_cases hwrites : ∃ r ∈ s.resultEnvs space e, s.result.coords r = coords
    · obtain ⟨r, hr, rfl⟩ := hwrites
      have hkept : ∀ σ : Store V, s.exec space e' σ s.result.tensorVar (s.result.coords r) =
          σ s.result.tensorVar (s.result.coords r) :=
        fun σ => exec_of_notMem fun r' hr' => (hapart r hr r' hr').symm
      have hagree : Store.AgreeAt s.result.tensorVar (s.result.coords r) (s.exec space e' σ) σ :=
        ⟨fun u hu => exec_of_ne hu, hkept σ⟩
      rw [hkept, (exec_agreeAt hread hagree).component]
    · have hkept : ∀ σ : Store V, s.exec space e σ s.result.tensorVar coords = σ s.result.tensorVar coords :=
        fun σ => exec_of_notMem fun r hr heq => hwrites ⟨r, hr, heq⟩
      have hagree : Store.AgreeAt s.result.tensorVar coords (s.exec space e σ) σ := ⟨fun u hu => exec_of_ne hu, hkept σ⟩
      rw [hkept, (exec_agreeAt hread hagree).component]
  · rw [exec_of_ne ht, exec_of_ne ht, exec_of_ne ht, exec_of_ne ht]

/-! ### Nests -/

variable {dims : IndexVar → ℕ}

theorem exec_nest (vars : List IndexVar) (env : Env) (σ : Store V) :
    (vars.foldr IndexStmt.forall s).exec (.underived dims) env σ =
      (visits dims vars env).foldl (fun σ e => s.exec (.underived dims) e σ) σ := by
  induction vars generalizing env σ with
  | nil => rfl
  | cons i vars ih =>
    rw [List.foldr_cons, exec_forall_underived, VarVisits.foldl_visits_cons]
    exact congrArg (fun step => (List.range (dims i)).foldl step σ) (funext₂ fun σ c => ih _ σ)

omit [Ring V] in
theorem eq_nest (s : IndexStmt V) : s = s.originalOrder.foldr IndexStmt.forall s.innerBody := by
  induction s with
  | «forall» i stmt ih => exact congrArg (IndexStmt.forall i) ih
  | assignment lhs rhs compound => rfl
  | «where» consumer producer => rfl

omit [Ring V] in
/-- What the innermost statement shares with the nest. -/
theorem innerBody_spec (s : IndexStmt V) : s.innerBody.resultOp = s.resultOp ∧ s.innerBody.result = s.result ∧
    s.innerBody.reads = s.reads ∧ s.innerBody.producerAccesses = s.producerAccesses := by
  induction s with
  | «forall» i stmt ih => exact ih
  | assignment lhs rhs compound => exact ⟨rfl, rfl, rfl, rfl⟩
  | «where» consumer producer => exact ⟨rfl, rfl, rfl, rfl⟩

omit [Ring V] in
/-- The innermost statement of a nest that binds no variable again does not bind those of the loops. -/
theorem innerBody_bindsOnce {bound : List IndexVar} (h : s.bindsOnce bound = true) :
    s.innerBody.bindsOnce (s.originalOrder.reverse ++ bound) = true := by
  induction s generalizing bound with
  | «forall» i stmt ih =>
    rw [bindsOnce, Bool.and_eq_true] at h
    rw [originalOrder, List.reverse_cons, List.append_assoc]
    exact ih h.2
  | assignment lhs rhs compound => exact h
  | «where» consumer producer => exact h

/-- The passes of the loops of a nest may be made in any order: they add, or they assign to different components. -/
structure PassesCommute (dims : IndexVar → ℕ) (s : IndexStmt V) : Prop where
  reads : ∀ r ∈ s.reads, r.tensorVar ≠ s.result.tensorVar
  producers : ∀ p ∈ s.producerAccesses, p.tensorVar ≠ s.result.tensorVar
  passes : s.resultOp = true ∨ s.bindsOnce [] = true ∧ ∀ i ∈ s.originalOrder, s.result.Separates dims i

theorem PassesCommute.exec_nest_perm (h : s.PassesCommute dims) {vars : List IndexVar} (hvars : vars.Perm s.originalOrder)
    (env : Env) (σ : Store V) : (vars.foldr IndexStmt.forall s.innerBody).exec (.underived dims) env σ =
      s.exec (.underived dims) env σ := by
  obtain ⟨hop, hresult, hreads, hproducers⟩ := s.innerBody_spec
  have hread : ∀ r ∈ s.innerBody.reads, r.tensorVar ≠ s.innerBody.result.tensorVar := by
    rw [hresult, hreads]
    exact h.reads
  have hproducer : ∀ p ∈ s.innerBody.producerAccesses, p.tensorVar ≠ s.innerBody.result.tensorVar := by
    rw [hresult, hproducers]
    exact h.producers
  have hperm : (visits dims s.originalOrder env).Perm (visits dims vars env) := VarVisits.visits_perm hvars.symm env
  conv_rhs => rw [eq_nest s]
  rw [exec_nest, exec_nest]
  refine (List.Perm.foldl_eq' hperm (fun e he e' he' σ => ?_) σ).symm
  rcases h.passes with hadds | ⟨hbinds, hseparates⟩
  · exact exec_comm_of_resultOp (hop.trans hadds) hread hproducer e e' σ
  · have hbody := innerBody_bindsOnce hbinds
    by_cases heq : e = e'
    · rw [heq]
    · obtain ⟨i, hne⟩ := Function.ne_iff.mp heq
      have hi : i ∈ s.originalOrder := by
        by_contra hi
        exact hne ((VarVisits.eq_of_mem_visits he hi).trans (VarVisits.eq_of_mem_visits he' hi).symm)
      have hbound : i ∈ s.originalOrder.reverse ++ [] := by
        rw [List.append_nil, List.mem_reverse]
        exact hi
      refine exec_comm_of_apart hread (fun r hr r' hr' => ?_) σ
      have hr := Parallelize.resultEnvs_bound hbody hbound hr
      have hr' := Parallelize.resultEnvs_bound hbody hbound hr'
      rw [hresult]
      refine (hseparates i hi).coords_ne (hr ▸ VarVisits.lt_of_mem_visits he hi) (hr' ▸ VarVisits.lt_of_mem_visits he' hi) ?_
      rw [hr, hr']
      exact hne

/-- The reordered loops compute what the loops computed. -/
theorem reorderLoopsTopologically_preserves (format : TensorVar → Workspace.Format)
    (sort : List TensorLevelVar → List TensorLevelVar) {reordered : IndexStmt V} (h : s.PassesCommute dims)
    (hreordered : reorderLoopsTopologically format sort s = some reordered) (env : Env) (σ : Store V) :
    reordered.exec (.underived dims) env σ = s.exec (.underived dims) env σ := by
  rw [reorderLoopsTopologically, Option.map_eq_some_iff] at hreordered
  obtain ⟨vars, hvars, rfl⟩ := hreordered
  exact h.exec_nest_perm (topologicallySort_some hvars).1 env σ

/-- A matrix is transposed: the loop of the rows of the operand becomes the outer one. -/
def transposition : IndexStmt ℤ := .forall 0 (.forall 1 (.assignment (.make 0 [0, 1]) (.access (.make 1 [1, 0])) false))

theorem transposition_reordered :
    (IndexStmt.forall 1 (.forall 0 (.assignment (.make 0 [0, 1]) (.access (.make 1 [1, 0])) false))).exec
        (.underived fun _ => 2) (fun _ => 0) (fun t coords => (t + coords.headD 0 : ℤ)) =
      transposition.exec (.underived fun _ => 2) (fun _ => 0) fun t coords => (t + coords.headD 0 : ℤ) :=
  reorderLoopsTopologically_preserves squareFormat sortByLevel
    { reads := by decide
      producers := by decide
      passes := by
        refine Or.inr ⟨rfl, fun i hi c _ c' _ hne => ?_⟩
        obtain ⟨mode, hmode⟩ := List.getElem?_of_mem (show i ∈ transposition.result.indexVars from hi)
        exact ⟨mode, hmode, hne⟩ }
    rfl _ _

end IndexStmt
end Concrete
end Taco
