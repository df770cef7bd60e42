import Taco.IndexNotation.Promotion

/-! Statements that accumulate in another tensor what is then stored. -/

namespace Taco
namespace Concrete

variable {V : Type}

/-! ### Replaced left-hand sides -/

namespace IndexStmt

/-- The accesses that are assigned to in producers. -/
def producerAccesses : IndexStmt V → List Access
  | assignment _ _ _ => []
  | .forall _ stmt => stmt.producerAccesses
  | .where consumer producer => consumer.producerAccesses ++ producer.lhsAccesses

variable {s : IndexStmt V} {a b : Access} {v : TensorVar}

theorem replaceReductionExpr_of_notMem (h : a ∉ s.lhsAccesses) : s.replaceReductionExpr a b = s := by
  induction s with
  | assignment lhs rhs compound =>
    have hne : lhs ≠ a := fun heq => h (List.mem_singleton.mpr heq.symm)
    rw [replaceReductionExpr, if_neg hne]
  | «forall» i stmt ih => rw [replaceReductionExpr, ih h]
  | «where» consumer producer ihc ihp =>
    rw [lhsAccesses, List.mem_append, not_or] at h
    rw [replaceReductionExpr, ihc h.1, ihp h.2]

theorem result_replaceReductionExpr : (s.replaceReductionExpr s.result b).result = b := by
  induction s with
  | assignment lhs rhs compound => exact if_pos rfl
  | «forall» i stmt ih => exact ih
  | «where» consumer producer ihc _ => exact ihc

theorem reads_replaceReductionExpr : (s.replaceReductionExpr a b).reads = s.reads := by
  induction s with
  | assignment lhs rhs compound => rfl
  | «forall» i stmt ih => exact ih
  | «where» consumer producer ihc ihp => exact congrArg₂ _ ihc ihp

theorem resultEnvs_replaceReductionExpr {space : Space} {env : Env} :
    (s.replaceReductionExpr a b).resultEnvs space env = s.resultEnvs space env := by
  induction s generalizing env with
  | assignment lhs rhs compound => rfl
  | «forall» i stmt ih =>
    rw [replaceReductionExpr, resultEnvs_forall, resultEnvs_forall]
    congr 1
    funext c
    rw [iterationEnvs, iterationEnvs]
    cases space.enter i c env with
    | none => rfl
    | some env => exact ih
  | «where» consumer producer ihc _ => exact ihc

theorem lhsAccesses_replaceReductionExpr :
    (s.replaceReductionExpr a b).lhsAccesses = s.lhsAccesses.map fun lhs => if lhs = a then b else lhs := by
  induction s with
  | assignment lhs rhs compound => rfl
  | «forall» i stmt ih => exact ih
  | «where» consumer producer ihc ihp =>
    rw [replaceReductionExpr, lhsAccesses, lhsAccesses, List.map_append, ihc, ihp]

theorem producerAccesses_subset : s.producerAccesses ⊆ s.lhsAccesses := by
  induction s with
  | assignment lhs rhs compound => exact List.nil_subset _
  | «forall» i stmt ih => exact ih
  | «where» consumer producer ihc _ =>
    exact List.append_subset.mpr ⟨List.subset_append_of_subset_left _ ihc, List.subset_append_right _ _⟩

/-- The result is not assigned to in producers if each tensor is assigned to in one place. -/
theorem producerAccesses_ne (hnodup : (s.lhsAccesses.map Access.tensorVar).Nodup) :
    ∀ b ∈ s.producerAccesses, b.tensorVar ≠ s.result.tensorVar := by
  induction s with
  | assignment lhs rhs compound => exact fun b hb => (List.not_mem_nil hb).elim
  | «forall» i stmt ih => exact ih hnodup
  | «where» consumer producer ihc _ =>
    rw [lhsAccesses, List.map_append, List.nodup_append'] at hnodup
    rw [producerAccesses, List.forall_mem_append]
    refine ⟨ihc hnodup.1, fun b hb heq => ?_⟩
    refine hnodup.2.2 (List.mem_map_of_mem consumer.result_mem_lhsAccesses) ?_
    exact List.mem_map.mpr ⟨b, hb, heq⟩

/-! ### Accumulating in another tensor -/

/-- A component and a scalar are updated in one way: something is added to both, or both are set if either is. -/
def Updates [Ring V] (compound : Bool) (assigned : Prop) (x x' y y' : V) : Prop :=
  if compound then ∃ d, x' = x + d ∧ y' = y + d else (assigned → x' = y') ∧ (¬ assigned → x' = x ∧ y' = y)

section Accumulation

variable [Ring V] {space : Space} {env : Env} {σ τ : Store V} {coords coords' : List ℕ}

theorem Updates.refl (compound : Bool) {assigned : Prop} (h : ¬ assigned) (x y : V) :
    Updates compound assigned x x y y := by
  rw [Updates]
  split_ifs
  · exact ⟨0, (add_zero x).symm, (add_zero y).symm⟩
  · exact ⟨fun hassigned => absurd hassigned h, fun _ => ⟨rfl, rfl⟩⟩

theorem Updates.congr {compound : Bool} {p q : Prop} {x x' y y' : V} (h : Updates compound p x x' y y') (hpq : p ↔ q) :
    Updates compound q x x' y y' := propext hpq ▸ h

theorem Updates.trans {compound : Bool} {p q : Prop} {x x' x'' y y' y'' : V} (h : Updates compound p x x' y y')
    (h' : Updates compound q x' x'' y' y'') : Updates compound (p ∨ q) x x'' y y'' := by
  rw [Updates] at *
  split_ifs at * with hcompound
  · obtain ⟨d, rfl, rfl⟩ := h
    obtain ⟨d', rfl, rfl⟩ := h'
    exact ⟨d + d', add_assoc _ _ _, add_assoc _ _ _⟩
  · constructor
    · intro hassigned
      by_cases hq : q
      · exact h'.1 hq
      · rw [(h'.2 hq).1, (h'.2 hq).2, h.1 (hassigned.resolve_right hq)]
    · intro hnot
      rw [not_or] at hnot
      rw [(h'.2 hnot.2).1, (h'.2 hnot.2).2]
      exact h.2 hnot.1

theorem updates_assign (compound : Bool) {assigned : Prop} (h : assigned) (r x y : V) :
    Updates compound assigned x (if compound then x + r else r) y (if compound then y + r else r) := by
  rw [Updates]
  split_ifs
  · exact ⟨r, rfl, rfl⟩
  · exact ⟨fun _ => rfl, fun hnot => absurd h hnot⟩

/-- A statement whose assignments are to one component does to it what the statement that assigns to another
    component does to that. -/
theorem exec_replaceReductionExpr (hv : s.result.tensorVar ≠ b.tensorVar)
    (hread : ∀ r ∈ s.reads, r.tensorVar ∉ [s.result.tensorVar, b.tensorVar])
    (hproducers : ∀ p ∈ s.producerAccesses, p.tensorVar ∉ [s.result.tensorVar, b.tensorVar])
    (hcoords : ∀ e ∈ s.resultEnvs space env, s.result.coords e = coords ∧ b.coords e = coords')
    (h : Store.AgreeOff [s.result.tensorVar, b.tensorVar] σ τ) :
    Store.AgreeOff [s.result.tensorVar, b.tensorVar] (s.exec space env σ)
        ((s.replaceReductionExpr s.result b).exec space env τ) ∧
      Updates s.resultOp (s.resultEnvs space env ≠ []) (σ s.result.tensorVar coords)
        (s.exec space env σ s.result.tensorVar coords) (τ b.tensorVar coords')
        ((s.replaceReductionExpr s.result b).exec space env τ b.tensorVar coords') := by
  induction s generalizing env σ τ with
  | assignment lhs rhs compound =>
    have hrhs : rhs.eval env σ = rhs.eval env τ := IndexExpr.eval_congr fun a ha => congrFun (h _ (hread a ha)) _
    obtain ⟨hq, hq'⟩ : lhs.coords env = coords ∧ b.coords env = coords' := hcoords env (List.mem_singleton_self env)
    have hreplace : (assignment lhs rhs compound).replaceReductionExpr lhs b =
        assignment b rhs compound := by rw [replaceReductionExpr, if_pos rfl]
    change Store.AgreeOff [lhs.tensorVar, b.tensorVar] σ τ at h
    rw [result, hreplace]
    refine ⟨fun t ht => ?_, ?_⟩
    · rw [List.mem_cons, List.mem_singleton, not_or] at ht
      have hlhs : t ≠ (assignment lhs rhs compound).result.tensorVar := ht.1
      have hscalar : t ≠ (assignment b rhs compound).result.tensorVar := ht.2
      rw [exec_of_ne hlhs, exec_of_ne hscalar, h t (by simp [ht])]
    · have hx : (assignment lhs rhs compound).exec space env σ lhs.tensorVar coords =
          if compound then σ lhs.tensorVar coords + rhs.eval env τ else rhs.eval env τ := by
        rw [exec, assign, hq, hrhs, Store.write_self]
      have hy : (assignment b rhs compound).exec space env τ b.tensorVar coords' =
          if compound then τ b.tensorVar coords' + rhs.eval env τ else rhs.eval env τ := by
        rw [exec, assign, hq', Store.write_self]
      rw [hx, hy, resultOp]
      exact updates_assign compound (List.cons_ne_nil env []) _ _ _
  | «forall» i stmt ih =>
    rw [resultEnvs_forall] at hcoords ⊢
    rw [replaceReductionExpr, exec_forall, exec_forall]
    generalize List.range (space.dims i) = l at hcoords ⊢
    induction l generalizing σ τ with
    | nil => exact ⟨h, Updates.refl _ (not_not_intro rfl) _ _⟩
    | cons c l ihl =>
      rw [List.flatMap_cons, List.forall_mem_append] at hcoords
      have hstep : Store.AgreeOff [stmt.result.tensorVar, b.tensorVar] (stmt.iteration space i env σ c)
          ((stmt.replaceReductionExpr stmt.result b).iteration space i env τ c) ∧
          Updates stmt.resultOp (stmt.iterationEnvs space i env c ≠ []) (σ stmt.result.tensorVar coords)
            (stmt.iteration space i env σ c stmt.result.tensorVar coords) (τ b.tensorVar coords')
            ((stmt.replaceReductionExpr stmt.result b).iteration space i env τ c b.tensorVar coords') := by
        rw [iterationEnvs] at hcoords
        rw [iteration, iteration, iterationEnvs]
        cases hc : space.enter i c env with
        | none => exact ⟨h, Updates.refl _ (not_not_intro rfl) _ _⟩
        | some env =>
          rw [hc] at hcoords
          exact ih hv hread hproducers hcoords.1 h
      obtain ⟨hagree, hrest⟩ := ihl hstep.1 hcoords.2
      refine ⟨hagree, (hstep.2.trans hrest).congr ?_⟩
      rw [List.flatMap_cons, Ne, Ne, Ne, List.append_eq_nil_iff, not_and_or]
  | «where» consumer producer ihc ihp =>
    have hconsumer : ∀ p ∈ consumer.producerAccesses, p.tensorVar ∉ [consumer.result.tensorVar, b.tensorVar] :=
      fun p hp => hproducers p (List.mem_append_left _ hp)
    have hproducer : ∀ p ∈ producer.lhsAccesses, p.tensorVar ∉ [consumer.result.tensorVar, b.tensorVar] :=
      fun p hp => hproducers p (List.mem_append_right _ hp)
    have hreplace : producer.replaceReductionExpr consumer.result b = producer :=
      replaceReductionExpr_of_notMem fun hmem => hproducer _ hmem List.mem_cons_self
    have htemporary := hproducer _ producer.result_mem_lhsAccesses
    rw [List.mem_cons, List.mem_singleton, not_or] at htemporary
    have hother : ∀ t, t ≠ producer.result.tensorVar → t ∉ producer.getResults := fun t ht => mt mem_getResults.mp ht
    have hσ : ∀ (σ : Store V) t, t ≠ producer.result.tensorVar →
        producer.exec space env (σ.zero producer.getResults) t = σ t := by
      intro σ t ht
      rw [exec_of_ne ht, Store.zero, if_neg (hother t ht)]
    have hagree : Store.AgreeOff [consumer.result.tensorVar, b.tensorVar] (producer.exec space env (σ.zero producer.getResults))
        (producer.exec space env (τ.zero producer.getResults)) :=
      exec_agreeOff (fun r hr => hread r (List.mem_append_right _ hr)) (Store.AgreeOff.zero h producer.getResults)
    have hstep := ihc hv (fun r hr => hread r (List.mem_append_left _ hr)) hconsumer hcoords hagree
    rw [hσ σ _ (Ne.symm htemporary.1), hσ τ _ (Ne.symm htemporary.2)] at hstep
    rw [result, replaceReductionExpr, hreplace, exec, exec]
    refine ⟨Store.AgreeOff.restore h hstep.1 _, ?_⟩
    rw [Store.restore, Store.restore, if_neg (hother _ (Ne.symm htemporary.1)), if_neg (hother _ (Ne.symm htemporary.2))]
    exact hstep.2

/-- Accumulating in a scalar that is stored behind a loop does what the loop does, if the component is one in all the
    iterations: an addition is added, and what is set is set, unless no iteration sets it and the component is not zero. -/
theorem exec_hoisted {i : IndexVar} {op : Bool} (hv : s.result.tensorVar ≠ v)
    (hread : ∀ r ∈ s.reads, r.tensorVar ∉ [s.result.tensorVar, v])
    (hproducers : ∀ b ∈ s.producerAccesses, b.tensorVar ∉ [s.result.tensorVar, v])
    (hcoords : ∀ e ∈ (IndexStmt.forall i s).resultEnvs space env, s.result.coords e = s.result.coords env)
    (hop : if op then s.resultOp = true else σ s.result.tensorVar (s.result.coords env) = 0 ∨
      s.resultOp = false ∧ (IndexStmt.forall i s).resultEnvs space env ≠ []) :
    (IndexStmt.where (.assignment s.result (.access (.make v [])) op)
      (.forall i (s.replaceReductionExpr s.result (.make v [])))).exec space env σ =
        (IndexStmt.forall i s).exec space env σ := by
  set coords := s.result.coords env with hq
  set loop := (IndexStmt.forall i s).exec space env σ with hloop
  set accumulated := (IndexStmt.forall i (s.replaceReductionExpr s.result (.make v []))).exec space env (σ.zero [v])
    with haccumulated
  have hzero : Store.AgreeOff [s.result.tensorVar, v] σ (σ.zero [v]) := fun t ht => by
    rw [List.mem_cons, not_or] at ht
    rw [Store.zero, if_neg ht.2]
  obtain ⟨hagree, hupdates⟩ := @exec_replaceReductionExpr V (.forall i s) (.make v []) _ space env σ (σ.zero [v]) coords []
    hv hread hproducers (fun e he => ⟨hcoords e he, rfl⟩) hzero
  have hresult : (IndexStmt.forall i (s.replaceReductionExpr s.result (.make v []))).result.tensorVar = v := by
    rw [result, result_replaceReductionExpr, Access.make]
  have hkept : accumulated s.result.tensorVar = σ s.result.tensorVar := by
    rw [haccumulated, exec_of_ne (by rwa [hresult]), Store.zero, if_neg (mt List.mem_singleton.mp hv)]
  have hscalar : (σ.zero [v]) (Access.make v []).tensorVar [] = 0 := by
    rw [Store.zero, Access.make, if_pos (List.mem_singleton_self v), Pi.zero_apply]
  have hvalue : (if op then σ s.result.tensorVar coords + accumulated v [] else accumulated v []) =
      loop s.result.tensorVar coords := by
    rw [Updates, hscalar] at hupdates
    change if s.resultOp = true then ∃ d, loop s.result.tensorVar coords = σ s.result.tensorVar coords + d ∧
        accumulated v [] = 0 + d
      else ((IndexStmt.forall i s).resultEnvs space env ≠ [] → loop s.result.tensorVar coords = accumulated v []) ∧
        (¬ (IndexStmt.forall i s).resultEnvs space env ≠ [] →
          loop s.result.tensorVar coords = σ s.result.tensorVar coords ∧ accumulated v [] = 0) at hupdates
    cases op with
    | true =>
      rw [if_pos rfl] at hop ⊢
      rw [if_pos hop] at hupdates
      obtain ⟨d, hx, hy⟩ := hupdates
      rw [hx, hy, zero_add]
    | false =>
      rw [if_neg Bool.false_ne_true] at hop ⊢
      rcases hop with hcomponent | ⟨hplain, hassigned⟩
      · rw [hcomponent] at hupdates
        split_ifs at hupdates
        · obtain ⟨d, hx, hy⟩ := hupdates
          rw [hx, hy]
        · by_cases hassigned : (IndexStmt.forall i s).resultEnvs space env ≠ []
          · exact (hupdates.1 hassigned).symm
          · rw [(hupdates.2 hassigned).1, (hupdates.2 hassigned).2]
      · rw [hplain, if_neg Bool.false_ne_true] at hupdates
        exact (hupdates.1 hassigned).symm
  have hrest : ∀ c, c ≠ coords → loop s.result.tensorVar c = σ s.result.tensorVar c := fun c hc =>
    exec_of_notMem fun e he heq => hc (heq.symm.trans (hcoords e he))
  rw [exec, getResults_eq, hresult, ← haccumulated]
  funext t c
  rw [Store.restore]
  split_ifs with ht
  · have hother : v ≠ (IndexStmt.forall i s).result.tensorVar := Ne.symm hv
    rw [List.mem_singleton.mp ht, hloop, exec_of_ne hother]
  · have hne : t ≠ v := mt List.mem_singleton.mpr ht
    rw [exec, assign, ← hq]
    by_cases htensor : t = s.result.tensorVar
    · subst htensor
      by_cases hc : c = coords
      · rw [hc, Store.write_self, ← hvalue, hkept]
        rfl
      · rw [Store.write_of_coords_ne hc, hkept, hrest c hc]
    · have hnotMem : t ∉ [s.result.tensorVar, v] := by simp [htensor, hne]
      rw [Store.write_of_ne htensor]
      exact (congrFun (hagree t hnotMem) c).symm

end Accumulation

end IndexStmt

end Concrete
end Taco
