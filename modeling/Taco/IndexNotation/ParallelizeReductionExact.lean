import Taco.IndexNotation.ParallelizeReduction
import Taco.IndexNotation.ScalarPromoteExact

/-! Which parallelizations of reductions keep what a statement does. -/

namespace Taco
namespace Concrete

variable {V : Type}

/-! ### Temporaries for the iterations of a loop -/

namespace IndexStmt

section Temporary

variable [Ring V] {space : Space} {env : Env} {σ τ : Store V} {s : IndexStmt V} {i : IndexVar} {w : TensorVar}
variable {coords : List ℕ}

/-- What an update makes of a component. -/
def updated (op : Bool) (x y : V) : V := if op then x + y else y

/-- What an iteration of a loop makes of a component, if the updates of the iterations are given. -/
def reduce (space : Space) (i : IndexVar) (env : Env) (op : Bool) (update : ℕ → V) (x : V) (c : ℕ) : V :=
  match space.enter i c env with
  | some _ => updated op x (update c)
  | none => x

theorem Updates.updated {op : Bool} {assigned : Prop} {x x' y : V} (h : Updates op assigned x x' 0 y)
    (hassigned : op = true ∨ assigned) : x' = updated op x y := by
  rw [Updates] at h
  rw [IndexStmt.updated]
  split_ifs at h ⊢ with hop
  · obtain ⟨d, rfl, rfl⟩ := h
    rw [zero_add]
  · exact h.1 (hassigned.resolve_left hop)

/-- The iterations of a loop update one component, and do not read it. -/
structure Accumulates (space : Space) (i : IndexVar) (w : TensorVar) (s : IndexStmt V) (env : Env) (coords : List ℕ) :
    Prop where
  fresh : s.result.tensorVar ≠ w
  reads : ∀ r ∈ s.reads, r.tensorVar ∉ [s.result.tensorVar, w]
  producers : ∀ p ∈ s.producerAccesses, p.tensorVar ∉ [s.result.tensorVar, w]
  entered : ∀ c env', space.enter i c env = some env' → s.result.coords env' = coords ∧ env' i = c
  coords : ∀ c env', space.enter i c env = some env' → ∀ e ∈ s.resultEnvs space env',
    s.result.coords e = coords ∧ (Access.make w [i]).coords e = [c]
  assigns : s.resultOp = true ∨ ∀ c < space.dims i, ∀ env', space.enter i c env = some env' → s.resultEnvs space env' ≠ []

/-- An iteration with a temporary leaves the components of the other iterations. -/
theorem Accumulates.other (h : Accumulates space i w s env coords) {c c' : ℕ} (hne : c' ≠ c) :
    (s.replaceReductionExpr s.result (.make w [i])).iteration space i env τ c w [c'] = τ w [c'] := by
  rw [iteration]
  cases hc : space.enter i c env with
  | none => rfl
  | some env' =>
    have hresult : (s.replaceReductionExpr s.result (.make w [i])).result = .make w [i] := result_replaceReductionExpr
    have hnot := @exec_of_notMem V _ space env' τ [c'] (s.replaceReductionExpr s.result (.make w [i])) fun e he => by
      rw [resultEnvs_replaceReductionExpr] at he
      rw [hresult, (h.coords c env' hc e he).2]
      exact fun heq => hne (List.cons.inj heq).1.symm
    rw [hresult] at hnot
    exact hnot

theorem Accumulates.others (h : Accumulates space i w s env coords) {c' : ℕ} {l : List ℕ} (hnot : c' ∉ l) :
    l.foldl ((s.replaceReductionExpr s.result (.make w [i])).iteration space i env) τ w [c'] = τ w [c'] := by
  induction l generalizing τ with
  | nil => rfl
  | cons c l ih =>
    rw [List.mem_cons, not_or] at hnot
    rw [List.foldl_cons, ih hnot.2, h.other hnot.1]

/-- An iteration with a temporary that is zero leaves the update there. -/
theorem Accumulates.iteration (h : Accumulates space i w s env coords) {c : ℕ} (hc : c < space.dims i)
    (hzero : τ w [c] = 0) (hagree : Store.AgreeOff [s.result.tensorVar, w] σ τ) :
    Store.AgreeOff [s.result.tensorVar, w] (s.iteration space i env σ c)
        ((s.replaceReductionExpr s.result (.make w [i])).iteration space i env τ c) ∧
      s.iteration space i env σ c s.result.tensorVar coords = reduce space i env s.resultOp
        (fun c => (s.replaceReductionExpr s.result (.make w [i])).iteration space i env τ c w [c])
        (σ s.result.tensorVar coords) c := by
  rw [reduce, IndexStmt.iteration, IndexStmt.iteration]
  cases henter : space.enter i c env with
  | none => exact ⟨hagree, rfl⟩
  | some env' =>
    obtain ⟨hagree', hupdates⟩ := @exec_replaceReductionExpr V s (.make w [i]) _ space env' σ τ coords [c] h.fresh h.reads
      h.producers (h.coords c env' henter) hagree
    rw [Access.make, hzero] at hupdates
    exact ⟨hagree', hupdates.updated (h.assigns.imp id fun h => h c hc env' henter)⟩

/-- The producer leaves the updates of all iterations. -/
theorem Accumulates.produces (h : Accumulates space i w s env coords) {l : List ℕ} (hl : ∀ c ∈ l, c < space.dims i)
    (hnodup : l.Nodup) (hzero : ∀ c ∈ l, τ w [c] = 0) (hagree : Store.AgreeOff [s.result.tensorVar, w] σ τ) :
    Store.AgreeOff [s.result.tensorVar, w] (l.foldl (s.iteration space i env) σ)
        (l.foldl ((s.replaceReductionExpr s.result (.make w [i])).iteration space i env) τ) ∧
      l.foldl (s.iteration space i env) σ s.result.tensorVar coords = l.foldl (reduce space i env s.resultOp fun c =>
        l.foldl ((s.replaceReductionExpr s.result (.make w [i])).iteration space i env) τ w [c])
        (σ s.result.tensorVar coords) := by
  induction l generalizing σ τ with
  | nil => exact ⟨hagree, rfl⟩
  | cons c l ih =>
    rw [List.nodup_cons] at hnodup
    rw [List.forall_mem_cons] at hl hzero
    obtain ⟨hstep, hcomponent⟩ := h.iteration hl.1 hzero.1 hagree
    set τ' := (s.replaceReductionExpr s.result (.make w [i])).iteration space i env τ c with hτ'
    have hrest : ∀ c' ∈ l, τ' w [c'] = 0 := by
      intro c' hc'
      have hne : c' ≠ c := fun heq => hnodup.1 (heq ▸ hc')
      rw [hτ', h.other hne]
      exact hzero.2 c' hc'
    obtain ⟨hagree', hfold⟩ := ih hl.2 hnodup.2 hrest hstep
    refine ⟨hagree', ?_⟩
    rw [List.foldl_cons, List.foldl_cons, hfold, List.foldl_cons, hcomponent, ← hτ', reduce, reduce, h.others hnodup.1]

/-- The consumer updates the component with what is in the temporary. -/
theorem consumes {a : Access} {op : Bool} (hfresh : a.tensorVar ≠ w)
    (hentered : ∀ c env', space.enter i c env = some env' → a.coords env' = coords ∧ env' i = c) {l : List ℕ} (x : V) :
    l.foldl ((assignment a (.access (.make w [i])) op).iteration space i env) (σ.write a.tensorVar coords x) =
      σ.write a.tensorVar coords (l.foldl (reduce space i env op fun c => σ w [c]) x) := by
  induction l generalizing x with
  | nil => rfl
  | cons c l ih =>
    have hstep : (assignment a (.access (.make w [i])) op).iteration space i env (σ.write a.tensorVar coords x) c =
        σ.write a.tensorVar coords (reduce space i env op (fun c => σ w [c]) x c) := by
      rw [IndexStmt.iteration, reduce]
      cases henter : space.enter i c env with
      | none => rfl
      | some env' =>
        obtain ⟨hcoords, hi⟩ := hentered c env' henter
        have hread : (IndexExpr.access (.make w [i])).eval env' (σ.write a.tensorVar coords x) = σ w [c] := by
          rw [IndexExpr.eval, Access.coords_make, List.map_singleton, hi, Access.make,
            Store.write_of_ne (Ne.symm hfresh)]
        change assign a (.access (.make w [i])) op env' (σ.write a.tensorVar coords x) = _
        rw [assign, hread, hcoords, Store.write_self, Store.write_write]
        rfl
    rw [List.foldl_cons, hstep, ih, List.foldl_cons]

/-- A loop that writes a temporary and one that reduces it do what the loop does. -/
theorem exec_temporary (h : Accumulates space i w s env coords) :
    (IndexStmt.where (.forall i (.assignment s.result (.access (.make w [i])) s.resultOp))
      (.forall i (s.replaceReductionExpr s.result (.make w [i])))).exec space env σ =
        (IndexStmt.forall i s).exec space env σ := by
  have hresult : (IndexStmt.forall i (s.replaceReductionExpr s.result (.make w [i]))).result.tensorVar = w := by
    rw [result, result_replaceReductionExpr, Access.make]
  have hzero : Store.AgreeOff [s.result.tensorVar, w] σ (σ.zero [w]) := fun t ht => by
    rw [List.mem_cons, not_or] at ht
    rw [Store.zero, if_neg ht.2]
  obtain ⟨hagree, hcomponent⟩ := h.produces (fun c hc => List.mem_range.mp hc) List.nodup_range
    (fun c _ => by rw [Store.zero, if_pos (List.mem_singleton_self w)]; rfl) hzero
  set produced := (IndexStmt.forall i (s.replaceReductionExpr s.result (.make w [i]))).exec space env (σ.zero [w])
    with hproduced
  have hkept : produced s.result.tensorVar = σ s.result.tensorVar := by
    rw [hproduced, exec_of_ne (by rw [hresult]; exact h.fresh), Store.zero, if_neg (mt List.mem_singleton.mp h.fresh)]
  have hconsumed : (IndexStmt.forall i (.assignment s.result (.access (.make w [i])) s.resultOp)).exec space env produced =
      produced.write s.result.tensorVar coords ((IndexStmt.forall i s).exec space env σ s.result.tensorVar coords) := by
    have hconsumes := @consumes V _ space env produced i w coords s.result s.resultOp h.fresh h.entered
      (List.range (space.dims i)) (produced s.result.tensorVar coords)
    rw [Store.write_eq_self] at hconsumes
    refine hconsumes.trans (congrArg (produced.write s.result.tensorVar coords) ?_)
    rw [hkept]
    exact hcomponent.symm
  have hrest : ∀ k, k ≠ coords → (IndexStmt.forall i s).exec space env σ s.result.tensorVar k = σ s.result.tensorVar k := by
    refine fun k hk => exec_of_notMem fun e he heq => hk ?_
    obtain ⟨c, -, he⟩ := List.mem_flatMap.mp he
    cases henter : space.enter i c env with
    | none =>
      rw [henter] at he
      cases he
    | some env' =>
      rw [henter] at he
      exact heq.symm.trans (h.coords c env' henter e he).1
  rw [exec_where, hresult, ← hproduced, hconsumed]
  funext t k
  rw [Store.restore]
  split_ifs with ht
  · have hother : w ≠ (IndexStmt.forall i s).result.tensorVar := Ne.symm h.fresh
    rw [List.mem_singleton.mp ht, exec_of_ne hother]
  · by_cases htensor : t = s.result.tensorVar
    · subst htensor
      by_cases hk : k = coords
      · rw [hk, Store.write_self]
      · rw [Store.write_of_coords_ne hk, hkept, hrest k hk]
    · have hnotMem : t ∉ [s.result.tensorVar, w] := by simp [htensor, mt List.mem_singleton.mpr ht]
      rw [Store.write_of_ne htensor]
      exact (congrFun (hagree t hnotMem) k).symm

end Temporary

end IndexStmt

/-! ### Concrete statements where more is defined -/

namespace ParallelizeReduction

open Parallelize (loopVars reductionIndexVars)
open ScalarPromote

variable {g : ProvenanceGraph} {i : IndexVar} {pl : Place} {s body : IndexStmt V} {space : Space}
variable {boundVars defined defined' : List IndexVar} {inWhereProducer : Bool}

/-- The statement is concrete where at least the given variables are defined, and at least the others are after it. -/
def ConcreteFrom (g : ProvenanceGraph) (boundVars : List IndexVar) (inWhereProducer : Bool)
    (defined defined' : List IndexVar) (s : IndexStmt V) : Prop :=
  ∀ known, defined ⊆ known → ∃ known', defined' ⊆ known' ∧ s.isConcrete g boundVars inWhereProducer known = (true, known')

theorem ConcreteFrom.forall (h : ConcreteFrom g (i :: boundVars) inWhereProducer (i :: defined) defined' s) :
    ConcreteFrom g boundVars inWhereProducer defined defined' (.forall i s) :=
  fun known hknown => h (i :: known) (List.cons_subset_cons i hknown)

theorem ConcreteFrom.where {consumer producer : IndexStmt V} {between : List IndexVar}
    (hproducer : ConcreteFrom g boundVars true defined between producer)
    (hconsumer : ConcreteFrom g boundVars inWhereProducer between defined' consumer) :
    ConcreteFrom g boundVars inWhereProducer defined defined' (.where consumer producer) := by
  intro known hknown
  obtain ⟨known', hknown', hproducer⟩ := hproducer known hknown
  obtain ⟨known'', hknown'', hconsumer⟩ := hconsumer known' hknown'
  exact ⟨known'', hknown'', isConcrete_where.mpr ⟨known', hproducer, hconsumer⟩⟩

theorem concreteFrom_of_isConcrete (h : s.isConcrete g boundVars inWhereProducer defined = (true, defined')) :
    ConcreteFrom g boundVars inWhereProducer defined defined' s := by
  induction s generalizing boundVars inWhereProducer defined defined' with
  | assignment lhs rhs compound =>
    intro known hknown
    rw [IndexStmt.isConcrete, Prod.mk.injEq, Bool.and_eq_true, List.all_eq_true] at h
    obtain ⟨⟨hcompound, hbound⟩, rfl⟩ := h
    refine ⟨known, hknown, ?_⟩
    rw [IndexStmt.isConcrete, Prod.mk.injEq, Bool.and_eq_true, List.all_eq_true]
    refine ⟨⟨hcompound, fun a ha => List.all_eq_true.mpr fun v hv => ?_⟩, rfl⟩
    exact IndexStmt.isBound_mono (List.Subset.refl _) hknown (List.all_eq_true.mp (hbound a ha) v hv)
  | «forall» i stmt ih => exact (ih h).forall
  | «where» consumer producer ihc ihp =>
    obtain ⟨between, hproducer, hconsumer⟩ := isConcrete_where.mp h
    exact (ihp hproducer).where (ihc hconsumer)

/-! ### Conditions -/

/-- The loops over a variable, and where they are. -/
def loopsOver (g : ProvenanceGraph) (i : IndexVar) : Place → IndexStmt V → List (Place × IndexStmt V)
  | _, .assignment _ _ _ => []
  | pl, .forall j stmt => if j = i then [(pl, stmt)] else loopsOver g i (pl.inLoop g j stmt) stmt
  | pl, .where consumer producer => loopsOver g i pl.inProducer producer ++ loopsOver g i pl.inConsumer consumer

/-- The loop reduces into its result only, whose variables are all defined around it and which it does not read; without
    an operator it is in a producer and each iteration assigns. -/
structure ReducesResult (space : Space) (g : ProvenanceGraph) (i : IndexVar) (pl : Place) (body : IndexStmt V) : Prop where
  reduces : precomputeAssignments g i body = [(body.result, body.resultOp)]
  outside : body.result.indexVars ⊆ pl.derivedIndices
  unread : ∀ r ∈ body.reads, r.tensorVar ≠ body.result.tensorVar
  assigns : body.resultOp = true ∨ Branch.producer ∈ pl.position ∧
    ∀ c env env', space.enter i c env = some env' → body.resultEnvs space env' ≠ []

/-- The loops over a variable can be parallelized: with temporaries, a loop that reduces does so into its result only, and
    with atomic stores the results of their bodies can be promoted. -/
structure Parallelizable (strategy : OutputRaceStrategy) (space : Space) (g : ProvenanceGraph) (i : IndexVar)
    (s : IndexStmt V) : Prop where
  assignsOnce : (s.lhsAccesses.map Access.tensorVar).Nodup
  temporary : strategy = .Temporary → ∀ loop ∈ loopsOver g i .start s,
    underivedForall g i loop.2 ∈ reductionIndexVars g s → ReducesResult space g i loop.1 loop.2
  atomics : strategy = .Atomics → ∀ loop ∈ loopsOver g i .start s, ∀ env,
    Promotable g false true space .start false loop.2 env ∧
      ∀ p ∈ entries g false true space .start loop.2 env, p.2 = false

/-- The new tensors are no tensors of the statement. -/
structure FreshNames (names : Names) (s : IndexStmt V) : Prop where
  val : ∀ position, Fresh (names.val position) s
  reads : ∀ r ∈ s.reads, ∀ position n, r.tensorVar ≠ names.w position n
  lhsAccesses : ∀ b ∈ s.lhsAccesses, ∀ position n, b.tensorVar ≠ names.w position n

theorem FreshNames.of_subset {names : Names} {s' : IndexStmt V} (h : FreshNames names s) (hreads : s'.reads ⊆ s.reads)
    (hlhs : s'.lhsAccesses ⊆ s.lhsAccesses) : FreshNames names s' :=
  ⟨fun position => (h.val position).of_subset hreads hlhs, fun r hr => h.reads r (hreads hr),
    fun b hb => h.lhsAccesses b (hlhs hb)⟩

/-- What is known of a statement at a place, and of its loops. -/
structure Placed (space : Space) (g : ProvenanceGraph) (names : Names) (boundVars : List IndexVar) (pl : Place)
    (s : IndexStmt V) : Prop where
  recovered : Recovered g boundVars pl.derivedIndices
  declares : Declares space g pl.derivedIndices s
  binds : s.bindsOnce boundVars = true
  fullyDerived : ∀ j ∈ loopVars s, g.isFullyDerived j = true
  assignsOnce : (s.lhsAccesses.map Access.tensorVar).Nodup
  fresh : FreshNames names s

namespace Placed

variable {names : Names} {consumer producer : IndexStmt V}

theorem inBody (h : Placed space g names boundVars pl (.forall i s)) :
    Placed space g names (i :: boundVars) (pl.inLoop g i s) s := by
  obtain ⟨hi, hloops⟩ := List.forall_mem_cons.mp h.fullyDerived
  have hbinds := h.binds
  rw [IndexStmt.bindsOnce, Bool.and_eq_true] at hbinds
  exact ⟨h.recovered.enter hi, h.declares.2, hbinds.2, hloops, h.assignsOnce,
    h.fresh.of_subset (List.Subset.refl _) (List.Subset.refl _)⟩

theorem inConsumer (h : Placed space g names boundVars pl (.where consumer producer)) :
    Placed space g names boundVars pl.inConsumer consumer := by
  have hbinds := h.binds
  have hnodup := h.assignsOnce
  rw [IndexStmt.bindsOnce, Bool.and_eq_true] at hbinds
  rw [IndexStmt.lhsAccesses, List.map_append, List.nodup_append'] at hnodup
  exact ⟨h.recovered, h.declares.1, hbinds.1, (List.forall_mem_append.mp h.fullyDerived).2, hnodup.1,
    h.fresh.of_subset (List.subset_append_left _ _) (List.subset_append_left _ _)⟩

theorem inProducer (h : Placed space g names boundVars pl (.where consumer producer)) :
    Placed space g names boundVars pl.inProducer producer := by
  have hbinds := h.binds
  have hnodup := h.assignsOnce
  rw [IndexStmt.bindsOnce, Bool.and_eq_true] at hbinds
  rw [IndexStmt.lhsAccesses, List.map_append, List.nodup_append'] at hnodup
  exact ⟨h.recovered, h.declares.2, hbinds.2, (List.forall_mem_append.mp h.fullyDerived).1, hnodup.2.1,
    h.fresh.of_subset (List.subset_append_right _ _) (List.subset_append_right _ _)⟩

end Placed

/-! ### Rewritten statements -/

/-- The statement is as valid as another one, and does what that does. -/
structure Kept [Ring V] (space : Space) (g : ProvenanceGraph) (boundVars : List IndexVar) (inWhereProducer : Bool)
    (defined defined' : List IndexVar) (s s' : IndexStmt V) : Prop where
  result : s'.result = s.result
  concrete : ConcreteFrom g boundVars inWhereProducer defined defined' s'
  binds : s'.bindsOnce boundVars = true
  fullyDerived : ∀ j ∈ loopVars s', g.isFullyDerived j = true
  exec : ∀ env (σ : Store V), s'.exec space env σ = s.exec space env σ

section Kept

variable [Ring V] {names : Names}

theorem Placed.kept (h : Placed space g names boundVars pl s)
    (hconcrete : s.isConcrete g boundVars inWhereProducer defined = (true, defined')) :
    Kept space g boundVars inWhereProducer defined defined' s s :=
  ⟨rfl, concreteFrom_of_isConcrete hconcrete, h.binds, h.fullyDerived, fun _ _ => rfl⟩

/-- The body of a loop with atomic stores is promoted as a part of a statement. -/
theorem Placed.atomics (h : Placed space g names boundVars pl (.forall i body)) (position : Position)
    (hpromotable : ∀ env, Promotable g false true space .start false body env ∧
      ∀ p ∈ entries g false true space .start body env, p.2 = false)
    (hconcrete : (IndexStmt.forall i body).isConcrete g boundVars inWhereProducer defined = (true, defined')) :
    Kept space g boundVars inWhereProducer defined defined' (.forall i body)
      (.forall i (scalarPromote g false true (names.val position) body)) := by
  have hbody := h.inBody
  have hbinds : body.bindsOnce [] = true := bindsOnce_mono (List.nil_subset _) hbody.binds
  have honce : DefinesOnce g [] body := definesOnce_of_bindsOnce Recovered.nil hbinds hbody.fullyDerived
  have hkeeps : KeepsIndices space g .start body :=
    keepsIndices Recovered.nil (List.Subset.refl _) (List.nil_subset _) hbody.declares hbinds hbody.fullyDerived
  rw [scalarPromote_eq (List.Nodup.of_map _ hbody.assignsOnce) honce]
  refine ⟨result_promote, ?_, ?_, ?_, fun env σ => ?_⟩
  · refine concreteFrom_of_isConcrete ?_
    exact @isConcrete_promote V g false true _ .start false body _ _ _ _ [] Recovered.nil (List.nil_subset _)
      (List.nil_subset _) hbody.fullyDerived (List.Subset.refl _) hconcrete
  · rw [IndexStmt.bindsOnce, bindsOnce_promote]
    exact h.binds
  · rw [loopVars, loopVars_promote]
    exact h.fullyDerived
  · refine exec_forall_congr fun c _ env' _ σ => ?_
    obtain ⟨hbodyPromotable, hstores⟩ := hpromotable env'
    refine exec_promote (hbody.fresh.val position) h.assignsOnce hkeeps hbodyPromotable (fun _ => ?_) fun _ p hp hmust => ?_
    · refine List.pairwise_of_forall_mem_list fun p _ q hq hmust => ?_
      exact absurd ((hstores q hq).symm.trans hmust) Bool.false_ne_true
    · exact absurd ((hstores p hp).symm.trans hmust) Bool.false_ne_true

omit [Ring V] in
/-- The iterations of a loop that reduces into its result update one component. -/
theorem Placed.accumulates (h : Placed space g names boundVars pl (.forall i body))
    (henter : ∀ c env env', space.enter i c env = some env' → env' i = c) (hreduces : ReducesResult space g i pl body)
    (position : Position) (env : Env) :
    IndexStmt.Accumulates space i (names.w position 0) body env (body.result.coords env) := by
  have hbody := h.inBody
  have hi : g.isFullyDerived i = true := h.fullyDerived i List.mem_cons_self
  have hbinds := h.binds
  rw [IndexStmt.bindsOnce, Bool.and_eq_true, decide_eq_true_eq] at hbinds
  have hentered : ∀ c env', space.enter i c env = some env' → ∀ v ∈ pl.derivedIndices, env' v = env v :=
    fun c env' hc v hv => h.declares.1 c env env' hc v fun hnew =>
      h.recovered.notMem h.recovered.bound hi hbinds.1 v hnew hv
  have hkept : ∀ env', ∀ e ∈ body.resultEnvs space env', ∀ v ∈ (pl.inLoop g i body).derivedIndices, e v = env' v :=
    fun env' e he => resultEnvs_recovered hbody.recovered hbody.recovered.bound hbody.declares hbody.binds
      hbody.fullyDerived he
  refine ⟨?_, fun r hr => ?_, fun p hp => ?_, fun c env' hc => ⟨?_, henter c env env' hc⟩, fun c env' hc e he => ⟨?_, ?_⟩, ?_⟩
  · exact hbody.fresh.lhsAccesses _ body.result_mem_lhsAccesses _ _
  · rw [List.mem_cons, List.mem_singleton, not_or]
    exact ⟨hreduces.unread r hr, hbody.fresh.reads r hr _ _⟩
  · rw [List.mem_cons, List.mem_singleton, not_or]
    exact ⟨IndexStmt.producerAccesses_ne h.assignsOnce p hp,
      hbody.fresh.lhsAccesses p (IndexStmt.producerAccesses_subset hp) _ _⟩
  · exact Access.coords_congr fun v hv => hentered c env' hc v (hreduces.outside hv)
  · refine Access.coords_congr fun v hv => ?_
    rw [hkept env' e he v (List.mem_append_right _ (hreduces.outside hv))]
    exact hentered c env' hc v (hreduces.outside hv)
  · rw [Access.coords_make, List.map_singleton, hkept env' e he i (List.mem_append_left _ (mem_newIndices g i _)),
      henter c env env' hc]
  · exact hreduces.assigns.imp id fun hassigns c _ env' hc => hassigns.2 c env env' hc

/-- A loop that reduces into its result is split into a producer and a consumer. -/
theorem Placed.temporary (h : Placed space g names boundVars pl (.forall i body))
    (henter : ∀ c env env', space.enter i c env = some env' → env' i = c) (hreduces : ReducesResult space g i pl body)
    (hproducer : Branch.producer ∈ pl.position → inWhereProducer = true) (hdefined : boundVars ⊆ defined)
    (hconcrete : (IndexStmt.forall i body).isConcrete g boundVars inWhereProducer defined = (true, defined'))
    (position : Position) : ∃ s', precomputeAll g (names.w position) i body = .ok s' ∧
      Kept space g boundVars inWhereProducer defined defined' (.forall i body) s' := by
  set w := Access.make (names.w position 0) [i] with hw
  have hbody := h.inBody
  have hall : precomputeAll g (names.w position) i body =
      .ok (.where (.forall i (.assignment body.result (.access w) body.resultOp))
        (.forall i (body.replaceReductionExpr body.result w))) := by
    rw [precomputeAll, hreduces.reduces]
    rfl
  have hbinds := h.binds
  rw [IndexStmt.bindsOnce, Bool.and_eq_true] at hbinds
  have hsubset : i :: defined ⊆ defined' := subset_of_isConcrete (s := body) hconcrete
  have hiw : ∀ u ∈ w.indexVars, u ∈ i :: boundVars := fun u hu => List.mem_singleton.mp hu ▸ List.mem_cons_self
  have hproduced : (IndexStmt.forall i (body.replaceReductionExpr body.result w)).isConcrete g boundVars true defined =
      (true, defined') := isConcrete_replaceReductionExpr hiw (isConcrete_inProducer (s := body) hconcrete)
  have hconsumed : (IndexStmt.assignment body.result (.access w) body.resultOp : IndexStmt V).isConcrete g (i :: boundVars)
      inWhereProducer (i :: defined') = (true, i :: defined') := by
    have hcompound : body.resultOp || inWhereProducer := by
      rw [Bool.or_eq_true]
      exact hreduces.assigns.imp id fun hassigns => hproducer hassigns.1
    rw [IndexStmt.isConcrete, Prod.mk.injEq, Bool.and_eq_true, Bool.or_eq_true, List.all_eq_true]
    refine ⟨⟨Or.inl hcompound, List.forall_mem_cons.mpr ⟨?_, List.forall_mem_singleton.mpr ?_⟩⟩, rfl⟩
    · refine List.all_eq_true.mpr fun v hv => h.recovered.isBound (List.subset_cons_self i boundVars) ?_ (hreduces.outside hv)
      exact List.Subset.trans (List.Subset.trans hdefined (List.subset_cons_self i defined))
        (List.Subset.trans hsubset (List.subset_cons_self i defined'))
    · simp [hw, Access.make, IndexStmt.isBound]
  refine ⟨_, hall, rfl, ?_, ?_, ?_, fun env σ => ?_⟩
  · refine (concreteFrom_of_isConcrete hproduced).where fun known hknown => ?_
    obtain ⟨known', hknown', hconsumed⟩ := concreteFrom_of_isConcrete hconsumed (i :: known) (List.cons_subset_cons i hknown)
    exact ⟨known', List.Subset.trans (List.subset_cons_self i defined') hknown', hconsumed⟩
  · simp only [IndexStmt.bindsOnce, hbinds.1, Bool.true_and, Bool.and_true, bindsOnce_replaceReductionExpr]
    exact hbinds.2
  · rw [loopVars, List.forall_mem_append, loopVars, loopVars_replaceReductionExpr]
    exact ⟨h.fullyDerived, List.forall_mem_singleton.mpr (h.fullyDerived i List.mem_cons_self)⟩
  · exact IndexStmt.exec_temporary (h.accumulates henter hreduces position env)

theorem Kept.forall {j : IndexVar} {s' : IndexStmt V}
    (h : Kept space g (j :: boundVars) inWhereProducer (j :: defined) defined' s s')
    (hplaced : Placed space g names boundVars pl (.forall j s)) :
    Kept space g boundVars inWhereProducer defined defined' (.forall j s) (.forall j s') := by
  have hbinds := hplaced.binds
  rw [IndexStmt.bindsOnce, Bool.and_eq_true] at hbinds
  refine ⟨h.result, h.concrete.forall, ?_, ?_, fun env σ => exec_forall_congr fun c _ env' _ => h.exec env'⟩
  · rw [IndexStmt.bindsOnce, hbinds.1, h.binds]
    rfl
  · exact List.forall_mem_cons.mpr ⟨hplaced.fullyDerived j List.mem_cons_self, h.fullyDerived⟩

theorem Kept.where {consumer producer consumer' producer' : IndexStmt V} {between : List IndexVar}
    (hproducer : Kept space g boundVars true defined between producer producer')
    (hconsumer : Kept space g boundVars inWhereProducer between defined' consumer consumer') :
    Kept space g boundVars inWhereProducer defined defined' (.where consumer producer) (.where consumer' producer') := by
  refine ⟨hconsumer.result, hproducer.concrete.where hconsumer.concrete, ?_, ?_, fun env σ => ?_⟩
  · rw [IndexStmt.bindsOnce, hconsumer.binds, hproducer.binds]
    rfl
  · exact List.forall_mem_append.mpr ⟨hproducer.fullyDerived, hconsumer.fullyDerived⟩
  · rw [IndexStmt.exec_where, IndexStmt.exec_where, hproducer.result, hproducer.exec, hconsumer.exec]

/-- What the rewriter makes of a statement whose loops can be parallelized. -/
theorem Placed.rewrite {strategy : OutputRaceStrategy} {preconditions : List IndexVar → IndexVar → IndexStmt V → Bool}
    {reductions : List IndexVar} {position : Position} {before : List IndexVar}
    (h : Placed space g names boundVars pl s) (henter : ∀ c env env', space.enter i c env = some env' → env' i = c)
    (htemporary : strategy = .Temporary → ∀ loop ∈ loopsOver g i pl s, underivedForall g i loop.2 ∈ reductions →
      ReducesResult space g i loop.1 loop.2)
    (hatomics : strategy = .Atomics → ∀ loop ∈ loopsOver g i pl s, ∀ env,
      Promotable g false true space .start false loop.2 env ∧
        ∀ p ∈ entries g false true space .start loop.2 env, p.2 = false)
    (hproducer : Branch.producer ∈ pl.position → inWhereProducer = true) (hdefined : boundVars ⊆ defined)
    (hconcrete : s.isConcrete g boundVars inWhereProducer defined = (true, defined')) :
    (rewrite strategy preconditions g names reductions i position before s).1 = .error .precondition ∨
      ∃ s', (rewrite strategy preconditions g names reductions i position before s).1 = .ok s' ∧
        Kept space g boundVars inWhereProducer defined defined' s s' := by
  induction s generalizing pl boundVars inWhereProducer defined defined' position before with
  | assignment lhs rhs compound => exact Or.inr ⟨_, rfl, h.kept hconcrete⟩
  | «forall» j stmt ih =>
    rw [loopsOver] at htemporary hatomics
    rw [ParallelizeReduction.rewrite]
    by_cases hj : j = i
    · subst hj
      rw [if_pos rfl] at htemporary hatomics ⊢
      split_ifs with hreduction hpreconditions
      · exact Or.inl rfl
      · right
        rw [parallelize]
        split_ifs with hreduces hstrategy
        · exact h.temporary henter (htemporary hreduces.1 _ (List.mem_singleton_self _) hreduces.2) hproducer hdefined
            hconcrete position
        · exact ⟨_, rfl, h.atomics position (hatomics hstrategy _ (List.mem_singleton_self _)) hconcrete⟩
        · exact ⟨_, rfl, h.kept hconcrete⟩
      · exact Or.inl rfl
    · rw [if_neg hj] at htemporary hatomics ⊢
      have hbelow : Branch.producer ∈ (pl.inLoop g j stmt).position → inWhereProducer = true := fun hmem =>
        hproducer ((List.mem_cons.mp hmem).resolve_left nofun)
      rcases @ih (pl.inLoop g j stmt) _ _ _ _ (.stmt :: position) (j :: before) h.inBody htemporary hatomics hbelow
        (List.cons_subset_cons j hdefined) hconcrete with herror | ⟨s', hok, hkept⟩
      · exact Or.inl (congrArg (Except.map _) herror)
      · exact Or.inr ⟨_, congrArg (Except.map _) hok, hkept.forall h⟩
  | «where» consumer producer ihc ihp =>
    rw [loopsOver] at htemporary hatomics
    obtain ⟨between, hproducerConcrete, hconsumerConcrete⟩ := isConcrete_where.mp hconcrete
    have hbetween : boundVars ⊆ between := List.Subset.trans hdefined (subset_of_isConcrete hproducerConcrete)
    have hp := @ihp pl.inProducer _ _ _ _ (.producer :: position) before h.inProducer
      (fun hs loop hloop => htemporary hs loop (List.mem_append_left _ hloop))
      (fun hs loop hloop => hatomics hs loop (List.mem_append_left _ hloop)) (fun _ => rfl) hdefined hproducerConcrete
    have hc := @ihc pl.inConsumer _ _ _ _ (.consumer :: position)
      (ParallelizeReduction.rewrite strategy preconditions g names reductions i (.producer :: position) before producer).2
      h.inConsumer (fun hs loop hloop => htemporary hs loop (List.mem_append_right _ hloop))
      (fun hs loop hloop => hatomics hs loop (List.mem_append_right _ hloop))
      (fun hmem => hproducer ((List.mem_cons.mp hmem).resolve_left nofun)) hbetween hconsumerConcrete
    change rewriteWhere _ _ = _ ∨ ∃ s', rewriteWhere _ _ = _ ∧ _
    rcases hp with hp | ⟨producer', hp, hproducerKept⟩ <;> rcases hc with hc | ⟨consumer', hc, hconsumerKept⟩ <;> rw [hp, hc]
    · exact Or.inl rfl
    · exact Or.inl rfl
    · exact Or.inl rfl
    · exact Or.inr ⟨_, rfl, hproducerKept.where hconsumerKept⟩

end Kept

open Parallelize (isForLoop)
open Workspace (Format)

def exampleNames : Names := ⟨fun _ _ => 2, fun _ position _ => freshScalar 3 position⟩

theorem exampleNames_fresh (hreads : ∀ r ∈ s.reads, r.tensorVar < 2) (hlhs : ∀ b ∈ s.lhsAccesses, b.tensorVar < 2) :
    FreshNames exampleNames s where
  val _ := fresh_freshScalar (Nat.succ_pos 2) (fun r hr => Nat.lt_succ_of_lt (hreads r hr))
    fun b hb => Nat.lt_succ_of_lt (hlhs b hb)
  reads r hr _ _ := (hreads r hr).ne
  lhsAccesses b hb _ _ := (hlhs b hb).ne

def denseFormat (rank : ℕ) : TensorVar → Format := fun t =>
  if t = 1 then ⟨[.Dense, .Dense], [0, 1], Format.perm_matrix⟩
  else if rank = 0 then ⟨[], [], by decide⟩ else ⟨[.Dense], [0], Format.perm_vector⟩

/-- All components of a matrix are summed up. -/
def matrixSum : IndexStmt ℤ := .forall 0 (.forall 1 (.assignment (.make 0 []) (.access (.make 1 [0, 1])) true))

theorem matrixSum_valid : Valid ⟨[]⟩ matrixSum := ⟨rfl, rfl, fun _ _ => rfl⟩

theorem matrixSum_parallelizable : Parallelizable .Temporary (.underived fun _ => 2) ⟨[]⟩ 0 matrixSum where
  assignsOnce := List.nodup_singleton _
  temporary := by
    intro _ loop hloop _
    rw [List.mem_singleton.mp hloop]
    refine ⟨rfl, List.nil_subset _, fun r hr => ?_, Or.inl rfl⟩
    rw [List.mem_singleton.mp hr]
    exact Nat.one_ne_zero
  atomics := nofun

example : ∃ s', apply .Temporary (fun _ => isForLoop (denseFormat 0)) ⟨[]⟩ exampleNames 0 matrixSum = .ok s' := ⟨_, rfl⟩

/-- The columns of a matrix are summed up; the loop over its rows reduces. -/
def columnSums : IndexStmt ℤ := .forall 0 (.forall 1 (.assignment (.make 0 [1]) (.access (.make 1 [0, 1])) true))

theorem columnSums_valid : Valid ⟨[]⟩ columnSums := ⟨rfl, rfl, fun _ _ => rfl⟩

end ParallelizeReduction

end Concrete
end Taco
