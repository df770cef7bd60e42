import Taco.Library.VarVisits
import Taco.Notation.MakeConcrete

/-! What the loops and the temporaries of `makeConcreteNotation` leave in the result. -/

namespace Taco
namespace Notation

variable {R : Type} [AddCommMonoid R] (ops : Operations R) (dims : IndexVar → ℕ)

/-! ### What a value depends on -/

namespace IndexExpr

theorem accessesList_eq (args : List IndexExpr) : accessesList args = args.flatMap accesses := by
  induction args with
  | nil => rfl
  | cons a as ih => rw [accessesList, ih, List.flatMap_cons]

theorem values_eq (σ : Component → R) (args : List IndexExpr) (env : IndexVar → ℕ) :
    values ops dims σ args env = args.map fun a => a.value ops dims σ env := by
  induction args with
  | nil => rfl
  | cons a as ih => rw [values, ih, List.map_cons]

theorem onlySumsAll_eq (args : List IndexExpr) : onlySumsAll args = args.all onlySums := by
  induction args with
  | nil => rfl
  | cons a as ih => rw [onlySumsAll, ih, List.all_cons]

variable {σ σ' : Component → R} {env env' : IndexVar → ℕ}

/-- The value of a reduction depends on the values of what it reduces. -/
theorem value_reduction_congr {op a a' : IndexExpr} {var : IndexVar}
    (h : ∀ x < dims var, a.value ops dims σ (Function.update env var x) = a'.value ops dims σ' (Function.update env' var x)) :
    (reduction op var a).value ops dims σ env = (reduction op var a').value ops dims σ' env' := by
  rw [value, value]
  split_ifs
  · exact Finset.sum_congr rfl fun x hx => h x (Finset.mem_range.mp hx)
  · exact congrArg (ops.reduce op) (List.map_congr_left fun x hx => h x (List.mem_range.mp hx))

/-- The value depends on the components that are accessed. -/
theorem value_congr {e : IndexExpr} (h : ∀ a ∈ e.accesses, ∀ env, σ (a.component env) = σ' (a.component env)) :
    e.value ops dims σ env = e.value ops dims σ' env := by
  induction e using IndexExpr.induction generalizing env with
  | undefined | literal _ _ => rfl
  | access a => exact h a (List.mem_singleton_self a) env
  | neg a ih | sqrt a ih | cast a _ ih => rw [value, value, ih h]
  | add a b iha ihb | sub a b iha ihb | mul a b iha ihb | div a b iha ihb =>
    rw [value, value, iha fun x hx => h x (List.mem_append_left _ hx), ihb fun x hx => h x (List.mem_append_right _ hx)]
  | callIntrinsic func args ih =>
    rw [value, value, values_eq, values_eq]
    refine congrArg (ops.callIntrinsic func) (List.map_congr_left fun a ha => ih a ha fun x hx => h x ?_)
    rw [accesses, accessesList_eq]
    exact List.mem_flatMap.mpr ⟨a, ha, hx⟩
  | reduction op var a ih => exact value_reduction_congr ops dims fun x _ => ih h

/-! ### An expression below nodes -/

theorem mem_accesses_plug {frames : List Frame} {e : IndexExpr} {a : Access} :
    a ∈ (plug frames e).accesses ↔ a ∈ (plug frames undefined).accesses ∨ a ∈ e.accesses := by
  induction frames with
  | nil => exact (or_iff_right List.not_mem_nil).symm
  | cons f frames ih =>
    rw [plug, plug, List.foldr_cons, List.foldr_cons, ← plug, ← plug]
    cases f with
    | neg | sqrt | cast type => exact ih
    | addLeft b | subLeft b | mulLeft b | divLeft b =>
      simp only [Frame.fill, accesses, List.mem_append, ih]
      exact or_right_comm
    | addRight b | subRight b | mulRight b | divRight b =>
      simp only [Frame.fill, accesses, List.mem_append, ih]
      exact or_assoc.symm
    | callIntrinsic func before after =>
      simp only [Frame.fill, accesses, accessesList_eq, List.flatMap_append, List.flatMap_cons, List.mem_append, ih]
      tauto

theorem onlySums_plug (frames : List Frame) (e : IndexExpr) :
    (plug frames e).onlySums = ((plug frames undefined).onlySums && e.onlySums) := by
  induction frames with
  | nil => exact (Bool.true_and _).symm
  | cons f frames ih =>
    rw [plug, plug, List.foldr_cons, List.foldr_cons, ← plug, ← plug]
    cases f with
    | neg | sqrt | cast type => exact ih
    | addLeft b | subLeft b | mulLeft b | divLeft b =>
      simp only [Frame.fill, onlySums, ih]
      exact Bool.and_right_comm _ _ _
    | addRight b | subRight b | mulRight b | divRight b =>
      simp only [Frame.fill, onlySums, ih]
      exact (Bool.and_assoc _ _ _).symm
    | callIntrinsic func before after =>
      simp only [Frame.fill, onlySums, onlySumsAll_eq, List.all_append, List.all_cons, ih]
      simp only [Bool.and_comm, Bool.and_left_comm]

/-- The nodes around a place have the value they have for what stands in that place. -/
theorem value_plug_congr {frames : List Frame} {e e' : IndexExpr}
    (h : ∀ a ∈ (plug frames undefined).accesses, ∀ env, σ (a.component env) = σ' (a.component env))
    (he : e.value ops dims σ env = e'.value ops dims σ' env) :
    (plug frames e).value ops dims σ env = (plug frames e').value ops dims σ' env := by
  induction frames with
  | nil => exact he
  | cons f frames ih =>
    rw [plug, List.foldr_cons, ← plug] at h
    rw [plug, plug, List.foldr_cons, List.foldr_cons, ← plug, ← plug]
    cases f with
    | neg | sqrt | cast type => simp only [Frame.fill, value, ih h]
    | addLeft b | subLeft b | mulLeft b | divLeft b =>
      simp only [Frame.fill, value, ih fun a ha => h a (List.mem_append_left _ ha),
        value_congr ops dims (e := b) fun a ha => h a (List.mem_append_right _ ha)]
    | addRight b | subRight b | mulRight b | divRight b =>
      simp only [Frame.fill, value, ih fun a ha => h a (List.mem_append_right _ ha),
        value_congr ops dims (e := b) fun a ha => h a (List.mem_append_left _ ha)]
    | callIntrinsic func before after =>
      simp only [Frame.fill, accesses, accessesList_eq, List.flatMap_append, List.flatMap_cons, List.mem_append] at h
      have hbefore : ∀ b ∈ before, b.value ops dims σ env = b.value ops dims σ' env := fun b hb =>
        value_congr ops dims fun a ha => h a (Or.inl (List.mem_flatMap.mpr ⟨b, hb, ha⟩))
      have hafter : ∀ b ∈ after, b.value ops dims σ env = b.value ops dims σ' env := fun b hb =>
        value_congr ops dims fun a ha => h a (Or.inr (Or.inr (List.mem_flatMap.mpr ⟨b, hb, ha⟩)))
      simp only [Frame.fill, value, values_eq, List.map_append, List.map_cons]
      rw [List.map_congr_left hbefore, List.map_congr_left hafter, ih fun a ha => h a (Or.inr (Or.inl ha))]

end IndexExpr

/-! ### Temporaries -/

section Temporaries

variable {lhs : Access} {rhs op : IndexExpr} {fresh : ℕ}

theorem le_replaceReductionsWithWheres : fresh ≤ (replaceReductionsWithWheres lhs rhs op fresh).2 := by
  fun_induction replaceReductionsWithWheres lhs rhs op fresh with
  | case1 => exact Nat.le_refl _
  | case2 lhs rhs op fresh r h consumer producer ihc ihp => exact (Nat.le_succ _).trans (ihc.trans ihp)

theorem results_replaceReductions : (replaceReductionsWithWheres lhs rhs op fresh).1.results = [lhs.tensorVar] := by
  fun_induction replaceReductionsWithWheres lhs rhs op fresh with
  | case1 => rfl
  | case2 lhs rhs op fresh r h consumer producer ihc ihp => exact ihc

/-- What is replaced, and what is left. -/
theorem of_replaceReduction {r : Reduction} (h : (rhs.replaceReduction fresh none).2 = some r) (hsums : rhs.onlySums = true)
    (hids : ∀ a ∈ rhs.accesses, a.tensorVar.id < fresh) : ∃ frames, rhs = IndexExpr.plug frames (.ofReduction r) ∧
      (rhs.replaceReduction fresh none).1 = IndexExpr.plug frames (.access (r.expr.temporary fresh)) ∧
      (rhs.replaceReduction fresh none).1.onlySums = true ∧ r.expr.onlySums = true ∧ r.op.isSum = true ∧
      (∀ a ∈ (rhs.replaceReduction fresh none).1.accesses, a.tensorVar.id < fresh + 1) ∧
      (∀ a ∈ (IndexExpr.plug frames .undefined).accesses, a.tensorVar.id < fresh) ∧
      ∀ a ∈ r.expr.accesses, a.tensorVar.id < fresh := by
  have hreplaced := IndexExpr.replaced fresh rhs
  rw [IndexExpr.Replaced, h] at hreplaced
  obtain ⟨frames, he, he'⟩ := hreplaced
  rw [he, IndexExpr.onlySums_plug, Bool.and_eq_true, IndexExpr.ofReduction, IndexExpr.onlySums, Bool.and_eq_true] at hsums
  have haround : ∀ a ∈ (IndexExpr.plug frames .undefined).accesses, a.tensorVar.id < fresh := fun a ha =>
    hids a (he ▸ IndexExpr.mem_accesses_plug.mpr (Or.inl ha))
  refine ⟨frames, he, he', ?_, hsums.2.2, hsums.2.1, ?_, haround, fun a ha => ?_⟩
  · rw [he', IndexExpr.onlySums_plug, hsums.1]
    rfl
  · intro a ha
    rw [he', IndexExpr.mem_accesses_plug] at ha
    rcases ha with ha | ha
    · exact (haround a ha).trans (Nat.lt_succ_self _)
    · rw [List.mem_singleton.mp ha]
      exact Nat.lt_succ_self _
  · exact hids a (he ▸ IndexExpr.mem_accesses_plug.mpr (Or.inr ha))

variable {ops dims}

/-- Loops that add to one component, and leave the others that are seen. -/
theorem foldl_adds (l : List ℕ) (step : (Component → R) → ℕ → Component → R) (seen : Component → Prop) (place : Component)
    (term : ℕ → R) {σ τ : Component → R} (hplace : seen place) (hτ : ∀ c, seen c → c ≠ place → τ c = σ c)
    (hstep : ∀ τ x, x ∈ l → (∀ c, seen c → c ≠ place → τ c = σ c) → ∀ c, seen c →
      step τ x c = if c = place then τ c + term x else τ c) :
    (∀ c, seen c → c ≠ place → l.foldl step τ c = σ c) ∧ l.foldl step τ place = τ place + (l.map term).sum := by
  induction l generalizing τ with
  | nil => exact ⟨hτ, (add_zero _).symm⟩
  | cons x l ih =>
    have hx := hstep τ x List.mem_cons_self hτ
    have hstepped : ∀ c, seen c → c ≠ place → step τ x c = σ c := fun c hc hne => by rw [hx c hc, if_neg hne, hτ c hc hne]
    obtain ⟨hothers, hsum⟩ := ih hstepped fun τ y hy => hstep τ y (List.mem_cons_of_mem _ hy)
    refine ⟨hothers, ?_⟩
    rw [List.foldl_cons, hsum, hx place hplace, if_pos rfl, List.map_cons, List.sum_cons, add_assoc]

theorem sum_map_range (n : ℕ) (f : ℕ → R) : ((List.range n).map f).sum = ∑ x ∈ Finset.range n, f x :=
  (Multiset.sum_coe _).symm

theorem assigned_of_isSum {op : IndexExpr} (h : op.isSum = true) (old new : R) : assigned ops op old new = old + new := by
  cases op with
  | add a b => rw [assigned, if_neg (by simp [IndexExpr.isUndefined]), if_pos h]
  | _ => cases h

theorem exec_assignment (env : IndexVar → ℕ) (σ : Component → R) (c : Component) :
    (IndexStmt.assignment lhs rhs op).exec ops dims env σ c =
      if c = lhs.component env then assigned ops op (σ c) (rhs.value ops dims σ env) else σ c := by
  rw [IndexStmt.exec, Function.update_apply]
  split_ifs with hc
  · rw [hc]
  · rfl

/-- The statement does to the tensors before `fresh` what an assignment does. -/
def ActsAs (ops : Operations R) (dims : IndexVar → ℕ) (fresh : ℕ) (stmt : IndexStmt) (lhs : Access) (rhs op : IndexExpr) : Prop :=
  ∀ env σ c, c.1.id < fresh → stmt.exec ops dims env σ c =
    if c = lhs.component env then assigned ops op (σ c) (rhs.value ops dims σ env) else σ c

theorem Access.component_congr {a : Access} {env env' : IndexVar → ℕ} (h : ∀ v ∈ a.indexVars, env v = env' v) :
    a.component env = a.component env' := by
  rw [component, component]
  congr 2
  refine List.ext_getElem (by simp) fun n hn hn' => ?_
  rw [List.length_mapIdx] at hn
  simp only [List.getElem_mapIdx, h _ (List.getElem_mem hn)]

theorem Access.component_update {a : Access} {env : IndexVar → ℕ} {v : IndexVar} (hv : v ∉ a.indexVars) (x : ℕ) :
    a.component (Function.update env v x) = a.component env := by
  refine component_congr fun u hu => Function.update_of_ne ?_ _ _
  rintro rfl
  exact hv hu

theorem IndexExpr.noReads_iff {t : TensorVar} {e : IndexExpr} : e.noReads t = true ↔ ∀ a ∈ e.accesses, a.tensorVar ≠ t := by
  simp [noReads]

/-- A loop around what adds to a component adds the sum. -/
theorem ActsAs.forall {stmt : IndexStmt} {plus : IndexExpr} {v : IndexVar} (h : ActsAs ops dims fresh stmt lhs rhs plus)
    (hplus : plus.isSum = true) (hop : op.isSum = true) (hv : v ∉ lhs.indexVars) (hlhs : lhs.tensorVar.id < fresh)
    (hids : ∀ a ∈ rhs.accesses, a.tensorVar.id < fresh) (hreads : rhs.noReads lhs.tensorVar = true) :
    ActsAs ops dims fresh (.forall v stmt .none) lhs (.reduction op v rhs) plus := by
  intro env σ c hc
  rw [IndexExpr.noReads_iff] at hreads
  obtain ⟨hothers, hsum⟩ := foldl_adds (List.range (dims v)) (fun σ x => stmt.exec ops dims (Function.update env v x) σ)
    (fun c => c.1.id < fresh) (lhs.component env) (fun x => rhs.value ops dims σ (Function.update env v x)) hlhs
    (fun _ _ _ => rfl) (fun τ x _ hτ c hc => by
      have hvalue : rhs.value ops dims τ (Function.update env v x) = rhs.value ops dims σ (Function.update env v x) := by
        refine IndexExpr.value_congr ops dims fun a ha env' => hτ _ (hids a ha) fun heq => ?_
        exact hreads a ha (congrArg Prod.fst heq)
      rw [h _ _ _ hc, assigned_of_isSum hplus, hvalue, Access.component_update hv])
  rw [IndexStmt.exec]
  split_ifs with hplace
  · rw [hplace, hsum, assigned_of_isSum hplus, IndexExpr.value, if_pos hop, sum_map_range]
  · exact hothers c hc hplace

/-- With its temporaries, an assignment does to the tensors that were there before what it does without. -/
theorem actsAs_replaceReductions (hsums : rhs.onlySums = true) (hids : ∀ a ∈ rhs.accesses, a.tensorVar.id < fresh)
    (hlhs : lhs.tensorVar.id < fresh) :
    ActsAs ops dims fresh (replaceReductionsWithWheres lhs rhs op fresh).1 lhs rhs op := by
  fun_induction replaceReductionsWithWheres lhs rhs op fresh with
  | case1 => exact fun env σ c _ => exec_assignment env σ c
  | case2 lhs rhs op fresh r h consumer producer ihc ihp =>
    obtain ⟨frames, he, he', hsums', hbodysums, hsum, hids', haround, hbody⟩ := of_replaceReduction h hsums hids
    have hnext : fresh < consumer.2 := le_replaceReductionsWithWheres
    have hold : ∀ c : Component, c.1.id < fresh → c.1 ≠ (r.expr.temporary fresh).tensorVar := by
      intro c hc heq
      rw [heq] at hc
      exact lt_irrefl _ hc
    have hproducer : ActsAs ops dims consumer.2 (.forall r.var producer.1 .none) (r.expr.temporary fresh) (.ofReduction r) r.op :=
      (ihp hbodysums (fun a ha => (hbody a ha).trans hnext) hnext).forall hsum hsum List.not_mem_nil hnext
        (fun a ha => (hbody a ha).trans hnext)
        (IndexExpr.noReads_iff.mpr fun a ha => hold (a.component fun _ => 0) (hbody a ha))
    intro env σ c hc
    have hresults : (IndexStmt.forall r.var producer.1 .none).results = [(r.expr.temporary fresh).tensorVar] :=
      results_replaceReductions
    rw [IndexStmt.exec, hresults]
    generalize hzero : (fun c : Component => if c.1 ∈ [(r.expr.temporary fresh).tensorVar] then (0 : R) else σ c) = zeroed
    have hothers : ∀ c, c.1.id < fresh → zeroed c = σ c := by
      intro c hc
      rw [← hzero]
      exact if_neg fun hmem => hold c hc (List.mem_singleton.mp hmem)
    have hplace : zeroed ((r.expr.temporary fresh).component env) = 0 := by
      rw [← hzero]
      exact if_pos (List.mem_singleton_self _)
    generalize hproduced : (IndexStmt.forall r.var producer.1 .none).exec ops dims env zeroed = produced
    have hkept : ∀ c, c.1.id < fresh → produced c = σ c := by
      intro c hc
      rw [← hproduced, hproducer _ _ _ (hc.trans hnext), if_neg fun heq => hold c hc (congrArg Prod.fst heq), hothers c hc]
    have htemporary : produced ((r.expr.temporary fresh).component env) = (IndexExpr.ofReduction r).value ops dims σ env := by
      rw [← hproduced, hproducer _ _ _ hnext, if_pos rfl, assigned_of_isSum hsum, hplace, zero_add]
      exact IndexExpr.value_congr ops dims fun a ha env' => hothers _ (hbody a ha)
    have hvalue : (rhs.replaceReduction fresh none).1.value ops dims produced env = rhs.value ops dims σ env := by
      rw [he', he]
      exact IndexExpr.value_plug_congr ops dims (fun a ha env' => hkept _ (haround a ha)) htemporary
    rw [ihc hsums' hids' (hlhs.trans (Nat.lt_succ_self _)) _ _ _ (hc.trans (Nat.lt_succ_self _)), hvalue, hkept c hc]

/-! ### Reductions that cover the right-hand side -/

namespace IndexExpr

theorem accesses_topLevelReductions (e : IndexExpr) : e.topLevelReductions.2.accesses = e.accesses := by
  induction e using IndexExpr.induction with
  | reduction op var a ih => exact ih
  | _ => rfl

theorem onlySums_topLevelReductions {e : IndexExpr} (h : e.onlySums = true) : e.topLevelReductions.2.onlySums = true := by
  induction e using IndexExpr.induction with
  | reduction op var a ih =>
    rw [onlySums, Bool.and_eq_true] at h
    exact ih h.2
  | _ => exact h

theorem topLevelReductions_of_isEmpty {e : IndexExpr} (h : e.topLevelReductions.1 = []) : e.topLevelReductions.2 = e := by
  cases e with
  | reduction op var a => cases h
  | _ => rfl

end IndexExpr

theorem nest_append (loops loops' : List Loop) (body : IndexStmt) :
    IndexStmt.nest (loops ++ loops') body = IndexStmt.nest loops (IndexStmt.nest loops' body) :=
  List.foldr_append

/-- The loops of the covering reductions add up what they reduce. -/
theorem ActsAs.nest {stmt : IndexStmt} (h : ActsAs ops dims fresh stmt lhs rhs.topLevelReductions.2 .plus)
    (hsums : rhs.onlySums = true) (hapart : ∀ v ∈ rhs.topLevelReductions.1, v ∉ lhs.indexVars) (hlhs : lhs.tensorVar.id < fresh)
    (hids : ∀ a ∈ rhs.accesses, a.tensorVar.id < fresh) (hreads : rhs.noReads lhs.tensorVar = true) :
    ActsAs ops dims fresh (.nest (rhs.topLevelReductions.1.map fun i => ⟨i, .none⟩) stmt) lhs rhs .plus := by
  induction rhs using IndexExpr.induction with
  | reduction op var a ih =>
    rw [IndexExpr.onlySums, Bool.and_eq_true] at hsums
    have hbody := ih h hsums.2 (fun v hv => hapart v (List.mem_cons_of_mem _ hv)) hids hreads
    exact hbody.forall rfl hsums.1 (hapart var List.mem_cons_self) hlhs hids hreads
  | _ => exact h

end Temporaries

/-! ### Loops over the free variables -/

namespace IndexExpr

variable {ops dims} {σ σ' : Component → R}

theorem of_foldl_checkBound {vars boundVars : List IndexVar} {st : ReductionCheck}
    (h : (vars.foldl (checkBound boundVars) st).isReduction = true) :
    st.isReduction = true ∧ ∀ v ∈ vars, v ∈ boundVars := by
  induction vars generalizing st with
  | nil => exact ⟨h, fun v hv => absurd hv List.not_mem_nil⟩
  | cons v vars ih =>
    obtain ⟨hst, hvars⟩ := ih h
    rw [checkBound] at hst
    split_ifs at hst with hv
    refine ⟨hst, fun u hu => ?_⟩
    rcases List.mem_cons.mp hu with rfl | hu
    · exact List.contains_iff_mem.mp hv
    · exact hvars u hu

/-- What the check of reduction notation says of the values. -/
theorem value_of_matchReduction {e : IndexExpr} {boundVars : List IndexVar} {st : ReductionCheck}
    (h : (matchReduction boundVars st e).isReduction = true) :
    st.isReduction = true ∧ ∀ {env env' : IndexVar → ℕ}, (∀ v ∈ boundVars, env v = env' v) →
      e.value ops dims σ env = e.value ops dims σ env' := by
  induction e using IndexExpr.induction generalizing boundVars st with
  | undefined | literal _ _ => exact ⟨h, fun _ => rfl⟩
  | access a =>
    obtain ⟨hst, hvars⟩ := of_foldl_checkBound h
    exact ⟨hst, fun henv => congrArg σ (Access.component_congr fun v hv => henv v (hvars v hv))⟩
  | neg a ih | sqrt a ih | cast a _ ih =>
    obtain ⟨hst, hvalue⟩ := ih h
    exact ⟨hst, fun henv => by rw [value, value, hvalue henv]⟩
  | add a b iha ihb | sub a b iha ihb | mul a b iha ihb | div a b iha ihb =>
    obtain ⟨ha, hb⟩ := ihb h
    obtain ⟨hst, ha⟩ := iha ha
    exact ⟨hst, fun henv => by rw [value, value, ha henv, hb henv]⟩
  | callIntrinsic func args ih =>
    have hargs : st.isReduction = true ∧ ∀ {env env' : IndexVar → ℕ}, (∀ v ∈ boundVars, env v = env' v) →
        values ops dims σ args env = values ops dims σ args env' := by
      rw [matchReduction] at h
      induction args generalizing st with
      | nil => exact ⟨h, fun _ => rfl⟩
      | cons a as ihas =>
        obtain ⟨has, hvalues⟩ := ihas (fun b hb => ih b (List.mem_cons_of_mem _ hb)) h
        obtain ⟨hst, hvalue⟩ := ih a List.mem_cons_self has
        exact ⟨hst, fun henv => by rw [values, values, hvalue henv, hvalues henv]⟩
    exact ⟨hargs.1, fun henv => by rw [value, value, hargs.2 henv]⟩
  | reduction op var a ih =>
    obtain ⟨hst, hvalue⟩ := ih h
    refine ⟨hst, fun henv => value_reduction_congr ops dims fun x _ => hvalue fun v hv => ?_⟩
    by_cases hvar : v = var
    · rw [hvar, Function.update_self, Function.update_self]
    · rw [Function.update_of_ne hvar, Function.update_of_ne hvar]
      exact henv v ((List.mem_cons.mp hv).resolve_left hvar)

/-- The value of an expression that reads the result by the left-hand side only. -/
theorem value_readsOwn {lhs : Access} {e : IndexExpr} {env : IndexVar → ℕ} (h : e.readsOwn lhs = true)
    (hothers : ∀ a ∈ e.accesses, a.tensorVar ≠ lhs.tensorVar → ∀ env, σ (a.component env) = σ' (a.component env))
    (hplace : σ (lhs.component env) = σ' (lhs.component env)) : e.value ops dims σ env = e.value ops dims σ' env := by
  induction e using IndexExpr.induction generalizing env with
  | undefined | literal _ _ => rfl
  | access a =>
    rw [readsOwn, Bool.or_eq_true, decide_eq_true_eq, decide_eq_true_eq] at h
    rcases h with rfl | h
    · exact hplace
    · exact hothers a (List.mem_singleton_self a) h env
  | neg a ih | sqrt a ih | cast a _ ih => rw [value, value, ih h hothers hplace]
  | add a b iha ihb | sub a b iha ihb | mul a b iha ihb | div a b iha ihb =>
    rw [readsOwn, Bool.and_eq_true] at h
    rw [value, value, iha h.1 (fun x hx => hothers x (List.mem_append_left _ hx)) hplace,
      ihb h.2 (fun x hx => hothers x (List.mem_append_right _ hx)) hplace]
  | callIntrinsic func args ih =>
    have hargs : values ops dims σ args env = values ops dims σ' args env := by
      rw [readsOwn] at h
      rw [accesses] at hothers
      induction args with
      | nil => rfl
      | cons a as ihas =>
        rw [readsOwnAll, Bool.and_eq_true] at h
        rw [values, values, ih a List.mem_cons_self h.1 (fun x hx => hothers x (List.mem_append_left _ hx)) hplace,
          ihas (fun b hb => ih b (List.mem_cons_of_mem _ hb)) h.2 fun x hx => hothers x (List.mem_append_right _ hx)]
    rw [value, value, hargs]
  | reduction op var a ih =>
    rw [readsOwn] at h
    refine value_reduction_congr ops dims fun x _ => ?_
    split_ifs at h with hvar
    · exact value_congr ops dims fun b hb => hothers b hb (noReads_iff.mp h b hb)
    · refine ih h hothers ?_
      rw [Access.component_update fun hmem => hvar (List.contains_iff_mem.mpr hmem)]
      exact hplace

theorem readsOwn_of_noReads {lhs : Access} {e : IndexExpr} (h : e.noReads lhs.tensorVar = true) : e.readsOwn lhs = true := by
  rw [noReads_iff] at h
  induction e using IndexExpr.induction with
  | undefined | literal _ _ => rfl
  | access a =>
    rw [readsOwn, Bool.or_eq_true, decide_eq_true_eq, decide_eq_true_eq]
    exact Or.inr (h a (List.mem_singleton_self a))
  | neg a ih | sqrt a ih | cast a _ ih => exact ih h
  | add a b iha ihb | sub a b iha ihb | mul a b iha ihb | div a b iha ihb =>
    rw [readsOwn, Bool.and_eq_true]
    exact ⟨iha fun x hx => h x (List.mem_append_left _ hx), ihb fun x hx => h x (List.mem_append_right _ hx)⟩
  | callIntrinsic func args ih =>
    rw [accesses] at h
    rw [readsOwn]
    induction args with
    | nil => rfl
    | cons a as ihas =>
      rw [readsOwnAll, Bool.and_eq_true]
      exact ⟨ih a List.mem_cons_self fun x hx => h x (List.mem_append_left _ hx),
        ihas (fun b hb => ih b (List.mem_cons_of_mem _ hb)) fun x hx => h x (List.mem_append_right _ hx)⟩
  | reduction op var a ih =>
    rw [readsOwn]
    split_ifs
    · exact noReads_iff.mpr h
    · exact ih h

end IndexExpr

section Loops

open VarVisits (visits)

variable {ops dims} {lhs : Access} {rhs op : IndexExpr} {fresh : ℕ} {stmt : IndexStmt}

theorem exec_nest (vars : List IndexVar) (env : IndexVar → ℕ) (σ : Component → R) :
    (IndexStmt.nest (vars.map fun i => ⟨i, .none⟩) stmt).exec ops dims env σ =
      (visits dims vars env).foldl (fun σ e => stmt.exec ops dims e σ) σ := by
  induction vars generalizing env σ with
  | nil => rfl
  | cons v vars ih =>
    rw [VarVisits.foldl_visits_cons, List.map_cons, IndexStmt.nest, List.foldr_cons, ← IndexStmt.nest, IndexStmt.exec]
    exact congrArg (fun step => (List.range (dims v)).foldl step σ) (funext₂ fun σ x => ih _ σ)

/-- A component that is not accessed on the left keeps what it has. -/
theorem ActsAs.foldl_of_ne (h : ActsAs ops dims fresh stmt lhs rhs op) {envs : List (IndexVar → ℕ)} {c : Component}
    (hc : c.1.id < fresh) (hne : ∀ e ∈ envs, lhs.component e ≠ c) (σ : Component → R) :
    envs.foldl (fun σ e => stmt.exec ops dims e σ) σ c = σ c := by
  induction envs generalizing σ with
  | nil => rfl
  | cons e envs ih =>
    rw [List.foldl_cons, ih fun e' he' => hne e' (List.mem_cons_of_mem _ he'), h _ _ _ hc,
      if_neg fun heq => hne e List.mem_cons_self heq.symm]

/-- A component that one pass accesses on the left is assigned there. -/
theorem ActsAs.foldl_of_once (h : ActsAs ops dims fresh stmt lhs rhs op) (hlhs : lhs.tensorVar.id < fresh)
    (hids : ∀ a ∈ rhs.accesses, a.tensorVar.id < fresh) (hreads : rhs.readsOwn lhs = true) {envs : List (IndexVar → ℕ)}
    (hpairwise : envs.Pairwise fun e e' => lhs.component e ≠ lhs.component e') {e : IndexVar → ℕ} (he : e ∈ envs)
    (σ : Component → R) : envs.foldl (fun σ e => stmt.exec ops dims e σ) σ (lhs.component e) =
      assigned ops op (σ (lhs.component e)) (rhs.value ops dims σ e) := by
  induction envs generalizing σ with
  | nil => cases he
  | cons first envs ih =>
    obtain ⟨hfirst, hpairwise⟩ := List.pairwise_cons.mp hpairwise
    rw [List.foldl_cons]
    rcases List.mem_cons.mp he with rfl | he
    · rw [h.foldl_of_ne hlhs fun e' he' => (hfirst e' he').symm, h _ _ _ hlhs, if_pos rfl]
    · have hkept : stmt.exec ops dims first σ (lhs.component e) = σ (lhs.component e) := by
        rw [h _ _ _ hlhs, if_neg (hfirst e he).symm]
      have hvalue : rhs.value ops dims (stmt.exec ops dims first σ) e = rhs.value ops dims σ e := by
        refine IndexExpr.value_readsOwn hreads (fun a ha hne env => ?_) hkept
        rw [h _ _ _ (hids a ha), if_neg fun heq => hne (congrArg Prod.fst heq)]
      rw [ih hpairwise he, hkept, hvalue]

/-- A component that passes overwrite with one value has it. -/
theorem ActsAs.foldl_of_overwrites (h : ActsAs ops dims fresh stmt lhs rhs op) (hlhs : lhs.tensorVar.id < fresh)
    (hids : ∀ a ∈ rhs.accesses, a.tensorVar.id < fresh) (hreads : rhs.noReads lhs.tensorVar = true)
    (hop : op.isUndefined = true) {envs : List (IndexVar → ℕ)} {c : Component} (hc : c.1 = lhs.tensorVar) {val : R}
    (σ : Component → R) (hval : ∀ e ∈ envs, lhs.component e = c → rhs.value ops dims σ e = val)
    (hmem : ∃ e ∈ envs, lhs.component e = c) : envs.foldl (fun σ e => stmt.exec ops dims e σ) σ c = val := by
  have hfresh : c.1.id < fresh := hc ▸ hlhs
  induction envs generalizing σ with
  | nil =>
    obtain ⟨e, he, -⟩ := hmem
    cases he
  | cons first envs ih =>
    have hvalue : ∀ e, rhs.value ops dims (stmt.exec ops dims first σ) e = rhs.value ops dims σ e := fun e => by
      refine IndexExpr.value_congr ops dims fun a ha env => ?_
      rw [h _ _ _ (hids a ha), if_neg fun heq => IndexExpr.noReads_iff.mp hreads a ha (congrArg Prod.fst heq)]
    rw [List.foldl_cons]
    by_cases hrest : ∃ e ∈ envs, lhs.component e = c
    · exact ih _ (fun e he heq => (hvalue e).trans (hval e (List.mem_cons_of_mem _ he) heq)) hrest
    · obtain ⟨e, he, heq⟩ := hmem
      rcases List.mem_cons.mp he with rfl | he
      · rw [h.foldl_of_ne hfresh fun e' he' heq' => hrest ⟨e', he', heq'⟩, h _ _ _ hfresh, if_pos heq.symm, assigned, if_pos hop]
        exact hval e List.mem_cons_self heq
      · exact absurd ⟨e, he, heq⟩ hrest

/-- What a pass does depends on what the tensors had before. -/
theorem ActsAs.congr (h : ActsAs ops dims fresh stmt lhs rhs op) (hids : ∀ a ∈ rhs.accesses, a.tensorVar.id < fresh)
    {σ σ' : Component → R} (hσ : ∀ c, c.1.id < fresh → σ c = σ' c) (env : IndexVar → ℕ) (c : Component) (hc : c.1.id < fresh) :
    stmt.exec ops dims env σ c = stmt.exec ops dims env σ' c := by
  rw [h _ _ _ hc, h _ _ _ hc, hσ c hc,
    IndexExpr.value_congr ops dims fun a ha env => hσ (a.component env) (hids a ha)]

theorem ActsAs.foldl_congr (h : ActsAs ops dims fresh stmt lhs rhs op) (hids : ∀ a ∈ rhs.accesses, a.tensorVar.id < fresh)
    {σ σ' : Component → R} (hσ : ∀ c, c.1.id < fresh → σ c = σ' c) (envs : List (IndexVar → ℕ)) (c : Component)
    (hc : c.1.id < fresh) : envs.foldl (fun σ e => stmt.exec ops dims e σ) σ c = envs.foldl (fun σ e => stmt.exec ops dims e σ) σ' c := by
  induction envs generalizing σ σ' with
  | nil => exact hσ c hc
  | cons e envs ih => exact ih fun c hc => h.congr hids hσ e c hc

/-- Two passes can be exchanged, if they add or assign to different components. -/
theorem ActsAs.comm (h : ActsAs ops dims fresh stmt lhs rhs op) (hids : ∀ a ∈ rhs.accesses, a.tensorVar.id < fresh)
    (hreads : rhs.noReads lhs.tensorVar = true) {e e' : IndexVar → ℕ}
    (hapart : op.isSum = true ∨ lhs.component e ≠ lhs.component e') (σ : Component → R) (c : Component) (hc : c.1.id < fresh) :
    stmt.exec ops dims e' (stmt.exec ops dims e σ) c = stmt.exec ops dims e (stmt.exec ops dims e' σ) c := by
  have hvalue : ∀ first second, rhs.value ops dims (stmt.exec ops dims first σ) second = rhs.value ops dims σ second := by
    intro first second
    refine IndexExpr.value_congr ops dims fun a ha env => ?_
    rw [h _ _ _ (hids a ha), if_neg fun heq => IndexExpr.noReads_iff.mp hreads a ha (congrArg Prod.fst heq)]
  simp only [h _ _ _ hc, hvalue]
  rcases hapart with hop | hne
  · simp only [assigned_of_isSum hop]
    split_ifs
    · exact add_right_comm _ _ _
    all_goals rfl
  · split_ifs with he' he
    · exact absurd (he.symm.trans he') hne
    all_goals rfl

/-- The order of the passes does not matter, if they add or each component is assigned once. -/
theorem ActsAs.foldl_perm (h : ActsAs ops dims fresh stmt lhs rhs op) (hids : ∀ a ∈ rhs.accesses, a.tensorVar.id < fresh)
    (hreads : rhs.noReads lhs.tensorVar = true) {envs envs' : List (IndexVar → ℕ)} (hperm : envs.Perm envs')
    (hapart : op.isSum = true ∨ envs.Pairwise fun e e' => lhs.component e ≠ lhs.component e') (σ : Component → R)
    (c : Component) (hc : c.1.id < fresh) :
    envs.foldl (fun σ e => stmt.exec ops dims e σ) σ c = envs'.foldl (fun σ e => stmt.exec ops dims e σ) σ c := by
  induction hperm generalizing σ with
  | nil => rfl
  | cons e _ ih => exact ih (hapart.imp_right fun hpairwise => (List.pairwise_cons.mp hpairwise).2) _
  | swap e e' envs =>
    refine h.foldl_congr hids (fun c hc => h.comm hids hreads ?_ σ c hc) envs c hc
    exact hapart.imp_right fun hpairwise => (List.pairwise_cons.mp hpairwise).1 e List.mem_cons_self
  | trans hperm _ ih ih' =>
    refine (ih hapart σ).trans (ih' (hapart.imp_right fun hpairwise => ?_) σ)
    exact (hperm.pairwise_iff fun hne => hne.symm).mp hpairwise

end Loops

/-! ### The whole statement -/

section Concrete

open VarVisits (visits)

variable {lhs : Access} {rhs op : IndexExpr} {fresh : ℕ}

theorem removeTopLevelReductions_eq (rhs op : IndexExpr) : removeTopLevelReductions rhs op =
    (rhs.topLevelReductions.1, rhs.topLevelReductions.2, if rhs.topLevelReductions.1 = [] then op else .plus) := by
  rw [removeTopLevelReductions]
  dsimp only
  cases htop : rhs.topLevelReductions.1 with
  | nil => rw [if_pos rfl, IndexExpr.topLevelReductions_of_isEmpty htop]; rfl
  | cons v vars => rfl

/-- What is below the loops of the free variables acts as one assignment, which adds if reductions cover its right-hand
    side. -/
theorem exists_body (hsums : rhs.onlySums = true) (hlhs : lhs.tensorVar.id < fresh)
    (hids : ∀ a ∈ rhs.accesses, a.tensorVar.id < fresh) (h : LoopsServe lhs rhs op) :
    ∃ body op', makeConcreteNotation lhs rhs op fresh = .nest (lhs.indexVars.map fun i => ⟨i, .none⟩) body ∧
      (∀ {R : Type} [AddCommMonoid R] (ops : Operations R) dims, ActsAs ops dims fresh body lhs rhs op') ∧
      (rhs.topLevelReductions.1 = [] → op' = op) ∧ (rhs.topLevelReductions.1 ≠ [] → op' = .plus) := by
  have hids' : ∀ a ∈ rhs.topLevelReductions.2.accesses, a.tensorVar.id < fresh := by
    rw [IndexExpr.accesses_topLevelReductions]
    exact hids
  rw [makeConcreteNotation, removeTopLevelReductions_eq]
  dsimp only
  rw [List.map_append, nest_append]
  refine ⟨_, if rhs.topLevelReductions.1 = [] then op else .plus, rfl, fun ops dims => ?_, fun htop => if_pos htop, fun htop => if_neg htop⟩
  have hbody : ActsAs ops dims fresh
      (replaceReductionsWithWheres lhs rhs.topLevelReductions.2 (if rhs.topLevelReductions.1 = [] then op else .plus) fresh).1
      lhs rhs.topLevelReductions.2 (if rhs.topLevelReductions.1 = [] then op else .plus) :=
    actsAs_replaceReductions (IndexExpr.onlySums_topLevelReductions hsums) hids' hlhs
  by_cases htop : rhs.topLevelReductions.1 = []
  · rw [IndexExpr.topLevelReductions_of_isEmpty htop] at hbody ⊢
    rw [htop] at hbody ⊢
    exact hbody
  · rw [if_neg htop] at hbody ⊢
    exact hbody.nest hsums h.apart hlhs hids (h.reads.resolve_right fun hown => htop hown.1)

/-- Loops over different free variables access different components. -/
theorem LoopsServe.pairwise (h : LoopsServe lhs rhs op) {dims : IndexVar → ℕ} (hfit : LoopsFit lhs rhs dims)
    (hnodup : lhs.indexVars.Nodup) (env : IndexVar → ℕ) :
    (visits dims lhs.indexVars env).Pairwise fun e e' => lhs.component e ≠ lhs.component e' := by
  refine (VarVisits.pairwise_visits hnodup).imp_of_mem fun he he' hne heq => ?_
  obtain ⟨v, hv, hne⟩ := hne
  exact hne (h.distinct dims hfit _ _ (fun v hv => VarVisits.lt_of_mem_visits he hv)
    (fun v hv => VarVisits.lt_of_mem_visits he' hv) heq v hv)

/-- Loops over the free variables leave in the result what the assignment denotes. -/
theorem leaves_of_actsAs {R : Type} [AddCommMonoid R] {ops : Operations R} {dims : IndexVar → ℕ} {body : IndexStmt}
    {op' : IndexExpr} (hbody : ActsAs ops dims fresh body lhs rhs op') (hnil : rhs.topLevelReductions.1 = [] → op' = op)
    (hcons : rhs.topLevelReductions.1 ≠ [] → op' = .plus)
    (hbound : (matchReduction lhs.indexVars ⟨true, ""⟩ rhs).isReduction = true)
    (hop : op.isUndefined = true ∨ op.isSum = true) (hlhs : lhs.tensorVar.id < fresh)
    (hids : ∀ a ∈ rhs.accesses, a.tensorVar.id < fresh) (h : LoopsServe lhs rhs op) (env : IndexVar → ℕ) {σ : Component → R}
    (hfit : LoopsFit lhs rhs dims) (hzero : op.isUndefined = true → ∀ c, c.1 = lhs.tensorVar → σ c = 0) :
    (∀ free, lhs.InRange dims free →
      (IndexStmt.nest (lhs.indexVars.map fun i => ⟨i, .none⟩) body).exec ops dims env σ (lhs.component free) =
        assigned ops op (σ (lhs.component free)) (rhs.value ops dims σ free)) ∧
    ∀ c, c.1 = lhs.tensorVar → (∀ free, lhs.InRange dims free → lhs.component free ≠ c) →
      (IndexStmt.nest (lhs.indexVars.map fun i => ⟨i, .none⟩) body).exec ops dims env σ c = σ c := by
  have hvalue : ∀ {e e' : IndexVar → ℕ}, (∀ v ∈ lhs.indexVars, e v = e' v) → rhs.value ops dims σ e = rhs.value ops dims σ e' :=
    (IndexExpr.value_of_matchReduction hbound).2
  have hrange : ∀ e ∈ visits dims lhs.indexVars env, lhs.InRange dims e := fun e he v hv => VarVisits.lt_of_mem_visits he hv
  rw [exec_nest]
  refine ⟨fun free hfree => ?_, fun c hc hne => hbody.foldl_of_ne (hc ▸ hlhs) (fun e he => hne e (hrange e he)) σ⟩
  obtain ⟨e, he, hfree'⟩ := VarVisits.exists_mem_visits env hfree
  have hcomponent : lhs.component e = lhs.component free := Access.component_congr hfree'
  -- What is assigned is what the assignment denotes: an added sum starts from zero, or the assignment adds.
  have hassigned : ∀ val, assigned ops op' (σ (lhs.component free)) val = assigned ops op (σ (lhs.component free)) val := by
    intro val
    by_cases htop : rhs.topLevelReductions.1 = []
    · rw [hnil htop]
    · rw [hcons htop, assigned_of_isSum rfl]
      rcases hop with hop | hop
      · rw [assigned, if_pos hop, hzero hop _ rfl, zero_add]
      · rw [assigned_of_isSum hop]
  by_cases hnodup : lhs.indexVars.Nodup
  · have hreads : rhs.readsOwn lhs = true := h.reads.elim IndexExpr.readsOwn_of_noReads fun hown => hown.2.2
    rw [← hcomponent, hbody.foldl_of_once hlhs hids hreads (h.pairwise hfit hnodup env) he, hcomponent, hassigned, hvalue hfree']
  · have hnosum : ¬ (op.isSum = true ∨ rhs.topLevelReductions.1 ≠ []) := fun hsum => hnodup (h.nodup hsum)
    obtain ⟨hnotsum, htop⟩ := not_or.mp hnosum
    have hundefined : op.isUndefined = true := hop.resolve_right hnotsum
    have hreads : rhs.noReads lhs.tensorVar = true := h.reads.resolve_right fun hown => hnodup hown.2.1
    rw [hnil (not_not.mp htop)] at hbody
    rw [assigned, if_pos hundefined]
    refine hbody.foldl_of_overwrites hlhs hids hreads hundefined rfl σ (fun e' he' heq => ?_) ⟨e, he, hcomponent⟩
    exact hvalue fun v hv => h.distinct dims hfit _ _ (hrange e' he') hfree heq v hv

/-- The same of the whole statement. -/
theorem leavesAssigned_of_bound (hbound : (matchReduction lhs.indexVars ⟨true, ""⟩ rhs).isReduction = true)
    (hsums : rhs.onlySums = true) (hop : op.isUndefined = true ∨ op.isSum = true) (hlhs : lhs.tensorVar.id < fresh)
    (hids : ∀ a ∈ rhs.accesses, a.tensorVar.id < fresh) (h : LoopsServe lhs rhs op) :
    LeavesAssigned lhs rhs op (makeConcreteNotation lhs rhs op fresh) := by
  obtain ⟨body, op', hstmt, hacts, hnil, hcons⟩ := exists_body hsums hlhs hids h
  intro R _ ops dims env σ hfit hzero
  rw [hstmt]
  exact leaves_of_actsAs (hacts ops dims) hnil hcons hbound hop hlhs hids h env hfit hzero

theorem matchReduction_of_isReductionNotation {getName : IndexVar → String}
    (h : isReductionNotation getName (.assignment lhs rhs op) = none) :
    (matchReduction lhs.indexVars ⟨true, ""⟩ rhs).isReduction = true := by
  dsimp only [isReductionNotation] at h
  split_ifs at h with hvalid hmatch
  exact hmatch

/-- Without index sets, different values access different components. -/
theorem distinct_of_no_indexSets (hsets : lhs.indexSetModes = []) {env env' : IndexVar → ℕ}
    (h : lhs.component env = lhs.component env') : ∀ v ∈ lhs.indexVars, env v = env' v := by
  intro v hv
  obtain ⟨n, hn, rfl⟩ := List.getElem_of_mem hv
  have hcoordinate := congrArg (fun c : Component => c.2.2[n]?) h
  simp only [Access.component, List.getElem?_mapIdx, List.getElem?_eq_getElem hn, Option.map_some, Option.some.injEq,
    Access.coordinate, hsets, List.lookup_nil] at hcoordinate
  cases hwindow : lhs.windowedModes.lookup n with
  | none =>
    rw [hwindow] at hcoordinate
    exact Int.ofNat_inj.mp hcoordinate
  | some w =>
    rw [hwindow] at hcoordinate
    exact Int.ofNat_inj.mp (mul_left_cancel₀ w.stride_ne_zero (add_left_cancel hcoordinate))

/-- A scaled product of a matrix and a vector. -/
def scaledProduct : IndexExpr :=
  .mul (.access ((TensorVar.dense 1 [2]).access [0] (by decide)))
    (.sum 1 (.mul (.access ((TensorVar.dense 2 [2, 3]).access [0, 1] (by decide)))
      (.access ((TensorVar.dense 3 [3]).access [1] (by decide)))))

/-- What is below all the loops acts as one assignment, and what it does in the passes of the loops does not depend on their
    order. -/
theorem exec_nest_perm {R : Type} [AddCommMonoid R] {ops : Operations R} {dims : IndexVar → ℕ} {inner : IndexStmt}
    {body op' : IndexExpr} (hinner : ActsAs ops dims fresh inner lhs body op')
    (hids : ∀ a ∈ body.accesses, a.tensorVar.id < fresh) (hreads : body.noReads lhs.tensorVar = true)
    {vars vars' : List IndexVar} (hvars : vars.Perm vars') (env : IndexVar → ℕ)
    (hapart : op'.isSum = true ∨ (visits dims vars env).Pairwise fun e e' => lhs.component e ≠ lhs.component e')
    (σ : Component → R) (c : Component) (hc : c.1.id < fresh) :
    (IndexStmt.nest (vars.map fun i => ⟨i, .none⟩) inner).exec ops dims env σ c =
      (IndexStmt.nest (vars'.map fun i => ⟨i, .none⟩) inner).exec ops dims env σ c := by
  rw [exec_nest, exec_nest]
  exact hinner.foldl_perm hids hreads (VarVisits.visits_perm hvars env) hapart σ c hc

end Concrete

end Notation
end Taco
