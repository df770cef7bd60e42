import Taco.IndexNotation.Concrete

/-! What a statement reads and writes. -/

namespace Taco
namespace Concrete

variable {V : Type}

/-- The stores agree except on a tensor, of which they have the same component at some coordinates. -/
structure Store.AgreeAt (t : TensorVar) (coords : List ℕ) (σ τ : Store V) : Prop where
  others : ∀ u ≠ t, σ u = τ u
  component : σ t coords = τ t coords

/-- The stores agree except on some tensors. -/
def Store.AgreeOff (ts : List TensorVar) (σ τ : Store V) : Prop := ∀ t ∉ ts, σ t = τ t

theorem Store.AgreeOff.zero [Zero V] {ts : List TensorVar} {σ τ : Store V} (h : AgreeOff ts σ τ)
    (declared : List TensorVar) : AgreeOff ts (σ.zero declared) (τ.zero declared) := by
  intro t ht
  rw [Store.zero, Store.zero, h t ht]

theorem Store.AgreeOff.restore {ts : List TensorVar} {σ τ σ' τ' : Store V} (h : AgreeOff ts σ τ)
    (h' : AgreeOff ts σ' τ') (declared : List TensorVar) :
    AgreeOff ts (σ'.restore σ declared) (τ'.restore τ declared) := by
  intro t ht
  rw [Store.restore, Store.restore, h t ht, h' t ht]

/-! ### Coordinates -/

namespace Access

/-- Different values of a variable access different coordinates of some mode with it. -/
def Separates (dims : IndexVar → ℕ) (a : Access) (u : IndexVar) : Prop :=
  ∀ c < dims u, ∀ c' < dims u, c ≠ c' → ∃ mode, a.indexVars[mode]? = some u ∧ a.coordinate mode c ≠ a.coordinate mode c'

theorem Separates.coords_ne {dims : IndexVar → ℕ} {a : Access} {u : IndexVar} (h : a.Separates dims u) {e e' : Env}
    (he : e u < dims u) (he' : e' u < dims u) (hne : e u ≠ e' u) : a.coords e ≠ a.coords e' := by
  obtain ⟨mode, hmode, hcoordinate⟩ := h _ he _ he' hne
  intro heq
  have hget := congrArg (fun l => l[mode]?) heq
  simp only [coords, List.getElem?_mapIdx, hmode, Option.map_some, Option.some.injEq] at hget
  exact hcoordinate hget

theorem coords_congr {a : Access} {e e' : Env} (h : ∀ v ∈ a.indexVars, e v = e' v) : a.coords e = a.coords e' := by
  refine List.ext_getElem? fun mode => ?_
  rw [coords, coords, List.getElem?_mapIdx, List.getElem?_mapIdx]
  cases hmode : a.indexVars[mode]? with
  | none => rfl
  | some v => rw [Option.map_some, Option.map_some, h v (List.mem_of_getElem? hmode)]

end Access

namespace IndexStmt

/-! ### Results -/

/-- The access that is assigned to, except in producers. -/
def result : IndexStmt V → Access
  | assignment lhs _ _ => lhs
  | .forall _ stmt => stmt.result
  | .where consumer _ => consumer.result

theorem getResults_eq (s : IndexStmt V) : s.getResults = [s.result.tensorVar] := by
  induction s with
  | assignment lhs rhs compound => rfl
  | «forall» i stmt ih => exact ih
  | «where» consumer producer ihc _ => exact ihc

theorem mem_getResults {s : IndexStmt V} {t : TensorVar} : t ∈ s.getResults ↔ t = s.result.tensorVar := by
  rw [getResults_eq, List.mem_singleton]

/-- The values of the variables with which the result is assigned to. -/
def resultEnvs (space : Space) : IndexStmt V → Env → List Env
  | assignment _ _ _, env => [env]
  | .forall i stmt, env =>
    (List.range (space.dims i)).flatMap fun c => match space.enter i c env with
      | some env => stmt.resultEnvs space env
      | none => []
  | .where consumer _, env => consumer.resultEnvs space env

/-- The values of the variables with which an iteration of a loop assigns to the result. -/
def iterationEnvs (space : Space) (i : IndexVar) (body : IndexStmt V) (env : Env) (c : ℕ) : List Env :=
  match space.enter i c env with
  | some env => body.resultEnvs space env
  | none => []

variable [Ring V]

/-- An iteration of a loop. -/
def iteration (space : Space) (i : IndexVar) (body : IndexStmt V) (env : Env) (σ : Store V) (c : ℕ) : Store V :=
  match space.enter i c env with
  | some env => body.exec space env σ
  | none => σ

variable {space : Space} {i : IndexVar} {body : IndexStmt V} {env : Env} {σ τ : Store V} {t : TensorVar} {coords : List ℕ}

theorem exec_forall : (IndexStmt.forall i body).exec space env σ =
    (List.range (space.dims i)).foldl (body.iteration space i env) σ := rfl

theorem exec_where {consumer producer : IndexStmt V} : (IndexStmt.where consumer producer).exec space env σ =
    (consumer.exec space env (producer.exec space env (σ.zero [producer.result.tensorVar]))).restore σ
      [producer.result.tensorVar] := by
  rw [← getResults_eq]
  rfl

omit [Ring V] in
theorem resultEnvs_forall : (IndexStmt.forall i body).resultEnvs space env =
    (List.range (space.dims i)).flatMap (body.iterationEnvs space i env) := rfl

/-! ### What is written -/

/-- A statement leaves the tensors that are not its result. -/
theorem exec_of_ne {s : IndexStmt V} (ht : t ≠ s.result.tensorVar) : s.exec space env σ t = σ t := by
  induction s generalizing env σ with
  | assignment lhs rhs compound => exact Store.write_of_ne ht
  | «forall» i body ih =>
    rw [exec_forall]
    induction List.range (space.dims i) generalizing σ with
    | nil => rfl
    | cons c l ihl =>
      rw [List.foldl_cons, ihl, iteration]
      cases space.enter i c env with
      | none => rfl
      | some env => exact ih ht
  | «where» consumer producer ihc ihp =>
    rw [exec, Store.restore]
    split_ifs with hp
    · rfl
    · rw [ihc ht, ihp (mt mem_getResults.mpr hp), Store.zero, if_neg hp]

/-- Of its result, a statement leaves the components that it does not assign to. -/
theorem exec_of_notMem {s : IndexStmt V} (h : ∀ e ∈ s.resultEnvs space env, s.result.coords e ≠ coords) :
    s.exec space env σ s.result.tensorVar coords = σ s.result.tensorVar coords := by
  induction s generalizing env σ with
  | assignment lhs rhs compound => exact Store.write_of_coords_ne (h env (List.mem_singleton_self env)).symm
  | «forall» i body ih =>
    rw [resultEnvs_forall] at h
    rw [exec_forall]
    generalize List.range (space.dims i) = l at h ⊢
    induction l generalizing σ with
    | nil => rfl
    | cons c l ihl =>
      rw [List.flatMap_cons, List.forall_mem_append, iterationEnvs] at h
      rw [List.foldl_cons, ihl h.2, iteration]
      cases hc : space.enter i c env with
      | none => rfl
      | some env =>
        rw [hc] at h
        exact ih h.1
  | «where» consumer producer ihc _ =>
    change Store.restore _ _ _ consumer.result.tensorVar coords = _
    rw [Store.restore]
    split_ifs with hp
    · rfl
    · rw [ihc h, exec_of_ne (mt mem_getResults.mpr hp), Store.zero, if_neg hp]
      rfl

theorem iteration_of_ne {c : ℕ} (ht : t ≠ body.result.tensorVar) : body.iteration space i env σ c t = σ t := by
  rw [iteration]
  cases space.enter i c env with
  | none => rfl
  | some env => exact exec_of_ne ht

theorem iteration_of_notMem {c : ℕ} (h : ∀ e ∈ body.iterationEnvs space i env c, body.result.coords e ≠ coords) :
    body.iteration space i env σ c body.result.tensorVar coords = σ body.result.tensorVar coords := by
  rw [iterationEnvs] at h
  rw [iteration]
  cases hc : space.enter i c env with
  | none => rfl
  | some env =>
    rw [hc] at h
    exact exec_of_notMem h

/-! ### What is read -/

/-- A component of a tensor that a statement does not read depends on no other one of the tensor. -/
theorem exec_agreeAt {s : IndexStmt V} (hread : ∀ a ∈ s.reads, a.tensorVar ≠ t) (h : Store.AgreeAt t coords σ τ) :
    Store.AgreeAt t coords (s.exec space env σ) (s.exec space env τ) := by
  induction s generalizing env σ τ with
  | assignment lhs rhs compound =>
    have hrhs : rhs.eval env σ = rhs.eval env τ :=
      IndexExpr.eval_congr fun a ha => congrFun (h.others _ (hread a ha)) _
    refine ⟨fun u hu => ?_, ?_⟩
    · by_cases hlhs : u = lhs.tensorVar
      · subst hlhs
        rw [exec, exec, assign, assign, hrhs, h.others _ hu, Store.write, Store.write, Function.update_self,
          Function.update_self, h.others _ hu]
      · rw [exec_of_ne hlhs, exec_of_ne hlhs, h.others u hu]
    · by_cases hlhs : t = lhs.tensorVar
      · subst hlhs
        by_cases hcoords : coords = lhs.coords env
        · subst hcoords
          rw [exec, exec, assign, assign, Store.write_self, Store.write_self, hrhs, h.component]
        · rw [exec, exec, assign, assign, Store.write_of_coords_ne hcoords, Store.write_of_coords_ne hcoords, h.component]
      · rw [exec_of_ne hlhs, exec_of_ne hlhs, h.component]
  | «forall» i body ih =>
    rw [exec_forall, exec_forall]
    induction List.range (space.dims i) generalizing σ τ with
    | nil => exact h
    | cons c l ihl =>
      refine ihl ?_
      rw [iteration, iteration]
      cases space.enter i c env with
      | none => exact h
      | some env => exact ih hread h
  | «where» consumer producer ihc ihp =>
    have hzero : Store.AgreeAt t coords (σ.zero producer.getResults) (τ.zero producer.getResults) := by
      refine ⟨fun u hu => ?_, ?_⟩
      · rw [Store.zero, Store.zero, h.others u hu]
      · rw [Store.zero, Store.zero]
        split_ifs
        · rfl
        · exact h.component
    have hproducer : Store.AgreeAt t coords (producer.exec space env (σ.zero producer.getResults))
        (producer.exec space env (τ.zero producer.getResults)) :=
      ihp (fun a ha => hread a (List.mem_append_right _ ha)) hzero
    have hexec : Store.AgreeAt t coords (consumer.exec space env _) (consumer.exec space env _) :=
      ihc (fun a ha => hread a (List.mem_append_left _ ha)) hproducer
    refine ⟨fun u hu => ?_, ?_⟩
    · rw [exec, exec, Store.restore, Store.restore, h.others u hu, hexec.others u hu]
    · rw [exec, exec, Store.restore, Store.restore]
      split_ifs
      · exact h.component
      · exact hexec.component

theorem iteration_agreeAt {c : ℕ} (hread : ∀ a ∈ body.reads, a.tensorVar ≠ t) (h : Store.AgreeAt t coords σ τ) :
    Store.AgreeAt t coords (body.iteration space i env σ c) (body.iteration space i env τ c) := by
  rw [iteration, iteration]
  cases space.enter i c env with
  | none => exact h
  | some env => exact exec_agreeAt hread h

/-- What is written to a tensor that a statement does not read does not reach the other ones. -/
theorem exec_agreeOff {s : IndexStmt V} {ts : List TensorVar} (hread : ∀ a ∈ s.reads, a.tensorVar ∉ ts)
    (h : Store.AgreeOff ts σ τ) : Store.AgreeOff ts (s.exec space env σ) (s.exec space env τ) := by
  induction s generalizing env σ τ with
  | assignment lhs rhs compound =>
    have hrhs : rhs.eval env σ = rhs.eval env τ := IndexExpr.eval_congr fun a ha => congrFun (h _ (hread a ha)) _
    intro u hu
    by_cases hlhs : u = lhs.tensorVar
    · subst hlhs
      rw [exec, exec, assign, assign, hrhs, h _ hu, Store.write, Store.write, Function.update_self,
        Function.update_self, h _ hu]
    · rw [exec_of_ne hlhs, exec_of_ne hlhs, h u hu]
  | «forall» i body ih =>
    rw [exec_forall, exec_forall]
    induction List.range (space.dims i) generalizing σ τ with
    | nil => exact h
    | cons c l ihl =>
      refine ihl ?_
      rw [iteration, iteration]
      cases space.enter i c env with
      | none => exact h
      | some env => exact ih hread h
  | «where» consumer producer ihc ihp =>
    have hproducer : Store.AgreeOff ts (producer.exec space env (σ.zero producer.getResults))
        (producer.exec space env (τ.zero producer.getResults)) :=
      ihp (fun a ha => hread a (List.mem_append_right _ ha)) (h.zero _)
    exact h.restore (ihc (fun a ha => hread a (List.mem_append_left _ ha)) hproducer) _

/-! ### Orders of iterations -/

/-- The iterations of a loop write different components of the result. -/
def WritesApart (space : Space) (i : IndexVar) (body : IndexStmt V) : Prop :=
  ∀ env c c', c < space.dims i → c' < space.dims i → c ≠ c' → ∀ e ∈ body.iterationEnvs space i env c,
    ∀ e' ∈ body.iterationEnvs space i env c', body.result.coords e ≠ body.result.coords e'

/-- Iterations that write different components of a result that they do not read can be exchanged. -/
theorem iteration_comm {c c' : ℕ} (hread : ∀ a ∈ body.reads, a.tensorVar ≠ body.result.tensorVar)
    (hapart : ∀ e ∈ body.iterationEnvs space i env c, ∀ e' ∈ body.iterationEnvs space i env c',
      body.result.coords e ≠ body.result.coords e') (σ : Store V) :
    body.iteration space i env (body.iteration space i env σ c) c' =
      body.iteration space i env (body.iteration space i env σ c') c := by
  funext t coords
  by_cases ht : t = body.result.tensorVar
  · subst ht
    -- one of the two iterations does not write the component, and the other one does not see what that writes
    by_cases hc : ∃ e ∈ body.iterationEnvs space i env c, body.result.coords e = coords
    · obtain ⟨e, he, rfl⟩ := hc
      have hc' : ∀ σ : Store V, body.iteration space i env σ c' body.result.tensorVar (body.result.coords e) =
          σ body.result.tensorVar (body.result.coords e) :=
        fun σ => iteration_of_notMem fun e' he' => (hapart e he e' he').symm
      have hagree : Store.AgreeAt body.result.tensorVar (body.result.coords e) (body.iteration space i env σ c') σ :=
        ⟨fun u hu => iteration_of_ne hu, hc' σ⟩
      rw [hc', (iteration_agreeAt hread hagree).component]
    · have hc : ∀ σ : Store V, body.iteration space i env σ c body.result.tensorVar coords =
          σ body.result.tensorVar coords := fun σ => iteration_of_notMem fun e he heq => hc ⟨e, he, heq⟩
      have hagree : Store.AgreeAt body.result.tensorVar coords (body.iteration space i env σ c) σ :=
        ⟨fun u hu => iteration_of_ne hu, hc σ⟩
      rw [hc, (iteration_agreeAt hread hagree).component]
  · rw [iteration_of_ne ht, iteration_of_ne ht, iteration_of_ne ht, iteration_of_ne ht]

theorem foldl_iteration_perm (hread : ∀ a ∈ body.reads, a.tensorVar ≠ body.result.tensorVar)
    (hapart : body.WritesApart space i) {order : List ℕ} (horder : order.Perm (List.range (space.dims i))) :
    order.foldl (body.iteration space i env) σ = (IndexStmt.forall i body).exec space env σ := by
  refine horder.foldl_eq' (fun c hc c' hc' σ => ?_) σ
  by_cases hne : c = c'
  · rw [hne]
  · have hlt : ∀ {c : ℕ}, c ∈ order → c < space.dims i := fun hc => List.mem_range.mp (horder.mem_iff.mp hc)
    exact iteration_comm hread (hapart env c c' (hlt hc) (hlt hc') hne) σ

end IndexStmt

end Concrete
end Taco
