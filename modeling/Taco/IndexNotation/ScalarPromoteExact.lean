import Taco.IndexNotation.Accumulation

/-! Which promotions of scalars keep what a statement does. -/

namespace Taco
namespace Concrete

variable {V : Type}

/-! ### The shape of promoted statements -/

namespace ScalarPromote

variable {g : ProvenanceGraph} {isWholeStmt promoteScalar : Bool} {val : Position → Access → TensorVar}
variable {pl : Place} {hoisted : Bool} {s : IndexStmt V}

theorem promote_hoisted {i : IndexVar} {stmt : IndexStmt V} (h : isHoistable promoteScalar pl.indices stmt.result = true) :
    promote g isWholeStmt promoteScalar val pl false (.forall i stmt) =
      .where (.assignment stmt.result (.access (.make (val pl.position stmt.result) []))
          (keepsReduceOp g isWholeStmt pl.derivedIndices stmt.result && stmt.resultOp))
        (.forall i ((promote g isWholeStmt promoteScalar val (pl.inLoop g i stmt) true stmt).replaceReductionExpr stmt.result
          (.make (val pl.position stmt.result) []))) := by
  rw [promote, Bool.not_false, Bool.true_and, if_pos h]

theorem promote_inside (i : IndexVar) (stmt : IndexStmt V) :
    promote g isWholeStmt promoteScalar val pl true (.forall i stmt) =
      .forall i (promote g isWholeStmt promoteScalar val (pl.inLoop g i stmt) true stmt) := by
  rw [promote, Bool.not_true, Bool.false_and, if_neg Bool.false_ne_true]

theorem promote_around {i : IndexVar} {stmt : IndexStmt V} (h : ¬ isHoistable promoteScalar pl.indices stmt.result = true) :
    promote g isWholeStmt promoteScalar val pl false (.forall i stmt) =
      .forall i (promote g isWholeStmt promoteScalar val (pl.inLoop g i stmt) false stmt) := by
  rw [promote, Bool.not_false, Bool.true_and, if_neg h]

/-- An access of a scalar that is made at a place or in it. -/
def IsScalar (val : Position → Access → TensorVar) (pl : Place) (r : Access) : Prop :=
  ∃ q a, pl.position.length ≤ q.length ∧ r = .make (val q a) []

theorem IsScalar.outer {pl pl' : Place} {r : Access} (hle : pl.position.length ≤ pl'.position.length)
    (h : IsScalar val pl' r) : IsScalar val pl r := by
  obtain ⟨q, a, hlen, rfl⟩ := h
  exact ⟨q, a, hle.trans hlen, rfl⟩

theorem result_promote : (promote g isWholeStmt promoteScalar val pl hoisted s).result = s.result := by
  induction s generalizing pl hoisted with
  | assignment lhs rhs compound => rfl
  | «forall» i stmt ih =>
    rw [promote]
    split_ifs
    · rfl
    · exact ih
  | «where» consumer producer ihc _ => exact ihc

/-- Promotion reads what the statement reads, and scalars. -/
theorem reads_promote {r : Access} (h : r ∈ (promote g isWholeStmt promoteScalar val pl hoisted s).reads) :
    r ∈ s.reads ∨ IsScalar val pl r := by
  induction s generalizing pl hoisted with
  | assignment lhs rhs compound => exact Or.inl h
  | «forall» i stmt ih =>
    have hbody : ∀ hoisted, r ∈ (promote g isWholeStmt promoteScalar val (pl.inLoop g i stmt) hoisted stmt).reads →
        r ∈ stmt.reads ∨ IsScalar val pl r := fun hoisted h => (ih h).imp id (IsScalar.outer (Nat.le_succ _))
    rw [promote] at h
    split_ifs at h
    · rcases List.mem_append.mp h with h | h
      · exact Or.inr ⟨pl.position, stmt.result, le_refl _, List.mem_singleton.mp h⟩
      · rw [IndexStmt.reads, IndexStmt.reads_replaceReductionExpr] at h
        exact hbody true h
    · exact hbody hoisted h
  | «where» consumer producer ihc ihp =>
    rcases List.mem_append.mp h with h | h
    · exact (ihc h).imp (List.mem_append_left _) (IsScalar.outer (Nat.le_succ _))
    · exact (ihp h).imp (List.mem_append_right _) (IsScalar.outer (Nat.le_succ _))

/-- Promotion assigns to what the statement assigns to, and to scalars. -/
theorem lhsAccesses_promote {b : Access} (h : b ∈ (promote g isWholeStmt promoteScalar val pl hoisted s).lhsAccesses) :
    b ∈ s.lhsAccesses ∨ IsScalar val pl b := by
  induction s generalizing pl hoisted b with
  | assignment lhs rhs compound => exact Or.inl h
  | «forall» i stmt ih =>
    have hbody : ∀ b hoisted, b ∈ (promote g isWholeStmt promoteScalar val (pl.inLoop g i stmt) hoisted stmt).lhsAccesses →
        b ∈ stmt.lhsAccesses ∨ IsScalar val pl b := fun b hoisted h =>
      (ih h).imp id (IsScalar.outer (Nat.le_succ _))
    rw [promote] at h
    split_ifs at h
    · rcases List.mem_append.mp h with h | h
      · rw [List.mem_singleton.mp h]
        exact Or.inl stmt.result_mem_lhsAccesses
      · rw [IndexStmt.lhsAccesses, IndexStmt.lhsAccesses_replaceReductionExpr] at h
        obtain ⟨lhs, hlhs, rfl⟩ := List.mem_map.mp h
        split_ifs
        · exact Or.inr ⟨pl.position, stmt.result, le_refl _, rfl⟩
        · exact hbody _ true hlhs
    · exact hbody _ hoisted h
  | «where» consumer producer ihc ihp =>
    rcases List.mem_append.mp h with h | h
    · exact (ihc h).imp (List.mem_append_left _) (IsScalar.outer (Nat.le_succ _))
    · exact (ihp h).imp (List.mem_append_right _) (IsScalar.outer (Nat.le_succ _))

/-- The producers of a promoted body assign to what they assigned to, and to scalars. -/
theorem producerAccesses_promote {b : Access}
    (h : b ∈ (promote g isWholeStmt promoteScalar val pl true s).producerAccesses) :
    b ∈ s.producerAccesses ∨ IsScalar val pl b := by
  induction s generalizing pl with
  | assignment lhs rhs compound => exact Or.inl h
  | «forall» i stmt ih =>
    rw [promote_inside] at h
    exact (ih h).imp id (IsScalar.outer (Nat.le_succ _))
  | «where» consumer producer ihc _ =>
    rcases List.mem_append.mp h with h | h
    · exact (ihc h).imp (List.mem_append_left _) (IsScalar.outer (Nat.le_succ _))
    · exact (lhsAccesses_promote h).imp (List.mem_append_right _) (IsScalar.outer (Nat.le_succ _))

theorem resultOp_promote : (promote g isWholeStmt promoteScalar val pl true s).resultOp = s.resultOp := by
  induction s generalizing pl with
  | assignment lhs rhs compound => rfl
  | «forall» i stmt ih =>
    rw [promote_inside]
    exact ih
  | «where» consumer producer ihc _ => exact ihc

theorem resultEnvs_promote {space : Space} {env : Env} :
    (promote g isWholeStmt promoteScalar val pl true s).resultEnvs space env = s.resultEnvs space env := by
  induction s generalizing pl env with
  | assignment lhs rhs compound => rfl
  | «forall» i stmt ih =>
    rw [promote_inside, IndexStmt.resultEnvs_forall, IndexStmt.resultEnvs_forall]
    congr 1
    funext c
    rw [IndexStmt.iterationEnvs, IndexStmt.iterationEnvs]
    cases space.enter i c env with
    | none => rfl
    | some env => exact ih
  | «where» consumer producer ihc _ => exact ihc

/-! ### Coordinates that loops keep -/

/-- The loops of a statement define the variables that become known with theirs, and no others. -/
def Declares (space : Space) (g : ProvenanceGraph) : List IndexVar → IndexStmt V → Prop
  | _, .assignment _ _ _ => True
  | derivedIndices, .forall i stmt =>
    (∀ c env env', space.enter i c env = some env' → ∀ v ∉ newIndices g i derivedIndices, env' v = env v) ∧
      Declares space g (newIndices g i derivedIndices ++ derivedIndices) stmt
  | derivedIndices, .where consumer producer =>
    Declares space g derivedIndices consumer ∧ Declares space g derivedIndices producer

variable {space : Space} {derivedIndices boundVars : List IndexVar} {env e : Env}

theorem bindsOnce_mono {boundVars' : List IndexVar} (hsub : boundVars ⊆ boundVars') (h : s.bindsOnce boundVars' = true) :
    s.bindsOnce boundVars = true := by
  induction s generalizing boundVars boundVars' with
  | assignment lhs rhs compound => rfl
  | «forall» i stmt ih =>
    rw [IndexStmt.bindsOnce, Bool.and_eq_true, decide_eq_true_eq] at h ⊢
    exact ⟨fun hmem => h.1 (hsub hmem), ih (List.cons_subset_cons i hsub) h.2⟩
  | «where» consumer producer ihc ihp =>
    rw [IndexStmt.bindsOnce, Bool.and_eq_true] at h ⊢
    exact ⟨ihc hsub h.1, ihp hsub h.2⟩

/-- What is known from loops around a statement is not defined in it again. -/
theorem resultEnvs_recovered {known : List IndexVar} (hrecovered : Recovered g boundVars known)
    (hbound : boundVars ⊆ derivedIndices) (hdeclares : Declares space g derivedIndices s)
    (hbinds : s.bindsOnce boundVars = true) (hloops : ∀ i ∈ Parallelize.loopVars s, g.isFullyDerived i = true)
    (he : e ∈ s.resultEnvs space env) : ∀ v ∈ known, e v = env v := by
  induction s generalizing derivedIndices env with
  | assignment lhs rhs compound => rw [List.mem_singleton.mp he]; exact fun _ _ => rfl
  | «forall» i stmt ih =>
    intro v hv
    rw [IndexStmt.bindsOnce, Bool.and_eq_true, decide_eq_true_eq] at hbinds
    rw [Parallelize.loopVars, List.forall_mem_cons] at hloops
    obtain ⟨c, -, he⟩ := List.mem_flatMap.mp he
    cases hc : space.enter i c env with
    | none =>
      rw [hc] at he
      cases he
    | some env' =>
      rw [hc] at he
      rw [ih (List.subset_append_of_subset_right _ hbound) hdeclares.2
        (bindsOnce_mono (List.subset_cons_self i boundVars) hbinds.2) hloops.2 he v hv]
      exact hdeclares.1 c env env' hc v fun hnew => hrecovered.notMem hbound hloops.1 hbinds.1 v hnew hv
  | «where» consumer producer ihc _ =>
    rw [IndexStmt.bindsOnce, Bool.and_eq_true] at hbinds
    rw [Parallelize.loopVars, List.forall_mem_append] at hloops
    exact ihc hbound hdeclares.1 hbinds.1 hloops.2 he

/-- The loops keep the variables that are defined around them. -/
def KeepsIndices (space : Space) (g : ProvenanceGraph) : Place → IndexStmt V → Prop
  | _, .assignment _ _ _ => True
  | pl, .forall i stmt =>
    (∀ env, ∀ e ∈ (IndexStmt.forall i stmt).resultEnvs space env, ∀ v ∈ pl.indices, e v = env v) ∧
      KeepsIndices space g (pl.inLoop g i stmt) stmt
  | pl, .where consumer producer => KeepsIndices space g pl.inConsumer consumer ∧ KeepsIndices space g pl.inProducer producer

theorem keepsIndices (hrecovered : Recovered g boundVars pl.derivedIndices) (hsub : pl.indices ⊆ pl.derivedIndices)
    (hbound : boundVars ⊆ derivedIndices) (hdeclares : Declares space g derivedIndices s)
    (hbinds : s.bindsOnce boundVars = true) (hloops : ∀ i ∈ Parallelize.loopVars s, g.isFullyDerived i = true) :
    KeepsIndices space g pl s := by
  induction s generalizing pl boundVars derivedIndices with
  | assignment lhs rhs compound => trivial
  | «forall» i stmt ih =>
    have hkept : ∀ env, ∀ e ∈ (IndexStmt.forall i stmt).resultEnvs space env, ∀ v ∈ pl.indices, e v = env v :=
      fun env e he v hv => resultEnvs_recovered hrecovered hbound hdeclares hbinds hloops he v (hsub hv)
    rw [IndexStmt.bindsOnce, Bool.and_eq_true] at hbinds
    rw [Parallelize.loopVars, List.forall_mem_cons] at hloops
    refine ⟨hkept, ih (hrecovered.enter hloops.1) (inLoop_subset hsub i stmt) ?_ hdeclares.2 hbinds.2 hloops.2⟩
    exact List.cons_subset.mpr
      ⟨List.mem_append_left _ (mem_newIndices g i _), List.subset_append_of_subset_right _ hbound⟩
  | «where» consumer producer ihc ihp =>
    rw [IndexStmt.bindsOnce, Bool.and_eq_true] at hbinds
    rw [Parallelize.loopVars, List.forall_mem_append] at hloops
    exact ⟨@ihc pl.inConsumer _ _ hrecovered hsub hbound hdeclares.1 hbinds.1 hloops.2,
      @ihp pl.inProducer _ _ hrecovered hsub hbound hdeclares.2 hbinds.2 hloops.1⟩

/-- A loop that the store of the result can be hoisted out of keeps the coordinates. -/
theorem coords_hoistable {i : IndexVar} {stmt : IndexStmt V} (hkeeps : KeepsIndices space g pl (.forall i stmt))
    (hhoist : isHoistable promoteScalar pl.indices stmt.result = true)
    (he : e ∈ (IndexStmt.forall i stmt).resultEnvs space env) : stmt.result.coords e = stmt.result.coords env := by
  rw [isHoistable, Bool.and_eq_true, List.all_eq_true] at hhoist
  exact Access.coords_congr fun v hv => hkeeps.1 env e he v (of_decide_eq_true (hhoist.2 v hv))

/-! ### Stores that find zero -/

section Entries

variable (g isWholeStmt promoteScalar) (space : Space)

/-- The store that is hoisted out of a loop must find zero: it has no operator, though iterations accumulate, or none of
    them assigns. -/
def mustBeZero (derivedIndices : List IndexVar) (i : IndexVar) (stmt : IndexStmt V) (env : Env) : Bool :=
  !(keepsReduceOp g isWholeStmt derivedIndices stmt.result && stmt.resultOp) &&
    (stmt.resultOp || ((IndexStmt.forall i stmt).resultEnvs space env).isEmpty)

/-- The values of the variables with which the loop is entered that the store of the result is hoisted out of, and whether
    the store must find zero. -/
def entries : Place → IndexStmt V → Env → List (Env × Bool)
  | _, .assignment _ _ _, _ => []
  | pl, .forall i stmt, env =>
    if isHoistable promoteScalar pl.indices stmt.result then
      [(env, mustBeZero g isWholeStmt space pl.derivedIndices i stmt env)]
    else (List.range (space.dims i)).flatMap fun c => match space.enter i c env with
      | some env => entries (pl.inLoop g i stmt) stmt env
      | none => []
  | pl, .where consumer _, env => entries pl.inConsumer consumer env

/-- The entries of an iteration of a loop. -/
def iterationEntries (pl : Place) (i : IndexVar) (stmt : IndexStmt V) (env : Env) (c : ℕ) : List (Env × Bool) :=
  match space.enter i c env with
  | some env => entries g isWholeStmt promoteScalar space (pl.inLoop g i stmt) stmt env
  | none => []

/-- A store that must find zero is to a component that no store before it was to. -/
def StoresApart (pl : Place) (s : IndexStmt V) (env : Env) : Prop :=
  (entries g isWholeStmt promoteScalar space pl s env).Pairwise fun p q =>
    q.2 = true → s.result.coords p.1 ≠ s.result.coords q.1

/-- The loops that stores are hoisted out of do not read the results, and the stores of temporaries find zero. -/
def Promotable : Place → (hoisted : Bool) → IndexStmt V → Env → Prop
  | _, _, .assignment _ _ _, _ => True
  | pl, hoisted, .forall i stmt, env =>
    (hoisted = false → isHoistable promoteScalar pl.indices stmt.result = true →
        ∀ r ∈ stmt.reads, r.tensorVar ≠ stmt.result.tensorVar) ∧
      ∀ c < space.dims i, ∀ env', space.enter i c env = some env' →
        Promotable (pl.inLoop g i stmt) (hoisted || isHoistable promoteScalar pl.indices stmt.result) stmt env'
  | pl, hoisted, .where consumer producer, env =>
    Promotable pl.inConsumer hoisted consumer env ∧ Promotable pl.inProducer false producer env ∧
      StoresApart g isWholeStmt promoteScalar space pl.inProducer producer env

/-- The store of the result is hoisted out of a loop of the statement. -/
def hoists : Place → IndexStmt V → Bool
  | _, .assignment _ _ _ => false
  | pl, .forall i stmt => isHoistable promoteScalar pl.indices stmt.result || hoists (pl.inLoop g i stmt) stmt
  | pl, .where consumer _ => hoists pl.inConsumer consumer

end Entries

theorem hoists_of_mem_entries {p : Env × Bool} (hp : p ∈ entries g isWholeStmt promoteScalar space pl s env) :
    hoists g promoteScalar pl s = true := by
  induction s generalizing pl env with
  | assignment lhs rhs compound => cases hp
  | «forall» i stmt ih =>
    rw [entries] at hp
    rw [hoists, Bool.or_eq_true]
    split_ifs at hp with hhoist
    · exact Or.inl hhoist
    · obtain ⟨c, -, hp⟩ := List.mem_flatMap.mp hp
      cases hc : space.enter i c env with
      | none =>
        rw [hc] at hp
        cases hp
      | some env' =>
        rw [hc] at hp
        exact Or.inr (ih hp)
  | «where» consumer producer ihc _ => exact ihc hp

/-- What is assigned to is the component to which the hoisted store is. -/
theorem coords_mem_entries (hkeeps : KeepsIndices space g pl s)
    (hhoists : hoists g promoteScalar pl s = true) (he : e ∈ s.resultEnvs space env) :
    ∃ p ∈ entries g isWholeStmt promoteScalar space pl s env, s.result.coords e = s.result.coords p.1 := by
  induction s generalizing pl env with
  | assignment lhs rhs compound => cases hhoists
  | «forall» i stmt ih =>
    rw [entries]
    split_ifs with hhoist
    · have hkept : stmt.result.coords e = stmt.result.coords env := coords_hoistable hkeeps hhoist he
      exact ⟨_, List.mem_singleton_self _, hkept⟩
    · rw [hoists, Bool.or_eq_true] at hhoists
      obtain ⟨c, hmem, he⟩ := List.mem_flatMap.mp he
      cases hc : space.enter i c env with
      | none =>
        rw [hc] at he
        cases he
      | some env' =>
        rw [hc] at he
        obtain ⟨p, hp, hcoords⟩ := ih hkeeps.2 (hhoists.resolve_left hhoist) he
        refine ⟨p, List.mem_flatMap.mpr ⟨c, hmem, ?_⟩, hcoords⟩
        rwa [hc]
  | «where» consumer producer ihc _ => exact @ihc pl.inConsumer _ hkeeps.1 hhoists he

/-! ### Promoted statements -/

/-- The scalars are different at different places, and no tensors of the statement. -/
structure Fresh (val : Position → Access → TensorVar) (s : IndexStmt V) : Prop where
  position : ∀ p a q b, val p a = val q b → p = q
  reads : ∀ r ∈ s.reads, ∀ q a, r.tensorVar ≠ val q a
  lhsAccesses : ∀ b ∈ s.lhsAccesses, ∀ q a, b.tensorVar ≠ val q a

theorem Fresh.of_subset {s s' : IndexStmt V} (h : Fresh val s) (hreads : s'.reads ⊆ s.reads)
    (hlhs : s'.lhsAccesses ⊆ s.lhsAccesses) : Fresh val s' :=
  ⟨h.position, fun r hr => h.reads r (hreads hr), fun b hb => h.lhsAccesses b (hlhs hb)⟩

/-- The scalar of a loop is none of those that are made in it. -/
theorem Fresh.ne_scalar {i : IndexVar} {stmt : IndexStmt V} {a r : Access} (h : Fresh val s)
    (hr : IsScalar val (pl.inLoop g i stmt) r) : r.tensorVar ≠ val pl.position a := by
  obtain ⟨q, b, hlen, rfl⟩ := hr
  intro heq
  have hq := h.position _ _ _ _ heq
  subst hq
  exact absurd hlen (Nat.not_succ_le_self _)

section Exec

variable [Ring V] {σ : Store V}

theorem exec_forall_congr {i : IndexVar} {body body' : IndexStmt V}
    (h : ∀ c < space.dims i, ∀ env', space.enter i c env = some env' → ∀ σ, body'.exec space env' σ = body.exec space env' σ) :
    (IndexStmt.forall i body').exec space env σ = (IndexStmt.forall i body).exec space env σ := by
  rw [IndexStmt.exec_forall, IndexStmt.exec_forall]
  refine List.foldl_ext _ _ _ fun σ c hc => ?_
  rw [IndexStmt.iteration, IndexStmt.iteration]
  cases henter : space.enter i c env with
  | none => rfl
  | some env' => exact h c (List.mem_range.mp hc) env' henter σ

/-- Accumulating in a scalar does what the loop does, if the store finds zero where it must. -/
theorem exec_promote_hoisted {i : IndexVar} {stmt : IndexStmt V} (hfresh : Fresh val (.forall i stmt))
    (hnodup : (stmt.lhsAccesses.map Access.tensorVar).Nodup) (hkeeps : KeepsIndices space g pl (.forall i stmt))
    (hhoist : isHoistable promoteScalar pl.indices stmt.result = true)
    (hread : ∀ r ∈ stmt.reads, r.tensorVar ≠ stmt.result.tensorVar)
    (hzero : mustBeZero g isWholeStmt space pl.derivedIndices i stmt env = true →
      σ stmt.result.tensorVar (stmt.result.coords env) = 0) :
    (promote g isWholeStmt promoteScalar val pl false (.forall i stmt)).exec space env σ =
      (IndexStmt.forall i (promote g isWholeStmt promoteScalar val (pl.inLoop g i stmt) true stmt)).exec space env σ := by
  set body := promote g isWholeStmt promoteScalar val (pl.inLoop g i stmt) true stmt with hbody
  set v := val pl.position stmt.result with hv
  have hresult : body.result = stmt.result := result_promote
  have henvs : (IndexStmt.forall i body).resultEnvs space env = (IndexStmt.forall i stmt).resultEnvs space env := by
    have hpromote : promote g isWholeStmt promoteScalar val pl true (.forall i stmt) = .forall i body :=
      promote_inside i stmt
    rw [← hpromote]
    exact resultEnvs_promote
  have hscalar : stmt.result.tensorVar ≠ v := hfresh.lhsAccesses _ stmt.result_mem_lhsAccesses _ _
  have hne : ∀ r, IsScalar val (pl.inLoop g i stmt) r → r.tensorVar ∉ [body.result.tensorVar, v] := by
    intro r hr hmem
    rw [hresult, List.mem_cons, List.mem_singleton] at hmem
    rcases hmem with hmem | hmem
    · obtain ⟨q, a, -, rfl⟩ := hr
      exact hfresh.lhsAccesses _ stmt.result_mem_lhsAccesses q a hmem.symm
    · exact hfresh.ne_scalar hr hmem
  have hreads : ∀ r ∈ body.reads, r.tensorVar ∉ [body.result.tensorVar, v] := by
    intro r hr
    rcases reads_promote hr with hr | hr
    · rw [hresult, List.mem_cons, List.mem_singleton, not_or]
      exact ⟨hread r hr, hfresh.reads r hr _ _⟩
    · exact hne r hr
  have hproducers : ∀ b ∈ body.producerAccesses, b.tensorVar ∉ [body.result.tensorVar, v] := by
    intro b hb
    rcases producerAccesses_promote hb with hb | hb
    · rw [hresult, List.mem_cons, List.mem_singleton, not_or]
      exact ⟨IndexStmt.producerAccesses_ne hnodup b hb,
        hfresh.lhsAccesses b (IndexStmt.producerAccesses_subset hb) _ _⟩
    · exact hne b hb
  have hcoords : ∀ e ∈ (IndexStmt.forall i body).resultEnvs space env, body.result.coords e = body.result.coords env := by
    rw [henvs, hresult]
    intro e he
    exact coords_hoistable hkeeps hhoist he
  have hop : body.resultOp = stmt.resultOp := resultOp_promote
  rw [promote_hoisted hhoist, ← hbody, ← hv]
  have hexec := @IndexStmt.exec_hoisted V body v _ space env σ i
    (keepsReduceOp g isWholeStmt pl.derivedIndices stmt.result && stmt.resultOp) (by rwa [hresult]) hreads hproducers hcoords
  rw [hresult, hop, henvs] at hexec
  refine hexec ?_
  split_ifs with hkeeps
  · exact (Bool.and_eq_true_iff.mp hkeeps).2
  · rw [Bool.not_eq_true] at hkeeps
    rw [mustBeZero, hkeeps, Bool.not_false, Bool.true_and, Bool.or_eq_true] at hzero
    cases hcompound : stmt.resultOp with
    | true => exact Or.inl (hzero (Or.inl hcompound))
    | false =>
      by_cases hempty : (IndexStmt.forall i stmt).resultEnvs space env = []
      · exact Or.inl (hzero (Or.inr (List.isEmpty_iff.mpr hempty)))
      · exact Or.inr ⟨rfl, hempty⟩

/-- Iterations that do not write the components of those after them can be replaced, if what they find is zero. -/
theorem foldl_iteration_entries {i : IndexVar} {stmt body : IndexStmt V} {l : List ℕ}
    (hkeeps : KeepsIndices space g pl (.forall i stmt))
    (hbody : ∀ c ∈ l, ∀ env', space.enter i c env = some env' → ∀ σ : Store V,
      StoresApart g isWholeStmt promoteScalar space (pl.inLoop g i stmt) stmt env' →
      (∀ p ∈ entries g isWholeStmt promoteScalar space (pl.inLoop g i stmt) stmt env', p.2 = true →
        σ stmt.result.tensorVar (stmt.result.coords p.1) = 0) →
      body.exec space env' σ = stmt.exec space env' σ)
    (hapart : (l.flatMap (iterationEntries g isWholeStmt promoteScalar space pl i stmt env)).Pairwise fun p q =>
      q.2 = true → stmt.result.coords p.1 ≠ stmt.result.coords q.1)
    (hzero : ∀ p ∈ l.flatMap (iterationEntries g isWholeStmt promoteScalar space pl i stmt env), p.2 = true →
      σ stmt.result.tensorVar (stmt.result.coords p.1) = 0) :
    l.foldl (body.iteration space i env) σ = l.foldl (stmt.iteration space i env) σ := by
  induction l generalizing σ with
  | nil => rfl
  | cons c l ih =>
    rw [List.flatMap_cons, List.pairwise_append] at hapart
    rw [List.flatMap_cons, List.forall_mem_append] at hzero
    have hstep : body.iteration space i env σ c = stmt.iteration space i env σ c := by
      rw [iterationEntries] at hapart hzero
      rw [IndexStmt.iteration, IndexStmt.iteration]
      cases hc : space.enter i c env with
      | none => rfl
      | some env' =>
        rw [hc] at hapart hzero
        exact hbody c List.mem_cons_self env' hc σ hapart.1 hzero.1
    rw [List.foldl_cons, List.foldl_cons, hstep]
    refine ih (fun c hc => hbody c (List.mem_cons_of_mem _ hc)) hapart.2.1 fun p hp hmust => ?_
    -- the iteration assigns to components to which its own entries store
    rw [IndexStmt.iteration_of_notMem]
    · exact hzero.2 p hp hmust
    · intro e he heq
      rw [IndexStmt.iterationEnvs] at he
      rw [iterationEntries] at hapart
      obtain ⟨c', -, hp'⟩ := List.mem_flatMap.mp hp
      have hhoists : hoists g promoteScalar (pl.inLoop g i stmt) stmt = true := by
        rw [iterationEntries] at hp'
        cases hc' : space.enter i c' env with
        | none =>
          rw [hc'] at hp'
          cases hp'
        | some env' =>
          rw [hc'] at hp'
          exact hoists_of_mem_entries hp'
      cases hc : space.enter i c env with
      | none =>
        rw [hc] at he
        cases he
      | some env' =>
        rw [hc] at he hapart
        obtain ⟨q, hq, hcoords⟩ := @coords_mem_entries V g isWholeStmt promoteScalar (pl.inLoop g i stmt) stmt space env' e
          hkeeps.2 hhoists he
        exact hapart.2.2 q hq p hp hmust (hcoords.symm.trans heq)

/-- Promotion keeps what a statement does, if each hoisted store finds zero where it must. -/
theorem exec_promote (hfresh : Fresh val s) (hnodup : (s.lhsAccesses.map Access.tensorVar).Nodup)
    (hkeeps : KeepsIndices space g pl s)
    (hpromotable : Promotable g isWholeStmt promoteScalar space pl hoisted s env)
    (hapart : hoisted = false → StoresApart g isWholeStmt promoteScalar space pl s env)
    (hzero : hoisted = false → ∀ p ∈ entries g isWholeStmt promoteScalar space pl s env, p.2 = true →
      σ s.result.tensorVar (s.result.coords p.1) = 0) :
    (promote g isWholeStmt promoteScalar val pl hoisted s).exec space env σ = s.exec space env σ := by
  induction s generalizing pl hoisted env σ with
  | assignment lhs rhs compound => rfl
  | «forall» i stmt ih =>
    have hfreshStmt : Fresh val stmt := ⟨hfresh.position, hfresh.reads, hfresh.lhsAccesses⟩
    have hbody : hoisted = true ∨ isHoistable promoteScalar pl.indices stmt.result = true → 
        ∀ c < space.dims i, ∀ env', space.enter i c env = some env' → ∀ σ,
          (promote g isWholeStmt promoteScalar val (pl.inLoop g i stmt) true stmt).exec space env' σ =
            stmt.exec space env' σ := by
      intro hor c hc env' henter σ
      have hstmt := hpromotable.2 c hc env' henter
      have htrue : (hoisted || isHoistable promoteScalar pl.indices stmt.result) = true := Bool.or_eq_true_iff.mpr hor
      rw [htrue] at hstmt
      exact ih hfreshStmt hnodup hkeeps.2 hstmt nofun nofun
    cases hoisted with
    | true =>
      rw [promote_inside]
      exact exec_forall_congr (hbody (Or.inl rfl))
    | false =>
      by_cases hhoist : isHoistable promoteScalar pl.indices stmt.result = true
      · rw [← exec_forall_congr (hbody (Or.inr hhoist))]
        refine exec_promote_hoisted hfresh hnodup hkeeps hhoist (hpromotable.1 rfl hhoist) fun hmust => ?_
        have hentry := hzero rfl
        rw [entries, if_pos hhoist, List.forall_mem_singleton] at hentry
        exact hentry hmust
      · have hentries : entries g isWholeStmt promoteScalar space pl (.forall i stmt) env =
            (List.range (space.dims i)).flatMap (iterationEntries g isWholeStmt promoteScalar space pl i stmt env) := by
          rw [entries, if_neg hhoist]
          rfl
        have hpair := hapart rfl
        rw [StoresApart, hentries] at hpair
        rw [hentries] at hzero
        rw [promote_around hhoist]
        refine foldl_iteration_entries hkeeps (fun c hc env' henter σ hapart hzero => ?_) hpair (hzero rfl)
        have hstmt := hpromotable.2 c (List.mem_range.mp hc) env' henter
        rw [Bool.not_eq_true] at hhoist
        rw [hhoist, Bool.or_false] at hstmt
        exact ih hfreshStmt hnodup hkeeps.2 hstmt (fun _ => hapart) fun _ => hzero
  | «where» consumer producer ihc ihp =>
    obtain ⟨hconsumer, hproducer, hproducerApart⟩ := hpromotable
    rw [IndexStmt.lhsAccesses, List.map_append, List.nodup_append'] at hnodup
    have hne : consumer.result.tensorVar ≠ producer.result.tensorVar := fun heq =>
      hnodup.2.2 (List.mem_map_of_mem consumer.result_mem_lhsAccesses)
        (heq ▸ List.mem_map_of_mem producer.result_mem_lhsAccesses)
    have hproducerExec : ∀ σ : Store V,
        (promote g isWholeStmt promoteScalar val pl.inProducer false producer).exec space env (σ.zero producer.getResults) =
          producer.exec space env (σ.zero producer.getResults) := by
      intro σ
      refine @ihp pl.inProducer _ _ _ (hfresh.of_subset (List.subset_append_right _ _) (List.subset_append_right _ _))
        hnodup.2.1 hkeeps.2 hproducer (fun _ => hproducerApart) fun _ p _ _ => ?_
      rw [Store.zero, if_pos (IndexStmt.mem_getResults.mpr rfl)]
      rfl
    rw [promote, IndexStmt.exec, IndexStmt.exec, IndexStmt.getResults_eq, result_promote, ← IndexStmt.getResults_eq,
      hproducerExec]
    refine congrArg (fun τ => Store.restore τ σ _) ?_
    refine @ihc pl.inConsumer _ _ _ (hfresh.of_subset (List.subset_append_left _ _) (List.subset_append_left _ _))
      hnodup.1 hkeeps.1 hconsumer hapart fun hfalse p hp hmust => ?_
    rw [IndexStmt.exec_of_ne hne, Store.zero, if_neg (mt IndexStmt.mem_getResults.mp hne)]
    exact hzero hfalse p hp hmust

end Exec

/-! ### Promoted statements are valid -/

section Concrete

variable {defined defined' : List IndexVar} {inWhereProducer : Bool} {a : Access}

theorem isConcrete_where {consumer producer : IndexStmt V} :
    (IndexStmt.where consumer producer).isConcrete g boundVars inWhereProducer defined = (true, defined') ↔
      ∃ between, producer.isConcrete g boundVars true defined = (true, between) ∧
        consumer.isConcrete g boundVars inWhereProducer between = (true, defined') := by
  constructor
  · intro h
    obtain ⟨hboth, hsnd⟩ := Prod.mk.inj h
    obtain ⟨hproducer, hconsumer⟩ := Bool.and_eq_true_iff.mp hboth
    exact ⟨_, Prod.ext hproducer rfl, Prod.ext hconsumer hsnd⟩
  · rintro ⟨between, hproducer, hconsumer⟩
    simp only [IndexStmt.isConcrete, hproducer, hconsumer, Bool.and_self]

/-- Loops add to the variables that are defined. -/
theorem subset_of_isConcrete (h : s.isConcrete g boundVars inWhereProducer defined = (true, defined')) :
    defined ⊆ defined' := by
  induction s generalizing boundVars inWhereProducer defined defined' with
  | assignment lhs rhs compound =>
    obtain rfl := (Prod.mk.inj h).2
    exact List.Subset.refl _
  | «forall» i stmt ih => exact List.Subset.trans (List.subset_cons_self i defined) (ih h)
  | «where» consumer producer ihc ihp =>
    obtain ⟨between, hproducer, hconsumer⟩ := isConcrete_where.mp h
    exact List.Subset.trans (ihp hproducer) (ihc hconsumer)

theorem isConcrete_inProducer (h : s.isConcrete g boundVars inWhereProducer defined = (true, defined')) :
    s.isConcrete g boundVars true defined = (true, defined') := by
  induction s generalizing boundVars inWhereProducer defined defined' with
  | assignment lhs rhs compound =>
    rw [IndexStmt.isConcrete, Prod.mk.injEq, Bool.and_eq_true] at h ⊢
    exact ⟨⟨by simp, h.1.2⟩, h.2⟩
  | «forall» i stmt ih => exact ih h
  | «where» consumer producer ihc _ =>
    obtain ⟨between, hproducer, hconsumer⟩ := isConcrete_where.mp h
    exact isConcrete_where.mpr ⟨between, hproducer, ihc hconsumer⟩

/-- A producer can assign to another access with variables that are bound. -/
theorem isConcrete_replaceReductionExpr {b : Access} (hb : ∀ u ∈ b.indexVars, u ∈ boundVars)
    (h : s.isConcrete g boundVars true defined = (true, defined')) :
    (s.replaceReductionExpr a b).isConcrete g boundVars true defined = (true, defined') := by
  induction s generalizing boundVars defined defined' with
  | assignment lhs rhs compound =>
    rw [IndexStmt.replaceReductionExpr]
    split_ifs
    · have hbound : b.indexVars.all (IndexStmt.isBound g boundVars defined) = true := List.all_eq_true.mpr fun u hu => by
        simp [IndexStmt.isBound, hb u hu]
      rw [IndexStmt.isConcrete, Prod.mk.injEq, List.all_cons, Bool.and_eq_true, Bool.and_eq_true] at h ⊢
      exact ⟨⟨by simp, hbound, h.1.2.2⟩, h.2⟩
    · exact h
  | «forall» i stmt ih => exact ih (fun u hu => List.mem_cons_of_mem i (hb u hu)) h
  | «where» consumer producer ihc ihp =>
    obtain ⟨between, hproducer, hconsumer⟩ := isConcrete_where.mp h
    exact isConcrete_where.mpr ⟨between, ihp hb hproducer, ihc hb hconsumer⟩

/-- The variables that are defined are bound. -/
theorem Recovered.isBound {loops : List IndexVar} (h : Recovered g loops derivedIndices) (hbound : loops ⊆ boundVars)
    (hdefined : loops ⊆ defined) {v : IndexVar} (hv : v ∈ derivedIndices) :
    IndexStmt.isBound g boundVars defined v = true := by
  simp only [IndexStmt.isBound, Bool.or_eq_true, Bool.and_eq_true, List.contains_iff_mem]
  rcases h.recovered v hv with hmem | ⟨hderived, hrecovered⟩
  · exact Or.inl (Or.inl (hbound hmem))
  · exact Or.inr ⟨by rw [hderived]; rfl, ProvenanceGraph.recoverable_mono hdefined hrecovered⟩

theorem isConcrete_promote {loops : List IndexVar} (hrecovered : Recovered g loops pl.derivedIndices)
    (hbound : loops ⊆ boundVars) (hdefined : loops ⊆ defined)
    (hloops : ∀ i ∈ Parallelize.loopVars s, g.isFullyDerived i = true) (hsub : pl.indices ⊆ pl.derivedIndices)
    (h : s.isConcrete g boundVars inWhereProducer defined = (true, defined')) :
    (promote g isWholeStmt promoteScalar val pl hoisted s).isConcrete g boundVars inWhereProducer defined =
      (true, defined') := by
  induction s generalizing pl hoisted loops boundVars inWhereProducer defined defined' with
  | assignment lhs rhs compound => exact h
  | «forall» i stmt ih =>
    rw [Parallelize.loopVars, List.forall_mem_cons] at hloops
    have hbody : ∀ hoisted, (promote g isWholeStmt promoteScalar val (pl.inLoop g i stmt) hoisted stmt).isConcrete g
        (i :: boundVars) inWhereProducer (i :: defined) = (true, defined') := fun hoisted =>
      ih (hrecovered.enter hloops.1) (List.cons_subset_cons i hbound) (List.cons_subset_cons i hdefined) hloops.2 (inLoop_subset hsub i stmt) h
    have hsubset : defined ⊆ defined' := List.Subset.trans (List.subset_cons_self i defined) (subset_of_isConcrete h)
    rw [promote]
    split_ifs with hhoist
    · rw [Bool.and_eq_true, isHoistable, Bool.and_eq_true, List.all_eq_true] at hhoist
      have hreplaced := @isConcrete_replaceReductionExpr V g _ _ _ _ stmt.result (.make (val pl.position stmt.result) [])
        nofun (isConcrete_inProducer (hbody true))
      refine isConcrete_where.mpr ⟨defined', hreplaced, ?_⟩
      rw [IndexStmt.isConcrete, Prod.mk.injEq, Bool.and_eq_true, List.all_cons, Bool.and_eq_true, List.all_eq_true]
      refine ⟨⟨by simp [IndexStmt.numReductionVars, IndexStmt.getReductionVars, IndexExpr.accesses, Access.make], ?_, rfl⟩,
        rfl⟩
      intro u hu
      exact hrecovered.isBound hbound (List.Subset.trans hdefined hsubset) (hsub (of_decide_eq_true (hhoist.2.2 u hu)))
    · exact hbody hoisted
  | «where» consumer producer ihc ihp =>
    rw [Parallelize.loopVars, List.forall_mem_append] at hloops
    obtain ⟨between, hproducer, hconsumer⟩ := isConcrete_where.mp h
    have hdefined' : loops ⊆ between := List.Subset.trans hdefined (subset_of_isConcrete hproducer)
    refine isConcrete_where.mpr ⟨between, ?_, ?_⟩
    · exact @ihp pl.inProducer false _ _ _ _ _ hrecovered hbound hdefined hloops.1 hsub hproducer
    · exact @ihc pl.inConsumer hoisted _ _ _ _ _ hrecovered hbound hdefined' hloops.2 hsub hconsumer

theorem bindsOnce_replaceReductionExpr {b : Access} : (s.replaceReductionExpr a b).bindsOnce boundVars = s.bindsOnce boundVars := by
  induction s generalizing boundVars with
  | assignment lhs rhs compound => rfl
  | «forall» i stmt ih => rw [IndexStmt.replaceReductionExpr, IndexStmt.bindsOnce, IndexStmt.bindsOnce, ih]
  | «where» consumer producer ihc ihp =>
    rw [IndexStmt.replaceReductionExpr, IndexStmt.bindsOnce, IndexStmt.bindsOnce, ihc, ihp]

theorem bindsOnce_promote : (promote g isWholeStmt promoteScalar val pl hoisted s).bindsOnce boundVars =
    s.bindsOnce boundVars := by
  induction s generalizing pl hoisted boundVars with
  | assignment lhs rhs compound => rfl
  | «forall» i stmt ih =>
    rw [promote]
    split_ifs
    · simp only [IndexStmt.bindsOnce, Bool.true_and, bindsOnce_replaceReductionExpr, ih]
    · rw [IndexStmt.bindsOnce, ih, IndexStmt.bindsOnce]
  | «where» consumer producer ihc ihp => rw [promote, IndexStmt.bindsOnce, ihc, ihp, IndexStmt.bindsOnce]

theorem loopVars_replaceReductionExpr {b : Access} :
    Parallelize.loopVars (s.replaceReductionExpr a b) = Parallelize.loopVars s := by
  induction s with
  | assignment lhs rhs compound => rfl
  | «forall» i stmt ih => exact congrArg (List.cons i) ih
  | «where» consumer producer ihc ihp => exact congrArg₂ _ ihp ihc

theorem loopVars_promote :
    Parallelize.loopVars (promote g isWholeStmt promoteScalar val pl hoisted s) = Parallelize.loopVars s := by
  induction s generalizing pl hoisted with
  | assignment lhs rhs compound => rfl
  | «forall» i stmt ih =>
    rw [promote]
    split_ifs
    · simp only [Parallelize.loopVars, loopVars_replaceReductionExpr, ih, List.append_nil]
    · exact congrArg (List.cons i) ih
  | «where» consumer producer ihc ihp => exact congrArg₂ _ ihp ihc

end Concrete

/-! ### Scalar promotion -/

/-- A valid concrete statement: variables are bound, no loop binds a variable again, and loops are over variables that
    nothing is derived from. -/
structure Valid (g : ProvenanceGraph) (s : IndexStmt V) : Prop where
  concrete : (s.isConcrete g [] false []).1 = true
  binds : s.bindsOnce [] = true
  fullyDerived : ∀ i ∈ Parallelize.loopVars s, g.isFullyDerived i = true

/-- Each tensor is assigned to in one place, no loop that a store is hoisted out of reads the result, and the stores that
    must find zero do: in a whole statement they are to components that no store before them was to, and in a part of one
    there are none. -/
structure Promotes (g : ProvenanceGraph) (isWholeStmt promoteScalar : Bool) (space : Space) (s : IndexStmt V) (env : Env) :
    Prop where
  assignsOnce : (s.lhsAccesses.map Access.tensorVar).Nodup
  promotable : Promotable g isWholeStmt promoteScalar space .start false s env
  stores : if isWholeStmt then StoresApart g isWholeStmt promoteScalar space .start s env
    else ∀ p ∈ entries g isWholeStmt promoteScalar space .start s env, p.2 = false

theorem valid_promote (h : Valid g s) : Valid g (promote g isWholeStmt promoteScalar val .start false s) where
  concrete := by
    have hconcrete := @isConcrete_promote V g isWholeStmt promoteScalar val .start false s [] [] _ false [] Recovered.nil
      (List.Subset.refl _) (List.Subset.refl _) h.fullyDerived (List.Subset.refl _) (Prod.ext h.concrete rfl)
    exact congrArg Prod.fst hconcrete
  binds := bindsOnce_promote.trans h.binds
  fullyDerived i hi := h.fullyDerived i (loopVars_promote ▸ hi)

/-- Loops over variables that are not derived define these. -/
theorem declares_underived {dims : IndexVar → ℕ} : Declares (.underived dims) g derivedIndices s := by
  induction s generalizing derivedIndices with
  | assignment lhs rhs compound => trivial
  | «forall» i stmt ih =>
    refine ⟨fun c env env' h v hv => ?_, ih⟩
    cases h
    refine Function.update_of_ne (fun heq => hv ?_) _ _
    rw [heq]
    exact mem_newIndices g i _
  | «where» consumer producer ihc ihp => exact ⟨ihc, ihp⟩

/-! ### Examples -/

/-- Scalars by their positions, where the tensors before the first one are in use. -/
@[grind =]
def freshScalar (first : ℕ) : Position → ℕ
  | [] => first
  | .stmt :: position => 3 * freshScalar first position
  | .consumer :: position => 3 * freshScalar first position + 1
  | .producer :: position => 3 * freshScalar first position + 2

theorem le_freshScalar (first : ℕ) (p : Position) : first ≤ freshScalar first p := by
  fun_induction freshScalar first p <;> omega

theorem freshScalar_injective {first : ℕ} (hfirst : 0 < first) {p q : Position}
    (h : freshScalar first p = freshScalar first q) : p = q := by
  induction p generalizing q with
  | nil =>
    cases q with
    | nil => rfl
    | cons b q =>
      have hle := le_freshScalar first q
      cases b <;> simp only [freshScalar] at h <;> omega
  | cons b p ih =>
    have hle := le_freshScalar first p
    cases q with
    | nil => cases b <;> simp only [freshScalar] at h <;> omega
    | cons b' q =>
      have hrest : freshScalar first p = freshScalar first q := by
        cases b <;> cases b' <;> simp only [freshScalar] at h <;> omega
      rw [ih hrest] at h ⊢
      cases b <;> cases b' <;> simp only [freshScalar] at h <;> first | rfl | omega

theorem fresh_freshScalar {first : ℕ} (hfirst : 0 < first) (hreads : ∀ r ∈ s.reads, r.tensorVar < first)
    (hlhs : ∀ b ∈ s.lhsAccesses, b.tensorVar < first) : Fresh (fun p _ => freshScalar first p) s where
  position _ _ _ _ h := freshScalar_injective hfirst h
  reads r hr q _ := ((hreads r hr).trans_le (le_freshScalar first q)).ne
  lhsAccesses b hb q _ := ((hlhs b hb).trans_le (le_freshScalar first q)).ne

/-- The rows of a matrix are summed up. -/
def rowSums : IndexStmt ℤ := .forall 0 (.forall 1 (.assignment (.make 0 [0]) (.access (.make 1 [0, 1])) true))

theorem rowSums_valid : Valid ⟨[]⟩ rowSums := ⟨rfl, rfl, fun _ _ => rfl⟩

theorem rowSums_promotes : Promotes ⟨[]⟩ true false (.underived fun _ => 2) rowSums fun _ => 0 where
  assignsOnce := List.nodup_singleton _
  promotable := by
    refine ⟨fun _ _ r hr => ?_, fun c _ env' _ => ⟨fun _ _ r hr => ?_, fun _ _ _ _ => trivial⟩⟩
    all_goals
      rw [List.mem_singleton.mp hr]
      exact Nat.one_ne_zero
  stores := by
    change List.Pairwise _ _
    decide

/-- A result that the loop whose store is hoisted reads. -/
def recurrence : IndexStmt ℤ :=
  .forall 0 (.forall 1 (.assignment (.make 0 [0])
    (.add (.mul (.access (.make 0 [0])) (.access (.make 1 [1]))) (.access (.make 1 [1]))) true))

theorem recurrence_valid : Valid ⟨[]⟩ recurrence := ⟨rfl, rfl, fun _ _ => rfl⟩

end ScalarPromote

end Concrete
end Taco
