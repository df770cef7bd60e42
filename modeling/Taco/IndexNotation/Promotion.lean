import Taco.IndexNotation.Parallelize
import Taco.IndexNotation.ScalarPromote

/-! Scalar promotion in one walk. Where each access is assigned to once, the maps say for each loop whether the store of
    its result is hoisted out of it, which depends on the loops around it only. -/

namespace Taco
namespace Concrete

variable {V : Type}

namespace IndexStmt

/-- The accesses that are assigned to. -/
@[grind =]
def lhsAccesses : IndexStmt V → List Access
  | assignment lhs _ _ => [lhs]
  | .forall _ stmt => stmt.lhsAccesses
  | .where consumer producer => consumer.lhsAccesses ++ producer.lhsAccesses

/-- Whether the result is assigned to with an operator. -/
def resultOp : IndexStmt V → Bool
  | assignment _ _ compound => compound
  | .forall _ stmt => stmt.resultOp
  | .where consumer _ => consumer.resultOp

theorem getResultAccesses_eq (s : IndexStmt V) : s.getResultAccesses = [s.result] := by
  induction s with
  | assignment lhs rhs compound => rfl
  | «forall» i stmt ih => exact ih
  | «where» consumer producer ihc _ => exact ihc

theorem result_mem_lhsAccesses (s : IndexStmt V) : s.result ∈ s.lhsAccesses := by
  induction s with
  | assignment lhs rhs compound => exact List.mem_singleton_self lhs
  | «forall» i stmt ih => exact ih
  | «where» consumer producer ihc _ => exact List.mem_append_left _ ihc

end IndexStmt

namespace ScalarPromote

/-- A place in a statement: the position and the variables that are defined there. -/
structure Place where
  position : Position
  indices : List IndexVar
  derivedIndices : List IndexVar

namespace Place

def start : Place := ⟨[], [], []⟩

def inLoop (g : ProvenanceGraph) (pl : Place) (i : IndexVar) (stmt : IndexStmt V) : Place where
  position := .stmt :: pl.position
  indices := (newIndices g i pl.derivedIndices).filter (· ∈ getIndexVars (.forall i stmt)) ++ pl.indices
  derivedIndices := newIndices g i pl.derivedIndices ++ pl.derivedIndices

def inConsumer (pl : Place) : Place := { pl with position := .consumer :: pl.position }

def inProducer (pl : Place) : Place := { pl with position := .producer :: pl.position }

end Place

variable (g : ProvenanceGraph) (isWholeStmt promoteScalar : Bool) (val : Position → Access → TensorVar)

/-- The promotion at a place, where `hoisted` says whether the store of the result is hoisted out of a loop around it. -/
@[grind =]
def promote : Place → (hoisted : Bool) → IndexStmt V → IndexStmt V
  | _, _, .assignment lhs rhs compound => .assignment lhs rhs compound
  | pl, hoisted, .forall i stmt =>
    if !hoisted && isHoistable promoteScalar pl.indices stmt.result then
      let scalar := Access.make (val pl.position stmt.result) []
      .where (.assignment stmt.result (.access scalar)
          (keepsReduceOp g isWholeStmt pl.derivedIndices stmt.result && stmt.resultOp))
        (.forall i ((promote (pl.inLoop g i stmt) true stmt).replaceReductionExpr stmt.result scalar))
    else .forall i (promote (pl.inLoop g i stmt) hoisted stmt)
  | pl, hoisted, .where consumer producer =>
    .where (promote pl.inConsumer hoisted consumer) (promote pl.inProducer false producer)

/-- Each loop defines variables that are not defined around it. -/
def DefinesOnce : List IndexVar → IndexStmt V → Prop
  | _, .assignment _ _ _ => True
  | derivedIndices, .forall i stmt =>
    (∀ v ∈ newIndices g i derivedIndices, v ∉ derivedIndices) ∧
      DefinesOnce (newIndices g i derivedIndices ++ derivedIndices) stmt
  | derivedIndices, .where consumer producer =>
    DefinesOnce derivedIndices consumer ∧ DefinesOnce derivedIndices producer

/-! ### Variables that are defined -/

/-- The variables that are defined are those of the loops, and what is recovered from these. -/
structure Recovered (boundVars derivedIndices : List IndexVar) : Prop where
  bound : boundVars ⊆ derivedIndices
  fullyDerived : ∀ i ∈ boundVars, g.isFullyDerived i = true
  recovered : ∀ v ∈ derivedIndices, v ∈ boundVars ∨ g.isFullyDerived v = false ∧ g.isRecoverable v boundVars = true

section Recovered

variable {g} {boundVars derivedIndices : List IndexVar} {i : IndexVar}

theorem Recovered.nil : Recovered g [] [] := ⟨List.Subset.refl _, fun _ h => (List.not_mem_nil h).elim, fun _ h => (List.not_mem_nil h).elim⟩

theorem mem_newIndices (g : ProvenanceGraph) (i : IndexVar) (derivedIndices : List IndexVar) :
    i ∈ newIndices g i derivedIndices := List.mem_append_right _ (List.mem_singleton_self i)

theorem Recovered.cons (h : Recovered g boundVars derivedIndices) (i : IndexVar) :
    ∀ v ∈ derivedIndices, v ∈ i :: boundVars ∨ g.isFullyDerived v = false ∧ g.isRecoverable v (i :: boundVars) = true :=
  fun v hv => (h.recovered v hv).imp (List.mem_cons_of_mem i)
    fun hv => ⟨hv.1, ProvenanceGraph.recoverable_mono (List.subset_cons_self i boundVars) hv.2⟩

theorem Recovered.enter (h : Recovered g boundVars derivedIndices) (hi : g.isFullyDerived i = true) :
    Recovered g (i :: boundVars) (newIndices g i derivedIndices ++ derivedIndices) where
  bound := List.cons_subset.mpr
    ⟨List.mem_append_left _ (mem_newIndices g i _), List.subset_append_of_subset_right _ h.bound⟩
  fullyDerived := List.forall_mem_cons.mpr ⟨hi, h.fullyDerived⟩
  recovered := by
    rw [List.forall_mem_append, newIndices, List.forall_mem_append, List.forall_mem_singleton]
    refine ⟨⟨fun v hv => Or.inr ⟨(ProvenanceGraph.newlyRecoverable_new hv).1, ?_⟩, Or.inl List.mem_cons_self⟩, h.cons i⟩
    exact ProvenanceGraph.newlyRecoverable_recovered (h.cons i) (Or.inl List.mem_cons_self) hv

/-- A loop over a variable that is fully derived and not bound defines none of the variables that are known from loops
    around it. -/
theorem Recovered.notMem {known : List IndexVar} (h : Recovered g boundVars known) (hbound : boundVars ⊆ derivedIndices)
    (hi : g.isFullyDerived i = true) (hnot : i ∉ boundVars) : ∀ v ∈ newIndices g i derivedIndices, v ∉ known := by
  rw [newIndices, List.forall_mem_append, List.forall_mem_singleton]
  constructor
  · intro v hv hmem
    obtain ⟨hderived, hfalse⟩ := ProvenanceGraph.newlyRecoverable_new hv
    rcases h.recovered v hmem with hloop | ⟨-, hrecovered⟩
    · exact absurd (hderived.symm.trans (h.fullyDerived v hloop)) Bool.false_ne_true
    · have htrue : g.isRecoverable v derivedIndices = true := ProvenanceGraph.recoverable_mono hbound hrecovered
      exact absurd (hfalse.symm.trans htrue) Bool.false_ne_true
  · intro hmem
    rcases h.recovered i hmem with hloop | ⟨hderived, -⟩
    · exact hnot hloop
    · exact absurd (hderived.symm.trans hi) Bool.false_ne_true

theorem definesOnce_of_bindsOnce {s : IndexStmt V} (h : Recovered g boundVars derivedIndices)
    (hbinds : s.bindsOnce boundVars = true) (hloops : ∀ i ∈ Parallelize.loopVars s, g.isFullyDerived i = true) :
    DefinesOnce g derivedIndices s := by
  induction s generalizing boundVars derivedIndices with
  | assignment lhs rhs compound => trivial
  | «forall» i stmt ih =>
    rw [IndexStmt.bindsOnce, Bool.and_eq_true, decide_eq_true_eq] at hbinds
    rw [Parallelize.loopVars, List.forall_mem_cons] at hloops
    exact ⟨h.notMem h.bound hloops.1 hbinds.1, ih (h.enter hloops.1) hbinds.2 hloops.2⟩
  | «where» consumer producer ihc ihp =>
    rw [IndexStmt.bindsOnce, Bool.and_eq_true] at hbinds
    rw [Parallelize.loopVars, List.forall_mem_append] at hloops
    exact ⟨ihc h hbinds.1 hloops.2, ihp h hbinds.2 hloops.1⟩

end Recovered

/-! ### The maps -/

section Maps

variable {g isWholeStmt promoteScalar val}
variable {pl : Place} {s : IndexStmt V} {maps maps' : Hoists} {a : Access}

/-- `FindHoistLevel` at a place. -/
def find (g : ProvenanceGraph) (isWholeStmt promoteScalar : Bool) (pl : Place) (s : IndexStmt V) (maps : Hoists) : Hoists :=
  findHoistLevel g isWholeStmt promoteScalar pl.position pl.indices pl.derivedIndices s maps

theorem find_forall (i : IndexVar) (stmt : IndexStmt V) : find g isWholeStmt promoteScalar pl (.forall i stmt) maps =
    find g isWholeStmt promoteScalar (pl.inLoop g i stmt) stmt
      (visitResult g isWholeStmt promoteScalar pl.position pl.indices pl.derivedIndices maps stmt.result) := by
  rw [find, findHoistLevel, IndexStmt.getResultAccesses_eq]
  rfl

theorem find_where (consumer producer : IndexStmt V) :
    find g isWholeStmt promoteScalar pl (.where consumer producer) maps =
      find g isWholeStmt promoteScalar pl.inConsumer consumer
        (find g isWholeStmt promoteScalar pl.inProducer producer maps) := rfl

/-- The maps agree on an access. -/
structure SameAt (maps maps' : Hoists) (a : Access) : Prop where
  hoistLevel : maps.hoistLevel a = maps'.hoistLevel a
  reduceOp : maps.reduceOp a = maps'.reduceOp a
  hoistIndices : maps.hoistIndices a = maps'.hoistIndices a

theorem SameAt.trans {maps'' : Hoists} (h : SameAt maps maps' a) (h' : SameAt maps' maps'' a) : SameAt maps maps'' a :=
  ⟨h.hoistLevel.trans h'.hoistLevel, h.reduceOp.trans h'.reduceOp, h.hoistIndices.trans h'.hoistIndices⟩

theorem visitResult_of_ne {position : Position} {indices derivedIndices : List IndexVar} {b : Access} (h : a ≠ b) :
    SameAt (visitResult g isWholeStmt promoteScalar position indices derivedIndices maps b) maps a := by
  rw [visitResult]
  split_ifs
  · exact ⟨Function.update_of_ne h _ _, Function.update_of_ne h _ _, Function.update_of_ne h _ _⟩
  · exact ⟨Function.update_of_ne h _ _, rfl, Function.update_of_ne h _ _⟩
  · exact ⟨rfl, rfl, rfl⟩

/-- The maps change only at accesses that are assigned to. -/
theorem find_of_notMem (h : a ∉ s.lhsAccesses) : SameAt (find g isWholeStmt promoteScalar pl s maps) maps a := by
  induction s generalizing pl maps with
  | assignment lhs rhs compound =>
    have hne : a ≠ lhs := fun heq => h (List.mem_singleton.mpr heq)
    rw [find, findHoistLevel]
    refine ⟨?_, ?_, rfl⟩
    · dsimp only
      split_ifs
      · exact Function.update_of_ne hne _ _
      · rfl
    · dsimp only
      split_ifs
      · exact Function.update_of_ne hne _ _
      · rfl
  | «forall» i stmt ih =>
    rw [find_forall]
    exact (ih h).trans (visitResult_of_ne fun heq => h (heq ▸ stmt.result_mem_lhsAccesses))
  | «where» consumer producer ihc ihp =>
    rw [IndexStmt.lhsAccesses, List.mem_append, not_or] at h
    rw [find_where]
    exact (ihc h.1).trans (ihp h.2)

/-- The store of an access is hoisted out of a loop around a place, where a variable was not yet defined. -/
structure HoistedAround (maps : Hoists) (pl : Place) (a : Access) : Prop where
  level : ∃ position, maps.hoistLevel a = some position ∧ position.length < pl.position.length
  indices : ∃ v ∈ pl.indices, v ∉ maps.hoistIndices a

theorem HoistedAround.of_same (h : HoistedAround maps pl a) (hsame : SameAt maps' maps a) : HoistedAround maps' pl a :=
  ⟨hsame.hoistLevel ▸ h.level, hsame.hoistIndices ▸ h.indices⟩

theorem HoistedAround.inLoop (h : HoistedAround maps pl a) (i : IndexVar) (stmt : IndexStmt V) :
    HoistedAround maps (pl.inLoop g i stmt) a := by
  obtain ⟨position, hposition, hlt⟩ := h.level
  obtain ⟨v, hv, hnot⟩ := h.indices
  exact ⟨⟨position, hposition, Nat.lt_succ_of_lt hlt⟩, v, List.mem_append_right _ hv, hnot⟩

theorem HoistedAround.inConsumer (h : HoistedAround maps pl a) : HoistedAround maps pl.inConsumer a := by
  obtain ⟨position, hposition, hlt⟩ := h.level
  exact ⟨⟨position, hposition, Nat.lt_succ_of_lt hlt⟩, h.indices⟩

/-- The result of a statement stays hoisted, and the operator of its store becomes that of the assignment. -/
theorem find_hoisted (h : HoistedAround maps pl s.result) (hnodup : s.lhsAccesses.Nodup) :
    (find g isWholeStmt promoteScalar pl s maps).hoistLevel s.result = maps.hoistLevel s.result ∧
      (find g isWholeStmt promoteScalar pl s maps).reduceOp s.result =
        if (maps.reduceOp s.result).isSome then some s.resultOp else none := by
  induction s generalizing pl maps with
  | assignment lhs rhs compound =>
    obtain ⟨v, hv, hnot⟩ := h.indices
    have hsets : sameSet (maps.hoistIndices lhs) pl.indices = false := by
      rw [sameSet, Bool.and_eq_false_iff]
      right
      rw [List.all_eq_false]
      exact ⟨v, hv, fun hmem => hnot (of_decide_eq_true hmem)⟩
    rw [find, findHoistLevel, hsets, Bool.and_false]
    refine ⟨rfl, ?_⟩
    change (if (maps.reduceOp lhs).isSome then Function.update maps.reduceOp lhs (some compound) else maps.reduceOp) lhs =
      if (maps.reduceOp lhs).isSome then some compound else none
    cases hop : maps.reduceOp lhs with
    | none => simp [hop]
    | some op => simp
  | «forall» i stmt ih =>
    obtain ⟨position, hposition, -⟩ := h.level
    have hvisit : visitResult g isWholeStmt promoteScalar pl.position pl.indices pl.derivedIndices maps stmt.result =
        maps := by
      rw [visitResult, if_neg]
      have hlevel : maps.hoistLevel stmt.result = some position := hposition
      simp [hlevel]
    rw [find_forall, hvisit]
    exact ih (h.inLoop i stmt) hnodup
  | «where» consumer producer ihc _ =>
    rw [IndexStmt.lhsAccesses, List.nodup_append'] at hnodup
    have hsame : SameAt (find g isWholeStmt promoteScalar pl.inProducer producer maps) maps consumer.result :=
      find_of_notMem (hnodup.2.2 consumer.result_mem_lhsAccesses)
    rw [find_where]
    have hfind := ihc (h.inConsumer.of_same hsame) hnodup.1
    rw [hsame.hoistLevel, hsame.reduceOp] at hfind
    exact hfind

/-- Writes are hoisted as the maps say for the accesses that are assigned to. -/
theorem hoistWrites_congr {position : Position} (h : ∀ a ∈ s.lhsAccesses, SameAt maps maps' a) :
    hoistWrites maps val position s = hoistWrites maps' val position s := by
  induction s generalizing position with
  | assignment lhs rhs compound => rfl
  | «forall» i stmt ih =>
    have hresult := h _ stmt.result_mem_lhsAccesses
    rw [hoistWrites, hoistWrites, IndexStmt.getResultAccesses_eq, ih h]
    change _ = List.foldl _ _ (List.filter _ [stmt.result])
    simp only [IndexStmt.result, List.filter_cons, List.filter_nil, hresult.hoistLevel]
    split_ifs
    · simp only [List.foldl_cons, List.foldl_nil, hresult.reduceOp]
    · rfl
  | «where» consumer producer ihc ihp =>
    rw [hoistWrites, hoistWrites, ihc fun a ha => h a (List.mem_append_left _ ha),
      ihp fun a ha => h a (List.mem_append_right _ ha)]

theorem visitResult_of_not (h : ¬ isHoistable promoteScalar pl.indices a = true ∨ (maps.hoistLevel a).isSome = true) :
    visitResult g isWholeStmt promoteScalar pl.position pl.indices pl.derivedIndices maps a = maps := by
  rw [visitResult, if_neg]
  rintro hand
  rw [Bool.and_eq_true, Option.isNone_iff_eq_none] at hand
  rcases h with h | h
  · exact h hand.1
  · rw [hand.2] at h
    cases h

theorem visitResult_hoisted (hhoist : isHoistable promoteScalar pl.indices a = true) (hnone : maps.hoistLevel a = none) :
    (visitResult g isWholeStmt promoteScalar pl.position pl.indices pl.derivedIndices maps a).hoistLevel a =
        some pl.position ∧
      (visitResult g isWholeStmt promoteScalar pl.position pl.indices pl.derivedIndices maps a).reduceOp a =
        (if keepsReduceOp g isWholeStmt pl.derivedIndices a then some false else maps.reduceOp a) ∧
      (visitResult g isWholeStmt promoteScalar pl.position pl.indices pl.derivedIndices maps a).hoistIndices a =
        pl.indices := by
  rw [visitResult, if_pos (by rw [hhoist, hnone]; rfl)]
  refine ⟨Function.update_self _ _ _, ?_, Function.update_self _ _ _⟩
  dsimp only
  split_ifs
  · exact Function.update_self _ _ _
  · rfl

/-- What is hoisted out of a loop is hoisted around its body, in which the loop's variable is defined. -/
theorem hoistedAround_visitResult (hhoist : isHoistable promoteScalar pl.indices a = true)
    (hnone : maps.hoistLevel a = none) {i : IndexVar} (hi : i ∉ pl.indices) (stmt : IndexStmt V) :
    HoistedAround (visitResult g isWholeStmt promoteScalar pl.position pl.indices pl.derivedIndices maps a)
      (pl.inLoop g i stmt) a := by
  obtain ⟨hlevel, -, hindices⟩ := visitResult_hoisted hhoist hnone
  refine ⟨⟨pl.position, hlevel, Nat.lt_succ_self _⟩, i, ?_, by rwa [hindices]⟩
  refine List.mem_append_left _ (List.mem_filter.mpr ⟨?_, decide_eq_true List.mem_cons_self⟩)
  exact List.mem_append_right _ (List.mem_singleton_self i)

theorem inLoop_subset (hsub : pl.indices ⊆ pl.derivedIndices) (i : IndexVar) (stmt : IndexStmt V) :
    (pl.inLoop g i stmt).indices ⊆ (pl.inLoop g i stmt).derivedIndices := by
  intro v hv
  rcases List.mem_append.mp hv with hv | hv
  · exact List.mem_append_left _ (List.mem_filter.mp hv).1
  · exact List.mem_append_right _ (hsub hv)

/-- A store that is hoisted in a statement is hoisted out of a loop in it. -/
theorem find_level (hnodup : s.lhsAccesses.Nodup) (honce : DefinesOnce g pl.derivedIndices s)
    (hsub : pl.indices ⊆ pl.derivedIndices) (hnone : maps.hoistLevel s.result = none) {position : Position}
    (h : (find g isWholeStmt promoteScalar pl s maps).hoistLevel s.result = some position) :
    pl.position.length ≤ position.length := by
  induction s generalizing pl maps with
  | assignment lhs rhs compound =>
    have hlevel : maps.hoistLevel lhs = none := hnone
    rw [find, findHoistLevel, hlevel, Option.isSome_none, Bool.false_and, if_neg Bool.false_ne_true] at h
    rw [IndexStmt.result, hlevel] at h
    cases h
  | «forall» i stmt ih =>
    rw [find_forall] at h
    by_cases hhoist : isHoistable promoteScalar pl.indices stmt.result = true
    · have hi : i ∉ pl.indices := fun hmem => honce.1 i (mem_newIndices g i _) (hsub hmem)
      have hlevel := (@visitResult_hoisted g isWholeStmt promoteScalar _ _ _ hhoist hnone).1
      have haround := @hoistedAround_visitResult V g isWholeStmt promoteScalar _ _ _ hhoist hnone i hi stmt
      have hfind := (@find_hoisted _ g isWholeStmt promoteScalar _ _ _ haround hnodup).1
      obtain rfl := Option.some.inj (hlevel.symm.trans (hfind.symm.trans h))
      exact le_refl _
    · rw [visitResult_of_not (Or.inl hhoist)] at h
      exact (Nat.le_succ _).trans (ih hnodup honce.2 (inLoop_subset hsub i stmt) hnone h)
  | «where» consumer producer ihc _ =>
    rw [IndexStmt.lhsAccesses, List.nodup_append'] at hnodup
    have hsame : SameAt (find g isWholeStmt promoteScalar pl.inProducer producer maps) maps consumer.result :=
      find_of_notMem (hnodup.2.2 consumer.result_mem_lhsAccesses)
    rw [find_where] at h
    exact (Nat.le_succ _).trans (@ihc pl.inConsumer _ hnodup.1 honce.1 hsub (hsame.hoistLevel.trans hnone) h)

theorem hoistWrites_forall {position : Position} (i : IndexVar) (stmt : IndexStmt V) :
    hoistWrites maps val position (.forall i stmt) =
      if maps.hoistLevel stmt.result = some position then
        .where (.assignment stmt.result (.access (.make (val position stmt.result) []))
            ((maps.reduceOp stmt.result).getD false))
          (.forall i ((hoistWrites maps val (.stmt :: position) stmt).replaceReductionExpr stmt.result
            (.make (val position stmt.result) [])))
      else .forall i (hoistWrites maps val (.stmt :: position) stmt) := by
  rw [hoistWrites, IndexStmt.getResultAccesses_eq, IndexStmt.result, List.filter_cons, List.filter_nil]
  by_cases h : maps.hoistLevel stmt.result = some position
  · simp only [h, decide_true, if_true, List.foldl_cons, List.foldl_nil]
  · simp only [h, decide_false, if_false, Bool.false_eq_true, List.foldl_nil]

/-- Promotion with maps is promotion in one walk. -/
theorem hoistWrites_find (hnodup : s.lhsAccesses.Nodup) (honce : DefinesOnce g pl.derivedIndices s)
    (hsub : pl.indices ⊆ pl.derivedIndices) (hoisted : Bool)
    (hfresh : ∀ a ∈ s.lhsAccesses, a ≠ s.result → maps.hoistLevel a = none ∧ maps.reduceOp a = none)
    (hresult : if hoisted then HoistedAround maps pl s.result
      else maps.hoistLevel s.result = none ∧ maps.reduceOp s.result = none) :
    hoistWrites (find g isWholeStmt promoteScalar pl s maps) val pl.position s =
      promote g isWholeStmt promoteScalar val pl hoisted s := by
  induction s generalizing pl hoisted maps with
  | assignment lhs rhs compound => rfl
  | «forall» i stmt ih =>
    have hi : i ∉ pl.indices := fun hmem => honce.1 i (mem_newIndices g i _) (hsub hmem)
    change if hoisted then HoistedAround maps pl stmt.result
      else maps.hoistLevel stmt.result = none ∧ maps.reduceOp stmt.result = none at hresult
    rw [find_forall, hoistWrites_forall, promote]
    cases hoisted with
    | true =>
      rw [if_pos rfl] at hresult
      obtain ⟨position, hposition, hlt⟩ := hresult.level
      have haround : HoistedAround maps (pl.inLoop g i stmt) stmt.result := hresult.inLoop i stmt
      have hlevel := (@find_hoisted _ g isWholeStmt promoteScalar _ _ _ haround hnodup).1
      rw [visitResult_of_not (Or.inr (Option.isSome_iff_exists.mpr ⟨position, hposition⟩))]
      rw [if_neg, Bool.not_true, Bool.false_and, if_neg Bool.false_ne_true]
      · exact congrArg _ (ih hnodup honce.2 (inLoop_subset hsub i stmt) true hfresh haround)
      · intro heq
        obtain rfl := Option.some.inj (hposition.symm.trans (hlevel.symm.trans heq))
        exact absurd hlt (lt_irrefl _)
    | false =>
      rw [if_neg Bool.false_ne_true] at hresult
      by_cases hhoist : isHoistable promoteScalar pl.indices stmt.result = true
      · obtain ⟨hlevel, hop, -⟩ := @visitResult_hoisted g isWholeStmt promoteScalar _ _ _ hhoist hresult.1
        have haround := @hoistedAround_visitResult V g isWholeStmt promoteScalar _ _ _ hhoist hresult.1 i hi stmt
        obtain ⟨hfind, hfindOp⟩ := @find_hoisted _ g isWholeStmt promoteScalar _ _ _ haround hnodup
        have hbody := ih hnodup honce.2 (inLoop_subset hsub i stmt) true (fun a ha hne => by
          rw [(visitResult_of_ne hne).hoistLevel, (visitResult_of_ne hne).reduceOp]
          exact hfresh a ha hne) haround
        rw [if_pos (hfind.trans hlevel), Bool.not_false, Bool.true_and, if_pos hhoist, hfindOp, hop, hresult.2]
        refine congrArg₂ IndexStmt.where (congrArg (IndexStmt.assignment _ _) ?_) ?_
        · cases keepsReduceOp g isWholeStmt pl.derivedIndices stmt.result <;> rfl
        · exact congrArg (IndexStmt.forall i) (congrArg (IndexStmt.replaceReductionExpr _ _) hbody)
      · rw [visitResult_of_not (Or.inl hhoist), Bool.not_false, Bool.true_and, if_neg hhoist, if_neg]
        · exact congrArg _ (ih hnodup honce.2 (inLoop_subset hsub i stmt) false hfresh hresult)
        · intro heq
          exact absurd (@find_level _ g _ _ _ stmt _ hnodup honce.2 (inLoop_subset hsub i stmt) hresult.1 _ heq)
            (Nat.not_succ_le_self _)
  | «where» consumer producer ihc ihp =>
    have happend := List.nodup_append'.mp hnodup
    have hproducer : ∀ a ∈ producer.lhsAccesses, a ≠ consumer.result := fun a ha heq =>
      happend.2.2 consumer.result_mem_lhsAccesses (heq ▸ ha)
    have hsame : ∀ a ∈ consumer.lhsAccesses,
        SameAt (find g isWholeStmt promoteScalar pl.inProducer producer maps) maps a :=
      fun a ha => find_of_notMem (happend.2.2 ha)
    rw [find_where, hoistWrites, promote]
    refine congrArg₂ IndexStmt.where ?_ ?_
    · refine @ihc pl.inConsumer _ happend.1 honce.1 hsub hoisted (fun a ha hne => ?_) ?_
      · rw [(hsame a ha).hoistLevel, (hsame a ha).reduceOp]
        exact hfresh a (List.mem_append_left _ ha) hne
      · have hresultSame := hsame _ consumer.result_mem_lhsAccesses
        cases hoisted with
        | true => exact (HoistedAround.inConsumer hresult).of_same hresultSame
        | false =>
          rw [if_neg Bool.false_ne_true] at hresult ⊢
          exact ⟨hresultSame.hoistLevel.trans hresult.1, hresultSame.reduceOp.trans hresult.2⟩
    · rw [hoistWrites_congr fun a ha => find_of_notMem fun hmem => happend.2.2 hmem ha]
      refine @ihp pl.inProducer _ happend.2.1 honce.2 hsub false (fun a ha _ => ?_) ?_
      · exact hfresh a (List.mem_append_right _ ha) (hproducer a ha)
      · exact hfresh _ (List.mem_append_right _ producer.result_mem_lhsAccesses)
          (hproducer _ producer.result_mem_lhsAccesses)

/-- A statement whose accesses are assigned to once is promoted in one walk. -/
theorem scalarPromote_eq (hnodup : s.lhsAccesses.Nodup) (honce : DefinesOnce g [] s) :
    scalarPromote g isWholeStmt promoteScalar val s = promote g isWholeStmt promoteScalar val .start false s :=
  @hoistWrites_find V g isWholeStmt promoteScalar val .start s .empty hnodup honce (List.nil_subset _) false
    (fun _ _ _ => ⟨rfl, rfl⟩) ⟨rfl, rfl⟩

end Maps

end ScalarPromote

end Concrete
end Taco
