import Taco.Notation.Nodes

/-! `dimensionsTypecheck`: whether index variables are used at modes of the same dimension. -/

namespace Taco
namespace Notation

/-! ### The check -/

/-- `Dimension(size_t)` of an `int`. -/
def Dimension.ofInt (n : ℤ) : Dimension := .sized (n % 2 ^ 64).toNat

/-- The dimension of a mode as the access uses it. -/
def Access.dimension (a : Access) (mode : ℕ) : Dimension :=
  match a.windowedModes.lookup mode with
  | some w => .ofInt (getWindowSize w)
  | none =>
    match a.indexSetModes.lookup mode with
    | some s => .sized s.set.length
    | none => a.tensorVar.type.shape.getDimension mode

/-- A use of an index variable at a mode of a dimension. -/
abbrev Use := IndexVar × Dimension

def Access.uses (a : Access) : List Use := a.indexVars.mapIdx fun mode var => (var, a.dimension mode)

def resultUses (resultVars : List IndexVar) (shape : Shape) : List Use :=
  resultVars.mapIdx fun mode var => (var, shape.getDimension mode)

/-- `util::join`. -/
def join (sep : String) : List String → String
  | [] => ""
  | [a] => a
  | a :: b :: as => a ++ sep ++ join sep (b :: as)

section Check

variable (getName : IndexVar → String)

def addDimensionError (var : IndexVar) (dimension1 dimension2 : Dimension) : String :=
  "Index variable " ++ getName var ++ " is used to index modes of different dimensions (" ++ dimension1.toString ++
    " and " ++ dimension2.toString ++ ")."

/-- One turn of the two loops, on the first dimension of each variable and the errors. An insertion keeps an entry that
    is there. -/
def checkUse (st : List Use × List String) (use : Use) : List Use × List String :=
  match st.1.lookup use.1 with
  | some known =>
    if !known.equal use.2 && !known.isSizedBy use.1 && !use.2.isSizedBy use.1 then
      (st.1, st.2 ++ [addDimensionError getName use.1 known use.2])
    else st
  | none => (st.1 ++ [use], st.2)

def dimensionsTypecheck (resultVars : List IndexVar) (expr : IndexExpr) (shape : Shape) : Bool × String :=
  let st := (resultUses resultVars shape).foldl (checkUse getName) ([], [])
  let st := expr.accesses.foldl (fun st readNode => readNode.uses.foldl (checkUse getName) st) st
  (st.2.isEmpty, join " " st.2)

end Check

/-! ### What it is for -/

/-- The uses in the order of the check. -/
def usesOf (resultVars : List IndexVar) (expr : IndexExpr) (shape : Shape) : List Use :=
  resultUses resultVars shape ++ expr.accesses.flatMap Access.uses

/-- The fixed dimensions at which a variable is used are equal. -/
def FixedAgree (uses : List Use) : Prop :=
  ∀ v d d', (v, d) ∈ uses → (v, d') ∈ uses → d.isFixed = true → d'.isFixed = true → d.getSize = d'.getSize

/-- The check accepts the uses whose fixed dimensions agree, and has an error message for all others. -/
def ChecksDimensions (getName : IndexVar → String) (resultVars : List IndexVar) (expr : IndexExpr) (shape : Shape) : Prop :=
  let result := dimensionsTypecheck getName resultVars expr shape
  (FixedAgree (usesOf resultVars expr shape) → result = (true, "")) ∧
    (¬ FixedAgree (usesOf resultVars expr shape) → result.1 = false ∧ result.2 ≠ "")

/-! ### What it accepts -/

variable {uses : List Use} {v : IndexVar}

/-- What is asked of a later use, given the first dimension of the variable. -/
def Agrees (v : IndexVar) (known d : Dimension) : Prop :=
  known.equal d = true ∨ known.isSizedBy v = true ∨ d.isSizedBy v = true

theorem checkUse_of_some {getName : IndexVar → String} {st : List Use × List String} {use : Use} {known : Dimension}
    (h : st.1.lookup use.1 = some known) :
    (checkUse getName st use).1 = st.1 ∧
      ((checkUse getName st use).2 = [] ↔ st.2 = [] ∧ Agrees use.1 known use.2) := by
  rw [checkUse, h]
  dsimp only
  split_ifs with hbad
  · refine ⟨rfl, ?_⟩
    simp only [Bool.and_eq_true, Bool.not_eq_true'] at hbad
    simp [Agrees, hbad]
  · refine ⟨rfl, ?_⟩
    simp only [Bool.and_eq_true, Bool.not_eq_true', not_and_or, Bool.not_eq_false] at hbad
    exact (and_iff_left (or_assoc.mp hbad)).symm

theorem checkUse_of_none {getName : IndexVar → String} {st : List Use × List String} {use : Use}
    (h : st.1.lookup use.1 = none) : checkUse getName st use = (st.1 ++ [use], st.2) := by
  rw [checkUse, h]

theorem exists_lookup {u : Use} (hu : u ∈ uses) : ∃ d, uses.lookup u.1 = some d :=
  Option.isSome_iff_exists.mp (List.lookup_isSome_iff.mpr ⟨u, hu, beq_self_eq_true _⟩)

theorem lookup_singleton (use : Use) : [use].lookup v = if v = use.1 then some use.2 else none := by
  obtain ⟨var, d⟩ := use
  by_cases h : v = var
  · rw [if_pos h, h, List.lookup_cons_self]
  · rw [if_neg h, List.lookup_cons, beq_false_of_ne h]
    rfl

/-- The loops remember the first dimension of each variable, and have no error if all uses agree with it. -/
theorem foldl_checkUse (getName : IndexVar → String) (uses : List Use) :
    (∀ v, ((uses.foldl (checkUse getName) ([], [])).1.lookup v) = uses.lookup v) ∧
      ((uses.foldl (checkUse getName) ([], [])).2 = [] ↔
        ∀ use ∈ uses, ∀ known, uses.lookup use.1 = some known → Agrees use.1 known use.2) := by
  induction uses using List.reverseRecOn with
  | nil => simp
  | append_singleton uses use ih =>
    obtain ⟨hdims, herrors⟩ := ih
    rw [List.foldl_append, List.foldl_cons, List.foldl_nil]
    generalize hst : uses.foldl (checkUse getName) ([], []) = st at hdims herrors
    have hfirst : ∀ v known, uses.lookup v = some known → (uses ++ [use]).lookup v = some known := fun v known h => by
      rw [List.lookup_append, h, Option.some_or]
    cases hknown : st.1.lookup use.1 with
    | some known =>
      obtain ⟨hsame, hno⟩ := checkUse_of_some hknown
      rw [hdims] at hknown
      constructor
      · intro v
        rw [hsame, hdims, List.lookup_append]
        cases hv : uses.lookup v with
        | some d => rfl
        | none =>
          have hne : v ≠ use.1 := by
            rintro rfl
            rw [hknown] at hv
            cases hv
          rw [lookup_singleton, if_neg hne]
          rfl
      · rw [hno, herrors]
        constructor
        · rintro ⟨hall, hagrees⟩ u hu known' hlookup
          rcases List.mem_append.mp hu with hu | hu
          · obtain ⟨d, hd⟩ := exists_lookup hu
            rw [hfirst _ _ hd] at hlookup
            exact hall u hu known' (hd.trans hlookup)
          · obtain rfl := List.mem_singleton.mp hu
            rw [hfirst _ _ hknown] at hlookup
            exact Option.some.inj hlookup ▸ hagrees
        · intro hall
          refine ⟨fun u hu d hd => hall u (List.mem_append_left _ hu) d (hfirst _ _ hd), ?_⟩
          exact hall use (List.mem_append_right _ List.mem_cons_self) known (hfirst _ _ hknown)
    | none =>
      rw [checkUse_of_none hknown]
      have hnone : uses.lookup use.1 = none := (hdims use.1).symm.trans hknown
      constructor
      · intro v
        rw [List.lookup_append, List.lookup_append, hdims]
      · rw [herrors]
        constructor
        · intro hall u hu known' hlookup
          rcases List.mem_append.mp hu with hu | hu
          · obtain ⟨d, hd⟩ := exists_lookup hu
            rw [hfirst _ _ hd] at hlookup
            exact hall u hu known' (hd.trans hlookup)
          · obtain rfl := List.mem_singleton.mp hu
            rw [List.lookup_append, hnone, lookup_singleton, if_pos rfl, Option.none_or, Option.some.injEq] at hlookup
            exact Or.inl (Dimension.equal_iff.mpr (congrArg _ hlookup.symm))
        · exact fun hall u hu d hd => hall u (List.mem_append_left _ hu) d (hfirst _ _ hd)

/-! ### When it is right -/

/-- A variable is used at fixed dimensions that differ. -/
def Clash (uses : List Use) (v : IndexVar) : Prop :=
  ∃ d d', (v, d) ∈ uses ∧ (v, d') ∈ uses ∧ d.isFixed = true ∧ d'.isFixed = true ∧ d.getSize ≠ d'.getSize

/-- A variable is used both at a fixed dimension and at one that is variable, but not of the size of the variable. -/
def Mixed (uses : List Use) (v : IndexVar) : Prop :=
  ∃ d d', (v, d) ∈ uses ∧ (v, d') ∈ uses ∧ d.isFixed = true ∧ d'.isFixed = false ∧ d'.isSizedBy v = false

/-- The first dimension at which a variable is used is of the size of the variable itself. -/
def Shadowed (uses : List Use) (v : IndexVar) : Prop := ∃ d, uses.lookup v = some d ∧ d.isSizedBy v = true

theorem fixedAgree_iff : FixedAgree uses ↔ ∀ v, ¬ Clash uses v := by
  constructor
  · rintro h v ⟨d, d', hd, hd', hfixed, hfixed', hne⟩
    exact hne (h v d d' hd hd' hfixed hfixed')
  · intro h v d d' hd hd' hfixed hfixed'
    by_contra hne
    exact h v ⟨d, d', hd, hd', hfixed, hfixed', hne⟩

theorem mem_of_lookup {d : Dimension} (h : uses.lookup v = some d) : (v, d) ∈ uses := by
  induction uses with
  | nil => cases h
  | cons use uses ih =>
    rw [← List.singleton_append, List.lookup_append, lookup_singleton] at h
    by_cases hv : v = use.1
    · rw [if_pos hv, Option.some_or, Option.some.injEq] at h
      subst hv h
      exact List.mem_cons_self
    · rw [if_neg hv, Option.none_or] at h
      exact List.mem_cons_of_mem _ (ih h)

/-- The uses of a variable agree with the first one if that one is of the variable's own size, or if none of the others
    clash or mix. -/
theorem agrees_iff {known : Dimension} (hknown : uses.lookup v = some known) :
    (∀ d, (v, d) ∈ uses → Agrees v known d) ↔ Shadowed uses v ∨ ¬ Clash uses v ∧ ¬ Mixed uses v := by
  have hmem := mem_of_lookup hknown
  have hshadowed : Shadowed uses v ↔ known.isSizedBy v = true := by
    constructor
    · rintro ⟨d, hd, hself⟩
      rw [hknown, Option.some.injEq] at hd
      rwa [hd]
    · exact fun h => ⟨known, hknown, h⟩
  by_cases hself : known.isSizedBy v = true
  · exact iff_of_true (fun d _ => Or.inr (Or.inl hself)) (Or.inl (hshadowed.mpr hself))
  · rw [or_iff_right (hshadowed.not.mpr hself)]
    constructor
    · -- Every use that is not of the variable's own size has the size of the first.
      intro hall
      have hsize : ∀ d, (v, d) ∈ uses → d.isSizedBy v = false → known.getSize = d.getSize := by
        intro d hd hnot
        rcases hall d hd with h | h | h
        · exact Dimension.equal_iff.mp h
        · exact absurd h hself
        · rw [hnot] at h
          cases h
      have hfixed : ∀ d : Dimension, d.isFixed = true → d.isSizedBy v = false := fun d hd => by
        by_contra h
        rw [Dimension.not_isFixed_of_isSizedBy (Bool.not_eq_false _ ▸ h)] at hd
        cases hd
      constructor
      · rintro ⟨d, d', hd, hd', hf, hf', hne⟩
        exact hne ((hsize d hd (hfixed d hf)).symm.trans (hsize d' hd' (hfixed d' hf')))
      · rintro ⟨d, d', hd, hd', hf, hf', hnot⟩
        have heq := (hsize d hd (hfixed d hf)).symm.trans (hsize d' hd' hnot)
        rw [Dimension.isFixed_iff, heq, ← Dimension.isFixed_iff, hf'] at hf
        cases hf
    · rintro ⟨hclash, hmixed⟩ d hd
      by_cases hnot : d.isSizedBy v = true
      · exact Or.inr (Or.inr hnot)
      · refine Or.inl (Dimension.equal_iff.mpr ?_)
        rw [Bool.not_eq_true] at hnot hself
        by_contra hne
        cases hk : known.isFixed <;> cases hf : d.isFixed
        · have hzero : ∀ d : Dimension, d.isFixed = false → d.getSize = 0 := fun d h => by
            simpa [Dimension.isFixed] using h
          exact hne ((hzero known hk).trans (hzero d hf).symm)
        · exact hmixed ⟨d, known, hd, hmem, hf, hk, hself⟩
        · exact hmixed ⟨known, d, hmem, hd, hk, hf, hnot⟩
        · exact hclash ⟨known, d, hmem, hd, hk, hf, hne⟩

/-- The errors of the two loops are those of one loop over all uses. -/
theorem dimensionsTypecheck_eq (getName : IndexVar → String) (resultVars : List IndexVar) (expr : IndexExpr) (shape : Shape) :
    dimensionsTypecheck getName resultVars expr shape =
      let errors := ((usesOf resultVars expr shape).foldl (checkUse getName) ([], [])).2
      (errors.isEmpty, join " " errors) := by
  rw [dimensionsTypecheck, usesOf, List.foldl_append, List.foldl_flatMap]

/-- The expressions that the check accepts. -/
theorem errors_eq_nil_iff (getName : IndexVar → String) :
    (uses.foldl (checkUse getName) ([], [])).2 = [] ↔ ∀ v, ¬ Shadowed uses v → ¬ Clash uses v ∧ ¬ Mixed uses v := by
  rw [(foldl_checkUse getName uses).2]
  constructor
  · intro h v hnot
    cases hknown : uses.lookup v with
    | some known => exact ((agrees_iff hknown).mp fun d hd => h (v, d) hd known hknown).resolve_left hnot
    | none =>
      have habsent : ∀ d, (v, d) ∉ uses := fun d hd => by
        obtain ⟨known, h⟩ := exists_lookup hd
        rw [hknown] at h
        cases h
      exact ⟨fun ⟨d, _, hd, _⟩ => habsent d hd, fun ⟨d, _, hd, _⟩ => habsent d hd⟩
  · intro h use huse known hknown
    refine (agrees_iff hknown).mpr ?_ use.2 huse
    by_cases hshadowed : Shadowed uses use.1
    · exact Or.inl hshadowed
    · exact Or.inr (h use.1 hshadowed)

/-! ### The message -/

theorem addDimensionError_ne (getName : IndexVar → String) (var : IndexVar) (d d' : Dimension) :
    addDimensionError getName var d d' ≠ "" := by
  intro h
  exact absurd (String.append_eq_empty_iff.mp h).2 (by decide)

theorem join_ne {sep : String} : ∀ {errors : List String}, errors ≠ [] → (∀ e ∈ errors, e ≠ "") → join sep errors ≠ ""
  | [e], _, h => h e List.mem_cons_self
  | e :: e' :: errors, _, h => by
    rw [join, Ne, String.append_eq_empty_iff, String.append_eq_empty_iff]
    exact fun hjoin => h e List.mem_cons_self hjoin.1.1

theorem checkUse_errors {getName : IndexVar → String} {st : List Use × List String} (use : Use) (h : ∀ e ∈ st.2, e ≠ "") :
    ∀ e ∈ (checkUse getName st use).2, e ≠ "" := by
  unfold checkUse
  split
  · split_ifs
    · intro e he
      rcases List.mem_append.mp he with he | he
      · exact h e he
      · exact List.mem_singleton.mp he ▸ addDimensionError_ne getName _ _ _
    · exact h
  · exact h

theorem foldl_checkUse_errors (getName : IndexVar → String) (uses : List Use) :
    ∀ e ∈ (uses.foldl (checkUse getName) ([], [])).2, e ≠ "" := by
  induction uses using List.reverseRecOn with
  | nil => simp
  | append_singleton uses use ih =>
    rw [List.foldl_append]
    exact checkUse_errors use ih

/-- What is returned, by whether there is an error. -/
theorem dimensionsTypecheck_cases (getName : IndexVar → String) (resultVars : List IndexVar) (expr : IndexExpr)
    (shape : Shape) {accepts : Prop}
    (h : ((usesOf resultVars expr shape).foldl (checkUse getName) ([], [])).2 = [] ↔ accepts) :
    (accepts → dimensionsTypecheck getName resultVars expr shape = (true, "")) ∧
      (¬ accepts → (dimensionsTypecheck getName resultVars expr shape).1 = false ∧
        (dimensionsTypecheck getName resultVars expr shape).2 ≠ "") := by
  rw [dimensionsTypecheck_eq]
  refine ⟨fun hacc => by rw [h.mpr hacc]; rfl, fun hrej => ?_⟩
  have hne := h.not.mpr hrej
  exact ⟨by simpa using hne, join_ne hne (foldl_checkUse_errors getName _)⟩

theorem accepted_iff (getName : IndexVar → String) (resultVars : List IndexVar) (expr : IndexExpr) (shape : Shape) :
    (dimensionsTypecheck getName resultVars expr shape).1 = true ↔
      ∀ v, ¬ Shadowed (usesOf resultVars expr shape) v →
        ¬ Clash (usesOf resultVars expr shape) v ∧ ¬ Mixed (usesOf resultVars expr shape) v := by
  rw [dimensionsTypecheck_eq, ← errors_eq_nil_iff getName]
  exact List.isEmpty_iff

theorem checksDimensions_iff_accepted (getName : IndexVar → String) (resultVars : List IndexVar) (expr : IndexExpr)
    (shape : Shape) : ChecksDimensions getName resultVars expr shape ↔
      ((dimensionsTypecheck getName resultVars expr shape).1 = true ↔ FixedAgree (usesOf resultVars expr shape)) := by
  constructor
  · rintro ⟨hacc, hrej⟩
    refine ⟨fun h => ?_, fun h => by rw [hacc h]⟩
    by_contra hno
    rw [(hrej hno).1] at h
    cases h
  · intro h
    have hnil : ((usesOf resultVars expr shape).foldl (checkUse getName) ([], [])).2 = [] ↔
        FixedAgree (usesOf resultVars expr shape) := by
      rw [← h, dimensionsTypecheck_eq]
      exact List.isEmpty_iff.symm
    exact dimensionsTypecheck_cases getName resultVars expr shape hnil

/-- The check is right if no variable whose first dimension has a size of its own is used at fixed and variable
    dimensions, unless the fixed dimensions of some variable differ, and if not only variables whose first dimension is
    of their own size are used at fixed dimensions that differ. -/
theorem checksDimensions_iff (getName : IndexVar → String) (resultVars : List IndexVar) (expr : IndexExpr) (shape : Shape) :
    ChecksDimensions getName resultVars expr shape ↔
      let uses := usesOf resultVars expr shape
      (∀ v, ¬ Shadowed uses v → Mixed uses v → ∃ w, Clash uses w) ∧
        (∀ v, Shadowed uses v → Clash uses v → ∃ w, ¬ Shadowed uses w ∧ (Clash uses w ∨ Mixed uses w)) := by
  rw [checksDimensions_iff_accepted, accepted_iff, fixedAgree_iff]
  generalize usesOf resultVars expr shape = uses
  constructor
  · rintro ⟨hacc, hrej⟩
    constructor
    · intro v hv hmixed
      by_contra hno
      exact (hrej (not_exists.mp hno) v hv).2 hmixed
    · intro v _ hclash
      by_contra hno
      refine hacc (fun w hw => ?_) v hclash
      rw [← not_or]
      exact fun h => hno ⟨w, hw, h⟩
  · rintro ⟨hmixed, hshadow⟩
    constructor
    · intro hacc v hclash
      by_cases hv : Shadowed uses v
      · obtain ⟨w, hw, h⟩ := hshadow v hv hclash
        exact h.elim (hacc w hw).1 (hacc w hw).2
      · exact (hacc v hv).1 hclash
    · intro hno v hv
      refine ⟨hno v, fun h => ?_⟩
      obtain ⟨w, hw⟩ := hmixed v hv h
      exact hno w hw

/-- `alpha = w(i) * b(i) * c(i)` where the workspace `w` has the size of `i`, `b` has 5 components and `c` has 7. -/
theorem checksDimensions_shadowed :
    let w : TensorVar := ⟨0, ⟨.real .float64, [.indexVarSized 0]⟩, .dense 1, rfl⟩
    ¬ ChecksDimensions (fun _ => "i") []
      (.mul (.mul (.access (w.access [0] rfl)) (.access ((TensorVar.dense 1 [5]).access [0] rfl)))
        (.access ((TensorVar.dense 2 [7]).access [0] rfl))) [] := by
  intro w h
  refine absurd (h.2 fun hagree => ?_).1 (by decide)
  exact absurd (hagree 0 (.sized 5) (.sized 7) (by decide) (by decide) rfl rfl) (by decide)

end Notation
end Taco
