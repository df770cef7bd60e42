import Taco.IR.RedundantLoops
import Taco.IR.Runs
import Taco.IR.SimplifyExact
import Taco.Library.Updates

/-! The bodies that `DuplicateBody` accepts are lists of updates of variables; the copy that it returns is the
    same list with scaled increments. -/

namespace Taco
namespace IR
open Expr Updates

/-! ### Addition in a type -/

namespace Datatype

/-- A value that the type, if it is an integer type, does not truncate. -/
def Integral (t : Datatype) (v : Val) : Prop := t.isInteger = true → ∃ n : ℤ, v = n

theorem isInteger_or_isFloat {t : Datatype} (ht : t.isBool = false) : t.isInteger = true ∨ t.isFloat = true := by
  cases t with
  | bool => cases ht
  | uint | int => exact .inl rfl
  | float32 | float64 => exact .inr rfl

theorem integral_conv (t : Datatype) (v : Val) : t.Integral (t.conv v) := fun ht => ⟨_, conv_integer ht v⟩

theorem Integral.add {t : Datatype} {a b : Val} (ha : t.Integral a) (hb : t.Integral b) : t.Integral (a + b) := by
  intro ht
  obtain ⟨n, rfl⟩ := ha ht
  obtain ⟨k, rfl⟩ := hb ht
  exact ⟨n + k, by rw [Int.cast_add]⟩

theorem Integral.nsmul {t : Datatype} {a : Val} (ha : t.Integral a) (n : ℕ) : t.Integral (n • a) := by
  intro ht
  obtain ⟨k, rfl⟩ := ha ht
  exact ⟨n • k, by simp⟩

theorem integral_zero (t : Datatype) : t.Integral 0 := fun _ => ⟨0, Int.cast_zero.symm⟩

theorem conv_conv_add {t : Datatype} (ht : t.isBool = false) {a b : Val} (ha : t.Integral a) (hb : t.Integral b) :
    t.conv (t.conv a + b) = t.conv (a + b) := by
  rcases isInteger_or_isFloat ht with hint | hfloat
  · obtain ⟨n, rfl⟩ := ha hint
    obtain ⟨k, rfl⟩ := hb hint
    rw [conv_intCast hint, ← Int.cast_add, ← Int.cast_add, conv_intCast hint, conv_intCast hint]
    exact congrArg Int.cast (wrap_eq_iff.mpr ((wrap_modEq t n).add_right k))
  · rw [conv_of_isFloat hfloat a]

theorem conv_add_cancel {t : Datatype} (ht : t.isBool = false) {a b c : Val} (ha : t.Integral a) (hb : t.Integral b)
    (hc : t.Integral c) : t.conv (a + b) = t.conv (a + c) ↔ t.conv b = t.conv c := by
  rcases isInteger_or_isFloat ht with hint | hfloat
  · obtain ⟨n, rfl⟩ := ha hint
    obtain ⟨p, rfl⟩ := hb hint
    obtain ⟨q, rfl⟩ := hc hint
    rw [← Int.cast_add, ← Int.cast_add, conv_intCast hint, conv_intCast hint, conv_intCast hint, conv_intCast hint,
      Int.cast_inj, Int.cast_inj, wrap_eq_iff, wrap_eq_iff]
    exact ⟨fun h => Int.ModEq.add_left_cancel' n h, fun h => h.add_left n⟩
  · simp only [conv_of_isFloat hfloat, add_right_inj]

theorem isFloat_maxType {t u : Datatype} (ht : t.isFloat = true) : (maxType t u).isFloat = true := by
  cases t with
  | bool | uint | int => cases ht
  | float32 | float64 => cases u <;> rfl

theorem maxType_integer {t u : Datatype} (ht : t.isInteger = true) (hu : u.isInteger = true) :
    (maxType t u).isInteger = true ∧ t.getNumBits ≤ (maxType t u).getNumBits := by
  have hwidth : ∀ a b : Width, a.bits ≤ (if a.bits > b.bits then a else b).bits := fun a b => by
    split
    · exact le_refl _
    · omega
  cases t with
  | bool | float32 | float64 => cases ht
  | uint a | int a =>
    cases u with
    | bool | float32 | float64 => cases hu
    | uint b | int b =>
      unfold maxType
      split_ifs <;> first | exact ⟨rfl, le_refl _⟩ | exact ⟨rfl, hwidth a b⟩ | contradiction

/-- A sum in the promoted type, converted back. -/
theorem conv_promoted {t u : Datatype} (ht : t.isBool = false) (hu : t.isInteger = true → u.isInteger = true)
    {a b : Val} (ha : t.Integral a) (hb : t.Integral b) :
    t.conv ((maxType t u).conv ((maxType t u).conv a + (maxType t u).conv b)) = t.conv (a + b) := by
  rcases isInteger_or_isFloat ht with hint | hfloat
  · obtain ⟨n, rfl⟩ := ha hint
    obtain ⟨k, rfl⟩ := hb hint
    obtain ⟨hmax, hbits⟩ := maxType_integer hint (hu hint)
    rw [conv_intCast hmax, conv_intCast hmax, ← Int.cast_add, conv_intCast hmax, ← Int.cast_add, conv_intCast hint,
      conv_intCast hint]
    refine congrArg Int.cast (wrap_eq_iff.mpr (Int.ModEq.of_dvd (pow_dvd_pow 2 hbits) ?_))
    exact (wrap_modEq _ _).trans ((wrap_modEq _ n).add (wrap_modEq _ k))
  · simp only [conv_of_isFloat (isFloat_maxType hfloat)]

end Datatype

/-! ### Updates -/

/-- What a statement of such a body does to a variable: `x = l` or `x = x + k`. -/
inductive Update where
  | set (x : Var) (l : Literal)
  | increment (x : Var) (k : Literal)

def Update.target : Update → Var
  | set x _ | increment x _ => x

/-- The literals of a body are its increments; those of a copy are scaled. -/
structure Increment where
  type : Datatype
  val : Val

def plain (k : Literal) : Increment := ⟨k.type, k.val⟩

/-- The increment `L * k` of a copy whose loop count has type `t` and value `L`. -/
def scaled (t : Datatype) (L : Val) (k : Literal) : Increment :=
  let u := Datatype.maxType t k.type
  ⟨u, u.conv (u.conv L * u.conv k.val)⟩

def State.read (σ : State) (x : Var) : Val := x.type.conv (σ.mem.vars x)

def Update.run (g : Literal → Increment) (σ : State) : Update → State
  | set x l => σ.set x l.val
  | increment x k =>
    let t := Datatype.maxType x.type (g k).type
    σ.set x (t.conv (t.conv (σ.read x) + t.conv (g k).val))

def runUpdates (g : Literal → Increment) (us : List Update) (σ : State) : State := us.foldl (Update.run g) σ

/-- The operation that an update makes on the variable `x`. -/
def Update.on (g : Literal → Increment) (x : Var) : Update → Option (Op Val)
  | set y l => if y = x then some (.set (x.type.conv l.val)) else none
  | increment y k => if y = x then some (.add (g k).val) else none

def opsOn (g : Literal → Increment) (x : Var) (us : List Update) : List (Op Val) := us.filterMap (Update.on g x)

theorem set_mem_opsOn {g : Literal → Increment} {x : Var} {us : List Update} {a : Val} (h : .set a ∈ opsOn g x us) :
    x.type.Integral a := by
  obtain ⟨u, -, hu⟩ := List.mem_filterMap.mp h
  cases u with
  | set y l =>
    obtain ⟨-, hu⟩ := Option.ite_none_right_eq_some.mp hu
    obtain rfl := Op.set.inj (Option.some.inj hu)
    exact Datatype.integral_conv _ _
  | increment y k =>
    obtain ⟨-, hu⟩ := Option.ite_none_right_eq_some.mp hu
    cases Option.some.inj hu

theorem add_mem_opsOn {g : Literal → Increment} {x : Var} {us : List Update} {a : Val} (h : .add a ∈ opsOn g x us) :
    ∃ k, .increment x k ∈ us ∧ a = (g k).val := by
  obtain ⟨u, hmem, hu⟩ := List.mem_filterMap.mp h
  cases u with
  | set y l =>
    obtain ⟨-, hu⟩ := Option.ite_none_right_eq_some.mp hu
    cases Option.some.inj hu
  | increment y k =>
    obtain ⟨hy, ha⟩ := Option.ite_none_right_eq_some.mp hu
    subst hy
    exact ⟨k, hmem, (Op.add.inj (Option.some.inj ha)).symm⟩

/-- The increments are added without truncation: integers only get integers. -/
def Additive (us : List Update) : Prop :=
  ∀ x k, .increment x k ∈ us → x.type.isBool = false ∧ (x.type.isInteger = true → k.type.isInteger = true)

/-- The operations fit in a variable of the type. -/
def Fits (t : Datatype) (ops : List (Op Val)) : Prop :=
  (∀ a, Op.set a ∈ ops → t.Integral a) ∧ ∀ a, Op.add a ∈ ops → t.isBool = false ∧ t.Integral a

theorem Fits.tail {t : Datatype} {op : Op Val} {ops : List (Op Val)} (h : Fits t (op :: ops)) : Fits t ops :=
  ⟨fun a ha => h.1 a (List.mem_cons_of_mem _ ha), fun a ha => h.2 a (List.mem_cons_of_mem _ ha)⟩

theorem Fits.total {t : Datatype} {ops : List (Op Val)} (h : Fits t ops) :
    t.Integral (total ops) ∧ (t.isBool = true → Updates.total ops = 0) := by
  induction ops with
  | nil => exact ⟨t.integral_zero, fun _ => rfl⟩
  | cons op ops ih =>
    obtain ⟨hint, hbool⟩ := ih h.tail
    cases op with
    | set a => exact ⟨hint, hbool⟩
    | add a =>
      obtain ⟨hb, ha⟩ := h.2 a List.mem_cons_self
      unfold Updates.total
      split_ifs with hset
      · exact ⟨hint, hbool⟩
      · exact ⟨ha.add hint, fun ht => by rw [hb] at ht; cases ht⟩

theorem Fits.lastSet {t : Datatype} {ops : List (Op Val)} (h : Fits t ops) {v : Val} (hv : t.Integral v) :
    t.Integral ((Updates.lastSet ops).getD v) := by
  induction ops with
  | nil => exact hv
  | cons op ops ih =>
    have ih := ih h.tail
    cases op with
    | set a =>
      cases hset : Updates.lastSet ops with
      | none =>
        simp only [Updates.lastSet, hset, Option.none_or, Option.getD_some]
        exact h.1 a List.mem_cons_self
      | some b =>
        simp only [Updates.lastSet, hset, Option.some_or, Option.getD_some] at ih ⊢
        exact ih
    | add a => exact ih

theorem conv_applyAll {t : Datatype} {ops : List (Op Val)} (h : Fits t ops) {v : Val} (hv : t.Integral v) :
    t.conv (applyAll ops (t.conv v)) = t.conv (applyAll ops v) := by
  rw [applyAll_eq, applyAll_eq]
  cases hset : lastSet ops with
  | some a => rfl
  | none =>
    obtain ⟨hint, hbool⟩ := h.total
    rw [Option.getD_none, Option.getD_none]
    cases ht : t.isBool with
    | true => rw [hbool ht, add_zero, add_zero, t.conv_conv]
    | false => exact t.conv_conv_add ht hv hint

/-- The increments `g` of the updates are added to their variables without truncation. -/
def Adds (g : Literal → Increment) (us : List Update) : Prop :=
  ∀ x k, .increment x k ∈ us → x.type.isBool = false ∧ (x.type.isInteger = true → (g k).type.isInteger = true) ∧
    x.type.Integral (g k).val

theorem Adds.fits {g : Literal → Increment} {us : List Update} (h : Adds g us) (x : Var) :
    Fits x.type (opsOn g x us) := by
  refine ⟨fun a => set_mem_opsOn, fun a ha => ?_⟩
  obtain ⟨k, hk, rfl⟩ := add_mem_opsOn ha
  obtain ⟨hb, -, hi⟩ := h x k hk
  exact ⟨hb, hi⟩

theorem Additive.plain {us : List Update} (h : Additive us) : Adds plain us := by
  intro x k hk
  obtain ⟨hb, hi⟩ := h x k hk
  exact ⟨hb, hi, fun hx => exists_val_eq rfl (hi hx)⟩

theorem Additive.scaled {us : List Update} (h : Additive us) {t : Datatype} (ht : t.isInteger = true) (L : Val) :
    Adds (scaled t L) us := by
  intro x k hk
  obtain ⟨hb, hi⟩ := h x k hk
  have hmax : x.type.isInteger = true → (Datatype.maxType t k.type).isInteger = true :=
    fun hx => (Datatype.maxType_integer ht (hi hx)).1
  exact ⟨hb, hmax, fun hx => Datatype.integral_conv _ _ (hmax hx)⟩

/-! ### Running updates -/

theorem vars_set_self (σ : State) (x : Var) (a : Val) : (σ.set x a).mem.vars x = x.type.conv a :=
  Function.update_self _ _ _

theorem read_set_self (σ : State) (x : Var) (a : Val) : (σ.set x a).read x = x.type.conv a := by
  simp only [State.read, State.set, Function.update_self, Datatype.conv_conv]

theorem read_set_ne {σ : State} {x y : Var} (h : y ≠ x) (a : Val) : (σ.set x a).read y = σ.read y := by
  simp only [State.read, State.set, Function.update_of_ne h]

/-- An update makes its operation on the content of a variable. -/
theorem read_update {g : Literal → Increment} {u : Update} (h : Adds g [u]) (σ : State) (x : Var) :
    (u.run g σ).read x = x.type.conv (applyAll (opsOn g x [u]) (σ.read x)) := by
  cases u with
  | set y l =>
    by_cases hy : y = x
    · subst hy
      simp [Update.run, read_set_self, opsOn, Update.on, Op.apply, Datatype.conv_conv]
    · have hx : x ≠ y := fun h => hy h.symm
      rw [Update.run, read_set_ne hx]
      simp only [opsOn, Update.on, hy, if_false, List.filterMap_cons, List.filterMap_nil, applyAll_nil]
      exact (Datatype.conv_conv _ _).symm
  | increment y k =>
    by_cases hy : y = x
    · subst hy
      obtain ⟨hb, hi, hv⟩ := h y k List.mem_cons_self
      simp only [Update.run, read_set_self, opsOn, Update.on, List.filterMap_cons, if_true, List.filterMap_nil,
        applyAll_cons, applyAll_nil, Op.apply]
      exact Datatype.conv_promoted hb hi (Datatype.integral_conv _ _) hv
    · have hx : x ≠ y := fun h => hy h.symm
      rw [Update.run, read_set_ne hx]
      simp only [opsOn, Update.on, hy, if_false, List.filterMap_cons, List.filterMap_nil, applyAll_nil]
      exact (Datatype.conv_conv _ _).symm

theorem runUpdates_cons (g : Literal → Increment) (u : Update) (us : List Update) (σ : State) :
    runUpdates g (u :: us) σ = runUpdates g us (u.run g σ) := rfl

theorem runUpdates_append (g : Literal → Increment) (us us' : List Update) (σ : State) :
    runUpdates g (us ++ us') σ = runUpdates g us' (runUpdates g us σ) := List.foldl_append

theorem opsOn_cons (g : Literal → Increment) (x : Var) (u : Update) (us : List Update) :
    opsOn g x (u :: us) = opsOn g x [u] ++ opsOn g x us := by
  rw [opsOn, ← List.singleton_append, List.filterMap_append]
  rfl

theorem applyAll_integral {t : Datatype} {ops : List (Op Val)} (h : Fits t ops) {v : Val} (hv : t.Integral v) :
    t.Integral (applyAll ops v) := by
  rw [applyAll_eq]
  exact (h.lastSet hv).add h.total.1

theorem read_runUpdates {g : Literal → Increment} {us : List Update} (h : Adds g us) (σ : State) (x : Var) :
    (runUpdates g us σ).read x = x.type.conv (applyAll (opsOn g x us) (σ.read x)) := by
  induction us generalizing σ with
  | nil => exact (Datatype.conv_conv _ _).symm
  | cons u us ih =>
    have hu : Adds g [u] := fun y k hk => h y k (List.mem_cons.mpr (.inl (List.mem_singleton.mp hk)))
    have hus : Adds g us := fun y k hk => h y k (List.mem_cons_of_mem _ hk)
    have hint : x.type.Integral (σ.read x) := Datatype.integral_conv _ _
    rw [runUpdates_cons, ih hus, read_update hu, conv_applyAll (hus.fits x) (applyAll_integral (hu.fits x) hint),
      ← applyAll_append, ← opsOn_cons]

/-- What updates leave alone. -/
theorem runUpdates_frame (g : Literal → Increment) (us : List Update) (σ : State) :
    (runUpdates g us σ).mem.arrays = σ.mem.arrays ∧ (runUpdates g us σ).output = σ.output ∧
      (∀ x, x ∉ us.map Update.target → (runUpdates g us σ).mem.vars x = σ.mem.vars x) ∧
      ∀ x ∈ us.map Update.target, (runUpdates g us σ).mem.vars x = (runUpdates g us σ).read x := by
  induction us using List.reverseRecOn with
  | nil => exact ⟨rfl, rfl, fun _ _ => rfl, fun _ h => by cases h⟩
  | append_singleton us u ih =>
    obtain ⟨harr, hout, hframe, hread⟩ := ih
    rw [runUpdates_append]
    obtain ⟨a, ha⟩ : ∃ a, runUpdates g [u] (runUpdates g us σ) = (runUpdates g us σ).set u.target a := by
      cases u <;> exact ⟨_, rfl⟩
    rw [ha]
    refine ⟨harr, hout, fun x hx => ?_, fun x hx => ?_⟩
    · simp only [List.map_append, List.mem_append, not_or, List.map_cons, List.map_nil, List.mem_singleton] at hx
      exact (Function.update_of_ne hx.2 _ _).trans (hframe x hx.1)
    · by_cases hxu : x = u.target
      · subst hxu
        rw [read_set_self]
        exact Function.update_self _ _ _
      · simp only [List.map_append, List.mem_append, List.map_cons, List.map_nil, List.mem_singleton, hxu, or_false] at hx
        rw [read_set_ne hxu, ← hread x hx]
        exact Function.update_of_ne hxu _ _

/-! ### Bodies and their copies -/

mutual

/-- The updates of a body, in order. -/
def Stmt.updates : Stmt → List Update
  | .block contents => Stmt.updatesAll contents
  | .scope s => s.updates
  | .assign lhs (literal l) => [.set lhs l]
  | .assign lhs (binary .add _ (literal k)) => [.increment lhs k]
  | _ => []

def Stmt.updatesAll : List Stmt → List Update
  | [] => []
  | s :: ss => s.updates ++ Stmt.updatesAll ss

end

/-- In the states of `H`, which the updates do not leave, the scaled increments have the type and value of `g`. -/
structure CopyOK (count : Expr) (g : Literal → Increment) (H : State → Prop) (us : List Update) : Prop where
  value : ∀ x k, .increment x k ∈ us → ∀ e, simplify (binary .mul count (literal k)) = some e →
    e.type = (g k).type ∧ ∀ σ, H σ → e.eval σ.mem = some (g k).val
  keep : ∀ u ∈ us, ∀ σ, H σ → H (u.run g σ)

theorem CopyOK.mono {count : Expr} {g : Literal → Increment} {H : State → Prop} {us vs : List Update}
    (h : CopyOK count g H us) (hsub : vs ⊆ us) : CopyOK count g H vs :=
  ⟨fun x k hk => h.value x k (hsub hk), fun u hu => h.keep u (hsub hu)⟩

theorem CopyOK.keep_all {count : Expr} {g : Literal → Increment} {H : State → Prop} {us : List Update}
    (h : CopyOK count g H us) {σ : State} (hσ : H σ) : H (runUpdates g us σ) := by
  induction us generalizing σ with
  | nil => exact hσ
  | cons u us ih =>
    exact ih (h.mono (List.subset_cons_self u us)) (h.keep u List.mem_cons_self σ hσ)

/-- What `DuplicateBody` relates: a body that runs as its updates, and a copy that runs as the scaled updates. -/
structure Duplicates (count : Expr) (s t : Stmt) : Prop where
  declared : s.declared = [] ∧ t.declared = []
  body : ∀ σ, Runs s σ (runUpdates plain s.updates σ)
  copy : ∀ {g H}, CopyOK count g H s.updates → ∀ σ, H σ → Runs t σ (runUpdates g s.updates σ)

theorem duplicateAssign_spec {count : Expr} {lhs : Var} {rhs : Expr} {t : Stmt}
    (h : duplicateAssign count lhs rhs = some (some t)) : Duplicates count (.assign lhs rhs) t := by
  unfold duplicateAssign at h
  split at h
  · rename_i l
    obtain rfl := Option.some.inj (Option.some.inj h)
    have hrun : ∀ σ, Runs (.assign lhs (literal l)) σ (σ.set lhs l.val) := fun σ => runs_assign.mpr ⟨l.val, rfl, rfl⟩
    exact ⟨⟨rfl, rfl⟩, hrun, fun _ σ _ => hrun σ⟩
  · rename_i a k
    split_ifs at h with ha
    · subst ha
      obtain ⟨inc, hinc, h⟩ := Option.bind_eq_some_iff.mp h
      obtain rfl := Option.some.inj (Option.some.inj h)
      refine ⟨⟨rfl, rfl⟩, fun σ => runs_assign.mpr ⟨_, rfl, rfl⟩, fun {g H} hcopy σ hσ => ?_⟩
      obtain ⟨htype, hval⟩ := hcopy.value a k List.mem_cons_self inc hinc
      refine runs_assign.mpr ⟨_, ?_, rfl⟩
      rw [Expr.eval, hval σ hσ, htype]
      rfl
    · cases Option.some.inj h
  · cases Option.some.inj h

mutual

theorem duplicateBody_spec {count : Expr} : ∀ {s t : Stmt}, duplicateBody count s = some (some t) → Duplicates count s t
  | .block contents, t, h => by
    rw [duplicateBody] at h
    obtain ⟨ts, hts, h⟩ := Option.bind_eq_some_iff.mp h
    obtain ⟨ts, rfl, rfl⟩ := Option.map_eq_some_iff.mp (Option.some.inj h)
    obtain ⟨⟨hs, ht⟩, hbody, hcopy⟩ := duplicateAll_spec hts
    refine ⟨⟨hs, ?_⟩, hbody, fun hok σ hσ => runs_makeBlock.mpr (hcopy hok σ hσ)⟩
    rw [Stmt.makeBlock, Stmt.declared, declaredAll_filter]
    exact ht
  | .scope s, t, h => by
    rw [duplicateBody] at h
    obtain ⟨t, ht, h⟩ := Option.bind_eq_some_iff.mp h
    obtain ⟨t, rfl, rfl⟩ := Option.map_eq_some_iff.mp (Option.some.inj h)
    obtain ⟨⟨hs, ht⟩, hbody, hcopy⟩ := duplicateBody_spec ht
    refine ⟨⟨rfl, ?_⟩, fun σ => (runs_scope_of_declared_nil hs).mpr (hbody σ), fun hok σ hσ => ?_⟩
    · cases t <;> rfl
    · exact runs_makeScope.mpr ((runs_scope_of_declared_nil ht).mpr (hcopy hok σ hσ))
  | .assign lhs rhs, t, h => duplicateAssign_spec h
  | .varDecl .., _, h | .store .., _, h | .yield .., _, h | .ifThenElse .., _, h | .case .., _, h | .switch .., _, h
  | .for .., _, h | .while .., _, h => by
    cases Option.some.inj h

theorem duplicateAll_spec {count : Expr} : ∀ {ss ts : List Stmt}, duplicateAll count ss = some (some ts) →
    Duplicates count (.block ss) (.block ts)
  | [], ts, h => by
    obtain rfl := Option.some.inj (Option.some.inj h)
    exact ⟨⟨rfl, rfl⟩, fun σ => runs_block_nil.mpr rfl, fun _ σ _ => runs_block_nil.mpr rfl⟩
  | s :: ss, ts, h => by
    rw [duplicateAll] at h
    obtain ⟨o, ht, h⟩ := Option.bind_eq_some_iff.mp h
    cases o with
    | none => cases Option.some.inj h
    | some t =>
      obtain ⟨o, hts, h⟩ := Option.bind_eq_some_iff.mp h
      obtain ⟨ts, rfl, rfl⟩ := Option.map_eq_some_iff.mp (Option.some.inj h)
      obtain ⟨⟨hs, ht⟩, hbody, hcopy⟩ := duplicateBody_spec ht
      obtain ⟨⟨hss, hts⟩, hbodies, hcopies⟩ := duplicateAll_spec hts
      refine ⟨⟨?_, ?_⟩, fun σ => ?_, fun {g H} hok σ hσ => ?_⟩
      · exact List.append_eq_nil_iff.mpr ⟨hs, hss⟩
      · exact List.append_eq_nil_iff.mpr ⟨ht, hts⟩
      · refine runs_block_cons.mpr ⟨_, hbody σ, ?_⟩
        have h := hbodies (runUpdates plain s.updates σ)
        rwa [← runUpdates_append] at h
      · have hoks := hok.mono (List.subset_append_left s.updates (Stmt.updatesAll ss))
        have hokss := hok.mono (List.subset_append_right s.updates (Stmt.updatesAll ss))
        refine runs_block_cons.mpr ⟨_, hcopy hoks σ hσ, ?_⟩
        have h := hcopies hokss _ (hoks.keep_all hσ)
        rwa [← runUpdates_append] at h

end

end IR
end Taco
