import Taco.Library.VarSums
import Taco.Notation.ReductionNotation

/-! `makeConcreteNotation`: the loops of an assignment, and the temporaries of its reductions. -/

namespace Taco
namespace Notation

open IndexNotation (Datatype Intrinsic)

/-! ### Reduction notation -/

/-- Whether an assignment is reduction notation so far, with the last reason why it is not. -/
structure ReductionCheck where
  isReduction : Bool
  reason : String

def checkBound (boundVars : List IndexVar) (st : ReductionCheck) (var : IndexVar) : ReductionCheck :=
  if boundVars.contains var then st
  else ⟨false, "all reduction variables in reduction notation must be bound by a reduction expression"⟩

mutual

/-- The nodes of an expression below the reductions over some of the variables. -/
def matchReduction (boundVars : List IndexVar) (st : ReductionCheck) : IndexExpr → ReductionCheck
  | .undefined | .literal _ _ => st
  | .access a => a.indexVars.foldl (checkBound boundVars) st
  | .neg a | .sqrt a | .cast a _ => matchReduction boundVars st a
  | .add a b | .sub a b | .mul a b | .div a b => matchReduction boundVars (matchReduction boundVars st a) b
  | .callIntrinsic _ args => matchReductions boundVars st args
  | .reduction _ var a => matchReduction (var :: boundVars) st a

def matchReductions (boundVars : List IndexVar) (st : ReductionCheck) : List IndexExpr → ReductionCheck
  | [] => st
  | a :: as => matchReductions boundVars (matchReduction boundVars st a) as

end

/-- The reason why a statement is not reduction notation; nothing if it is. -/
def isReductionNotation (getName : IndexVar → String) : IndexStmt → Option String
  | .assignment lhs rhs _ =>
    let (isValid, reason) := dimensionsTypecheck getName lhs.indexVars rhs lhs.shape
    if !isValid then some ("Dimension size mismatch. " ++ reason)
    else
      let st := matchReduction lhs.indexVars ⟨true, ""⟩ rhs
      if st.isReduction then none else some st.reason
  | _ => some "reduction notation statements must be assignments"

/-! ### Reductions in expressions -/

/-- A node of a reduction. -/
structure Reduction where
  op : IndexExpr
  var : IndexVar
  expr : IndexExpr

/-- `TensorVar(name, dataType)`. -/
def TensorVar.scalar (id : ℕ) (dataType : Datatype) : TensorVar where
  id := id
  type := ⟨dataType, []⟩
  format := .dense 0
  complete := rfl

theorem TensorVar.getOrder_scalar (id : ℕ) (dataType : Datatype) : (scalar id dataType).getOrder = ([] : List IndexVar).length := rfl

namespace IndexExpr

mutual

/-- The data type of a node; an undefined one has none. -/
def getDataType : IndexExpr → Datatype
  | undefined => .real .bool
  | access a => a.tensorVar.type.dataType
  | literal type _ => type
  | neg a | sqrt a | reduction _ _ a => getDataType a
  | add a b | sub a b | mul a b | div a b => (getDataType a).maxType (getDataType b)
  | cast _ type => type
  | callIntrinsic func args => (func.inferReturnType (getDataTypes args)).toOption.getD (.real .bool)

def getDataTypes : List IndexExpr → List Datatype
  | [] => []
  | a :: as => getDataType a :: getDataTypes as

end

/-- The temporary of a reduction. -/
def temporary (t : ℕ) (a : IndexExpr) : Access :=
  (TensorVar.scalar t a.getDataType).access [] (TensorVar.getOrder_scalar t a.getDataType).symm

/-- A binary operation after its operands. -/
def visitBinaryOp (op : IndexExpr → IndexExpr → IndexExpr) (a : IndexExpr) (b : IndexExpr × Option Reduction) :
    IndexExpr × Option Reduction :=
  (op a b.1, b.2)

def visitUnaryOp (op : IndexExpr → IndexExpr) (a : IndexExpr × Option Reduction) : IndexExpr × Option Reduction := (op a.1, a.2)

mutual

/-- `ReplaceReductionsWithWheres` on an expression: the first reduction becomes the temporary `t`, unless one has been
    replaced. -/
def replaceReduction (t : ℕ) (reduction : Option Reduction) : IndexExpr → IndexExpr × Option Reduction
  | undefined => (undefined, reduction)
  | access a => (access a, reduction)
  | literal type val => (literal type val, reduction)
  | neg a => visitUnaryOp neg (replaceReduction t reduction a)
  | sqrt a => visitUnaryOp sqrt (replaceReduction t reduction a)
  | add a b =>
    let a := replaceReduction t reduction a
    visitBinaryOp add a.1 (replaceReduction t a.2 b)
  | sub a b =>
    let a := replaceReduction t reduction a
    visitBinaryOp sub a.1 (replaceReduction t a.2 b)
  | mul a b =>
    let a := replaceReduction t reduction a
    visitBinaryOp mul a.1 (replaceReduction t a.2 b)
  | div a b =>
    let a := replaceReduction t reduction a
    visitBinaryOp div a.1 (replaceReduction t a.2 b)
  | cast a type => visitUnaryOp (cast · type) (replaceReduction t reduction a)
  | callIntrinsic func args =>
    let args := replaceReductionAll t reduction args
    (callIntrinsic func args.1, args.2)
  | .reduction op var a =>
    match reduction with
    -- only rewrite one reduction at a time
    | some found => (.reduction op var a, some found)
    | none => (access (temporary t a), some ⟨op, var, a⟩)

def replaceReductionAll (t : ℕ) (reduction : Option Reduction) : List IndexExpr → List IndexExpr × Option Reduction
  | [] => ([], reduction)
  | a :: as =>
    let a := replaceReduction t reduction a
    let as := replaceReductionAll t a.2 as
    (a.1 :: as.1, as.2)

end

mutual

def numReductions : IndexExpr → ℕ
  | undefined | access _ | literal _ _ => 0
  | neg a | sqrt a | cast a _ => numReductions a
  | add a b | sub a b | mul a b | div a b => numReductions a + numReductions b
  | callIntrinsic _ args => numReductionsAll args
  | reduction _ _ a => numReductions a + 1

def numReductionsAll : List IndexExpr → ℕ
  | [] => 0
  | a :: as => numReductions a + numReductionsAll as

end

/-- Induction on an expression, with what holds of all arguments of an intrinsic function. -/
theorem induction {P : IndexExpr → Prop} (undefined : P undefined) (access : ∀ a, P (access a))
    (literal : ∀ type val, P (literal type val)) (neg : ∀ a, P a → P (neg a)) (sqrt : ∀ a, P a → P (sqrt a))
    (add : ∀ a b, P a → P b → P (add a b)) (sub : ∀ a b, P a → P b → P (sub a b)) (mul : ∀ a b, P a → P b → P (mul a b))
    (div : ∀ a b, P a → P b → P (div a b)) (cast : ∀ a type, P a → P (cast a type))
    (callIntrinsic : ∀ func args, (∀ a ∈ args, P a) → P (callIntrinsic func args))
    (reduction : ∀ op var a, P a → P (reduction op var a)) (e : IndexExpr) : P e := by
  refine IndexExpr.rec (motive_1 := P) (motive_2 := fun args => ∀ a ∈ args, P a) undefined access literal neg sqrt add sub mul div
    cast callIntrinsic (fun op var a _ ih => reduction op var a ih) ?_ ?_ e
  · exact fun a ha => absurd ha List.not_mem_nil
  · rintro a as ih ihs b hb
    rcases List.mem_cons.mp hb with rfl | hb
    · exact ih
    · exact ihs b hb

theorem replaceReductionAll_of_some {t : ℕ} {found : Reduction} {args : List IndexExpr}
    (h : ∀ a ∈ args, a.replaceReduction t (some found) = (a, some found)) :
    replaceReductionAll t (some found) args = (args, some found) := by
  induction args with
  | nil => rfl
  | cons a as ih => rw [replaceReductionAll, h a List.mem_cons_self, ih fun b hb => h b (List.mem_cons_of_mem _ hb)]

/-- After a reduction has been replaced, nothing is rewritten. -/
theorem replaceReduction_of_some {t : ℕ} {found : Reduction} (e : IndexExpr) :
    e.replaceReduction t (some found) = (e, some found) := by
  induction e using IndexExpr.induction with
  | undefined | access _ | literal _ _ | reduction _ _ _ _ => rfl
  | neg a ih | sqrt a ih | cast a _ ih => rw [replaceReduction, ih]; rfl
  | add a b iha ihb | sub a b iha ihb | mul a b iha ihb | div a b iha ihb => rw [replaceReduction, iha, ihb]; rfl
  | callIntrinsic func args ih => rw [replaceReduction, replaceReductionAll_of_some ih]

/-! ### The place of a reduction -/

/-- A node with a hole for one of its operands. -/
inductive Frame where
  | neg | sqrt
  | addLeft (b : IndexExpr) | addRight (a : IndexExpr)
  | subLeft (b : IndexExpr) | subRight (a : IndexExpr)
  | mulLeft (b : IndexExpr) | mulRight (a : IndexExpr)
  | divLeft (b : IndexExpr) | divRight (a : IndexExpr)
  | cast (type : Datatype)
  | callIntrinsic (func : Intrinsic) (before after : List IndexExpr)

def Frame.fill : Frame → IndexExpr → IndexExpr
  | neg, e => .neg e
  | sqrt, e => .sqrt e
  | addLeft b, e => add e b
  | addRight a, e => add a e
  | subLeft b, e => sub e b
  | subRight a, e => sub a e
  | mulLeft b, e => mul e b
  | mulRight a, e => mul a e
  | divLeft b, e => div e b
  | divRight a, e => div a e
  | cast type, e => .cast e type
  | callIntrinsic func before after, e => .callIntrinsic func (before ++ e :: after)

/-- An expression below nodes, the outermost one first. -/
def plug (frames : List Frame) (e : IndexExpr) : IndexExpr := frames.foldr Frame.fill e

/-- The node of a reduction. -/
def ofReduction (r : Reduction) : IndexExpr := reduction r.op r.var r.expr

/-- What the rewriter does to an expression: nothing without a reduction, else the temporary stands in the place of one. -/
def Replaced (t : ℕ) (e : IndexExpr) (result : IndexExpr × Option Reduction) : Prop :=
  match result.2 with
  | none => result.1 = e ∧ e.numReductions = 0
  | some r => ∃ frames, e = plug frames (ofReduction r) ∧ result.1 = plug frames (access (temporary t r.expr))

variable {t : ℕ}

theorem Replaced.unary {a : IndexExpr} (f : Frame) (h : Replaced t a (a.replaceReduction t none))
    (hf : (f.fill a).numReductions = a.numReductions) : Replaced t (f.fill a) (visitUnaryOp f.fill (a.replaceReduction t none)) := by
  rw [Replaced, visitUnaryOp]
  rw [Replaced] at h
  cases hr : (a.replaceReduction t none).2 with
  | none =>
    rw [hr] at h
    exact ⟨congrArg f.fill h.1, hf.trans h.2⟩
  | some r =>
    rw [hr] at h
    obtain ⟨frames, ha, ha'⟩ := h
    exact ⟨f :: frames, congrArg f.fill ha, congrArg f.fill ha'⟩

theorem Replaced.binary {op : IndexExpr → IndexExpr → IndexExpr} {a b : IndexExpr} (left right : Frame)
    (hleft : ∀ e, left.fill e = op e b) (hright : ∀ e, right.fill e = op a e)
    (hop : (op a b).numReductions = a.numReductions + b.numReductions) (ha : Replaced t a (a.replaceReduction t none))
    (hb : Replaced t b (b.replaceReduction t none)) :
    Replaced t (op a b)
      (visitBinaryOp op (a.replaceReduction t none).1 (b.replaceReduction t (a.replaceReduction t none).2)) := by
  rw [Replaced] at ha hb
  cases hra : (a.replaceReduction t none).2 with
  | some r =>
    rw [hra] at ha
    obtain ⟨frames, hplug, hplug'⟩ := ha
    rw [replaceReduction_of_some]
    refine ⟨left :: frames, ?_, ?_⟩
    · exact (congrArg (op · b) hplug).trans (hleft _).symm
    · exact (congrArg (op · b) hplug').trans (hleft _).symm
  | none =>
    rw [hra] at ha
    rw [Replaced, visitBinaryOp, ha.1]
    cases hrb : (b.replaceReduction t none).2 with
    | none =>
      rw [hrb] at hb
      exact ⟨congrArg (op a) hb.1, by rw [hop, ha.2, hb.2]⟩
    | some r =>
      rw [hrb] at hb
      obtain ⟨frames, hplug, hplug'⟩ := hb
      refine ⟨right :: frames, ?_, ?_⟩
      · exact (congrArg (op a) hplug).trans (hright _).symm
      · exact (congrArg (op a) hplug').trans (hright _).symm

/-- Only the argument with the reduction is rewritten. -/
theorem replaceReductionAll_spec {args : List IndexExpr} (h : ∀ a ∈ args, Replaced t a (a.replaceReduction t none)) :
    match (replaceReductionAll t none args).2 with
    | none => (replaceReductionAll t none args).1 = args ∧ numReductionsAll args = 0
    | some r => ∃ before after frames, args = before ++ plug frames (ofReduction r) :: after ∧
      (replaceReductionAll t none args).1 = before ++ plug frames (access (temporary t r.expr)) :: after := by
  induction args with
  | nil => exact ⟨rfl, rfl⟩
  | cons a as ih =>
    have ha := h a List.mem_cons_self
    have has := ih fun b hb => h b (List.mem_cons_of_mem _ hb)
    rw [Replaced] at ha
    rw [replaceReductionAll]
    cases hra : (a.replaceReduction t none).2 with
    | some r =>
      rw [hra] at ha
      obtain ⟨frames, hplug, hplug'⟩ := ha
      have hrest : replaceReductionAll t (some r) as = (as, some r) := replaceReductionAll_of_some fun b _ => replaceReduction_of_some b
      rw [hrest]
      exact ⟨[], as, frames, by rw [← hplug]; rfl, by rw [hplug']; rfl⟩
    | none =>
      rw [hra] at ha
      dsimp only
      rw [ha.1]
      cases hras : (replaceReductionAll t none as).2 with
      | none =>
        rw [hras] at has
        exact ⟨congrArg (List.cons a) has.1, by rw [numReductionsAll, ha.2, has.2]⟩
      | some r =>
        rw [hras] at has
        obtain ⟨before, after, frames, hargs, hargs'⟩ := has
        exact ⟨a :: before, after, frames, congrArg (List.cons a) hargs, congrArg (List.cons a) hargs'⟩

theorem replaced (t : ℕ) (e : IndexExpr) : Replaced t e (e.replaceReduction t none) := by
  induction e using IndexExpr.induction with
  | undefined | access _ | literal _ _ => exact ⟨rfl, rfl⟩
  | neg a ih => exact ih.unary .neg rfl
  | sqrt a ih => exact ih.unary .sqrt rfl
  | cast a type ih => exact ih.unary (.cast type) rfl
  | add a b iha ihb => exact .binary (.addLeft b) (.addRight a) (fun _ => rfl) (fun _ => rfl) rfl iha ihb
  | sub a b iha ihb => exact .binary (.subLeft b) (.subRight a) (fun _ => rfl) (fun _ => rfl) rfl iha ihb
  | mul a b iha ihb => exact .binary (.mulLeft b) (.mulRight a) (fun _ => rfl) (fun _ => rfl) rfl iha ihb
  | div a b iha ihb => exact .binary (.divLeft b) (.divRight a) (fun _ => rfl) (fun _ => rfl) rfl iha ihb
  | callIntrinsic func args ih =>
    have hargs := replaceReductionAll_spec ih
    rw [Replaced, replaceReduction]
    cases hr : (replaceReductionAll t none args).2 with
    | none =>
      rw [hr] at hargs
      exact ⟨congrArg (IndexExpr.callIntrinsic func) hargs.1, hargs.2⟩
    | some r =>
      rw [hr] at hargs
      obtain ⟨before, after, frames, hargs, hargs'⟩ := hargs
      exact ⟨.callIntrinsic func before after :: frames, congrArg (IndexExpr.callIntrinsic func) hargs,
        congrArg (IndexExpr.callIntrinsic func) hargs'⟩
  | reduction op var a _ => exact ⟨[], rfl, rfl⟩

theorem numReductionsAll_append (before : List IndexExpr) (e : IndexExpr) (after : List IndexExpr) :
    numReductionsAll (before ++ e :: after) = numReductionsAll before + numReductionsAll after + e.numReductions := by
  induction before with
  | nil => simp only [List.nil_append, numReductionsAll]; omega
  | cons a as ih => simp only [List.cons_append, numReductionsAll, ih]; omega

theorem numReductions_plug (frames : List Frame) (e : IndexExpr) :
    (plug frames e).numReductions = (plug frames undefined).numReductions + e.numReductions := by
  induction frames with
  | nil => exact (Nat.zero_add _).symm
  | cons f frames ih =>
    rw [plug, plug, List.foldr_cons, List.foldr_cons, ← plug, ← plug]
    cases f with
    | callIntrinsic func before after =>
      simp only [Frame.fill, numReductions, numReductionsAll_append, ih]
      omega
    | neg | sqrt | cast type => exact ih
    | addLeft b | addRight a | subLeft b | subRight a | mulLeft b | mulRight a | divLeft b | divRight a =>
      simp only [Frame.fill, numReductions, ih]
      omega

/-- Without a reduction that is replaced there is none; else there is one less, and those below it. -/
theorem numReductions_replaceReduction {e : IndexExpr} {r : Reduction} (h : (e.replaceReduction t none).2 = some r) :
    (e.replaceReduction t none).1.numReductions + r.expr.numReductions + 1 = e.numReductions := by
  have hreplaced := replaced t e
  rw [Replaced, h] at hreplaced
  obtain ⟨frames, he, he'⟩ := hreplaced
  rw [he', he, numReductions_plug frames, numReductions_plug frames (ofReduction r), ofReduction]
  simp only [numReductions]
  omega

/-- The variables of the reductions that cover the expression, and what they reduce. -/
def topLevelReductions : IndexExpr → List IndexVar × IndexExpr
  | reduction _ var a => (var :: a.topLevelReductions.1, a.topLevelReductions.2)
  | e => ([], e)

end IndexExpr

/-! ### Statements -/

/-- `Add()`. -/
def IndexExpr.plus : IndexExpr := .add .undefined .undefined

/-- `ReplaceReductionsWithWheres` on an assignment; `fresh` is the next new temporary. -/
def replaceReductionsWithWheres (lhs : Access) (rhs op : IndexExpr) (fresh : ℕ) : IndexStmt × ℕ :=
  match h : (rhs.replaceReduction fresh none).2 with
  -- nothing was rewritten
  | none => (.assignment lhs rhs op, fresh)
  | some r =>
    let consumer := replaceReductionsWithWheres lhs (rhs.replaceReduction fresh none).1 op (fresh + 1)
    let producer := replaceReductionsWithWheres (r.expr.temporary fresh) r.expr r.op consumer.2
    (.where consumer.1 (.forall r.var producer.1 .none), producer.2)
termination_by rhs.numReductions
decreasing_by
  all_goals
    have hcount := IndexExpr.numReductions_replaceReduction h
    omega

/-- `RemoveTopLevelReductions`, with the loops that it puts around the assignment. -/
def removeTopLevelReductions (rhs op : IndexExpr) : List IndexVar × IndexExpr × IndexExpr :=
  let (topLevelReductions, rhs) := rhs.topLevelReductions
  if topLevelReductions.isEmpty then ([], rhs, op) else (topLevelReductions, rhs, .plus)

/-- `makeConcreteNotation`. Free variables and reductions covering the whole right-hand side become top level loops. -/
def makeConcreteNotation (lhs : Access) (rhs op : IndexExpr) (fresh : ℕ) : IndexStmt :=
  let (topLevelReductions, rhs, op) := removeTopLevelReductions rhs op
  .nest ((lhs.indexVars ++ topLevelReductions).map fun i => ⟨i, .none⟩) (replaceReductionsWithWheres lhs rhs op fresh).1

/-! ### What it is for -/

/-- The place of a component: of the values of a tensor, or of its structure. -/
abbrev Component := TensorVar × Bool × List ℤ

def Access.component (a : Access) (env : IndexVar → ℕ) : Component :=
  (a.tensorVar, a.isAccessingStructure, a.indexVars.mapIdx fun mode v => a.coordinate mode (env v))

/-- What the nodes mean, apart from additions and sums. -/
structure Operations (R : Type) where
  literal : Datatype → List UInt8 → R
  neg : R → R
  sqrt : R → R
  sub : R → R → R
  mul : R → R → R
  div : R → R → R
  cast : Datatype → R → R
  callIntrinsic : Intrinsic → List R → R
  reduce : IndexExpr → List R → R
  update : IndexExpr → R → R → R

section Meaning

variable {R : Type} [AddCommMonoid R] (ops : Operations R) (dims : IndexVar → ℕ)

namespace IndexExpr

mutual

/-- The value of an expression where the tensors have the components `σ`. -/
def value (σ : Component → R) : IndexExpr → (IndexVar → ℕ) → R
  | undefined, _ => 0
  | access a, env => σ (a.component env)
  | literal type val, _ => ops.literal type val
  | neg a, env => ops.neg (value σ a env)
  | sqrt a, env => ops.sqrt (value σ a env)
  | add a b, env => value σ a env + value σ b env
  | sub a b, env => ops.sub (value σ a env) (value σ b env)
  | mul a b, env => ops.mul (value σ a env) (value σ b env)
  | div a b, env => ops.div (value σ a env) (value σ b env)
  | cast a type, env => ops.cast type (value σ a env)
  | callIntrinsic func args, env => ops.callIntrinsic func (values σ args env)
  | reduction op var a, env =>
    if op.isSum then ∑ x ∈ Finset.range (dims var), value σ a (Function.update env var x)
    else ops.reduce op ((List.range (dims var)).map fun x => value σ a (Function.update env var x))

def values (σ : Component → R) : List IndexExpr → (IndexVar → ℕ) → List R
  | [], _ => []
  | a :: as, env => value σ a env :: values σ as env

end

end IndexExpr

/-- What an assignment with an operator leaves in a component; one without an operator overwrites it. -/
def assigned (op : IndexExpr) (old new : R) : R :=
  if op.isUndefined then new else if op.isSum then old + new else ops.update op old new

namespace IndexStmt

/-- The tensors that are assigned to, except in producers. -/
def results : IndexStmt → List TensorVar
  | undefined | yield _ _ => []
  | assignment lhs _ _ => [lhs.tensorVar]
  | .forall _ stmt _ | suchThat stmt _ => stmt.results
  | .where consumer _ => consumer.results
  | sequence definition mutation => definition.results ++ mutation.results
  | assemble _ compute _ => compute.results
  | multi stmt1 stmt2 => stmt1.results ++ stmt2.results

/-- What a statement without derived variables does to the components; temporaries are zero at first. -/
def exec : IndexStmt → (IndexVar → ℕ) → (Component → R) → Component → R
  | undefined, _, σ | yield _ _, _, σ => σ
  | assignment lhs rhs op, env, σ =>
    Function.update σ (lhs.component env) (assigned ops op (σ (lhs.component env)) (rhs.value ops dims σ env))
  | .forall i stmt _, env, σ => (List.range (dims i)).foldl (fun σ x => stmt.exec (Function.update env i x) σ) σ
  | .where consumer producer, env, σ =>
    consumer.exec env (producer.exec env fun c => if c.1 ∈ producer.results then 0 else σ c)
  | sequence definition mutation, env, σ => mutation.exec env (definition.exec env σ)
  | assemble queries compute _, env, σ => compute.exec env (queries.exec env σ)
  | multi stmt1 stmt2, env, σ => stmt2.exec env (stmt1.exec env σ)
  | suchThat stmt _, env, σ => stmt.exec env σ

end IndexStmt

end Meaning

section Preserves

variable (lhs : Access) (rhs op : IndexExpr) (dims : IndexVar → ℕ)

/-- Loops run over the fixed dimensions of the modes that their variables index. -/
def LoopsFit : Prop := ∀ use ∈ usesOf lhs.indexVars rhs lhs.shape, use.2.isFixed = true → dims use.1 = use.2.getSize

/-- The free variables have values below their dimensions. -/
def Access.InRange (env : IndexVar → ℕ) : Prop := ∀ v ∈ lhs.indexVars, env v < dims v

/-- The statement leaves in the result what the assignment denotes, from a result that is zero if it overwrites it. -/
def LeavesAssigned (stmt : IndexStmt) : Prop :=
  ∀ (R : Type) [AddCommMonoid R] (ops : Operations R) (dims : IndexVar → ℕ) (env : IndexVar → ℕ) (σ : Component → R),
    LoopsFit lhs rhs dims → (op.isUndefined = true → ∀ c, c.1 = lhs.tensorVar → σ c = 0) →
    (∀ free, lhs.InRange dims free → stmt.exec ops dims env σ (lhs.component free) =
      assigned ops op (σ (lhs.component free)) (rhs.value ops dims σ free)) ∧
    ∀ c, c.1 = lhs.tensorVar → (∀ free, lhs.InRange dims free → lhs.component free ≠ c) →
      stmt.exec ops dims env σ c = σ c

end Preserves

namespace IndexExpr

mutual

/-- All reductions are sums. -/
def onlySums : IndexExpr → Bool
  | undefined | access _ | literal _ _ => true
  | neg a | sqrt a | cast a _ => onlySums a
  | add a b | sub a b | mul a b | div a b => onlySums a && onlySums b
  | callIntrinsic _ args => onlySumsAll args
  | reduction op _ a => op.isSum && onlySums a

def onlySumsAll : List IndexExpr → Bool
  | [] => true
  | a :: as => onlySums a && onlySumsAll as

end

/-- The tensor is not read. -/
def noReads (t : TensorVar) (expr : IndexExpr) : Bool := expr.accesses.all fun a => a.tensorVar ≠ t

mutual

/-- The tensor of the left-hand side is read only by the access of the left-hand side, below no reduction over a variable of
    it. -/
def readsOwn (lhs : Access) : IndexExpr → Bool
  | undefined | literal _ _ => true
  | access a => a = lhs || a.tensorVar ≠ lhs.tensorVar
  | neg a | sqrt a | cast a _ => readsOwn lhs a
  | add a b | sub a b | mul a b | div a b => readsOwn lhs a && readsOwn lhs b
  | callIntrinsic _ args => readsOwnAll lhs args
  | reduction _ var a => if lhs.indexVars.contains var then noReads lhs.tensorVar a else readsOwn lhs a

def readsOwnAll (lhs : Access) : List IndexExpr → Bool
  | [] => true
  | a :: as => readsOwn lhs a && readsOwnAll lhs as

end

end IndexExpr

/-- The top level loops give each component of the result its value once, or add to it the terms of its sum. -/
structure LoopsServe (lhs : Access) (rhs op : IndexExpr) : Prop where
  /-- Different values of the free variables access different components. -/
  distinct : ∀ dims, LoopsFit lhs rhs dims → ∀ env env', lhs.InRange dims env → lhs.InRange dims env' →
    lhs.component env = lhs.component env' → ∀ v ∈ lhs.indexVars, env v = env' v
  /-- No reduction that covers the right-hand side is over a free variable. -/
  apart : ∀ v ∈ rhs.topLevelReductions.1, v ∉ lhs.indexVars
  /-- The free variables of what accumulates are different. -/
  nodup : op.isSum = true ∨ rhs.topLevelReductions.1 ≠ [] → lhs.indexVars.Nodup
  /-- The result is not read, or each component only by itself before it is assigned. -/
  reads : rhs.noReads lhs.tensorVar = true ∨
    rhs.topLevelReductions.1 = [] ∧ lhs.indexVars.Nodup ∧ rhs.readsOwn lhs = true

end Notation
end Taco
