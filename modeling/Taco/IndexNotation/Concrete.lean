import Mathlib.Tactic

/-! Concrete index notation, and what its statements do to tensors. -/

namespace Taco
namespace Concrete

abbrev IndexVar := ℕ

/-- A tensor variable, by its identity. -/
abbrev TensorVar := ℕ

abbrev Env := IndexVar → ℕ

/-! ### Accesses -/

/-- The dimensions of the modes of the tensors. -/
abbrev Shape := TensorVar → ℕ → ℕ

/-- A window or an index set of a mode. -/
inductive Modifier where
  | accessWindow (lo hi stride : ℕ)
  | indexSet (set : List ℕ)
  deriving DecidableEq

namespace Modifier

def coordinate : Modifier → ℕ → ℕ
  | accessWindow lo _ stride, c => c * stride + lo
  | indexSet set, c => set.getD c 0

/-- `getWindowSize`, or the number of the coordinates of an index set. -/
def size : Modifier → ℕ
  | accessWindow lo hi stride => (hi - lo) / stride
  | indexSet set => set.length

/-- What is checked when a mode of a dimension is accessed. -/
def fits (dim : ℕ) : Modifier → Bool
  | accessWindow _ hi _ => hi ≤ dim
  | indexSet set => set.length ≤ dim

theorem size_le_of_fits {dim : ℕ} {modifier : Modifier} (h : modifier.fits dim = true) : modifier.size ≤ dim := by
  cases modifier with
  | accessWindow lo hi stride => exact (Nat.div_le_self _ _).trans ((Nat.sub_le _ _).trans (of_decide_eq_true h))
  | indexSet set => exact of_decide_eq_true h

end Modifier

/-- An access with the modifiers of some of its modes. -/
structure Access where
  tensorVar : TensorVar
  indexVars : List IndexVar
  modifiers : List (ℕ × Modifier)
  deriving DecidableEq

namespace Access

/-- An access without windows and index sets. -/
def make (tensorVar : TensorVar) (indexVars : List IndexVar) : Access := ⟨tensorVar, indexVars, []⟩

/-- The coordinate of a mode where its variable is `c`. -/
def coordinate (a : Access) (mode c : ℕ) : ℕ :=
  match a.modifiers.lookup mode with
  | some modifier => modifier.coordinate c
  | none => c

/-- The dimension of a mode as it is accessed. -/
def dimension (shape : Shape) (a : Access) (mode : ℕ) : ℕ :=
  match a.modifiers.lookup mode with
  | some modifier => modifier.size
  | none => shape a.tensorVar mode

@[simp] theorem dimension_make (shape : Shape) (tensorVar : TensorVar) (indexVars : List IndexVar) (mode : ℕ) :
    (make tensorVar indexVars).dimension shape mode = shape tensorVar mode := rfl

def coords (a : Access) (env : Env) : List ℕ := a.indexVars.mapIdx fun mode v => a.coordinate mode (env v)

@[simp] theorem coords_make (tensorVar : TensorVar) (indexVars : List IndexVar) (env : Env) :
    (make tensorVar indexVars).coords env = indexVars.map env :=
  List.ext_getElem (by simp [coords, make]) fun n _ _ => by simp [coords, make, coordinate]

end Access

/-! ### Expressions -/

inductive IndexExpr (V : Type) where
  | access (a : Access)
  | literal (val : V)
  | neg (a : IndexExpr V)
  | add (a b : IndexExpr V)
  | sub (a b : IndexExpr V)
  | mul (a b : IndexExpr V)

/-- The components of the tensors. -/
abbrev Store (V : Type) := TensorVar → List ℕ → V

variable {V : Type}

namespace IndexExpr

/-- The accesses from left to right. -/
def accesses : IndexExpr V → List Access
  | access a => [a]
  | literal _ => []
  | neg a => a.accesses
  | add a b | sub a b | mul a b => a.accesses ++ b.accesses

def eval [Ring V] (env : Env) (σ : Store V) : IndexExpr V → V
  | access a => σ a.tensorVar (a.coords env)
  | literal val => val
  | neg a => -a.eval env σ
  | add a b => a.eval env σ + b.eval env σ
  | sub a b => a.eval env σ - b.eval env σ
  | mul a b => a.eval env σ * b.eval env σ

/-- The value of an expression depends on the components that it accesses. -/
theorem eval_congr [Ring V] {env env' : Env} {σ σ' : Store V} {e : IndexExpr V}
    (h : ∀ a ∈ e.accesses, σ a.tensorVar (a.coords env) = σ' a.tensorVar (a.coords env')) :
    e.eval env σ = e.eval env' σ' := by
  induction e with
  | access a => exact h a (List.mem_singleton_self a)
  | literal val => rfl
  | neg a ih => rw [eval, eval, ih h]
  | add a b iha ihb | sub a b iha ihb | mul a b iha ihb =>
    rw [eval, eval, iha fun x hx => h x (List.mem_append_left _ hx), ihb fun x hx => h x (List.mem_append_right _ hx)]

end IndexExpr

/-! ### Statements -/

/-- Statements; an assignment with an operator adds to its left-hand side. -/
inductive IndexStmt (V : Type) where
  | assignment (lhs : Access) (rhs : IndexExpr V) (compound : Bool)
  | forall (indexVar : IndexVar) (stmt : IndexStmt V)
  | where (consumer producer : IndexStmt V)

namespace IndexStmt

/-- `getResultAccesses`: the accesses that are assigned to, except in producers. -/
def getResultAccesses : IndexStmt V → List Access
  | assignment lhs _ _ => [lhs]
  | .forall _ stmt => stmt.getResultAccesses
  | .where consumer _ => consumer.getResultAccesses

/-- The tensors that are assigned to, except in producers. -/
def getResults (s : IndexStmt V) : List TensorVar := s.getResultAccesses.map Access.tensorVar

end IndexStmt

/-- How loops bind variables: the iterations of a variable and what entering one of them declares; nothing, if a guard
    leaves it. -/
structure Space where
  dims : IndexVar → ℕ
  enter : IndexVar → ℕ → Env → Option Env

/-- Loops over variables that are not derived. -/
def Space.underived (dims : IndexVar → ℕ) : Space := ⟨dims, fun i c env => some (Function.update env i c)⟩

namespace Store

def write (σ : Store V) (t : TensorVar) (coords : List ℕ) (val : V) : Store V :=
  Function.update σ t (Function.update (σ t) coords val)

/-- Temporaries are zero when they are declared. -/
def zero [Zero V] (σ : Store V) (ts : List TensorVar) : Store V := fun t => if t ∈ ts then 0 else σ t

/-- The tensors have their old components when the declaration goes out of scope. -/
def restore (σ old : Store V) (ts : List TensorVar) : Store V := fun t => if t ∈ ts then old t else σ t

variable {σ : Store V} {t u : TensorVar} {coords coords' : List ℕ} {val : V}

@[simp] theorem write_self : σ.write t coords val t coords = val := by simp [write]

theorem write_of_ne (h : u ≠ t) : σ.write t coords val u = σ u := by simp [write, h]

theorem write_of_coords_ne (h : coords' ≠ coords) : σ.write t coords val u coords' = σ u coords' := by
  by_cases hu : u = t
  · subst hu
    simp [write, h]
  · rw [write_of_ne hu]

theorem write_write {val' : V} : (σ.write t coords val).write t coords val' = σ.write t coords val' := by
  rw [write, write, Function.update_self, Function.update_idem, Function.update_idem, write]

theorem write_eq_self : σ.write t coords (σ t coords) = σ := by
  rw [write, Function.update_eq_self, Function.update_eq_self]

end Store

variable [Ring V]

/-- An assignment at values of its variables. -/
def assign (lhs : Access) (rhs : IndexExpr V) (compound : Bool) (env : Env) (σ : Store V) : Store V :=
  σ.write lhs.tensorVar (lhs.coords env)
    (if compound then σ lhs.tensorVar (lhs.coords env) + rhs.eval env σ else rhs.eval env σ)

namespace IndexStmt

/-- What a statement does to the tensors. -/
def exec (space : Space) : IndexStmt V → Env → Store V → Store V
  | assignment lhs rhs compound, env, σ => assign lhs rhs compound env σ
  | .forall i stmt, env, σ =>
    (List.range (space.dims i)).foldl
      (fun σ c => match space.enter i c env with
        | some env => stmt.exec space env σ
        | none => σ) σ
  | .where consumer producer, env, σ =>
    (consumer.exec space env (producer.exec space env (σ.zero producer.getResults))).restore σ producer.getResults

variable {dims : IndexVar → ℕ} {env : Env} {σ : Store V}

theorem exec_forall_underived (i : IndexVar) (stmt : IndexStmt V) :
    (IndexStmt.forall i stmt).exec (.underived dims) env σ =
      (List.range (dims i)).foldl (fun σ c => stmt.exec (.underived dims) (Function.update env i c) σ) σ := rfl

end IndexStmt

/-! ### Valid statements -/

namespace IndexStmt

/-- `Assignment::getReductionVars`: the variables of the right-hand side that the left-hand side does not have. -/
def getReductionVars (lhs : Access) (rhs : IndexExpr V) : List IndexVar :=
  (rhs.accesses.flatMap Access.indexVars).filter (· ∉ lhs.indexVars)

/-- The accesses of a statement. -/
def accesses : IndexStmt V → List Access
  | assignment lhs rhs _ => lhs :: rhs.accesses
  | .forall _ stmt => stmt.accesses
  | .where consumer producer => consumer.accesses ++ producer.accesses

/-- The accesses of right-hand sides. -/
def reads : IndexStmt V → List Access
  | assignment _ rhs _ => rhs.accesses
  | .forall _ stmt => stmt.reads
  | .where consumer producer => consumer.reads ++ producer.reads

/-- `getTemporaries`: what producers assign to. -/
def getTemporaries : IndexStmt V → List TensorVar
  | assignment _ _ _ => []
  | .forall _ stmt => stmt.getTemporaries
  | .where consumer producer => producer.getResults ++ consumer.getTemporaries ++ producer.getTemporaries

/-- `dimensionsTypecheck`: the modes of the tensors that a variable accesses have one dimension. -/
def typechecks (shape : Shape) (dims : IndexVar → ℕ) (s : IndexStmt V) : Prop :=
  ∀ a ∈ s.accesses, a.tensorVar ∉ s.getTemporaries → ∀ mode i, a.indexVars[mode]? = some i →
    a.dimension shape mode = dims i

/-- What `lowerForall` asserts: no loop binds a variable again. -/
@[grind =]
def bindsOnce (boundVars : List IndexVar) : IndexStmt V → Bool
  | assignment _ _ _ => true
  | .forall i stmt => i ∉ boundVars && stmt.bindsOnce (i :: boundVars)
  | .where consumer producer => consumer.bindsOnce boundVars && producer.bindsOnce boundVars

/-- `isConcreteNotation` without provenance relations: variables are bound, and reductions are compound unless they are
    in a producer. -/
@[grind =]
def isConcreteNotation (boundVars : List IndexVar) (inWhereProducer : Bool) : IndexStmt V → Bool
  | assignment lhs rhs compound =>
    (compound || inWhereProducer || (getReductionVars lhs rhs).isEmpty) &&
      (lhs :: rhs.accesses).all fun a => a.indexVars.all (· ∈ boundVars)
  | .forall i stmt => stmt.isConcreteNotation (i :: boundVars) inWhereProducer
  | .where consumer producer =>
    producer.isConcreteNotation boundVars true && consumer.isConcreteNotation boundVars inWhereProducer

/-- Concrete notation whose accesses fit the tensors and whose variables have the dimensions `dims`. -/
structure Valid (shape : Shape) (dims : IndexVar → ℕ) (s : IndexStmt V) : Prop where
  concrete : s.isConcreteNotation [] false = true
  typed : s.typechecks shape dims
  fitted : ∀ a ∈ s.accesses, ∀ mode modifier, a.modifiers.lookup mode = some modifier →
    modifier.fits (shape a.tensorVar mode) = true
  binds : s.bindsOnce [] = true

end IndexStmt

end Concrete
end Taco
