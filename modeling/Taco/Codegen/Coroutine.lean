import Taco.IR.Runs

/-! The coroutine that is printed for an iterate function, and the iterator that calls it. In a coroutine, declarations
    are printed as assignments of variables that the whole function declares. -/

namespace Taco
namespace Codegen

open IR

/-! ### Control flow -/

/-- A variable is assigned a value of its type. -/
def setVar (m : Memory) (v : Var) (x : Val) : Memory := ⟨Function.update m.vars v (v.type.conv x), m.arrays⟩

/-- An element of an array is assigned a value of the type of the array. -/
def writeArray (m : Memory) (arr : ArrayVar) (loc x : Val) : Memory :=
  ⟨m.vars, Function.update m.arrays arr (Function.update (m.arrays arr) (trunc loc) (arr.type.conv x))⟩

/-- What happens at a point of a function, and what is left after it. -/
inductive Outcome where
  | finished
  | next (cont : List Stmt) (mem : Memory)
  | yielded (coords : List (Var × Val)) (val : Val) (cont : List Stmt) (mem : Memory)

/-- A step at the first of the statements that are left. -/
def step : List Stmt → Memory → Option Outcome
  | [], _ => some .finished
  | .block contents :: k, m => some (.next (contents ++ k) m)
  | .scope s :: k, m => some (.next (s :: k) m)
  | .varDecl v rhs :: k, m | .assign v rhs :: k, m => (rhs.eval m).map fun x => .next k (setVar m v x)
  | .store arr loc data :: k, m =>
    (loc.eval m).bind fun l => (data.eval m).map fun x => .next k (writeArray m arr l x)
  | .yield coords val :: k, m =>
    (val.eval m).map fun x => .yielded (coords.map fun v => (v, v.type.conv (m.vars v))) x k m
  | .ifThenElse cond s otherwise :: k, m =>
    (cond.eval m).map fun x => .next ((if x ≠ 0 then some s else otherwise).toList ++ k) m
  | .case clauses alwaysMatch :: k, m =>
    (firstMatch m alwaysMatch clauses).map fun s => .next (s.toList ++ k) m
  | .switch cases controlExpr :: k, m =>
    (controlExpr.eval m).bind fun x => (matchingCase m x cases).map fun s => .next (s.toList ++ k) m
  | .for v start e inc body :: k, m =>
    (start.eval m).map fun x => .next (forLoop v e inc body :: k) (setVar m v x)
  | .while cond body :: k, m =>
    (cond.eval m).map fun x => .next (if x ≠ 0 then body :: .while cond body :: k else k) m

/-- What the plain function yields from a point until it finishes. -/
inductive Yields : List Stmt → Memory → List (List (Var × Val) × Val) → Prop
  | finished {k : List Stmt} {m : Memory} : step k m = some .finished → Yields k m []
  | next {k k' : List Stmt} {m m' : Memory} {out : List (List (Var × Val) × Val)} :
    step k m = some (.next k' m') → Yields k' m' out → Yields k m out
  | yielded {k k' : List Stmt} {m m' : Memory} {coords : List (Var × Val)} {val : Val}
    {out : List (List (Var × Val) × Val)} :
    step k m = some (.yielded coords val k' m') → Yields k' m' out → Yields k m ((coords, val) :: out)

/-! ### Labels and local variables -/

mutual

def countYields : Stmt → ℕ
  | .block contents => countYieldsAll contents
  | .scope s | .for _ _ _ _ s | .while _ s => countYields s
  | .yield .. => 1
  | .ifThenElse _ s none => countYields s
  | .ifThenElse _ s (some t) => countYields s + countYields t
  | .case clauses _ | .switch clauses _ => countYieldsClauses clauses
  | .varDecl .. | .assign .. | .store .. => 0

def countYieldsAll : List Stmt → ℕ
  | [] => 0
  | s :: ss => countYields s + countYieldsAll ss

def countYieldsClauses : List (Expr × Stmt) → ℕ
  | [] => 0
  | (_, s) :: clauses => countYields s + countYieldsClauses clauses

/-- `FindVars::localVars`: the variables of declarations and loops. -/
def localVars : Stmt → List Var
  | .block contents => localVarsAll contents
  | .scope s | .while _ s => localVars s
  | .varDecl v _ => [v]
  | .for v _ _ _ s => v :: localVars s
  | .ifThenElse _ s none => localVars s
  | .ifThenElse _ s (some t) => localVars s ++ localVars t
  | .case clauses _ | .switch clauses _ => localVarsClauses clauses
  | .assign .. | .store .. | .yield .. => []

def localVarsAll : List Stmt → List Var
  | [] => []
  | s :: ss => localVars s ++ localVarsAll ss

def localVarsClauses : List (Expr × Stmt) → List Var
  | [] => []
  | (_, s) :: clauses => localVars s ++ localVarsClauses clauses

/-- A statement declares and assigns only variables in `V`, and its yields have `order` coordinates of type `Int()`. -/
def Within (V : List Var) (order : ℕ) : Stmt → Prop
  | .block contents => WithinAll V order contents
  | .scope s | .while _ s => Within V order s
  | .varDecl v _ | .assign v _ => v ∈ V
  | .for v _ _ _ s => v ∈ V ∧ Within V order s
  | .ifThenElse _ s none => Within V order s
  | .ifThenElse _ s (some t) => Within V order s ∧ Within V order t
  | .case clauses _ | .switch clauses _ => WithinClauses V order clauses
  | .store .. => True
  | .yield coords _ => coords.length = order ∧ ∀ v ∈ coords, v.type = .int .w32

def WithinAll (V : List Var) (order : ℕ) : List Stmt → Prop
  | [] => True
  | s :: ss => Within V order s ∧ WithinAll V order ss

def WithinClauses (V : List Var) (order : ℕ) : List (Expr × Stmt) → Prop
  | [] => True
  | (_, s) :: clauses => Within V order s ∧ WithinClauses V order clauses

/-- What is left after the label behind a yield, where `k` is left after the statement. -/
def afterLabel : Stmt → List Stmt → Option (List Stmt)
  | .block contents, k => afterLabelAll contents k
  | .scope s, k => afterLabel s k
  | .yield .., k => some k
  | .ifThenElse _ s none, k => afterLabel s k
  | .ifThenElse _ s (some t), k => (afterLabel s k).or (afterLabel t k)
  | .case clauses _, k | .switch clauses _, k => afterLabelClauses clauses k
  | .for v _ e inc body, k =>
    afterLabel body (.assign v (.binary .add (.var v) inc) :: forLoop v e inc body :: k)
  | .while cond body, k => afterLabel body (.while cond body :: k)
  | .varDecl .., _ | .assign .., _ | .store .., _ => none

def afterLabelAll : List Stmt → List Stmt → Option (List Stmt)
  | [], _ => none
  | s :: ss, k => (afterLabel s (ss ++ k)).or (afterLabelAll ss k)

def afterLabelClauses : List (Expr × Stmt) → List Stmt → Option (List Stmt)
  | [], _ => none
  | (_, s) :: clauses, k => (afterLabel s k).or (afterLabelClauses clauses k)

end

/-! ### Calls -/

/-- The context that a coroutine allocates. -/
structure Context where
  state : ℕ
  locals : Var → Val

/-- The buffers of coordinates, by the address in bytes, and of values. -/
structure Buffers where
  coords : ℕ → Val
  vals : ℕ → Val

def getNumBytes (v : Var) : ℕ := v.type.getNumBits / 8

/-- The coordinates of an element are stored one after the other. -/
def storeCoords : ℕ → List (Var × Val) → (ℕ → Val) → ℕ → Val
  | _, [], buffer => buffer
  | address, (v, x) :: coords, buffer => storeCoords (address + getNumBytes v) coords (Function.update buffer address x)

/-- `printYield`: an element is stored at the end of the buffers. -/
def Buffers.push (buffers : Buffers) (bufSize : ℕ) (coords : List (Var × Val)) (val : Val) : Buffers :=
  let stride := (coords.map fun p => getNumBytes p.1).sum
  ⟨storeCoords (stride * bufSize) coords buffers.coords, Function.update buffers.vals bufSize val⟩

/-- How a call leaves the function: in a yield that fills the buffers, or behind the loops. -/
structure Exit where
  full : Bool
  mem : Memory
  bufSize : ℕ
  buffers : Buffers

/-- The function from a point on. -/
def fill : ℕ → ℕ → List Stmt → Memory → ℕ → Buffers → Option Exit
  | 0, _, _, _, _, _ => none
  | fuel + 1, capacity, k, m, bufSize, buffers =>
    match step k m with
    | none => none
    | some .finished => some ⟨false, m, bufSize, buffers⟩
    | some (.next k m) => fill fuel capacity k m bufSize buffers
    | some (.yielded coords val k m) =>
      let buffers := buffers.push bufSize coords val
      if bufSize + 1 = capacity then some ⟨true, m, bufSize + 1, buffers⟩
      else fill fuel capacity k m (bufSize + 1) buffers

/-- What a call leaves in the context, in the arrays and in the buffers, and the size that it returns. -/
structure Return where
  ctx : Option Context
  arrays : ArrayVar → ℤ → Val
  buffers : Buffers
  bufSize : ℕ

/-- `printYield` saves the local variables and the label of the yield, which is the first one, when the buffers are
    full. Behind the loops `printCoroutineFinish` sets the state to the number of yields and returns, also where the
    size is zero. -/
def Exit.toReturn (body : Stmt) (locals : Var → Val) (exit : Exit) : Return where
  ctx := some (if exit.full then ⟨0, exit.mem.vars⟩ else ⟨countYields body, locals⟩)
  arrays := exit.mem.arrays
  buffers := exit.buffers
  bufSize := exit.bufSize

/-- A call with a memory whose local variables have any values; those of a context are restored, and its state selects
    the label. From the last label on, the context is freed. -/
def call (fuel capacity : ℕ) (body : Stmt) (ctx : Option Context) (m : Memory) (buffers : Buffers) : Option Return :=
  match ctx with
  | none => (fill fuel capacity [body] m 0 buffers).map (Exit.toReturn body m.vars)
  | some ctx =>
    let vars := fun v => if v ∈ localVars body then ctx.locals v else m.vars v
    if ctx.state = countYields body then some ⟨none, m.arrays, buffers, 0⟩
    else if ctx.state = 0 then
      (afterLabel body []).bind fun k =>
        (fill fuel capacity k ⟨vars, m.arrays⟩ 0 buffers).map (Exit.toReturn body ctx.locals)
    else none

/-! ### The iterator -/

/-- The fields of `const_iterator`, and the arrays of the tensor; `coordinates` counts coordinates. -/
structure ConstIterator where
  ctx : Option Context
  arrays : ArrayVar → ℤ → Val
  buffers : Buffers
  bufferSize : ℕ
  bufferPos : ℕ
  chunks : ℕ
  coordinates : ℕ
  value : Val

/-- A tensor's order and its iterate function, which has one yield, assigns only variables that it declares and is
    entered with the same inputs by each call; its own variables have any values. -/
structure Iteration where
  tensorOrder : ℕ
  bufferCapacity : ℕ
  body : Stmt
  entry : ℕ → Var → Val
  capacity_pos : 0 < bufferCapacity
  countYields_eq : countYields body = 1
  within : Within (localVars body) tensorOrder body
  inputs : ∀ n v, v ∉ localVars body → entry n v = entry 0 v

namespace ConstIterator

variable (I : Iteration)

/-- The iterator before it is incremented for the first time. -/
def init (arrays : ArrayVar → ℤ → Val) (buffers : Buffers) : ConstIterator := ⟨none, arrays, buffers, 0, 0, 0, 0, 0⟩

/-- `fillBuffer`, and the start of the buffers. -/
def refill (fuel : ℕ) (it : ConstIterator) : Option ConstIterator :=
  (call fuel I.bufferCapacity I.body it.ctx ⟨I.entry it.chunks, it.arrays⟩ it.buffers).map fun ret =>
    { ctx := ret.ctx
      arrays := ret.arrays
      buffers := ret.buffers
      bufferSize := ret.bufSize
      bufferPos := 0
      chunks := it.chunks + 1
      coordinates := 0
      value := ret.buffers.vals 0 }

/-- `operator++`. -/
def increment (fuel : ℕ) (it : ConstIterator) : Option ConstIterator :=
  if it.bufferPos + 1 ≥ it.bufferSize then it.refill I fuel
  else some { it with
    bufferPos := it.bufferPos + 1
    coordinates := it.coordinates + I.tensorOrder
    value := it.buffers.vals (it.bufferPos + 1) }

/-- `operator*`; coordinates have the four bytes of an `int`. -/
def deref (it : ConstIterator) : List Val × Val :=
  ((List.range I.tensorOrder).map fun mode => it.buffers.coords (4 * (it.coordinates + mode)), it.value)

/-- `operator==` with the end, whose buffers are empty. -/
def isEnd (it : ConstIterator) : Bool := it.bufferSize = 0

/-- What is delivered from an iterator until it is at the end. -/
def deliver : ℕ → ConstIterator → Option (List (List Val × Val))
  | 0, _ => none
  | fuel + 1, it =>
    if it.isEnd then some []
    else (it.increment I fuel).bind fun it' => (deliver fuel it').map fun rest => it.deref I :: rest

end ConstIterator

/-- What a loop from `begin` to `end` delivers. -/
def Iteration.deliver (I : Iteration) (fuel : ℕ) (arrays : ArrayVar → ℤ → Val) (buffers : Buffers) :
    Option (List (List Val × Val)) :=
  ((ConstIterator.init arrays buffers).increment I fuel).bind (ConstIterator.deliver I fuel)

end Codegen
end Taco
