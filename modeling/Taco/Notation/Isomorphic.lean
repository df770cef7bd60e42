import Taco.Library.Renamings
import Taco.Notation.Nodes

/-! `isomorphic`: whether two expressions or statements are the same but for the names of their tensors and index
    variables. -/

namespace Taco
namespace Notation

open IndexNotation (Intrinsic)
open Renamings

/-! ### Comparisons of the parts of a node -/

/-- `Shape::operator==`. -/
def Shape.equal : Shape → Shape → Bool
  | [], [] => true
  | d :: ds, e :: es => d.equal e && Shape.equal ds es
  | _, _ => false

/-- `Type::operator==`. -/
def TensorType.equal (a b : TensorType) : Bool := decide (a.dataType = b.dataType) && a.shape.equal b.shape

/-- The tensor variables have the same type and format. -/
def TensorVar.sameKind (a b : TensorVar) : Bool := a.type.equal b.type && decide (a.format = b.format)

/-- `IndexVarRel::equals`; accesses of positions are compared by the identities of their nodes. -/
def IndexVarRel.equal : IndexVarRel → IndexVarRel → Bool
  | .undefined, .undefined => true
  | .split p o i f, .split p' o' i' f' | .divide p o i f, .divide p' o' i' f' =>
    decide (p = p') && decide (o = o') && decide (i = i') && decide (f = f')
  | .pos p q node _, .pos p' q' node' _ => decide (p = p') && decide (q = q') && decide (node = node')
  | .fuse o i f, .fuse o' i' f' => decide (o = o') && decide (i = i') && decide (f = f')
  | .bound p b n t, .bound p' b' n' t' => decide (p = p') && decide (b = b') && decide (n = n') && decide (t = t')
  | .precompute p q, .precompute p' q' => decide (p = p') && decide (q = q')
  | _, _ => false

/-- `getName` of an intrinsic function. -/
def getIntrinsicName : Intrinsic → String
  | .mod => "mod" | .abs => "abs" | .pow => "pow" | .square => "square" | .cube => "cube" | .sqrt => "sqrt"
  | .cbrt => "cbrt"
  | .exp => "exp" | .log => "log" | .log10 => "log10" | .sin => "sin" | .cos => "cos" | .tan => "tan" | .asin => "asin"
  | .acos => "acos" | .atan => "atan" | .atan2 => "atan2" | .sinh => "sinh" | .cosh => "cosh" | .tanh => "tanh"
  | .asinh => "asinh" | .acosh => "acosh" | .atanh => "atanh" | .gt => "gt" | .lt => "lt" | .gte => "gte" | .lte => "lte"
  | .eq => "eq" | .neq => "neq" | .max => "max" | .min => "max" | .heaviside => "heaviside" | .not => "Not"

/-! ### The comparison -/

/-- The maps `isoBTensor`, `isoATensor`, `isoBVar` and `isoAVar`. -/
structure IsoState where
  tensors : TwoWay TensorVar TensorVar.sameKind
  vars : TwoWay IndexVar fun _ _ => true

namespace IsoState

def empty : IsoState := ⟨.empty, .empty⟩

def checkTensorVar (a b : TensorVar) (s : IsoState) : Option IsoState :=
  (s.tensors.check a b).map fun tensors => { s with tensors := tensors }

def checkIndexVar (a b : IndexVar) (s : IsoState) : Option IsoState :=
  (s.vars.check a b).map fun vars => { s with vars := vars }

end IsoState

open IsoState (checkTensorVar checkIndexVar)

/-- As many variables, which are checked one after the other. -/
def checkIndexVars : List IndexVar → List IndexVar → IsoState → Option IsoState
  | [], [], s => some s
  | a :: as, b :: bs, s => (checkIndexVar a b s).bind (checkIndexVars as bs)
  | _, _, _ => none

def checkAccesses (a b : Access) (s : IsoState) : Option IsoState :=
  ((checkTensorVar a.tensorVar b.tensorVar s).bind (checkIndexVars a.indexVars b.indexVars)).bind fun s =>
    if a.isAccessingStructure = b.isAccessingStructure ∧ a.windowedModes = b.windowedModes ∧
        a.indexSetModes = b.indexSetModes
    then some s else none

mutual

/-- `Isomorphic::check` of expressions; nothing where they are not isomorphic. -/
def isoExpr : IndexExpr → IndexExpr → IsoState → Option IsoState
  | .undefined, .undefined, s => some s
  | .access a, .access b, s => checkAccesses a b s
  | .literal type val, .literal type' val', s => if type = type' ∧ val = val' then some s else none
  | .neg a, .neg b, s | .sqrt a, .sqrt b, s => isoExpr a b s
  | .add a a', .add b b', s | .sub a a', .sub b b', s | .mul a a', .mul b b', s | .div a a', .div b b', s =>
    (isoExpr a b s).bind (isoExpr a' b')
  | .cast a type, .cast b type', s => (if type = type' then some s else none).bind (isoExpr a b)
  | .callIntrinsic func args, .callIntrinsic func' args', s =>
    (if getIntrinsicName func = getIntrinsicName func' then some s else none).bind (isoExprs args args')
  | .reduction op var a, .reduction op' var' b, s =>
    ((isoExpr op op' s).bind (checkIndexVar var var')).bind (isoExpr a b)
  | _, _, _ => none

def isoExprs : List IndexExpr → List IndexExpr → IsoState → Option IsoState
  | [], [], s => some s
  | a :: as, b :: bs, s => (isoExpr a b s).bind (isoExprs as bs)
  | _, _, _ => none

end

/-- `Isomorphic::check` of statements. -/
def isoStmt : IndexStmt → IndexStmt → IsoState → Option IsoState
  | .undefined, .undefined, s => some s
  | .assignment lhs rhs op, .assignment lhs' rhs' op', s =>
    ((checkAccesses lhs lhs' s).bind (isoExpr rhs rhs')).bind (isoExpr op op')
  | .yield indexVars expr, .yield indexVars' expr', s => (checkIndexVars indexVars indexVars' s).bind (isoExpr expr expr')
  | .forall i a tags, .forall j b tags', s =>
    ((checkIndexVar i j s).bind (isoStmt a b)).bind fun s => if tags = tags' then some s else none
  | .where consumer producer, .where consumer' producer', s =>
    (isoStmt consumer consumer' s).bind (isoStmt producer producer')
  | .sequence a a', .sequence b b', s | .assemble a a' _, .assemble b b' _, s | .multi a a', .multi b b', s =>
    (isoStmt a b s).bind (isoStmt a' b')
  | .suchThat a predicate, .suchThat b predicate', s =>
    (isoStmt a b s).bind fun s =>
      if List.Forall₂ (fun rel rel' => rel.equal rel' = true) predicate predicate' then some s else none
  | _, _, _ => none

def IndexExpr.isomorphic (a b : IndexExpr) : Bool := (isoExpr a b .empty).isSome

def IndexStmt.isomorphic (a b : IndexStmt) : Bool := (isoStmt a b .empty).isSome

/-! ### Renamings -/

/-- A one-to-one renaming of tensor variables, to such with the same type and format, and of index variables. -/
structure Renaming where
  tensor : TensorVar → TensorVar → Prop
  var : IndexVar → IndexVar → Prop
  tensor_oneToOne : OneToOne tensor
  var_oneToOne : OneToOne var
  sameKind : ∀ {a b}, tensor a b → a.sameKind b = true

/-- An access with its variables renamed. -/
structure Access.Renamed (r : Renaming) (a b : Access) : Prop where
  tensorVar : r.tensor a.tensorVar b.tensorVar
  indexVars : List.Forall₂ r.var a.indexVars b.indexVars
  isAccessingStructure : a.isAccessingStructure = b.isAccessingStructure
  windowedModes : a.windowedModes = b.windowedModes
  indexSetModes : a.indexSetModes = b.indexSetModes

/-- A relation with its variables renamed. -/
inductive IndexVarRel.Renamed (r : Renaming) : IndexVarRel → IndexVarRel → Prop where
  | undefined : Renamed r .undefined .undefined
  | split {p o i p' o' i' : IndexVar} (hp : r.var p p') (ho : r.var o o') (hi : r.var i i') (splitFactor : ℕ) :
    Renamed r (.split p o i splitFactor) (.split p' o' i' splitFactor)
  | divide {p o i p' o' i' : IndexVar} (hp : r.var p p') (ho : r.var o o') (hi : r.var i i') (divFactor : ℕ) :
    Renamed r (.divide p o i divFactor) (.divide p' o' i' divFactor)
  | pos {p q p' q' : IndexVar} {a a' : Access} (hp : r.var p p') (hq : r.var q q') (node node' : ℕ) (ha : a.Renamed r a') :
    Renamed r (.pos p q node a) (.pos p' q' node' a')
  | fuse {o i f o' i' f' : IndexVar} (ho : r.var o o') (hi : r.var i i') (hf : r.var f f') :
    Renamed r (.fuse o i f) (.fuse o' i' f')
  | bound {p b p' b' : IndexVar} (hp : r.var p p') (hb : r.var b b') (bound : ℕ) (boundType : BoundType) :
    Renamed r (.bound p b bound boundType) (.bound p' b' bound boundType)
  | precompute {p q p' q' : IndexVar} (hp : r.var p p') (hq : r.var q q') : Renamed r (.precompute p q) (.precompute p' q')

/-- The results of queries with their tensor variables renamed; the map orders them by the identities of the variables. -/
def ResultsRenamed (r : Renaming) (results results' : AttrQueryResults) : Prop :=
  ∃ renamed : AttrQueryResults, renamed.Perm results' ∧
    List.Forall₂ (fun e e' => r.tensor e.1 e'.1 ∧ List.Forall₂ (List.Forall₂ r.tensor) e.2 e'.2) results renamed

/-- How functions, predicates and results are compared. -/
structure Comparison where
  func : Intrinsic → Intrinsic → Prop
  predicate : Renaming → List IndexVarRel → List IndexVarRel → Prop
  results : Renaming → AttrQueryResults → AttrQueryResults → Prop

namespace Comparison

/-- Everything is the same but for the names. -/
def exact : Comparison := ⟨fun f g => f = g, fun r => List.Forall₂ (IndexVarRel.Renamed r), ResultsRenamed⟩

/-- Functions are compared by their names and predicates without the renaming, and results are not. -/
def coded : Comparison :=
  ⟨fun f g => getIntrinsicName f = getIntrinsicName g, fun _ => List.Forall₂ fun rel rel' => rel.equal rel' = true,
    fun _ _ _ => True⟩

end Comparison

section Matches

variable (c : Comparison) (r : Renaming)

namespace IndexExpr

mutual

/-- An expression is another one with its variables renamed. -/
def Matches : IndexExpr → IndexExpr → Prop
  | undefined, e => e = undefined
  | access a, e => ∃ b, e = access b ∧ a.Renamed r b
  | literal type val, e => e = literal type val
  | neg a, e => ∃ b, e = neg b ∧ Matches a b
  | sqrt a, e => ∃ b, e = sqrt b ∧ Matches a b
  | add a a', e => ∃ b b', e = add b b' ∧ Matches a b ∧ Matches a' b'
  | sub a a', e => ∃ b b', e = sub b b' ∧ Matches a b ∧ Matches a' b'
  | mul a a', e => ∃ b b', e = mul b b' ∧ Matches a b ∧ Matches a' b'
  | div a a', e => ∃ b b', e = div b b' ∧ Matches a b ∧ Matches a' b'
  | cast a type, e => ∃ b, e = cast b type ∧ Matches a b
  | callIntrinsic func args, e => ∃ func' args', e = callIntrinsic func' args' ∧ c.func func func' ∧ MatchesAll args args'
  | reduction op var a, e => ∃ op' var' b, e = reduction op' var' b ∧ Matches op op' ∧ r.var var var' ∧ Matches a b

def MatchesAll : List IndexExpr → List IndexExpr → Prop
  | [], es => es = []
  | a :: as, es => ∃ b bs, es = b :: bs ∧ Matches a b ∧ MatchesAll as bs

end

end IndexExpr

/-- A statement is another one with its variables renamed. -/
def IndexStmt.Matches : IndexStmt → IndexStmt → Prop
  | undefined, s => s = undefined
  | assignment lhs rhs op, s => ∃ lhs' rhs' op', s = assignment lhs' rhs' op' ∧ lhs.Renamed r lhs' ∧ rhs.Matches c r rhs' ∧
      op.Matches c r op'
  | yield indexVars expr, s => ∃ indexVars' expr', s = yield indexVars' expr' ∧ List.Forall₂ r.var indexVars indexVars' ∧
      expr.Matches c r expr'
  | .forall i a tags, s => ∃ j b, s = .forall j b tags ∧ r.var i j ∧ Matches a b
  | .where a a', s => ∃ b b', s = .where b b' ∧ Matches a b ∧ Matches a' b'
  | sequence a a', s => ∃ b b', s = sequence b b' ∧ Matches a b ∧ Matches a' b'
  | assemble a a' results, s => ∃ b b' results', s = assemble b b' results' ∧ Matches a b ∧ Matches a' b' ∧
      c.results r results results'
  | multi a a', s => ∃ b b', s = multi b b' ∧ Matches a b ∧ Matches a' b'
  | suchThat a predicate, s => ∃ b predicate', s = suchThat b predicate' ∧ Matches a b ∧ c.predicate r predicate predicate'

end Matches

/-- There is a renaming that makes the expressions equal. -/
def IndexExpr.Renames (a b : IndexExpr) : Prop := ∃ r, a.Matches .exact r b

/-- There is a renaming that makes the statements equal. -/
def IndexStmt.Renames (a b : IndexStmt) : Prop := ∃ r, a.Matches .exact r b

end Notation
end Taco
