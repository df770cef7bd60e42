import Taco.IR.Datatype
import Taco.Parser.Parser

/-! The printer of index expressions, and when what is read back groups its operands as the expression does. -/

namespace Taco
namespace Parser

open IR

/-! ### The printer -/

/-- Index expressions with their datatypes. Accesses are not windowed; tensors and variables are given by their names. -/
inductive IndexExprNode where
  | access (a : Access) (dataType : Datatype)
  | literal (dataType : Datatype) (val : ℕ)
  | neg (a : IndexExprNode)
  | add (a b : IndexExprNode)
  | sub (a b : IndexExprNode)
  | mul (a b : IndexExprNode)
  | div (a b : IndexExprNode)

def IndexExprNode.getDataType : IndexExprNode → Datatype
  | access _ dataType | literal dataType _ => dataType
  | neg a => a.getDataType
  | add a b | sub a b | mul a b | div a b => Datatype.maxType a.getDataType b.getDataType

inductive Precedence where
  | neg
  | mul
  | div
  | add
  | sub
  | top

def Precedence.value : Precedence → ℕ
  | neg => 3
  | mul | div => 5
  | add | sub => 6
  | top => 20

def join : List (List Char) → List Char
  | [] => []
  | var :: vars => var ++ vars.flatMap fun var => ',' :: var

/-- The stream writes integers of eight bits as characters. -/
def printLiteral : Datatype → ℕ → List Char
  | .uint .w8, val | .int .w8, val => [Char.ofNat val]
  | _, val => Nat.toDigits 10 val

/-- What is between parentheses, where these are needed. -/
def enclose (parenthesize : Bool) (text : List Char) : List Char := if parenthesize then '(' :: (text ++ [')']) else text

/-- `IndexNotationPrinter`, with the precedence of the parent. -/
def printNode : Precedence → IndexExprNode → List Char
  | _, .access a _ => a.tensorName ++ if a.indexVars = [] then [] else '(' :: (join a.indexVars ++ [')'])
  | _, .literal dataType val => printLiteral dataType val
  | parentPrecedence, .neg a =>
    (if a.getDataType.isBool then '!' else '-') ::
      enclose (Precedence.neg.value > parentPrecedence.value) (printNode .neg a)
  | parentPrecedence, .add a b =>
    enclose (Precedence.add.value > parentPrecedence.value) (printNode .add a ++ [' ', '+', ' '] ++ printNode .add b)
  | parentPrecedence, .sub a b =>
    enclose (Precedence.sub.value > parentPrecedence.value) (printNode .sub a ++ [' ', '-', ' '] ++ printNode .sub b)
  | parentPrecedence, .mul a b =>
    enclose (Precedence.mul.value > parentPrecedence.value) (printNode .mul a ++ [' ', '*', ' '] ++ printNode .mul b)
  | parentPrecedence, .div a b =>
    enclose (Precedence.div.value > parentPrecedence.value) (printNode .div a ++ [' ', '/', ' '] ++ printNode .div b)

def print (e : IndexExprNode) : List Char := printNode .top e

/-- A text is parsed as an expression, to the end of its tokens. -/
def parseExpression (fuel : ℕ) (expression : List Char) : Run IndexExpr := do
  let p ← ExceptT.mk ((nextToken fuel (Lexer.make expression)).map .ok)
  let (expr, p) ← parseExpr fuel p
  if p.currentToken = .eot then pure expr else throw .internal

/-! ### Values and grouping -/

/-- The value of an expression, where the accesses and the words of floats and complex numbers have values. -/
def IndexExpr.eval {K : Type} [Field K] (val : Access → K) (word : List Char → K) : IndexExpr → K
  | access a => val a
  | literal (.int n) | literal (.uint n) => n
  | literal (.float text) | literal (.complex text) => word text
  | neg a => -a.eval val word
  | add a b => a.eval val word + b.eval val word
  | sub a b => a.eval val word - b.eval val word
  | mul a b => a.eval val word * b.eval val word
  | div a b => a.eval val word / b.eval val word

/-- The expression without datatypes. -/
def IndexExprNode.expr : IndexExprNode → IndexExpr
  | access a _ => .access a
  | literal _ val => .literal (.int val)
  | neg a => .neg a.expr
  | add a b => .add a.expr b.expr
  | sub a b => .sub a.expr b.expr
  | mul a b => .mul a.expr b.expr
  | div a b => .div a.expr b.expr

/-- Two expressions with the same grouping: only the right operands of `+` and `*` may be associated otherwise. -/
inductive Regroups : IndexExpr → IndexExpr → Prop where
  | refl (a : IndexExpr) : Regroups a a
  | symm {a b : IndexExpr} : Regroups a b → Regroups b a
  | trans {a b c : IndexExpr} : Regroups a b → Regroups b c → Regroups a c
  | neg {a a' : IndexExpr} : Regroups a a' → Regroups a.neg a'.neg
  | add {a a' b b' : IndexExpr} : Regroups a a' → Regroups b b' → Regroups (a.add b) (a'.add b')
  | sub {a a' b b' : IndexExpr} : Regroups a a' → Regroups b b' → Regroups (a.sub b) (a'.sub b')
  | mul {a a' b b' : IndexExpr} : Regroups a a' → Regroups b b' → Regroups (a.mul b) (a'.mul b')
  | div {a a' b b' : IndexExpr} : Regroups a a' → Regroups b b' → Regroups (a.div b) (a'.div b')
  | add_add (a b c : IndexExpr) : Regroups (a.add (b.add c)) ((a.add b).add c)
  | add_sub (a b c : IndexExpr) : Regroups (a.add (b.sub c)) ((a.add b).sub c)
  | mul_mul (a b c : IndexExpr) : Regroups (a.mul (b.mul c)) ((a.mul b).mul c)
  | mul_div (a b c : IndexExpr) : Regroups (a.mul (b.div c)) ((a.mul b).div c)

/-! ### Expressions that are printed and read -/

def isIdentifier : List Char → Bool
  | [] => false
  | c :: w => isalpha c && w.all isalnum

/-- Names are identifiers, and literals integers of their types. -/
def IndexExprNode.WellFormed : IndexExprNode → Prop
  | access a _ => isIdentifier a.tensorName = true ∧ ∀ var ∈ a.indexVars, isIdentifier var = true
  | literal dataType val => dataType.isInteger = true ∧ dataType.is128 = false ∧ dataType.conv val = val
  | neg a => a.WellFormed
  | add a b | sub a b | mul a b | div a b => a.WellFormed ∧ b.WellFormed

def IndexExprNode.isAdditive : IndexExprNode → Bool
  | add _ _ | sub _ _ => true
  | _ => false

def IndexExprNode.isMultiplicative : IndexExprNode → Bool
  | mul _ _ | div _ _ => true
  | _ => false

/-- No name is the word of complex literals, no literal has eight bits or is too large, no boolean is negated, and no
    right operand of `-` or `/` is of the precedence of that. -/
def IndexExprNode.Readable : IndexExprNode → Prop
  | access a _ => isComplex a.tensorName = false ∧ ∀ var ∈ a.indexVars, isComplex var = false
  | literal dataType val => dataType.getNumBits ≠ 8 ∧ val ≤ int64Max
  | neg a => a.getDataType.isBool = false ∧ a.Readable
  | add a b | mul a b => a.Readable ∧ b.Readable
  | sub a b => a.Readable ∧ b.Readable ∧ b.isAdditive = false
  | div a b => a.Readable ∧ b.Readable ∧ b.isMultiplicative = false

end Parser
end Taco
