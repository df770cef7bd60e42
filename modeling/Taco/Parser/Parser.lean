import Taco.Parser.Lexer

/-! The parser of index expressions. Dimensions and formats of tensors are left out. -/

namespace Taco
namespace Parser

/-! ### Expressions -/

structure Access where
  tensorName : List Char
  indexVars : List (List Char)
  deriving DecidableEq

/-- The scalars that are read: 64-bit integers, and floats and complex numbers by their text. -/
inductive Scalar where
  | int (val : ℕ)
  | uint (val : ℕ)
  | float (text : List Char)
  | complex (text : List Char)
  deriving DecidableEq

inductive IndexExpr where
  | access (a : Access)
  | literal (s : Scalar)
  | neg (a : IndexExpr)
  | add (a b : IndexExpr)
  | sub (a b : IndexExpr)
  | mul (a b : IndexExpr)
  | div (a b : IndexExpr)
  deriving DecidableEq

structure Assignment where
  lhs : Access
  accumulate : Bool
  rhs : IndexExpr
  deriving DecidableEq

def int64Max : ℕ := 9223372036854775807

def uint64Max : ℕ := 18446744073709551615

/-- The number that digits stand for. -/
def number (digits : List Char) : ℕ := digits.foldl (fun n c => 10 * n + (c.toNat - 48)) 0

/-- What the stream of a word yields for a scalar; integers that are too large are the largest. -/
def scalar : Token → List Char → Scalar
  | .complex_scalar, word => .complex word
  | .uint_scalar, word => .uint (min (number word) uint64Max)
  | .float_scalar, word => .float word
  | _, word => .int (min (number word) int64Max)

/-! ### Errors -/

inductive Failure where
  | parseError (msg : String)
  | userError (msg : String)
  | internal
  deriving DecidableEq

/-- What is run for a number of rounds: nothing if it does not end with them. -/
abbrev Run (α : Type) := ExceptT Failure Option α

/-- There is no text for the end of the tokens. -/
def tokenString : Token → Option String
  | .identifier => some "identifier"
  | .int_scalar => some "int_scalar"
  | .uint_scalar => some "uint_scalar"
  | .float_scalar => some "float_scalar"
  | .complex_scalar => some "complex_scalar"
  | .comma => some ","
  | .lparen => some "("
  | .rparen => some ")"
  | .underscore => some "_"
  | .lcurly => some "\x7b"
  | .rcurly => some "\x7d"
  | .add => some "+"
  | .sub => some "-"
  | .mul => some "*"
  | .div => some "/"
  | .eq => some "="
  | .error => some "error"
  | .eot => none

/-! ### The parser -/

/-- What the parser asks of a lexer. -/
class Lexing (L : Type) where
  getToken : ℕ → L → Option (Token × L)
  getIdentifier : L → List Char

instance : Lexing Lexer := ⟨Lexer.getToken, Lexer.identifier⟩

variable {L : Type} [Lexing L]

structure Content (L : Type) where
  lexer : L
  currentToken : Token

def currentTokenString (p : Content L) : Option String :=
  if p.currentToken = .identifier then some (String.ofList (Lexing.getIdentifier p.lexer)) else tokenString p.currentToken

def nextToken (fuel : ℕ) (lexer : L) : Option (Content L) :=
  (Lexing.getToken fuel lexer).map fun (token, lexer) => ⟨lexer, token⟩

def consume (fuel : ℕ) (expected : Token) (p : Content L) : Run (Content L) :=
  if p.currentToken ≠ expected then
    match tokenString expected, currentTokenString p with
    | some expected, some current => throw (.parseError ("Expected '" ++ expected ++ "' but got '" ++ current ++ "'"))
    | _, _ => throw .internal
  else ExceptT.mk ((nextToken fuel p.lexer).map .ok)

def parseVar (fuel : ℕ) (p : Content L) : Run (List Char × Content L) :=
  if p.currentToken ≠ .identifier then throw (.parseError "Expected index variable")
  else do
    let var := Lexing.getIdentifier p.lexer
    let p ← consume fuel .identifier p
    pure (var, p)

def varListLoop : ℕ → List (List Char) → Content L → Run (List (List Char) × Content L)
  | 0, _, _ => ExceptT.mk none
  | fuel + 1, varlist, p =>
    if p.currentToken = .comma then do
      let p ← consume fuel .comma p
      let (var, p) ← parseVar fuel p
      varListLoop fuel (varlist ++ [var]) p
    else pure (varlist, p)

def parseVarList (fuel : ℕ) (p : Content L) : Run (List (List Char) × Content L) := do
  let (var, p) ← parseVar fuel p
  varListLoop fuel [var] p

def parseAccess (fuel : ℕ) (p : Content L) : Run (Access × Content L) :=
  if p.currentToken ≠ .identifier then throw (.parseError "Expected tensor name")
  else do
    let tensorName := Lexing.getIdentifier p.lexer
    let p ← consume fuel .identifier p
    if p.currentToken = .underscore then
      let p ← consume fuel .underscore p
      if p.currentToken = .lcurly then
        let p ← consume fuel .lcurly p
        let (varlist, p) ← parseVarList fuel p
        let p ← consume fuel .rcurly p
        pure (⟨tensorName, varlist⟩, p)
      else
        let (var, p) ← parseVar fuel p
        pure (⟨tensorName, [var]⟩, p)
    else if p.currentToken = .lparen then
      let p ← consume fuel .lparen p
      let (varlist, p) ← parseVarList fuel p
      let p ← consume fuel .rparen p
      pure (⟨tensorName, varlist⟩, p)
    else pure (⟨tensorName, []⟩, p)

def isScalar (token : Token) : Bool :=
  token = .complex_scalar || token = .int_scalar || token = .uint_scalar || token = .float_scalar

def parseFinal (fuel : ℕ) (p : Content L) : Run (IndexExpr × Content L) :=
  if isScalar p.currentToken then do
    let value := scalar p.currentToken (Lexing.getIdentifier p.lexer)
    let p ← consume fuel p.currentToken p
    pure (.literal value, p)
  else do
    let (a, p) ← parseAccess fuel p
    pure (.access a, p)

mutual

def parseExpr : ℕ → Content L → Run (IndexExpr × Content L)
  | 0, _ => ExceptT.mk none
  | fuel + 1, p => do
    let (expr, p) ← parseTerm fuel p
    exprLoop fuel expr p

def exprLoop : ℕ → IndexExpr → Content L → Run (IndexExpr × Content L)
  | 0, _, _ => ExceptT.mk none
  | fuel + 1, expr, p =>
    if p.currentToken = .add then do
      let p ← consume fuel .add p
      let (term, p) ← parseTerm fuel p
      exprLoop fuel (expr.add term) p
    else if p.currentToken = .sub then do
      let p ← consume fuel .sub p
      let (term, p) ← parseTerm fuel p
      exprLoop fuel (expr.sub term) p
    else pure (expr, p)

def parseTerm : ℕ → Content L → Run (IndexExpr × Content L)
  | 0, _ => ExceptT.mk none
  | fuel + 1, p => do
    let (term, p) ← parseFactor fuel p
    termLoop fuel term p

def termLoop : ℕ → IndexExpr → Content L → Run (IndexExpr × Content L)
  | 0, _, _ => ExceptT.mk none
  | fuel + 1, term, p =>
    if p.currentToken = .mul then do
      let p ← consume fuel .mul p
      let (factor, p) ← parseFactor fuel p
      termLoop fuel (term.mul factor) p
    else if p.currentToken = .div then do
      let p ← consume fuel .div p
      let (factor, p) ← parseFactor fuel p
      termLoop fuel (term.div factor) p
    else pure (term, p)

def parseFactor : ℕ → Content L → Run (IndexExpr × Content L)
  | 0, _ => ExceptT.mk none
  | fuel + 1, p =>
    if p.currentToken = .lparen then do
      let p ← consume fuel .lparen p
      let (factor, p) ← parseExpr fuel p
      let p ← consume fuel .rparen p
      pure (factor, p)
    else if p.currentToken = .sub then do
      let p ← consume fuel .sub p
      let (factor, p) ← parseFactor fuel p
      pure (factor.neg, p)
    else parseFinal fuel p

end

def parseAssign (fuel : ℕ) (p : Content L) : Run (Assignment × Content L) := do
  let (lhs, p) ← parseAccess fuel p
  if p.currentToken = .add then
    let p ← consume fuel .add p
    let p ← consume fuel .eq p
    let (rhs, p) ← parseExpr fuel p
    pure (⟨lhs, true, rhs⟩, p)
  else
    let p ← consume fuel .eq p
    let (rhs, p) ← parseExpr fuel p
    pure (⟨lhs, false, rhs⟩, p)

/-- The constructor of a parser reads the first token, `parse` an assignment. -/
def parse (fuel : ℕ) (expression : List Char) : Run Assignment := do
  let p ← ExceptT.mk ((nextToken fuel (Lexer.make expression)).map .ok)
  let (assignment, _) ← parseAssign fuel p
  pure assignment

/-! ### The grammar -/

/-- `varlist ::= var {, var}` -/
inductive VarList : List Lexeme → List (List Char) → Prop where
  | var {x : Lexeme} : x.token = .identifier → VarList [x] [x.identifier]
  | comma {ls : List Lexeme} {vars : List (List Char)} {c x : Lexeme} : VarList ls vars → c.token = .comma →
    x.token = .identifier → VarList (ls ++ [c, x]) (vars ++ [x.identifier])

/-- `access ::= identifier '(' varlist ')' | identifier '_' '{' varlist '}' | identifier '_' var | identifier` -/
inductive Accesses : List Lexeme → Access → Prop where
  | parens {x l r : Lexeme} {ls : List Lexeme} {vars : List (List Char)} : x.token = .identifier → l.token = .lparen →
    VarList ls vars → r.token = .rparen → Accesses (x :: l :: (ls ++ [r])) ⟨x.identifier, vars⟩
  | braces {x u l r : Lexeme} {ls : List Lexeme} {vars : List (List Char)} : x.token = .identifier →
    u.token = .underscore → l.token = .lcurly → VarList ls vars → r.token = .rcurly →
    Accesses (x :: u :: l :: (ls ++ [r])) ⟨x.identifier, vars⟩
  | var {x u v : Lexeme} : x.token = .identifier → u.token = .underscore → v.token = .identifier →
    Accesses [x, u, v] ⟨x.identifier, [v.identifier]⟩
  | name {x : Lexeme} : x.token = .identifier → Accesses [x] ⟨x.identifier, []⟩

inductive Symbol where
  | expr
  | term
  | factor
  | final

/-- What lexemes of each kind stand for:
    `expr ::= term {('+' | '-') term}`, `term ::= factor {('*' | '/') factor}`, with the operators to the left first,
    `factor ::= final | '(' expr ')' | '-' factor`, `final ::= access | scalar`. -/
inductive Derives : Symbol → List Lexeme → IndexExpr → Prop where
  | term {ls : List Lexeme} {e : IndexExpr} : Derives .term ls e → Derives .expr ls e
  | add {ls ls' : List Lexeme} {a b : IndexExpr} {x : Lexeme} : Derives .expr ls a → x.token = .add →
    Derives .term ls' b → Derives .expr (ls ++ x :: ls') (a.add b)
  | sub {ls ls' : List Lexeme} {a b : IndexExpr} {x : Lexeme} : Derives .expr ls a → x.token = .sub →
    Derives .term ls' b → Derives .expr (ls ++ x :: ls') (a.sub b)
  | factor {ls : List Lexeme} {e : IndexExpr} : Derives .factor ls e → Derives .term ls e
  | mul {ls ls' : List Lexeme} {a b : IndexExpr} {x : Lexeme} : Derives .term ls a → x.token = .mul →
    Derives .factor ls' b → Derives .term (ls ++ x :: ls') (a.mul b)
  | div {ls ls' : List Lexeme} {a b : IndexExpr} {x : Lexeme} : Derives .term ls a → x.token = .div →
    Derives .factor ls' b → Derives .term (ls ++ x :: ls') (a.div b)
  | final {ls : List Lexeme} {e : IndexExpr} : Derives .final ls e → Derives .factor ls e
  | parens {ls : List Lexeme} {e : IndexExpr} {l r : Lexeme} : l.token = .lparen → Derives .expr ls e →
    r.token = .rparen → Derives .factor (l :: (ls ++ [r])) e
  | neg {ls : List Lexeme} {e : IndexExpr} {x : Lexeme} : x.token = .sub → Derives .factor ls e →
    Derives .factor (x :: ls) e.neg
  | access {ls : List Lexeme} {a : Access} : Accesses ls a → Derives .final ls (.access a)
  | scalar {x : Lexeme} : isScalar x.token = true → Derives .final [x] (.literal (scalar x.token x.identifier))

/-- `assign ::= access '=' expr | access '+=' expr` -/
inductive Assigns : List Lexeme → Assignment → Prop where
  | assign {ls ls' : List Lexeme} {a : Access} {x : Lexeme} {e : IndexExpr} : Accesses ls a → x.token = .eq →
    Derives .expr ls' e → Assigns (ls ++ x :: ls') ⟨a, false, e⟩
  | accumulate {ls ls' : List Lexeme} {a : Access} {x y : Lexeme} {e : IndexExpr} : Accesses ls a → x.token = .add →
    y.token = .eq → Derives .expr ls' e → Assigns (ls ++ x :: y :: ls') ⟨a, true, e⟩

/-- The lexemes at the beginning of a text, and what follows them. -/
inductive Lexemes : List Char → List Lexeme → List Char → Prop where
  | nil {text : List Char} : Lexemes text [] text
  | cons {text rest rest' : List Char} {x : Lexeme} {ls : List Lexeme} : Lexes text x rest → Lexemes rest ls rest' →
    Lexemes text (x :: ls) rest'

/-- All tokens of a text, up to its end, are an assignment. -/
def Whole (text : List Char) (a : Assignment) : Prop :=
  ∃ ls rest, Lexemes text ls rest ∧ Assigns ls a ∧ ∀ c ∈ rest, isspace c = true

/-- The last of the lexemes is an access without variables. -/
def isOpen : List Lexeme → Bool
  | [] => false
  | [x] => x.token = .identifier
  | [x, y] => x.token ≠ .underscore && y.token = .identifier
  | _ :: y :: z :: ls => isOpen (y :: z :: ls)

/-- A token goes on with the assignment that the lexemes before it are. -/
def Continues (ls : List Lexeme) (token : Token) : Prop :=
  token = .add ∨ token = .sub ∨ token = .mul ∨ token = .div ∨
    (token = .underscore ∨ token = .lparen) ∧ isOpen ls = true

/-- The lexer finds a token behind an assignment that does not go on with it, possibly the last. The end of the text is
    found only if it is known. -/
inductive Followed (ends : Prop) (ls : List Lexeme) : List Char → Prop where
  | lexeme {text rest : List Char} {x : Lexeme} : Lexes text x rest → (rest = [] → ends) → ¬ Continues ls x.token →
    Followed ends ls text
  | mark {blanks rest : List Char} : (∀ c ∈ blanks, isspace c = true) → (rest = [] → ends) →
    Followed ends ls (blanks ++ '\xff' :: rest)
  | finish {blanks : List Char} : (∀ c ∈ blanks, isspace c = true) → ends → Followed ends ls blanks

end Parser
end Taco
