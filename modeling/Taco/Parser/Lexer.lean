import Mathlib.Tactic

/-! The lexer of index expressions. -/

namespace Taco
namespace Parser

inductive Token where
  | identifier
  | int_scalar
  | uint_scalar
  | float_scalar
  | complex_scalar
  | comma
  | lparen
  | rparen
  | underscore
  | lcurly
  | rcurly
  | add
  | sub
  | mul
  | div
  | eq
  | eot
  | error
  deriving DecidableEq

/-! ### Characters -/

def isspace (c : Char) : Bool := c = ' ' || (9 ≤ c.toNat && c.toNat ≤ 13)

def isalpha (c : Char) : Bool := c.isAlpha

def isdigit (c : Char) : Bool := c.isDigit

def isalnum (c : Char) : Bool := c.isAlphanum

/-- The largest value of an `int`. -/
def intMax : ℕ := 2147483647

/-- What a `char` is as an `int`: it is signed, and one is `EOF`, which is `none`. -/
def promote (c : Char) : Option Char := if c = '\xff' then none else some c

/-- What an `int` is as a `char`. -/
def toChar (lastChar : Option Char) : Char := lastChar.getD '\xff'

/-! ### The lexer -/

/-- The state of a lexer; `read` is the number of the characters that were read, `lastCharPos + 1`. -/
structure Lexer where
  expr : List Char
  lastChar : Option Char
  read : ℕ
  identifier : List Char

namespace Lexer

def make (expr : List Char) : Lexer := ⟨expr, some ' ', 0, []⟩

/-- The next character; nothing where the position is no `int` or not in the text. -/
def getNextChar (l : Lexer) : Option Lexer :=
  if (l.expr.length : ℤ).bmod (2 ^ 32) = l.read then some { l with lastChar := none }
  else if intMax < l.read then none
  else l.expr[l.read]?.map fun c => { l with lastChar := promote c, read := l.read + 1 }

/-- Blanks are skipped. Loops have the number of their rounds as fuel. -/
def skipSpaces : ℕ → Lexer → Option Lexer
  | 0, _ => none
  | fuel + 1, l => if l.lastChar.any isspace then l.getNextChar.bind (skipSpaces fuel) else some l

/-- Characters of a kind are read into the identifier. -/
def appendWhile (p : Char → Bool) : ℕ → Lexer → Option Lexer
  | 0, _ => none
  | fuel + 1, l => l.getNextChar.bind fun l =>
    if l.lastChar.any p then appendWhile p fuel { l with identifier := l.identifier ++ [toChar l.lastChar] } else some l

/-- What is before a parenthesis is read into the identifier, without blanks. -/
def appendComplex : ℕ → Lexer → Option Lexer
  | 0, _ => none
  | fuel + 1, l => l.getNextChar.bind fun l =>
    if l.lastChar = some ')' then some l
    else if l.lastChar.any isspace then appendComplex fuel l
    else appendComplex fuel { l with identifier := l.identifier ++ [toChar l.lastChar] }

end Lexer

def isComplex (identifier : List Char) : Bool :=
  identifier = ['c', 'o', 'm', 'p', 'l', 'e', 'x'] || identifier = ['C', 'o', 'm', 'p', 'l', 'e', 'x']

/-- The token of a character that begins no identifier and no number. -/
def symbol : Option Char → Token
  | some ',' => .comma
  | some '(' => .lparen
  | some ')' => .rparen
  | some '_' => .underscore
  | some '{' => .lcurly
  | some '}' => .rcurly
  | some '+' => .add
  | some '-' => .sub
  | some '*' => .mul
  | some '/' => .div
  | some '=' => .eq
  | none => .eot
  | some _ => .error

namespace Lexer

def getToken (fuel : ℕ) (l : Lexer) : Option (Token × Lexer) := do
  let l ← skipSpaces fuel l
  if l.lastChar.any isalpha then
    let l ← appendWhile isalnum fuel { l with identifier := [toChar l.lastChar] }
    if isComplex l.identifier then
      let l ← appendComplex fuel { l with identifier := [toChar l.lastChar] }
      let l ← getNextChar { l with identifier := l.identifier ++ [')'] }
      some (.complex_scalar, l)
    else some (.identifier, l)
  else if l.lastChar.any isdigit then
    let l ← appendWhile isdigit fuel { l with identifier := [toChar l.lastChar] }
    if l.lastChar = some '.' then
      let l ← appendWhile isdigit fuel { l with identifier := l.identifier ++ [toChar l.lastChar] }
      some (.float_scalar, l)
    else if l.lastChar = some 'u' then
      let l ← l.getNextChar
      some (.uint_scalar, l)
    else some (.int_scalar, l)
  else
    let token := symbol l.lastChar
    let l ← l.getNextChar
    some (token, l)

/-- Repeated calls of `getToken` up to the end of the tokens. -/
def getTokens : ℕ → Lexer → Option (List Token)
  | 0, _ => none
  | fuel + 1, l => (getToken fuel l).bind fun (token, l) =>
    if token = .eot then some [token] else (getTokens fuel l).map (token :: ·)

end Lexer

/-! ### Lexemes -/

/-- A token, and the identifier that was read with it. -/
structure Lexeme where
  token : Token
  identifier : List Char
  deriving DecidableEq

/-- The text does not go on with a character of a kind. -/
def Stops (p : Char → Bool) (text : List Char) : Prop := ∀ c ∈ text.head?, p c = false

/-- A text begins with a lexeme, behind blanks, and a text follows that. -/
inductive Lexes : List Char → Lexeme → List Char → Prop where
  | blank {c : Char} {text : List Char} {x : Lexeme} {rest : List Char} :
    isspace c = true → Lexes text x rest → Lexes (c :: text) x rest
  | identifier {c : Char} {w rest : List Char} : isalpha c = true → (∀ d ∈ w, isalnum d = true) → Stops isalnum rest →
    isComplex (c :: w) = false → Lexes (c :: w ++ rest) ⟨.identifier, c :: w⟩ rest
  | complex {w : List Char} {c : Char} {body rest : List Char} : isComplex w = true → isalnum c = false → ')' ∉ body →
    Lexes (w ++ c :: body ++ ')' :: rest) ⟨.complex_scalar, c :: body.filter (!isspace ·) ++ [')']⟩ rest
  | integer {c : Char} {d rest : List Char} : isdigit c = true → (∀ e ∈ d, isdigit e = true) →
    Stops (fun e => isdigit e || e = '.' || e = 'u') rest → Lexes (c :: d ++ rest) ⟨.int_scalar, c :: d⟩ rest
  | unsigned {c : Char} {d rest : List Char} : isdigit c = true → (∀ e ∈ d, isdigit e = true) →
    Lexes (c :: d ++ 'u' :: rest) ⟨.uint_scalar, c :: d⟩ rest
  | float {c : Char} {d f rest : List Char} : isdigit c = true → (∀ e ∈ d, isdigit e = true) →
    (∀ e ∈ f, isdigit e = true) → Stops isdigit rest →
    Lexes (c :: d ++ '.' :: f ++ rest) ⟨.float_scalar, c :: d ++ '.' :: f⟩ rest
  | symbol {c : Char} {rest : List Char} : isspace c = false → isalnum c = false → c ≠ '\xff' →
    Lexes (c :: rest) ⟨symbol (some c), []⟩ rest

/-- What is left of a text behind some of its lexemes. -/
inductive Reaches : List Char → List Char → Prop where
  | refl {text : List Char} : Reaches text text
  | lexeme {text rest rest' : List Char} {x : Lexeme} : Lexes text x rest → Reaches rest rest' → Reaches text rest'

/-- A text begins, behind blanks, with a complex literal that is not closed: one more character follows the word, and no
    parenthesis follows that. -/
def Unclosed (text : List Char) : Prop :=
  ∃ blanks w rest, (∀ c ∈ blanks, isspace c = true) ∧ isComplex w = true ∧ Stops isalnum rest ∧ ')' ∉ rest.tail ∧
    text = blanks ++ (w ++ rest)

/-- A text begins, behind blanks, with the character that is `EOF`, and more follows. -/
def Marked (text : List Char) : Prop :=
  ∃ blanks rest, (∀ c ∈ blanks, isspace c = true) ∧ rest ≠ [] ∧ text = blanks ++ '\xff' :: rest

/-! ### What the lexer sees -/

/-- The number of the characters of a text as an `int`. -/
def size (text : List Char) : ℤ := (text.length : ℤ).bmod (2 ^ 32)

/-- What of a text is before its size, or has positions that are no more than an `int` if it has no size. -/
def seen (text : List Char) : List Char :=
  if 0 ≤ size text then text.take (size text).toNat else text.take (intMax + 1)

end Parser
end Taco
