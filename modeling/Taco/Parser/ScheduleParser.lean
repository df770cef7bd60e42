import Taco.Parser.Printer

/-! The parser of schedule directives, and the texts of directives. -/

namespace Taco
namespace Parser

/-! ### The parser -/

structure Schedule where
  parenthesesCnt : ℤ
  curlyParenthesesCnt : ℤ
  parsed : List (List (List Char))
  currentSchedule : List (List Char)
  currentElement : List Char

namespace Schedule

def init : Schedule := ⟨0, 0, [], [], []⟩

/-- What is passed through to the element. -/
def append (st : Schedule) (text : List Char) : Schedule := { st with currentElement := st.currentElement ++ text }

/-- The element is complete. -/
def pushElement (st : Schedule) : Schedule :=
  { st with currentSchedule := st.currentSchedule ++ [st.currentElement], currentElement := [] }

/-- The directive is complete. -/
def pushSchedule (st : Schedule) : Schedule :=
  { st with parsed := st.parsed ++ [st.currentSchedule], currentSchedule := [] }

end Schedule

def tokenText (token : Token) : List Char := ((tokenString token).getD "").toList

def scheduleStep (argValue : List Char) (st : Schedule) (token : Token) (identifier : List Char) : Except Failure Schedule :=
  match token with
  | .lparen =>
    let st := if st.parenthesesCnt = 0 then st.pushElement else st.append (tokenText token)
    .ok { st with parenthesesCnt := st.parenthesesCnt + 1 }
  | .rparen =>
    if st.parenthesesCnt > 0 then
      let st := if st.parenthesesCnt > 1 then st.append (tokenText token) else st
      .ok { st with parenthesesCnt := st.parenthesesCnt - 1 }
    else .error (.userError ("mismatched parentheses(too many right-parens, negative nesting level) in schedule expression '"
      ++ String.ofList argValue ++ "'"))
  | .comma =>
    if st.curlyParenthesesCnt > 0 then .ok (st.append (tokenText token))
    else if st.parenthesesCnt = 0 then .ok st.pushElement.pushSchedule
    else if st.parenthesesCnt = 1 then .ok st.pushElement
    else .ok (st.append (tokenText token))
  | .lcurly =>
    let st := st.append (tokenText token)
    .ok { st with curlyParenthesesCnt := st.curlyParenthesesCnt + 1 }
  | .rcurly =>
    if st.curlyParenthesesCnt > 0 then
      let st := st.append (tokenText token)
      .ok { st with curlyParenthesesCnt := st.curlyParenthesesCnt - 1 }
    else .error (.userError ("mismatched curly parentheses (too many right-curly-parens, negative nesting level)"
      ++ " in schedule expression '" ++ String.ofList argValue ++ "'"))
  | .identifier | .int_scalar | .uint_scalar | .float_scalar | .complex_scalar => .ok (st.append identifier)
  | _ => .ok (st.append (tokenText token))

def scheduleLoop (argValue : List Char) : ℕ → Schedule → Lexer → Run Schedule
  | 0, _, _ => ExceptT.mk none
  | fuel + 1, st, lexer => do
    let (tok, lexer) ← ExceptT.mk ((lexer.getToken fuel).map .ok)
    if tok = .eot then pure st
    else
      let st ← ExceptT.mk (some (scheduleStep argValue st tok lexer.identifier))
      scheduleLoop argValue fuel st lexer

/-- What is done behind the last token. -/
def scheduleEnd (argValue : List Char) (st : Schedule) : Except Failure (List (List (List Char))) :=
  if st.parenthesesCnt = 0 then
    let st := if st.currentElement.length > 0 then st.pushElement else st
    let st := if st.currentSchedule.length > 0 then st.pushSchedule else st
    .ok st.parsed
  else .error (.userError ("imbalanced parentheses (too few right-parens) in schedule expression '" ++
    String.ofList argValue ++ "'"))

def scheduleParser (fuel : ℕ) (argValue : List Char) : Run (List (List (List Char))) := do
  let st ← scheduleLoop argValue fuel .init (Lexer.make argValue)
  ExceptT.mk (some (scheduleEnd argValue st))

/-! ### Printed directives -/

/-- What arguments are made of. -/
inductive Piece where
  | identifier (w : List Char)
  | integer (d : List Char)
  | unsigned (d : List Char)
  | float (d f : List Char)
  | symbol (c : Char)
  deriving DecidableEq

def Piece.text : Piece → List Char
  | identifier w => w
  | integer d => d
  | unsigned d => d ++ ['u']
  | float d f => d ++ '.' :: f
  | symbol c => [c]

def isOperator (c : Char) : Bool := c = '+' || c = '-' || c = '*' || c = '/' || c = '=' || c = '_'

/-- A piece is not merged with the text behind it. -/
def Piece.Separated (rest : List Char) : Piece → Prop
  | identifier _ => Stops isalnum rest
  | integer _ => Stops (fun c => isdigit c || c = '.' || c = 'u') rest
  | float _ _ => Stops isdigit rest
  | unsigned _ | symbol _ => True

/-- Identifiers, numbers and operators. -/
def Piece.IsPlainPiece : Piece → Prop
  | identifier w => isIdentifier w = true
  | integer d | unsigned d => d ≠ [] ∧ ∀ c ∈ d, isdigit c = true
  | float d f => d ≠ [] ∧ (∀ c ∈ d, isdigit c = true) ∧ ∀ c ∈ f, isdigit c = true
  | symbol c => isOperator c = true

/-- Pieces with balanced parentheses and curly braces; commas stand only between these, or where they are let in. -/
inductive Nested : Bool → List Piece → Prop where
  | nil {commas : Bool} : Nested commas []
  | piece {commas : Bool} {p : Piece} {ps : List Piece} : p.IsPlainPiece → Nested commas ps → Nested commas (p :: ps)
  | comma {ps : List Piece} : Nested true ps → Nested true (.symbol ',' :: ps)
  | parens {commas : Bool} {ps ps' : List Piece} : Nested true ps → Nested commas ps' →
    Nested commas (.symbol '(' :: (ps ++ .symbol ')' :: ps'))
  | curly {commas : Bool} {ps ps' : List Piece} : Nested true ps → Nested commas ps' →
    Nested commas (.symbol '\x7b' :: (ps ++ .symbol '\x7d' :: ps'))

structure Directive where
  name : List Char
  args : List (List Piece)

/-- A name, and arguments that are not empty. -/
structure Directive.WellFormed (d : Directive) : Prop where
  name : isIdentifier d.name = true
  args_ne : d.args ≠ []
  args : ∀ arg ∈ d.args, arg ≠ [] ∧ Nested false arg

/-- Lists of pieces, with commas between them. -/
def commaSeparated : List (List Piece) → List Piece
  | [] => []
  | ps :: pss => ps ++ pss.flatMap fun ps => .symbol ',' :: ps

def Directive.pieces (d : Directive) : List Piece :=
  .identifier d.name :: .symbol '(' :: (commaSeparated d.args ++ [.symbol ')'])

def schedulePieces (ds : List Directive) : List Piece := commaSeparated (ds.map Directive.pieces)

/-- A text has pieces, with arbitrary blanks between them. -/
inductive Renders : List Piece → List Char → Prop where
  | nil {blanks : List Char} : (∀ c ∈ blanks, isspace c = true) → Renders [] blanks
  | cons {blanks rest : List Char} {p : Piece} {ps : List Piece} : (∀ c ∈ blanks, isspace c = true) → p.Separated rest →
    Renders ps rest → Renders (p :: ps) (blanks ++ (p.text ++ rest))

/-- The text of a list of pieces, without blanks. -/
def textOf (ps : List Piece) : List Char := ps.flatMap Piece.text

/-- The name of a directive, and its arguments without blanks. -/
def Directive.strings (d : Directive) : List (List Char) := d.name :: d.args.map textOf

/-- No identifier is the word of complex literals, and no number is unsigned. -/
def Piece.Kept : Piece → Prop
  | identifier w => isComplex w = false
  | unsigned _ => False
  | _ => True

/-! ### Balance -/

/-- How many more of one character there are than of another. -/
def excess (l r : Char) (text : List Char) : ℤ := (text.count l : ℤ) - text.count r

/-- No more are closed than were opened, and all that were opened are closed. -/
def BalancedIn (l r : Char) (text : List Char) : Prop :=
  (∀ before, before <+: text → 0 ≤ excess l r before) ∧ excess l r text = 0

def Balanced (text : List Char) : Prop := BalancedIn '(' ')' text ∧ BalancedIn '\x7b' '\x7d' text

/-- How many more tokens of one kind there are than of another. -/
def excessOf (l r : Token) (ls : List Lexeme) : ℤ := ((ls.map Lexeme.token).count l : ℤ) - (ls.map Lexeme.token).count r

/-- Lexemes that the lexer comes to read at the beginning of a text, and what follows them. -/
def Lexed (text : List Char) (ls : List Lexeme) (rest : List Char) : Prop :=
  Lexemes (seen text) ls rest ∧ (rest = [] → 0 ≤ size text)

/-- The lexer finds the end of the text, or a mark. -/
def Ended (text rest : List Char) : Prop :=
  (∀ c ∈ rest, isspace c = true) ∧ 0 ≤ size text ∨
  ∃ blanks more, (∀ c ∈ blanks, isspace c = true) ∧ rest = blanks ++ '\xff' :: more ∧ (more = [] → 0 ≤ size text)

/-- Among the tokens of a text, in which complex literals hide their parentheses, more are closed than were opened, or
    they end and parentheses are left open. -/
def Mismatched (text : List Char) : Prop :=
  ∃ ls rest, Lexed text ls rest ∧ (excessOf .lparen .rparen ls < 0 ∨ excessOf .lcurly .rcurly ls < 0 ∨
    Ended text rest ∧ 0 < excessOf .lparen .rparen ls)

end Parser
end Taco
