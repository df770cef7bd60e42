import Mathlib.Tactic.Ring
import Taco.Parser.ParserExact
import Taco.Parser.Printer

/-! Readable expressions are read back as they are grouped. -/

namespace Taco
namespace Parser

open IR

/-! ### Regrouping -/

theorem Regroups.eval_eq {K : Type} [Field K] {val : Access → K} {word : List Char → K} {a b : IndexExpr}
    (h : Regroups a b) : a.eval val word = b.eval val word := by
  induction h with
  | refl _ => rfl
  | symm _ ih => exact ih.symm
  | trans _ _ ihab ihbc => exact ihab.trans ihbc
  | neg _ ih => rw [IndexExpr.eval, IndexExpr.eval, ih]
  | add _ _ iha ihb | sub _ _ iha ihb | mul _ _ iha ihb | div _ _ iha ihb =>
    rw [IndexExpr.eval, IndexExpr.eval, iha, ihb]
  | add_add a b c => simp only [IndexExpr.eval, add_assoc]
  | add_sub a b c => simp only [IndexExpr.eval, add_sub_assoc]
  | mul_mul a b c => simp only [IndexExpr.eval, mul_assoc]
  | mul_div a b c => simp only [IndexExpr.eval, mul_div_assoc]

/-- A sum is added term by term. -/
theorem Derives.add_expr {ls ls' : List Lexeme} {a b : IndexExpr} {x : Lexeme} (ha : Derives .expr ls a)
    (hx : x.token = .add) (hb : Derives .expr ls' b) :
    ∃ t, Derives .expr (ls ++ x :: ls') t ∧ Regroups (a.add b) t := by
  generalize hs : Symbol.expr = s at hb
  induction hb with
  | term hb _ => exact ⟨_, .add ha hx hb, .refl _⟩
  | @add l l' c d y _ hy hd ih =>
    obtain ⟨t, ht, hr⟩ := ih rfl
    refine ⟨t.add d, ?_, ((Regroups.add_add a c d).trans (hr.add (.refl d)))⟩
    rw [← List.cons_append, ← List.append_assoc]
    exact .add ht hy hd
  | @sub l l' c d y _ hy hd ih =>
    obtain ⟨t, ht, hr⟩ := ih rfl
    refine ⟨t.sub d, ?_, ((Regroups.add_sub a c d).trans (hr.sub (.refl d)))⟩
    rw [← List.cons_append, ← List.append_assoc]
    exact .sub ht hy hd
  | _ => cases hs

/-- A product is multiplied factor by factor. -/
theorem Derives.mul_term {ls ls' : List Lexeme} {a b : IndexExpr} {x : Lexeme} (ha : Derives .term ls a)
    (hx : x.token = .mul) (hb : Derives .term ls' b) :
    ∃ t, Derives .term (ls ++ x :: ls') t ∧ Regroups (a.mul b) t := by
  generalize hs : Symbol.term = s at hb
  induction hb with
  | factor hb _ => exact ⟨_, .mul ha hx hb, .refl _⟩
  | @mul l l' c d y _ hy hd ih =>
    obtain ⟨t, ht, hr⟩ := ih rfl
    refine ⟨t.mul d, ?_, ((Regroups.mul_mul a c d).trans (hr.mul (.refl d)))⟩
    rw [← List.cons_append, ← List.append_assoc]
    exact .mul ht hy hd
  | @div l l' c d y _ hy hd ih =>
    obtain ⟨t, ht, hr⟩ := ih rfl
    refine ⟨t.div d, ?_, ((Regroups.mul_div a c d).trans (hr.div (.refl d)))⟩
    rw [← List.cons_append, ← List.append_assoc]
    exact .div ht hy hd
  | _ => cases hs

/-! ### Lexemes of a printed text -/

theorem Lexemes.append {s s' s'' : List Char} {ls ls' : List Lexeme} (h : Lexemes s ls s') (h' : Lexemes s' ls' s'') :
    Lexemes s (ls ++ ls') s'' := by
  induction h with
  | nil => exact h'
  | cons hx _ ih => exact .cons hx (ih h')

theorem Lexemes.blank {s s' : List Char} {ls : List Lexeme} (h : Lexemes s ls s') (hne : ls ≠ []) :
    Lexemes (' ' :: s) ls s' := by
  cases h with
  | nil => exact absurd rfl hne
  | cons hx h => exact .cons (.blank rfl hx) h

theorem lexes_identifier {w rest : List Char} (hw : isIdentifier w = true) (hword : isComplex w = false)
    (hrest : Stops isalnum rest) : Lexes (w ++ rest) ⟨.identifier, w⟩ rest := by
  cases w with
  | nil => cases hw
  | cons c w =>
    simp only [isIdentifier, Bool.and_eq_true, List.all_eq_true] at hw
    exact .identifier hw.1 hw.2 hrest hword

theorem isIdentifier_alnum {w : List Char} (h : isIdentifier w = true) : w ≠ [] ∧ ∀ c ∈ w, isalnum c = true := by
  cases w with
  | nil => cases h
  | cons c w =>
    simp only [isIdentifier, Bool.and_eq_true, List.all_eq_true] at h
    refine ⟨by simp, fun d hd => ?_⟩
    rcases List.mem_cons.mp hd with rfl | hd
    · exact isalnum_alpha h.1
    · exact h.2 d hd

/-- A text ends, or goes on with a blank or a closing parenthesis. -/
def Boundary (rest : List Char) : Prop := ∀ c ∈ rest.head?, c = ' ' ∨ c = ')'

theorem Boundary.stops {p : Char → Bool} {rest : List Char} (h : Boundary rest) (hblank : p ' ' = false)
    (hparen : p ')' = false) : Stops p rest := by
  intro c hc
  rcases h c hc with rfl | rfl
  · exact hblank
  · exact hparen

theorem boundary_blank {rest : List Char} : Boundary (' ' :: rest) := fun c hc => by
  cases hc
  exact .inl rfl

theorem boundary_paren {rest : List Char} : Boundary (')' :: rest) := fun c hc => by
  cases hc
  exact .inr rfl

/-- A text is read as lexemes, in front of a boundary. -/
def Printed (text : List Char) (ls : List Lexeme) : Prop := ∀ rest, Boundary rest → Lexemes (text ++ rest) ls rest

theorem Printed.parens {text : List Char} {ls : List Lexeme} (h : Printed text ls) :
    Printed ('(' :: (text ++ [')'])) (⟨.lparen, []⟩ :: (ls ++ [⟨.rparen, []⟩])) := by
  intro rest _
  rw [List.cons_append, List.append_assoc]
  exact .cons (.symbol rfl rfl (by decide)) ((h _ boundary_paren).append (.cons (.symbol rfl rfl (by decide)) .nil))

theorem Printed.neg {text : List Char} {ls : List Lexeme} (h : Printed text ls) :
    Printed ('-' :: text) (⟨.sub, []⟩ :: ls) := fun rest hrest =>
  .cons (.symbol rfl rfl (by decide)) (h rest hrest)

theorem Printed.binary {text text' : List Char} {ls ls' : List Lexeme} {c : Char} (h : Printed text ls)
    (h' : Printed text' ls') (hne : ls' ≠ []) (hc : isspace c = false) (hc' : isalnum c = false) (hc'' : c ≠ '\xff') :
    Printed (text ++ [' ', c, ' '] ++ text') (ls ++ ⟨symbol (some c), []⟩ :: ls') := by
  intro rest hrest
  have hrest' := (h' rest hrest).blank hne
  have := (h (' ' :: c :: ' ' :: (text' ++ rest)) boundary_blank).append
    (.cons (.blank rfl (.symbol hc hc' hc'')) hrest')
  simpa using this

/-! ### Leaves -/

theorem printed_vars {vars : List (List Char)} {rest : List Char}
    (h : ∀ var ∈ vars, isIdentifier var = true ∧ isComplex var = false) :
    Stops isalnum (vars.flatMap (fun var => ',' :: var) ++ ')' :: rest) ∧
    Lexemes (vars.flatMap (fun var => ',' :: var) ++ ')' :: rest)
      (vars.flatMap fun var => [⟨.comma, []⟩, ⟨.identifier, var⟩]) (')' :: rest) := by
  induction vars with
  | nil => exact ⟨stops_head rfl, .nil⟩
  | cons var vars ih =>
    obtain ⟨hstops, hlexemes⟩ := ih fun v hv => h v (List.mem_cons_of_mem _ hv)
    obtain ⟨hvar, hword⟩ := h var (by simp)
    refine ⟨stops_head rfl, ?_⟩
    rw [List.flatMap_cons, List.flatMap_cons, List.cons_append, List.cons_append, List.append_assoc]
    exact .cons (.symbol rfl rfl (by decide)) (.cons (lexes_identifier hvar hword hstops) hlexemes)

theorem varList_append {ls : List Lexeme} {vars vars' : List (List Char)} (h : VarList ls vars) :
    VarList (ls ++ vars'.flatMap fun var => [⟨.comma, []⟩, ⟨.identifier, var⟩]) (vars ++ vars') := by
  induction vars' generalizing ls vars with
  | nil => simpa using h
  | cons var vars' ih =>
    have := ih (VarList.comma (c := ⟨.comma, []⟩) (x := ⟨.identifier, var⟩) h rfl rfl)
    simpa using this

theorem printed_access {a : Access} (hname : isIdentifier a.tensorName = true ∧ isComplex a.tensorName = false)
    (hvars : ∀ var ∈ a.indexVars, isIdentifier var = true ∧ isComplex var = false) :
    ∃ ls, Printed (a.tensorName ++ if a.indexVars = [] then [] else '(' :: (join a.indexVars ++ [')'])) ls ∧
      Accesses ls a := by
  obtain ⟨name, vars⟩ := a
  cases vars with
  | nil =>
    refine ⟨[⟨.identifier, name⟩], fun rest hrest => ?_, .name rfl⟩
    rw [if_pos rfl, List.append_nil]
    exact .cons (lexes_identifier hname.1 hname.2 (hrest.stops rfl rfl)) .nil
  | cons var vars =>
    have hlist : VarList (⟨.identifier, var⟩ :: vars.flatMap fun var => [⟨.comma, []⟩, ⟨.identifier, var⟩]) (var :: vars) :=
      @varList_append [_] [var] _ (.var rfl)
    refine ⟨_, fun rest _ => ?_, .parens (x := ⟨.identifier, name⟩) (l := ⟨.lparen, []⟩) (r := ⟨.rparen, []⟩) rfl rfl
      hlist rfl⟩
    obtain ⟨hstops, hlexemes⟩ := @printed_vars vars rest fun v hv => hvars v (List.mem_cons_of_mem _ hv)
    obtain ⟨hvar, hword⟩ := hvars var (by simp)
    rw [if_neg (by simp)]
    have := (Lexemes.cons (lexes_identifier hname.1 hname.2 (stops_head rfl)) (.cons (.symbol (c := '(') rfl rfl (by decide))
      (.cons (lexes_identifier hvar hword hstops) (hlexemes.append (.cons (.symbol (c := ')') rfl rfl (by decide)) .nil)))))
    simpa [join, symbol] using this

theorem number_toDigits (n : ℕ) : number (Nat.toDigits 10 n) = n := by
  have h := Nat.ofDigitChars_ten_toDigits (n := n)
  rwa [Nat.ofDigitChars_eq_foldl] at h

theorem isdigit_toDigits {n : ℕ} {c : Char} (h : c ∈ Nat.toDigits 10 n) : isdigit c = true :=
  Nat.isDigit_of_mem_toDigits (by norm_num) (by norm_num) h

theorem printed_literal {n : ℕ} (h : n ≤ int64Max) :
    Printed (Nat.toDigits 10 n) [⟨.int_scalar, Nat.toDigits 10 n⟩] ∧
    Derives .final [⟨.int_scalar, Nat.toDigits 10 n⟩] (.literal (.int n)) := by
  constructor
  · intro rest hrest
    refine .cons ?_ .nil
    have hdigits : ∀ c ∈ Nat.toDigits 10 n, isdigit c = true := fun c hc => isdigit_toDigits hc
    cases hw : Nat.toDigits 10 n with
    | nil => exact absurd hw Nat.toDigits_ne_nil
    | cons c w =>
      rw [hw] at hdigits
      exact .integer (hdigits c (by simp)) (fun d hd => hdigits d (List.mem_cons_of_mem _ hd)) (hrest.stops rfl rfl)
  · have hscalar := Derives.scalar (x := ⟨.int_scalar, Nat.toDigits 10 n⟩) rfl
    have hval : scalar .int_scalar (Nat.toDigits 10 n) = .int n := by
      show Scalar.int (min (number _) int64Max) = _
      rw [number_toDigits, Nat.min_eq_left h]
    rwa [hval] at hscalar

/-! ### Expressions -/

/-- What is printed without parentheses below an operator. -/
def level : Precedence → Symbol
  | .neg => .factor
  | .mul | .div => .term
  | .add | .sub | .top => .expr

theorem Derives.of_factor {ls : List Lexeme} {t : IndexExpr} (h : Derives .factor ls t) (p : Precedence) :
    Derives (level p) ls t := by
  cases p with
  | neg => exact h
  | mul | div => exact .factor h
  | add | sub | top => exact .term (.factor h)

/-- What is printed below an operator of a precedence is read as what can stand there. -/
def Reread (e : IndexExprNode) (p : Precedence) : Prop :=
  ∃ ls t, Printed (printNode p e) ls ∧ Derives (level p) ls t ∧ Regroups e.expr t

theorem printed_enclose {text : List Char} {ls : List Lexeme} {t : IndexExpr} (parenthesize : Bool) (p : Precedence)
    (h : Printed text ls) (ht : Derives .expr ls t) (hp : parenthesize = false → Derives (level p) ls t) :
    ∃ ls', Printed (enclose parenthesize text) ls' ∧ Derives (level p) ls' t := by
  cases parenthesize with
  | false => exact ⟨ls, h, hp rfl⟩
  | true => exact ⟨_, h.parens, (Derives.parens rfl ht rfl).of_factor p⟩

theorem reread_neg {a : IndexExprNode} (hbool : a.getDataType.isBool = false) (ha : Reread a .neg) (p : Precedence) :
    Reread a.neg p := by
  obtain ⟨ls, t, hprinted, hderives, hregroups⟩ := ha
  refine ⟨⟨.sub, []⟩ :: ls, t.neg, ?_, (Derives.neg rfl hderives).of_factor p, hregroups.neg⟩
  have hnot : (decide (Precedence.neg.value > p.value)) = false := by cases p <;> rfl
  rw [printNode, hbool, hnot]
  exact hprinted.neg

theorem reread_add {a b : IndexExprNode} (ha : Reread a .add) (hb : Reread b .add) (p : Precedence) :
    Reread (a.add b) p := by
  obtain ⟨ls, t, hprinted, hderives, hregroups⟩ := ha
  obtain ⟨ls', t', hprinted', hderives', hregroups'⟩ := hb
  obtain ⟨u, hu, hregroup⟩ := hderives.add_expr (x := ⟨.add, []⟩) rfl hderives'
  obtain ⟨ls'', h, hd⟩ := printed_enclose (Precedence.add.value > p.value) p
    (hprinted.binary (c := '+') hprinted' hderives'.ne_nil rfl rfl (by decide)) hu fun hnot => by
      cases p <;> first | exact hu | cases hnot
  exact ⟨ls'', u, h, hd, (hregroups.add hregroups').trans hregroup⟩

theorem reread_mul {a b : IndexExprNode} (ha : Reread a .mul) (hb : Reread b .mul) (p : Precedence) :
    Reread (a.mul b) p := by
  obtain ⟨ls, t, hprinted, hderives, hregroups⟩ := ha
  obtain ⟨ls', t', hprinted', hderives', hregroups'⟩ := hb
  obtain ⟨u, hu, hregroup⟩ := hderives.mul_term (x := ⟨.mul, []⟩) rfl hderives'
  obtain ⟨ls'', h, hd⟩ := printed_enclose (Precedence.mul.value > p.value) p
    (hprinted.binary (c := '*') hprinted' hderives'.ne_nil rfl rfl (by decide)) (.term hu) fun hnot => by
      cases p <;> first | exact hu | exact .term hu | cases hnot
  exact ⟨ls'', u, h, hd, (hregroups.mul hregroups').trans hregroup⟩

/-- Without an additive root an expression is printed below `-` as below `*`. -/
theorem printNode_sub {b : IndexExprNode} (hb : b.isAdditive = false) : printNode .sub b = printNode .mul b := by
  cases b with
  | add _ _ | sub _ _ => cases hb
  | _ => rfl

theorem printNode_div {b : IndexExprNode} (hb : b.isMultiplicative = false) : printNode .div b = printNode .neg b := by
  cases b with
  | mul _ _ | div _ _ => cases hb
  | _ => rfl

theorem reread_sub {a b : IndexExprNode} (ha : Reread a .sub) (hb : Reread b .mul) (hnot : b.isAdditive = false)
    (p : Precedence) : Reread (a.sub b) p := by
  obtain ⟨ls, t, hprinted, hderives, hregroups⟩ := ha
  obtain ⟨ls', t', hprinted', hderives', hregroups'⟩ := hb
  have hu : Derives .expr (ls ++ ⟨.sub, []⟩ :: ls') (t.sub t') := .sub hderives rfl hderives'
  obtain ⟨ls'', h, hd⟩ := printed_enclose (Precedence.sub.value > p.value) p
    (hprinted.binary (c := '-') hprinted' hderives'.ne_nil rfl rfl (by decide)) hu fun hnot => by
      cases p <;> first | exact hu | cases hnot
  refine ⟨ls'', _, ?_, hd, hregroups.sub hregroups'⟩
  rw [printNode, printNode_sub hnot]
  exact h

theorem reread_div {a b : IndexExprNode} (ha : Reread a .div) (hb : Reread b .neg) (hnot : b.isMultiplicative = false)
    (p : Precedence) : Reread (a.div b) p := by
  obtain ⟨ls, t, hprinted, hderives, hregroups⟩ := ha
  obtain ⟨ls', t', hprinted', hderives', hregroups'⟩ := hb
  have hu : Derives .term (ls ++ ⟨.div, []⟩ :: ls') (t.div t') := .div hderives rfl hderives'
  obtain ⟨ls'', h, hd⟩ := printed_enclose (Precedence.div.value > p.value) p
    (hprinted.binary (c := '/') hprinted' hderives'.ne_nil rfl rfl (by decide)) (.term hu) fun hnot => by
      cases p <;> first | exact hu | exact .term hu | cases hnot
  refine ⟨ls'', _, ?_, hd, hregroups.div hregroups'⟩
  rw [printNode, printNode_div hnot]
  exact h

theorem printLiteral_eq {dataType : Datatype} {val : ℕ} (h : dataType.getNumBits ≠ 8) :
    printLiteral dataType val = Nat.toDigits 10 val := by
  match dataType, h with
  | .uint .w8, h | .int .w8, h => exact absurd rfl h
  | .bool, _ | .float32, _ | .float64, _ => rfl
  | .uint .w16, _ | .uint .w32, _ | .uint .w64, _ | .uint .w128, _ => rfl
  | .int .w16, _ | .int .w32, _ | .int .w64, _ | .int .w128, _ => rfl

theorem reread {e : IndexExprNode} (hwf : e.WellFormed) (h : e.Readable) (p : Precedence) : Reread e p := by
  induction e generalizing p with
  | access a dataType =>
    obtain ⟨ls, hprinted, ha⟩ := printed_access ⟨hwf.1, h.1⟩ fun var hvar => ⟨hwf.2 var hvar, h.2 var hvar⟩
    exact ⟨ls, _, hprinted, (Derives.final (.access ha)).of_factor p, .refl _⟩
  | literal dataType val =>
    obtain ⟨hprinted, hderives⟩ := printed_literal h.2
    refine ⟨_, _, ?_, hderives.final.of_factor p, .refl _⟩
    rw [printNode, printLiteral_eq h.1]
    exact hprinted
  | neg a ih => exact reread_neg h.1 (ih hwf h.2 _) p
  | add a b iha ihb => exact reread_add (iha hwf.1 h.1 _) (ihb hwf.2 h.2 _) p
  | sub a b iha ihb => exact reread_sub (iha hwf.1 h.1 _) (ihb hwf.2 h.2.1 _) h.2.2 p
  | mul a b iha ihb => exact reread_mul (iha hwf.1 h.1 _) (ihb hwf.2 h.2 _) p
  | div a b iha ihb => exact reread_div (iha hwf.1 h.1 _) (ihb hwf.2 h.2.1 _) h.2.2 p

end Parser
end Taco
