import Taco.Parser.PrinterRead

/-! Expressions that are not readable are not read back: their text has too few characters for what they group. -/

namespace Taco
namespace Parser

open IR

/-! ### Weights -/

/-- What a character adds to the weight of a text. -/
def weight (c : Char) : ℕ :=
  if isalnum c || c = '_' then 2
  else if c = '(' || c = ')' || c = ',' || c = '+' || c = '-' || c = '*' || c = '/' then 1 else 0

def weigh (text : List Char) : ℕ := (text.map weight).sum

/-- The least weight of a text in which a lexeme is read. -/
def Lexeme.weigh (x : Lexeme) : ℕ :=
  match x.token with
  | .identifier | .int_scalar => 2 * x.identifier.length
  | .underscore => 2
  | .lparen | .rparen | .comma | .add | .sub | .mul | .div => 1
  | _ => 0

def weighs (ls : List Lexeme) : ℕ := (ls.map Lexeme.weigh).sum

@[simp] theorem weigh_nil : weigh [] = 0 := rfl

@[simp] theorem weigh_cons (c : Char) (text : List Char) : weigh (c :: text) = weight c + weigh text := by simp [weigh]

@[simp] theorem weigh_append (s t : List Char) : weigh (s ++ t) = weigh s + weigh t := by simp [weigh]

@[simp] theorem weighs_nil : weighs [] = 0 := rfl

@[simp] theorem weighs_cons (x : Lexeme) (ls : List Lexeme) : weighs (x :: ls) = x.weigh + weighs ls := by simp [weighs]

@[simp] theorem weighs_append (ls ls' : List Lexeme) : weighs (ls ++ ls') = weighs ls + weighs ls' := by simp [weighs]

theorem weight_le (c : Char) : weight c ≤ 2 := by
  unfold weight
  split_ifs <;> omega

theorem weight_alnum {c : Char} (h : isalnum c = true) : weight c = 2 := by simp [weight, h]

theorem weigh_le (text : List Char) : weigh text ≤ 2 * text.length := by
  induction text with
  | nil => simp
  | cons c text ih =>
    have := weight_le c
    simp only [weigh_cons, List.length_cons]
    omega

theorem weigh_alnum {w : List Char} (h : ∀ c ∈ w, isalnum c = true) : weigh w = 2 * w.length := by
  induction w with
  | nil => rfl
  | cons c w ih =>
    rw [weigh_cons, weight_alnum (h c (by simp)), ih fun d hd => h d (List.mem_cons_of_mem _ hd), List.length_cons]
    omega

theorem symbol_weigh {c : Char} : Lexeme.weigh ⟨symbol (some c), []⟩ ≤ weight c := by
  unfold symbol
  split
  all_goals first | (rename_i h; cases h; simp [Lexeme.weigh]; try decide) | simp [Lexeme.weigh]

theorem Lexes.weigh_le {s rest : List Char} {x : Lexeme} (h : Lexes s x rest) : x.weigh + weigh rest ≤ weigh s := by
  induction h with
  | blank _ _ ih =>
    rw [weigh_cons]
    omega
  | @identifier c w rest hc hw _ _ =>
    have hword := weigh_alnum (w := c :: w) fun d hd => by
      rcases List.mem_cons.mp hd with rfl | hd
      · exact isalnum_alpha hc
      · exact hw d hd
    rw [weigh_append, hword]
    rfl
  | complex _ _ _ => simp [Lexeme.weigh]; omega
  | @integer c d rest hc hd _ =>
    have hword := weigh_alnum (w := c :: d) fun e he => by
      rcases List.mem_cons.mp he with rfl | he
      · exact isalnum_digit hc
      · exact isalnum_digit (hd e he)
    rw [weigh_append, hword]
    rfl
  | unsigned _ _ => simp [Lexeme.weigh]; omega
  | float _ _ _ _ => simp [Lexeme.weigh]; omega
  | symbol _ _ _ =>
    rw [weigh_cons]
    exact Nat.add_le_add_right symbol_weigh _

theorem Lexemes.weighs_le {s rest : List Char} {ls : List Lexeme} (h : Lexemes s ls rest) :
    weighs ls + weigh rest ≤ weigh s := by
  induction h with
  | nil => simp
  | cons hx _ ih =>
    have := hx.weigh_le
    rw [weighs_cons]
    omega

/-! ### What an expression needs -/

namespace IndexExpr

def isAdditive : IndexExpr → Bool
  | add _ _ | sub _ _ => true
  | _ => false

def isMultiplicative : IndexExpr → Bool
  | mul _ _ | div _ _ => true
  | _ => false

/-- The weight of parentheses where a sum may not stand. -/
def parens (e : IndexExpr) : ℕ := if e.isAdditive then 2 else 0

/-- The weight of parentheses where only a factor may stand. -/
def factorParens (e : IndexExpr) : ℕ := if e.isAdditive || e.isMultiplicative then 2 else 0

/-- The least weight of a text for an expression. -/
def need : IndexExpr → ℕ
  | access a => 2 * a.tensorName.length +
    if a.indexVars = [] then 0 else 1 + (a.indexVars.map fun var => 2 * var.length + 1).sum
  | literal (.int n) => 2 * (Nat.toDigits 10 n).length
  | literal _ => 0
  | neg a => 1 + (a.need + a.factorParens)
  | add a b => a.need + 1 + b.need
  | sub a b => a.need + 1 + (b.need + b.parens)
  | mul a b => a.need + a.parens + 1 + (b.need + b.parens)
  | div a b => a.need + a.parens + 1 + (b.need + b.factorParens)

end IndexExpr

theorem Regroups.isAdditive_eq {a b : IndexExpr} (h : Regroups a b) :
    a.isAdditive = b.isAdditive ∧ a.isMultiplicative = b.isMultiplicative := by
  induction h with
  | symm _ ih => exact ⟨ih.1.symm, ih.2.symm⟩
  | trans _ _ ih ih' => exact ⟨ih.1.trans ih'.1, ih.2.trans ih'.2⟩
  | _ => exact ⟨rfl, rfl⟩

theorem Regroups.parens_eq {a b : IndexExpr} (h : Regroups a b) :
    a.parens = b.parens ∧ a.factorParens = b.factorParens := by
  obtain ⟨hadd, hmul⟩ := h.isAdditive_eq
  unfold IndexExpr.parens IndexExpr.factorParens
  rw [hadd, hmul]
  exact ⟨rfl, rfl⟩

theorem Regroups.need_eq {a b : IndexExpr} (h : Regroups a b) : a.need = b.need := by
  induction h with
  | refl _ => rfl
  | symm _ ih => exact ih.symm
  | trans _ _ ih ih' => exact ih.trans ih'
  | neg ha ih => rw [IndexExpr.need, IndexExpr.need, ih, ha.parens_eq.2]
  | add _ _ iha ihb => rw [IndexExpr.need, IndexExpr.need, iha, ihb]
  | sub _ hb iha ihb => rw [IndexExpr.need, IndexExpr.need, iha, ihb, hb.parens_eq.1]
  | mul ha hb iha ihb => rw [IndexExpr.need, IndexExpr.need, iha, ihb, ha.parens_eq.1, hb.parens_eq.1]
  | div ha hb iha ihb => rw [IndexExpr.need, IndexExpr.need, iha, ihb, ha.parens_eq.1, hb.parens_eq.2]
  | add_add a b c | add_sub a b c =>
    simp only [IndexExpr.need]
    omega
  | mul_mul a b c | mul_div a b c =>
    simp only [IndexExpr.need, IndexExpr.parens, IndexExpr.isAdditive, Bool.false_eq_true, if_false]
    omega

theorem VarList.weighs_eq {ls : List Lexeme} {vars : List (List Char)} (h : VarList ls vars) :
    weighs ls + 1 = (vars.map fun var => 2 * var.length + 1).sum := by
  induction h with
  | var hx => simp [Lexeme.weigh, hx]
  | comma _ hc hx ih =>
    simp only [weighs_append, weighs_cons, weighs_nil, Lexeme.weigh, hc, hx, List.map_append, List.sum_append,
      List.map_cons, List.map_nil, List.sum_cons, List.sum_nil]
    omega

theorem Accesses.need_le {ls : List Lexeme} {a : Access} (h : Accesses ls a) : (IndexExpr.access a).need ≤ weighs ls := by
  cases h with
  | @parens x l r ls vars hx hl hvars hr =>
    have := hvars.weighs_eq
    simp only [IndexExpr.need, weighs_cons, weighs_append, weighs_nil, Lexeme.weigh, hx, hl, hr]
    split_ifs <;> omega
  | @braces x u l r ls vars hx hu hl hvars hr =>
    have := hvars.weighs_eq
    simp only [IndexExpr.need, weighs_cons, weighs_append, weighs_nil, Lexeme.weigh, hx, hu, hl, hr]
    split_ifs <;> omega
  | var hx hu hv =>
    simp [IndexExpr.need, Lexeme.weigh, hx, hu, hv]
    omega
  | name hx => simp [IndexExpr.need, Lexeme.weigh, hx]

theorem number_lt (word : List Char) : number word < 10 ^ word.length ∨ ¬ ∀ c ∈ word, isdigit c = true := by
  by_cases h : ∀ c ∈ word, isdigit c = true
  · left
    unfold number
    have hfold : ∀ (l : List Char) (n : ℕ), (∀ c ∈ l, isdigit c = true) →
        l.foldl (fun n c => 10 * n + (c.toNat - 48)) n < 10 ^ l.length * (n + 1) := by
      intro l
      induction l with
      | nil => simp
      | cons c l ih =>
        intro n hl
        have hc : c.toNat - 48 < 10 := by
          have := hl c (by simp)
          simp only [isdigit, Char.isDigit, Bool.and_eq_true, decide_eq_true_eq, ge_iff_le, UInt32.le_iff_toNat_le] at this
          have hval : c.toNat = c.val.toNat := rfl
          simp at this
          omega
        have hlt := ih (10 * n + (c.toNat - 48)) fun d hd => hl d (List.mem_cons_of_mem _ hd)
        rw [List.foldl_cons, List.length_cons, pow_succ, mul_assoc]
        exact hlt.trans_le (Nat.mul_le_mul_left _ (by omega))
    simpa using hfold word 0 h
  · exact .inr h

/-- The words of integers are digits. -/
def Digits (x : Lexeme) : Prop := x.token = .int_scalar → x.identifier ≠ [] ∧ ∀ c ∈ x.identifier, isdigit c = true

theorem Lexes.digits {s rest : List Char} {x : Lexeme} (h : Lexes s x rest) : Digits x := by
  induction h with
  | blank _ _ ih => exact ih
  | @integer c d rest hc hd _ => exact fun _ => ⟨by simp, by simpa using ⟨hc, hd⟩⟩
  | @symbol c rest _ _ _ =>
    intro h
    have hword := hasWord_symbol (some c)
    rw [show Parser.symbol (some c) = Token.int_scalar from h] at hword
    cases hword
  | _ => exact fun h => by cases h

theorem Lexemes.digits {s rest : List Char} {ls : List Lexeme} (h : Lexemes s ls rest) : ∀ x ∈ ls, Digits x := by
  induction h with
  | nil => simp
  | cons hx _ ih => simpa using ⟨hx.digits, ih⟩

theorem need_scalar {x : Lexeme} (hx : Digits x) (hscalar : isScalar x.token = true) :
    (IndexExpr.literal (scalar x.token x.identifier)).need ≤ x.weigh := by
  obtain ⟨token, word⟩ := x
  cases token with
  | int_scalar =>
    obtain ⟨hne, hdigits⟩ := hx rfl
    have hlt : min (number word) int64Max < 10 ^ word.length :=
      (Nat.min_le_left _ _).trans_lt ((number_lt word).resolve_right (not_not.mpr hdigits))
    have hlen := (Nat.length_toDigits_le_iff (b := 10) (by norm_num) (List.length_pos_iff.mpr hne)).mpr hlt
    exact Nat.mul_le_mul_left 2 hlen
  | uint_scalar | float_scalar | complex_scalar => exact Nat.zero_le _
  | _ => cases hscalar

theorem IndexExpr.parens_le (e : IndexExpr) : e.parens ≤ e.factorParens ∧ e.factorParens ≤ 2 := by
  unfold IndexExpr.parens IndexExpr.factorParens
  cases e.isAdditive <;> cases e.isMultiplicative <;> simp

/-- What an expression needs where a kind is asked for. -/
def IndexExpr.needAt : Symbol → IndexExpr → ℕ
  | .expr, e => e.need
  | .term, e => e.need + e.parens
  | .factor, e | .final, e => e.need + e.factorParens

/-- An expression is derived only from lexemes that weigh what it needs. -/
theorem Derives.needAt_le {s : Symbol} {ls : List Lexeme} {t : IndexExpr} (h : Derives s ls t)
    (hls : ∀ x ∈ ls, Digits x) : t.needAt s ≤ weighs ls := by
  induction h with
  | term _ ih => exact (Nat.le_add_right _ _).trans (ih hls)
  | factor _ ih => exact (Nat.add_le_add_left (IndexExpr.parens_le _).1 _).trans (ih hls)
  | final _ ih => exact ih hls
  | @add ls ls' a b x _ hx _ iha ihb | @sub ls ls' a b x _ hx _ iha ihb | @mul ls ls' a b x _ hx _ iha ihb
  | @div ls ls' a b x _ hx _ iha ihb =>
    have ha := iha fun x hx => hls x (List.mem_append_left _ hx)
    have hb := ihb fun x hx => hls x (List.mem_append_right _ (List.mem_cons_of_mem _ hx))
    have hle := IndexExpr.parens_le b
    simp only [IndexExpr.needAt, IndexExpr.need, weighs_append, weighs_cons, Lexeme.weigh, hx] at *
    simp only [IndexExpr.parens, IndexExpr.isAdditive, Bool.false_eq_true, if_false] at *
    omega
  | @parens ls e l r hl _ hr ih =>
    have he := ih fun x hx => hls x (by simp [hx])
    have hle := IndexExpr.parens_le e
    simp only [IndexExpr.needAt, weighs_append, weighs_cons, weighs_nil, Lexeme.weigh, hl, hr] at *
    omega
  | @neg ls e x hx _ ih =>
    have he := ih fun x hx => hls x (by simp [hx])
    have hnone : e.neg.factorParens = 0 := rfl
    simp only [IndexExpr.needAt, IndexExpr.need, weighs_cons, Lexeme.weigh, hx] at *
    omega
  | access ha => exact ha.need_le
  | @scalar x hx =>
    rw [weighs_cons, weighs_nil]
    exact need_scalar (hls x (by simp)) hx

/-! ### What is printed -/

namespace IndexExprNode

/-- The literals of eight bits, the negated booleans and the right operands that lose their grouping. -/
def defects : IndexExprNode → ℕ
  | access _ _ => 0
  | literal dataType _ => if dataType.getNumBits = 8 then 1 else 0
  | neg a => a.defects + if a.getDataType.isBool then 1 else 0
  | add a b | mul a b => a.defects + b.defects
  | sub a b => a.defects + b.defects + if b.isAdditive then 1 else 0
  | div a b => a.defects + b.defects + if b.isMultiplicative then 1 else 0

theorem isAdditive_expr (e : IndexExprNode) : e.expr.isAdditive = e.isAdditive := by cases e <;> rfl

theorem isMultiplicative_expr (e : IndexExprNode) : e.expr.isMultiplicative = e.isMultiplicative := by cases e <;> rfl

end IndexExprNode

theorem weigh_enclose (parenthesize : Bool) (text : List Char) :
    weigh (enclose parenthesize text) = weigh text + if parenthesize then 2 else 0 := by
  cases parenthesize with
  | false => rfl
  | true =>
    have hl : weight '(' = 1 := by decide
    have hr : weight ')' = 1 := by decide
    simp only [enclose, if_true, weigh_cons, weigh_append, weigh_nil, hl, hr]
    omega

theorem weigh_digits (n : ℕ) : weigh (Nat.toDigits 10 n) = 2 * (Nat.toDigits 10 n).length :=
  weigh_alnum fun _ hc => isalnum_digit (isdigit_toDigits hc)

/-- A character weighs less than the digits of its number. -/
theorem weight_ofNat_lt (n : ℕ) : weight (Char.ofNat n) < 2 * (Nat.toDigits 10 n).length := by
  have hpos := Nat.length_toDigits_pos (b := 10) (n := n)
  rcases Nat.lt_or_ge n 10 with hlt | hge
  · have hzero : weight (Char.ofNat n) = 0 := by
      interval_cases n <;> decide
    omega
  · have hlen : ¬ (Nat.toDigits 10 n).length ≤ 1 := by
      rw [Nat.length_toDigits_le_iff (by norm_num) (by norm_num)]
      omega
    have := weight_le (Char.ofNat n)
    omega

theorem weigh_literal (dataType : Datatype) (val : ℕ) :
    weigh (printLiteral dataType val) + (if dataType.getNumBits = 8 then 1 else 0) ≤ 2 * (Nat.toDigits 10 val).length := by
  by_cases h : dataType.getNumBits = 8
  · have hprint : printLiteral dataType val = [Char.ofNat val] := by
      match dataType, h with
      | .uint .w8, _ | .int .w8, _ => rfl
    rw [hprint, if_pos h, weigh_cons, weigh_nil]
    exact weight_ofNat_lt val
  · rw [printLiteral_eq h, if_neg h, weigh_digits]
    exact le_rfl

theorem weigh_vars (vars : List (List Char)) :
    weigh (vars.flatMap fun var => ',' :: var) ≤ (vars.map fun var => 2 * var.length + 1).sum := by
  induction vars with
  | nil => simp
  | cons var vars ih =>
    have hcomma : weight ',' = 1 := by decide
    have := weigh_le var
    simp only [List.flatMap_cons, weigh_append, weigh_cons, List.map_cons, List.sum_cons, hcomma]
    omega

theorem weigh_access (a : Access) :
    weigh (a.tensorName ++ if a.indexVars = [] then [] else '(' :: (join a.indexVars ++ [')'])) ≤
      (IndexExpr.access a).need := by
  obtain ⟨name, vars⟩ := a
  have hname := weigh_le name
  cases vars with
  | nil => simpa [IndexExpr.need] using hname
  | cons var vars =>
    have hl : weight '(' = 1 := by decide
    have hr : weight ')' = 1 := by decide
    have hvar := weigh_le var
    have hvars := weigh_vars vars
    simp only [IndexExpr.need, join, weigh_append, weigh_cons, weigh_nil, List.map_cons, List.sum_cons, hl, hr,
      reduceCtorEq, if_false]
    omega

theorem level_parens (p : Precedence) (e : IndexExprNode) :
    (if e.isAdditive && decide (Precedence.add.value > p.value) then 2 else 0) +
      (if e.isMultiplicative && decide (Precedence.mul.value > p.value) then 2 else 0) + e.expr.need =
    e.expr.needAt (level p) := by
  have hadd := e.isAdditive_expr
  have hmul := e.isMultiplicative_expr
  cases e <;> cases p <;>
    simp [IndexExprNode.isAdditive, IndexExprNode.isMultiplicative, IndexExpr.needAt, level, Precedence.value,
      IndexExpr.parens, IndexExpr.factorParens, hadd, hmul] <;> omega

theorem parens_expr (e : IndexExprNode) :
    e.expr.parens = (if e.isAdditive then 2 else 0) ∧
    e.expr.factorParens = (if e.isAdditive then 2 else 0) + if e.isMultiplicative then 2 else 0 := by
  unfold IndexExpr.parens IndexExpr.factorParens
  rw [e.isAdditive_expr, e.isMultiplicative_expr]
  cases e <;> exact ⟨rfl, rfl⟩

theorem weigh_operator {c : Char} (hc : c = '+' ∨ c = '-' ∨ c = '*' ∨ c = '/') : weigh [' ', c, ' '] = 1 := by
  rcases hc with rfl | rfl | rfl | rfl <;> decide

/-- What is printed weighs less than is needed by each defect. -/
theorem weigh_printNode (e : IndexExprNode) (p : Precedence) :
    weigh (printNode p e) + e.defects ≤ e.expr.needAt (level p) := by
  rw [← level_parens]
  induction e generalizing p with
  | access a dataType => exact (weigh_access a).trans (Nat.le_add_left _ _)
  | literal dataType val => exact (weigh_literal dataType val).trans (Nat.le_add_left _ _)
  | neg a ih =>
    have ha := ih .neg
    rw [level_parens] at ha
    have hnot : (decide (Precedence.neg.value > p.value)) = false := by cases p <;> rfl
    have hsign : weight (if a.getDataType.isBool then '!' else '-') + (if a.getDataType.isBool then 1 else 0) = 1 := by
      cases a.getDataType.isBool <;> decide
    have hadd : a.neg.isAdditive = false := rfl
    have hmul : a.neg.isMultiplicative = false := rfl
    simp only [printNode, hnot, weigh_cons, weigh_enclose, hadd, hmul, IndexExprNode.defects, IndexExprNode.expr,
      IndexExpr.need, IndexExpr.needAt, level, Bool.false_and, Bool.false_eq_true, if_false] at ha hsign ⊢
    omega
  | add a b iha ihb =>
    have ha := iha .add
    have hb := ihb .add
    have hadd : (a.add b).isAdditive = true := rfl
    have hmul : (a.add b).isMultiplicative = false := rfl
    rw [level_parens] at ha hb
    simp only [printNode, weigh_append, weigh_enclose, weigh_operator (.inl rfl), hadd, hmul, IndexExprNode.defects,
      IndexExprNode.expr, IndexExpr.need, IndexExpr.needAt, level, Bool.false_and, Bool.true_and, Bool.false_eq_true,
      if_false] at ha hb ⊢
    omega
  | sub a b iha ihb =>
    have ha := iha .sub
    have hb := ihb .sub
    have hparens := (parens_expr b).1
    have hvalue : Precedence.sub.value = Precedence.add.value := rfl
    have hadd : (a.sub b).isAdditive = true := rfl
    have hmul : (a.sub b).isMultiplicative = false := rfl
    rw [level_parens] at ha hb
    simp only [printNode, weigh_append, weigh_enclose, weigh_operator (.inr (.inl rfl)), hadd, hmul, IndexExprNode.defects,
      IndexExprNode.expr, IndexExpr.need, IndexExpr.needAt, level, Bool.false_and, Bool.true_and, Bool.false_eq_true,
      if_false, hvalue] at ha hb ⊢
    cases hroot : b.isAdditive <;> simp only [hroot, if_true, Bool.false_eq_true, if_false] at hparens ⊢ <;> omega
  | mul a b iha ihb =>
    have ha := iha .mul
    have hb := ihb .mul
    have hadd : (a.mul b).isAdditive = false := rfl
    have hmul : (a.mul b).isMultiplicative = true := rfl
    rw [level_parens] at ha hb
    simp only [printNode, weigh_append, weigh_enclose, weigh_operator (.inr (.inr (.inl rfl))), hadd, hmul, IndexExprNode.defects,
      IndexExprNode.expr, IndexExpr.need, IndexExpr.needAt, level, Bool.false_and, Bool.true_and, Bool.false_eq_true,
      if_false] at ha hb ⊢
    omega
  | div a b iha ihb =>
    have ha := iha .div
    have hb := ihb .div
    obtain ⟨hparens, hfactor⟩ := parens_expr b
    have hvalue : Precedence.div.value = Precedence.mul.value := rfl
    have hadd : (a.div b).isAdditive = false := rfl
    have hmul : (a.div b).isMultiplicative = true := rfl
    rw [level_parens] at ha hb
    simp only [printNode, weigh_append, weigh_enclose, weigh_operator (.inr (.inr (.inr rfl))), hadd, hmul, IndexExprNode.defects,
      IndexExprNode.expr, IndexExpr.need, IndexExpr.needAt, level, Bool.false_and, Bool.true_and, Bool.false_eq_true,
      if_false, hvalue] at ha hb ⊢
    rw [← hparens] at hfactor
    cases hroot : b.isMultiplicative <;> simp only [hroot, if_true, Bool.false_eq_true, if_false] at hfactor ⊢ <;> omega

/-! ### Leaves -/

/-- Names are not the word of complex literals, and integers are not too large. -/
def IndexExpr.Leaves : IndexExpr → Prop
  | access a => isComplex a.tensorName = false ∧ ∀ var ∈ a.indexVars, isComplex var = false
  | literal (.int n) => n ≤ int64Max
  | literal _ => True
  | neg a => a.Leaves
  | add a b | sub a b | mul a b | div a b => a.Leaves ∧ b.Leaves

theorem Regroups.leaves_iff {a b : IndexExpr} (h : Regroups a b) : a.Leaves ↔ b.Leaves := by
  induction h with
  | refl _ => exact Iff.rfl
  | symm _ ih => exact ih.symm
  | trans _ _ ih ih' => exact ih.trans ih'
  | neg _ ih => exact ih
  | add _ _ iha ihb | sub _ _ iha ihb | mul _ _ iha ihb | div _ _ iha ihb => exact and_congr iha ihb
  | _ => exact and_assoc.symm

theorem Lexes.not_isComplex {s rest : List Char} {x : Lexeme} (h : Lexes s x rest) (hx : x.token = .identifier) :
    isComplex x.identifier = false := by
  induction h with
  | blank _ _ ih => exact ih hx
  | identifier _ _ _ hword => exact hword
  | @symbol c rest _ _ _ =>
    have hword := hasWord_symbol (some c)
    rw [show Parser.symbol (some c) = Token.identifier from hx] at hword
    cases hword
  | _ => cases hx

theorem Lexemes.not_isComplex {s rest : List Char} {ls : List Lexeme} (h : Lexemes s ls rest) :
    ∀ x ∈ ls, x.token = .identifier → isComplex x.identifier = false := by
  induction h with
  | nil => simp
  | cons hx _ ih => simpa using ⟨hx.not_isComplex, ih⟩

theorem VarList.not_isComplex {ls : List Lexeme} {vars : List (List Char)} (h : VarList ls vars)
    (hls : ∀ x ∈ ls, x.token = .identifier → isComplex x.identifier = false) : ∀ var ∈ vars, isComplex var = false := by
  induction h with
  | var hx => simpa using hls _ (by simp) hx
  | comma _ _ hx ih =>
    intro var hvar
    rcases List.mem_append.mp hvar with hvar | hvar
    · exact ih (fun x hx => hls x (List.mem_append_left _ hx)) var hvar
    · rw [List.mem_singleton.mp hvar]
      exact hls _ (by simp) hx

theorem Derives.leaves {s : Symbol} {ls : List Lexeme} {t : IndexExpr} (h : Derives s ls t)
    (hls : ∀ x ∈ ls, x.token = .identifier → isComplex x.identifier = false) : t.Leaves := by
  induction h with
  | term _ ih | factor _ ih | final _ ih => exact ih hls
  | add _ _ _ iha ihb | sub _ _ _ iha ihb | mul _ _ _ iha ihb | div _ _ _ iha ihb =>
    exact ⟨iha fun x hx => hls x (List.mem_append_left _ hx),
      ihb fun x hx => hls x (List.mem_append_right _ (List.mem_cons_of_mem _ hx))⟩
  | parens _ _ _ ih => exact ih fun x hx => hls x (by simp [hx])
  | neg _ _ ih => exact ih fun x hx => hls x (by simp [hx])
  | access ha =>
    cases ha with
    | parens hx _ hvars _ => exact ⟨hls _ (by simp) hx, hvars.not_isComplex fun x hx => hls x (by simp [hx])⟩
    | braces hx _ _ hvars _ => exact ⟨hls _ (by simp) hx, hvars.not_isComplex fun x hx => hls x (by simp [hx])⟩
    | var hx _ hv => exact ⟨hls _ (by simp) hx, by simpa using hls _ (by simp) hv⟩
    | name hx => exact ⟨hls _ (by simp) hx, by simp⟩
  | @scalar x hx =>
    obtain ⟨token, word⟩ := x
    cases token with
    | int_scalar => exact Nat.min_le_right _ _
    | uint_scalar | float_scalar | complex_scalar => trivial
    | _ => cases hx

theorem readable_of_defects {e : IndexExprNode} (hdefects : e.defects = 0) (hleaves : e.expr.Leaves) : e.Readable := by
  induction e with
  | access a dataType => exact hleaves
  | literal dataType val =>
    refine ⟨fun h => ?_, hleaves⟩
    rw [IndexExprNode.defects, if_pos h] at hdefects
    cases hdefects
  | neg a ih =>
    simp only [IndexExprNode.defects, Nat.add_eq_zero_iff] at hdefects
    refine ⟨?_, ih hdefects.1 hleaves⟩
    by_contra hbool
    simp [hbool] at hdefects
  | add a b iha ihb | mul a b iha ihb =>
    simp only [IndexExprNode.defects, Nat.add_eq_zero_iff] at hdefects
    exact ⟨iha hdefects.1 hleaves.1, ihb hdefects.2 hleaves.2⟩
  | sub a b iha ihb | div a b iha ihb =>
    simp only [IndexExprNode.defects, Nat.add_eq_zero_iff] at hdefects
    refine ⟨iha hdefects.1.1 hleaves.1, ihb hdefects.1.2 hleaves.2, ?_⟩
    by_contra hroot
    simp [hroot] at hdefects

/-! ### Texts -/

theorem of_parseExpression {fuel : ℕ} {text : List Char} {t : IndexExpr} (h : parseExpression fuel text = pure t) :
    ∃ ls s y rest, Lexemes (seen text) ls s ∧ Derives .expr ls t ∧ scan text s = some (y, rest) ∧ y.token = .eot := by
  obtain ⟨p, hp, h⟩ := pure_of_bind h
  obtain ⟨⟨u, q⟩, hq, h⟩ := pure_of_bind h
  dsimp only at h
  by_cases heot : q.currentToken = .eot
  · rw [if_pos heot] at h
    cases pure_inj h
    obtain ⟨ls, hfeeds, ht, -⟩ := (reads_all fuel).1 _ _ _ hq
    obtain ⟨x, rest, hscan, hholds⟩ := holds_first hp
    obtain ⟨y, s, rest', hlexemes, hy, hholds'⟩ := lexemes_of_feeds hscan hholds hfeeds ht.token_ne
    exact ⟨ls, s, y, rest', hlexemes, ht, hy, hholds'.token ▸ heot⟩
  · rw [if_neg heot] at h
    exact absurd h throw_ne_pure

theorem yields_parseExpression {text s rest : List Char} {ls : List Lexeme} {t : IndexExpr} {y : Lexeme}
    (hlexemes : Lexemes (seen text) ls s) (ht : Derives .expr ls t) (hy : scan text s = some (y, rest))
    (heot : y.token = .eot) : Yields (fun n => parseExpression n text) t := by
  obtain ⟨x, s', hs⟩ := hlexemes.scan_some hy
  obtain ⟨p, hp, hholds⟩ := yields_first hs
  obtain ⟨q, hfeeds, hq⟩ := feeds_of_lexemes hlexemes hs hholds hy
  have hq' : q.currentToken = .eot := hq.token.trans heot
  refine hp.bind ((yields_expr ht.completes hfeeds (not_goesOn_close (.inr hq'))).bind ?_)
  simp only [if_pos hq']
  exact .const t

/-- A text has one expression. -/
theorem parseExpression_unique {text : List Char} {t t' : IndexExpr} {fuel fuel' : ℕ}
    (h : parseExpression fuel text = pure t) (h' : parseExpression fuel' text = pure t') : t = t' := by
  obtain ⟨ls, s, y, rest, hlexemes, ht, hy, heot⟩ := of_parseExpression h
  obtain ⟨ls', s', y', rest', hlexemes', ht', hy', heot'⟩ := of_parseExpression h'
  exact (yields_parseExpression hlexemes ht hy heot).unique (yields_parseExpression hlexemes' ht' hy' heot')

/-- A readable expression is printed as an expression up to the end of the text. -/
theorem exists_reread {e : IndexExprNode} (hwf : e.WellFormed) (h : e.Readable) :
    ∃ ls t, Lexemes (print e) ls [] ∧ Derives .expr ls t ∧ Regroups e.expr t := by
  obtain ⟨ls, t, hprinted, ht, hregroups⟩ := reread hwf h .top
  have hlexemes := hprinted [] (by simp [Boundary])
  rw [List.append_nil] at hlexemes
  exact ⟨ls, t, hlexemes, ht, hregroups⟩

/-- Every character that is printed has a weight, but for the blanks. -/
def Solid (text : List Char) : Prop := (∀ c ∈ text, c = ' ' ∨ 0 < weight c) ∧ ∃ init c, text = init ++ [c] ∧ 0 < weight c

theorem weight_pos {c : Char} (h : isalnum c = true) : 0 < weight c := by
  rw [weight_alnum h]
  norm_num

theorem solid_alnum {w : List Char} (hne : w ≠ []) (h : ∀ c ∈ w, isalnum c = true) : Solid w :=
  ⟨fun c hc => .inr (weight_pos (h c hc)),
    _, _, (List.dropLast_append_getLast hne).symm, weight_pos (h _ (List.getLast_mem hne))⟩

theorem Solid.cons {text : List Char} {c : Char} (h : Solid text) (hc : c = ' ' ∨ 0 < weight c) : Solid (c :: text) := by
  obtain ⟨hall, init, d, rfl, hd⟩ := h
  exact ⟨by simpa using ⟨hc, by simpa using hall⟩, c :: init, d, rfl, hd⟩

theorem Solid.append {text text' : List Char} (h : ∀ c ∈ text, c = ' ' ∨ 0 < weight c) (h' : Solid text') :
    Solid (text ++ text') := by
  obtain ⟨hall, init, d, rfl, hd⟩ := h'
  refine ⟨fun c hc => ?_, text ++ init, d, by rw [List.append_assoc], hd⟩
  rcases List.mem_append.mp hc with hc | hc
  · exact h c hc
  · exact hall c hc

theorem solid_paren : Solid [')'] := ⟨fun c hc => .inr (List.mem_singleton.mp hc ▸ by decide), [], ')', rfl, by decide⟩

theorem Solid.enclose {text : List Char} (h : Solid text) (parenthesize : Bool) : Solid (enclose parenthesize text) := by
  cases parenthesize with
  | false => exact h
  | true => exact (Solid.append h.1 solid_paren).cons (.inr (by decide))

theorem solid_access {a : Access} (hname : isIdentifier a.tensorName = true)
    (hvars : ∀ var ∈ a.indexVars, isIdentifier var = true) :
    Solid (a.tensorName ++ if a.indexVars = [] then [] else '(' :: (join a.indexVars ++ [')'])) := by
  have hsolid := solid_alnum (isIdentifier_alnum hname).1 (isIdentifier_alnum hname).2
  obtain ⟨name, vars⟩ := a
  cases vars with
  | nil => simpa using hsolid
  | cons var vars =>
    rw [if_neg (by simp)]
    refine Solid.append hsolid.1 (Solid.cons (Solid.append (fun c hc => ?_) solid_paren)
      (.inr (by decide)))
    rcases List.mem_append.mp hc with hc | hc
    · exact .inr (weight_pos ((isIdentifier_alnum (hvars var (by simp))).2 c hc))
    · obtain ⟨v, hv, hc⟩ := List.mem_flatMap.mp hc
      rcases List.mem_cons.mp hc with rfl | hc
      · exact .inr (by decide)
      · exact .inr (weight_pos ((isIdentifier_alnum (hvars v (List.mem_cons_of_mem _ hv))).2 c hc))

theorem solid_binary {text text' : List Char} {c : Char} (hc : 0 < weight c) (h : Solid text) (h' : Solid text') :
    Solid (text ++ [' ', c, ' '] ++ text') := by
  refine Solid.append (fun d hd => ?_) h'
  rcases List.mem_append.mp hd with hd | hd
  · exact h.1 d hd
  · simp only [List.mem_cons, List.not_mem_nil, or_false] at hd
    rcases hd with rfl | rfl | rfl
    · exact .inl rfl
    · exact .inr hc
    · exact .inl rfl

theorem solid_printNode {e : IndexExprNode} (hwf : e.WellFormed) (h : e.Readable) (p : Precedence) : Solid (printNode p e) := by
  induction e generalizing p with
  | access a dataType => exact solid_access hwf.1 hwf.2
  | literal dataType val =>
    rw [printNode, printLiteral_eq h.1]
    exact solid_alnum Nat.toDigits_ne_nil fun c hc => isalnum_digit (isdigit_toDigits hc)
  | neg a ih =>
    rw [printNode, h.1]
    exact ((ih hwf h.2 _).enclose _).cons (.inr (by decide))
  | add a b iha ihb => exact (solid_binary (by decide) (iha hwf.1 h.1 _) (ihb hwf.2 h.2 _)).enclose _
  | sub a b iha ihb => exact (solid_binary (by decide) (iha hwf.1 h.1 _) (ihb hwf.2 h.2.1 _)).enclose _
  | mul a b iha ihb => exact (solid_binary (by decide) (iha hwf.1 h.1 _) (ihb hwf.2 h.2 _)).enclose _
  | div a b iha ihb => exact (solid_binary (by decide) (iha hwf.1 h.1 _) (ihb hwf.2 h.2.1 _)).enclose _

/-- A solid text is not as heavy as a shorter beginning of it. -/
theorem Solid.eq_of_weigh {text s more : List Char} (h : Solid text) (hs : s ++ more = text) (hw : weigh text ≤ weigh s) :
    more = [] := by
  obtain ⟨-, init, c, hc, hpos⟩ := h
  by_contra hne
  have hlast : more = more.dropLast ++ [c] := by
    have hget : (s ++ more).getLast? = some c := by rw [hs, hc, List.getLast?_concat]
    rw [List.getLast?_append_of_ne_nil _ hne] at hget
    exact (List.dropLast_append_getLast? c hget).symm
  rw [← hs, hlast] at hw
  simp only [weigh_append, weigh_cons, weigh_nil] at hw
  omega

/-- What is read back from the text of an expression, with its grouping, shows that this is readable, and the text short
    enough. -/
theorem readable_of_parsed {e : IndexExprNode} (hwf : e.WellFormed) {fuel : ℕ} {t : IndexExpr}
    (h : parseExpression fuel (print e) = pure t) (hregroups : Regroups e.expr t) :
    e.Readable ∧ (print e).length ≤ intMax := by
  obtain ⟨ls, s, y, rest, hlexemes, ht, hy, heot⟩ := of_parseExpression h
  obtain ⟨more, hmore⟩ := seen_begins (print e)
  have hneed : t.need ≤ weighs ls := ht.needAt_le hlexemes.digits
  have hseen := hlexemes.weighs_le
  have hprint : weigh (print e) + e.defects ≤ e.expr.need := weigh_printNode e .top
  have hsplit : weigh (print e) = weigh (seen (print e)) + weigh more := by rw [← weigh_append, hmore]
  have hequal := hregroups.need_eq
  have hreadable : e.Readable := readable_of_defects (by omega)
    (hregroups.leaves_iff.mpr (ht.leaves hlexemes.not_isComplex))
  have hsolid := solid_printNode hwf hreadable .top
  refine ⟨hreadable, ?_⟩
  have hnil := hsolid.eq_of_weigh hmore (by show weigh (print e) ≤ _; omega)
  rw [hnil, List.append_nil] at hmore
  obtain ⟨-, hend, ⟨-, hrest⟩ | ⟨blanks, -, hs⟩⟩ := eot_of_scan hy heot
  · rw [← hmore, length_seen_of_nonneg (hend hrest)]
    exact (size_le (hend hrest)).2
  · -- no mark is printed
    have hmem : '\xff' ∈ print e := by
      have hsuffix : s <:+ seen (print e) := hlexemes.suffix
      rw [hmore] at hsuffix
      exact hsuffix.subset (by simp [hs])
    rcases hsolid.1 _ hmem with hblank | hpos
    · cases hblank
    · exact absurd hpos (by decide)

/-- What is printed is read back with the same grouping, and so with the same value, if and only if it is readable and
    its text is not too long for the lexer. -/
theorem print_reread_iff (e : IndexExprNode) (hwf : e.WellFormed) :
    (∃ fuel t, parseExpression fuel (print e) = pure t ∧ Regroups e.expr t ∧
      ∀ (K : Type) [Field K] (val : Access → K) (word : List Char → K), t.eval val word = e.expr.eval val word) ↔
    e.Readable ∧ (print e).length ≤ intMax := by
  constructor
  · rintro ⟨fuel, t, h, hregroups, -⟩
    exact readable_of_parsed hwf h hregroups
  · rintro ⟨hreadable, hlen⟩
    obtain ⟨ls, t, hlexemes, ht, hregroups⟩ := exists_reread hwf hreadable
    obtain ⟨hsize, hseen⟩ := seen_of_le hlen
    have hend : scan (print e) [] = some (⟨.eot, []⟩, []) := by
      rw [scan_nil, shown_of_nonneg hsize]
      rfl
    obtain ⟨bound, hbound⟩ := yields_parseExpression (hseen.symm ▸ hlexemes) ht hend rfl
    exact ⟨bound, t, hbound bound le_rfl, hregroups, fun K _ val word => hregroups.eval_eq.symm⟩

/-- `a(i) * (b + 2)` -/
def scaledSum : IndexExprNode :=
  .mul (.access ⟨['a'], [['i']]⟩ .float64) (.add (.access ⟨['b'], []⟩ .float64) (.literal (.int .w32) 2))

theorem scaledSum_reread :
    ∃ fuel t, parseExpression fuel (print scaledSum) = pure t ∧ Regroups scaledSum.expr t ∧
      ∀ (K : Type) [Field K] (val : Access → K) (word : List Char → K), t.eval val word = scaledSum.expr.eval val word := by
  have hwf : scaledSum.WellFormed :=
    ⟨⟨rfl, by decide⟩, ⟨rfl, by decide⟩, rfl, rfl, by norm_num [Datatype.conv, trunc, Datatype.wrapBits, Width.bits, Int.bmod_def]⟩
  refine (print_reread_iff scaledSum hwf).mpr ⟨⟨⟨rfl, by decide⟩, ⟨rfl, by decide⟩, by decide, by decide⟩, by decide⟩

/-- `a - (b + c)` -/
def difference : IndexExprNode :=
  .sub (.access ⟨['a'], []⟩ .float64) (.add (.access ⟨['b'], []⟩ .float64) (.access ⟨['c'], []⟩ .float64))

/-- `a - b + c` -/
def sumOfDifference : IndexExprNode :=
  .add (.sub (.access ⟨['a'], []⟩ .float64) (.access ⟨['b'], []⟩ .float64)) (.access ⟨['c'], []⟩ .float64)

/-- A sum on the right of `-` is printed without its parentheses. -/
theorem difference_regrouped : ¬ ∀ e : IndexExprNode, e.WellFormed →
    ∃ fuel t, parseExpression fuel (print e) = pure t ∧
      ∀ (K : Type) [Field K] (val : Access → K) (word : List Char → K), t.eval val word = e.expr.eval val word := by
  intro h
  obtain ⟨fuel, t, hparse, heval⟩ := h difference ⟨⟨rfl, by decide⟩, ⟨rfl, by decide⟩, rfl, by decide⟩
  have hwf : sumOfDifference.WellFormed := ⟨⟨⟨rfl, by decide⟩, rfl, by decide⟩, rfl, by decide⟩
  have hreadable : sumOfDifference.Readable := ⟨⟨⟨rfl, by decide⟩, ⟨rfl, by decide⟩, rfl⟩, rfl, by decide⟩
  obtain ⟨ls, u, hlexemes, hu, hregroups⟩ := exists_reread hwf hreadable
  have hprint : print difference = print sumOfDifference := rfl
  obtain ⟨hsize, hseen⟩ := @seen_of_le (print difference) (by decide)
  have hend : scan (print difference) [] = some (⟨.eot, []⟩, []) := by
    rw [scan_nil, shown_of_nonneg hsize]
    rfl
  rw [← hprint, ← hseen] at hlexemes
  obtain ⟨bound, hbound⟩ := yields_parseExpression hlexemes hu hend rfl
  have htu := parseExpression_unique hparse (hbound bound le_rfl)
  have hvalue := heval ℚ (fun _ => 1) fun _ => 0
  rw [htu, ← hregroups.eval_eq] at hvalue
  norm_num [difference, sumOfDifference, IndexExprNode.expr, IndexExpr.eval] at hvalue

end Parser
end Taco
