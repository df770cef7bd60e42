import Taco.Parser.ScheduleParserRuns

/-! Printed directives, all of whose pieces are kept, are read back. -/

namespace Taco
namespace Parser

variable {text : List Char}

/-! ### Pieces and lexemes -/

def Piece.lexeme : Piece → Lexeme
  | identifier w => ⟨.identifier, w⟩
  | integer d => ⟨.int_scalar, d⟩
  | unsigned d => ⟨.uint_scalar, d⟩
  | float d f => ⟨.float_scalar, d ++ '.' :: f⟩
  | symbol c => ⟨Parser.symbol (some c), []⟩

def isDelimiter (c : Char) : Bool := c = ',' || c = '(' || c = ')' || c = '\x7b' || c = '\x7d'

/-- What directives are made of. -/
def Piece.IsPiece (p : Piece) : Prop := p.IsPlainPiece ∨ ∃ c, p = .symbol c ∧ isDelimiter c = true

theorem isPiece_delimiter {c : Char} (h : isDelimiter c = true) : (Piece.symbol c).IsPiece := .inr ⟨c, rfl, h⟩

theorem Nested.isPiece {commas : Bool} {ps : List Piece} (h : Nested commas ps) : ∀ p ∈ ps, p.IsPiece := by
  induction h with
  | nil => simp
  | piece hp _ ih => simpa using ⟨.inl hp, ih⟩
  | comma _ ih => simpa using ⟨isPiece_delimiter rfl, ih⟩
  | parens _ _ ih ih' | curly _ _ ih ih' =>
    simp only [List.mem_cons, List.mem_append]
    rintro p (rfl | hp | rfl | hp)
    · exact isPiece_delimiter rfl
    · exact ih p hp
    · exact isPiece_delimiter rfl
    · exact ih' p hp

theorem mem_commaSeparated {pss : List (List Piece)} {p : Piece} (h : p ∈ commaSeparated pss) :
    p = .symbol ',' ∨ ∃ ps ∈ pss, p ∈ ps := by
  cases pss with
  | nil => cases h
  | cons ps pss =>
    simp only [commaSeparated, List.mem_append, List.mem_flatMap, List.mem_cons] at h
    rcases h with h | ⟨ps', hps', rfl | h⟩
    · exact .inr ⟨ps, by simp, h⟩
    · exact .inl rfl
    · exact .inr ⟨ps', by simp [hps'], h⟩

theorem Directive.WellFormed.isPiece {d : Directive} (h : d.WellFormed) : ∀ p ∈ d.pieces, p.IsPiece := by
  simp only [Directive.pieces, List.mem_cons, List.mem_append, List.not_mem_nil, or_false]
  rintro p (rfl | rfl | hp | rfl)
  · exact .inl h.name
  · exact isPiece_delimiter rfl
  · rcases mem_commaSeparated hp with rfl | ⟨arg, harg, hp⟩
    · exact isPiece_delimiter rfl
    · exact (h.args arg harg).2.isPiece p hp
  · exact isPiece_delimiter rfl

theorem isPiece_schedule {ds : List Directive} (h : ∀ d ∈ ds, d.WellFormed) : ∀ p ∈ schedulePieces ds, p.IsPiece := by
  intro p hp
  rcases mem_commaSeparated hp with rfl | ⟨ps, hps, hp⟩
  · exact isPiece_delimiter rfl
  · obtain ⟨d, hd, rfl⟩ := List.mem_map.mp hps
    exact (h d hd).isPiece p hp

theorem isSymbol_facts {c : Char} (h : isOperator c = true ∨ isDelimiter c = true) :
    isspace c = false ∧ isalnum c = false ∧ c ≠ '\xff' ∧ tokenText (Parser.symbol (some c)) = [c] := by
  simp only [isOperator, isDelimiter, Bool.or_eq_true, decide_eq_true_eq] at h
  rcases h with (((((rfl | rfl) | rfl) | rfl) | rfl) | rfl) | ((((rfl | rfl) | rfl) | rfl) | rfl) <;>
    exact ⟨by decide, by decide, by decide, by decide⟩

theorem Piece.IsPiece.symbol {c : Char} (h : (Piece.symbol c).IsPiece) : isOperator c = true ∨ isDelimiter c = true := by
  rcases h with h | ⟨c', hc', h⟩
  · exact .inl h
  · cases hc'
    exact .inr h

/-- The word of a piece, if it is no complex literal's, is a lexeme. -/
theorem Piece.IsPiece.lexes {p : Piece} {rest : List Char} (h : p.IsPiece) (hsep : p.Separated rest)
    (hcomplex : ∀ w, p = .identifier w → isComplex w = false) : Lexes (p.text ++ rest) p.lexeme rest := by
  cases p with
  | identifier w =>
    obtain h | ⟨_, h, -⟩ := h
    · exact lexes_identifier h (hcomplex w rfl) hsep
    · cases h
  | integer d =>
    obtain ⟨hne, hd⟩ | ⟨_, h, -⟩ := h
    · obtain ⟨c, d, rfl⟩ := List.exists_cons_of_ne_nil hne
      simp only [List.mem_cons, forall_eq_or_imp] at hd
      exact .integer hd.1 hd.2 hsep
    · cases h
  | unsigned d =>
    obtain ⟨hne, hd⟩ | ⟨_, h, -⟩ := h
    · obtain ⟨c, d, rfl⟩ := List.exists_cons_of_ne_nil hne
      simp only [List.mem_cons, forall_eq_or_imp] at hd
      rw [Piece.text, List.append_assoc]
      exact .unsigned hd.1 hd.2
    · cases h
  | float d f =>
    obtain ⟨hne, hd, hf⟩ | ⟨_, h, -⟩ := h
    · obtain ⟨c, d, rfl⟩ := List.exists_cons_of_ne_nil hne
      simp only [List.mem_cons, forall_eq_or_imp] at hd
      exact .float hd.1 hd.2 hf hsep
    · cases h
  | symbol c =>
    obtain ⟨hspace, halnum, hmark, -⟩ := isSymbol_facts h.symbol
    exact .symbol hspace halnum hmark

theorem Piece.Kept.not_complex {p : Piece} (h : p.Kept) : ∀ w, p = .identifier w → isComplex w = false := by
  rintro w rfl
  exact h

theorem Lexes.blanks {s rest blanks : List Char} {x : Lexeme} (hblanks : ∀ c ∈ blanks, isspace c = true)
    (h : Lexes s x rest) : Lexes (blanks ++ s) x rest := by
  induction blanks with
  | nil => exact h
  | cons c blanks ih =>
    simp only [List.mem_cons, forall_eq_or_imp] at hblanks
    exact .blank hblanks.1 (ih hblanks.2)

/-- What renders pieces has their lexemes. -/
theorem Renders.lexemes {ps : List Piece} {s : List Char} (h : Renders ps s)
    (hps : ∀ p ∈ ps, p.IsPiece ∧ p.Kept) :
    ∃ rest, Lexemes s (ps.map Piece.lexeme) rest ∧ ∀ c ∈ rest, isspace c = true := by
  induction h with
  | nil hblanks => exact ⟨_, .nil, hblanks⟩
  | cons hblanks hsep _ ih =>
    simp only [List.mem_cons, forall_eq_or_imp] at hps
    obtain ⟨rest, hls, hrest⟩ := ih hps.2
    exact ⟨rest, .cons ((hps.1.1.lexes hsep hps.1.2.not_complex).blanks hblanks) hls, hrest⟩

/-! ### Steps over pieces -/

/-- The parser on pieces. -/
def runOn (argValue : List Char) (st : Schedule) (ps : List Piece) : Except Failure Schedule :=
  (ps.map Piece.lexeme).foldlM (stepOn argValue) st

theorem runOn_nil {st : Schedule} : runOn text st [] = .ok st := rfl

theorem runOn_cons {st st' : Schedule} {p : Piece} {ps : List Piece} (h : stepOn text st p.lexeme = .ok st') :
    runOn text st (p :: ps) = runOn text st' ps := by
  unfold runOn
  rw [List.map_cons, List.foldlM_cons, h]
  rfl

theorem runOn_append {st st' : Schedule} {ps ps' : List Piece} (h : runOn text st ps = .ok st') :
    runOn text st (ps ++ ps') = runOn text st' ps' := by
  unfold runOn at *
  rw [List.map_append, List.foldlM_append, h]
  rfl

@[simp] theorem append_nil (st : Schedule) : st.append [] = st := by simp [Schedule.append]

@[simp] theorem append_append (st : Schedule) (w v : List Char) : (st.append w).append v = st.append (w ++ v) := by
  simp [Schedule.append]

/-- The counters are changed. -/
def Schedule.nest (st : Schedule) (parentheses curly : ℤ) : Schedule :=
  { st with
    parenthesesCnt := st.parenthesesCnt + parentheses
    curlyParenthesesCnt := st.curlyParenthesesCnt + curly }

@[simp] theorem nest_append (st : Schedule) (n m : ℤ) (w : List Char) : (st.nest n m).append w = (st.append w).nest n m := rfl

@[simp] theorem nest_nest (st : Schedule) (n m n' m' : ℤ) : (st.nest n m).nest n' m' = st.nest (n + n') (m + m') := by
  simp [Schedule.nest, add_assoc]

@[simp] theorem nest_zero (st : Schedule) : st.nest 0 0 = st := by simp [Schedule.nest]

@[simp] theorem nest_parenthesesCnt (st : Schedule) (n m : ℤ) : (st.nest n m).parenthesesCnt = st.parenthesesCnt + n := rfl

@[simp] theorem nest_curlyParenthesesCnt (st : Schedule) (n m : ℤ) :
    (st.nest n m).curlyParenthesesCnt = st.curlyParenthesesCnt + m := rfl

@[simp] theorem append_parenthesesCnt (st : Schedule) (w : List Char) : (st.append w).parenthesesCnt = st.parenthesesCnt := rfl

@[simp] theorem append_curlyParenthesesCnt (st : Schedule) (w : List Char) :
    (st.append w).curlyParenthesesCnt = st.curlyParenthesesCnt := rfl

/-- Pieces between delimiters are passed through. -/
theorem stepOn_plain {st : Schedule} {p : Piece} (h : p.IsPlainPiece) (hkept : p.Kept) :
    stepOn text st p.lexeme = .ok (st.append p.text) := by
  cases p with
  | identifier w | integer d | float d f => rfl
  | unsigned d => exact hkept.elim
  | symbol c =>
    replace h : isOperator c = true := h
    simp only [isOperator, Bool.or_eq_true, decide_eq_true_eq] at h
    rcases h with ((((rfl | rfl) | rfl) | rfl) | rfl) | rfl <;> rfl

theorem stepOn_comma {st : Schedule} (h : 0 < st.curlyParenthesesCnt ∨ 2 ≤ st.parenthesesCnt) :
    stepOn text st (Piece.symbol ',').lexeme = .ok (st.append [',']) := by
  show (if st.curlyParenthesesCnt > 0 then _ else if st.parenthesesCnt = 0 then _ else if st.parenthesesCnt = 1 then _ else _) = _
  by_cases hc : st.curlyParenthesesCnt > 0
  · rw [if_pos hc]
    rfl
  · rw [if_neg hc, if_neg (by omega), if_neg (by omega)]
    rfl

theorem stepOn_lparen {st : Schedule} (h : 1 ≤ st.parenthesesCnt) :
    stepOn text st (Piece.symbol '(').lexeme = .ok ((st.append ['(']).nest 1 0) := by
  show Except.ok _ = _
  rw [if_neg (show ¬ st.parenthesesCnt = 0 by omega)]
  simp [Schedule.nest, Schedule.append]
  rfl

theorem stepOn_rparen {st : Schedule} (h : 2 ≤ st.parenthesesCnt) :
    stepOn text st (Piece.symbol ')').lexeme = .ok ((st.append [')']).nest (-1) 0) := by
  show (if st.parenthesesCnt > 0 then _ else _) = _
  rw [if_pos (show st.parenthesesCnt > 0 by omega), if_pos (show st.parenthesesCnt > 1 by omega)]
  simp [Schedule.nest, Schedule.append, ← sub_eq_add_neg]
  rfl

theorem stepOn_lcurly {st : Schedule} : stepOn text st (Piece.symbol '\x7b').lexeme = .ok ((st.append ['\x7b']).nest 0 1) := by
  show Except.ok _ = _
  simp [Schedule.nest, Schedule.append]
  rfl

theorem stepOn_rcurly {st : Schedule} (h : 1 ≤ st.curlyParenthesesCnt) :
    stepOn text st (Piece.symbol '\x7d').lexeme = .ok ((st.append ['\x7d']).nest 0 (-1)) := by
  show (if st.curlyParenthesesCnt > 0 then _ else _) = _
  rw [if_pos (show st.curlyParenthesesCnt > 0 by omega)]
  simp [Schedule.nest, Schedule.append, ← sub_eq_add_neg]
  rfl

theorem textOf_cons (p : Piece) (ps : List Piece) : textOf (p :: ps) = p.text ++ textOf ps := rfl

theorem textOf_append (ps ps' : List Piece) : textOf (ps ++ ps') = textOf ps ++ textOf ps' := List.flatMap_append

/-- Within parentheses, pieces with balanced ones are passed through. -/
theorem runOn_nested {commas : Bool} {ps : List Piece} {st : Schedule} (h : Nested commas ps) (hkept : ∀ p ∈ ps, p.Kept)
    (hp : 1 ≤ st.parenthesesCnt) (hc : 0 ≤ st.curlyParenthesesCnt)
    (hcommas : commas = true → 0 < st.curlyParenthesesCnt ∨ 2 ≤ st.parenthesesCnt) :
    runOn text st ps = .ok (st.append (textOf ps)) := by
  induction h generalizing st with
  | nil => exact runOn_nil.trans (by rw [textOf, List.flatMap_nil, append_nil])
  | piece hplain _ ih =>
    simp only [List.mem_cons, forall_eq_or_imp] at hkept
    rw [runOn_cons (stepOn_plain hplain hkept.1), textOf_cons, ← append_append]
    exact ih hkept.2 hp hc hcommas
  | comma _ ih =>
    simp only [List.mem_cons, forall_eq_or_imp] at hkept
    rw [runOn_cons (stepOn_comma (hcommas rfl)), textOf_cons, ← append_append]
    exact ih hkept.2 hp hc hcommas
  | @parens commas ps ps' _ _ ih ih' =>
    simp only [List.mem_cons, List.mem_append, or_imp, forall_and] at hkept
    obtain ⟨-, hps, -, hps'⟩ := hkept
    have hin : runOn text ((st.append ['(']).nest 1 0) ps = .ok ((st.append ('(' :: textOf ps)).nest 1 0) :=
      (ih hps (by simp; omega) (by simpa using hc) fun _ => .inr (by simp; omega)).trans (by simp)
    have hclose : stepOn text ((st.append ('(' :: textOf ps)).nest 1 0) (Piece.symbol ')').lexeme =
        .ok (st.append ('(' :: (textOf ps ++ [')']))) := (stepOn_rparen (by simp; omega)).trans (by simp)
    have hafter := @ih' (st.append ('(' :: (textOf ps ++ [')']))) hps' hp hc hcommas
    rw [runOn_cons (stepOn_lparen hp), runOn_append hin, runOn_cons hclose, hafter]
    simp [textOf_cons, textOf_append, Piece.text]
  | @curly commas ps ps' _ _ ih ih' =>
    simp only [List.mem_cons, List.mem_append, or_imp, forall_and] at hkept
    obtain ⟨-, hps, -, hps'⟩ := hkept
    have hin : runOn text ((st.append ['\x7b']).nest 0 1) ps = .ok ((st.append ('\x7b' :: textOf ps)).nest 0 1) :=
      (ih hps (by simpa using hp) (by simp; omega) fun _ => .inl (by simp; omega)).trans (by simp)
    have hclose : stepOn text ((st.append ('\x7b' :: textOf ps)).nest 0 1) (Piece.symbol '\x7d').lexeme =
        .ok (st.append ('\x7b' :: (textOf ps ++ ['\x7d']))) := (stepOn_rcurly (by simp; omega)).trans (by simp)
    have hafter := @ih' (st.append ('\x7b' :: (textOf ps ++ ['\x7d']))) hps' hp hc hcommas
    rw [runOn_cons stepOn_lcurly, runOn_append hin, runOn_cons hclose, hafter]
    simp [textOf_cons, textOf_append, Piece.text]

/-! ### Arguments and directives -/

theorem textOf_eq_nil {ps : List Piece} (h : ∀ p ∈ ps, p.IsPiece) (hne : ps ≠ []) : textOf ps ≠ [] := by
  obtain ⟨p, ps, rfl⟩ := List.exists_cons_of_ne_nil hne
  have hp := h p (by simp)
  rw [textOf_cons]
  cases p with
  | identifier w =>
    obtain h | ⟨_, h, -⟩ := hp
    · rintro hnil
      obtain rfl : w = [] := (List.append_eq_nil_iff.mp hnil).1
      cases h
    · cases h
  | integer d =>
    obtain ⟨hd, -⟩ | ⟨_, h, -⟩ := hp
    · simp [Piece.text, hd]
    · cases h
  | unsigned d | float d f | symbol c => simp [Piece.text]

theorem commaSeparated_cons {ps ps' : List Piece} {pss : List (List Piece)} :
    commaSeparated (ps :: ps' :: pss) = ps ++ .symbol ',' :: commaSeparated (ps' :: pss) := by
  simp [commaSeparated]

theorem commaSeparated_single {ps : List Piece} : commaSeparated [ps] = ps := by simp [commaSeparated]

/-- The last element is not complete yet. -/
def Pending (st : Schedule) (schedule : List (List Char)) : Prop :=
  st.currentElement ≠ [] ∧ st.currentSchedule ++ [st.currentElement] = schedule

theorem runOn_args {args : List (List Piece)} {st : Schedule} (hne : args ≠ [])
    (hargs : ∀ arg ∈ args, arg ≠ [] ∧ Nested false arg) (hkept : ∀ p ∈ commaSeparated args, p.Kept)
    (hp : st.parenthesesCnt = 1) (hc : st.curlyParenthesesCnt = 0) (hst : st.currentElement = []) :
    ∃ st', runOn text st (commaSeparated args) = .ok st' ∧ st'.parenthesesCnt = 1 ∧ st'.curlyParenthesesCnt = 0 ∧
      st'.parsed = st.parsed ∧ Pending st' (st.currentSchedule ++ args.map textOf) := by
  induction args generalizing st with
  | nil => exact absurd rfl hne
  | cons arg args ih =>
    obtain ⟨hnil, hnested⟩ := hargs arg (by simp)
    have hne' := textOf_eq_nil hnested.isPiece hnil
    cases args with
    | nil =>
      rw [commaSeparated_single] at hkept ⊢
      refine ⟨_, runOn_nested hnested hkept (by omega) (by omega) (by simp), hp, hc, rfl, ?_⟩
      simpa [Pending, Schedule.append, hst] using hne'
    | cons arg' args =>
      rw [commaSeparated_cons] at hkept ⊢
      simp only [List.mem_append, List.mem_cons, or_imp, forall_and] at hkept
      have harg : runOn text st arg = _ := runOn_nested hnested hkept.1 (by omega) (by omega) (by simp)
      have hcomma : stepOn text (st.append (textOf arg)) (Piece.symbol ',').lexeme =
          .ok (st.append (textOf arg)).pushElement := by
        show (if st.curlyParenthesesCnt > 0 then _ else if st.parenthesesCnt = 0 then _ else if st.parenthesesCnt = 1 then _
          else _) = _
        rw [if_neg (by omega), if_neg (by omega), if_pos hp]
      have hrest : ∀ a ∈ arg' :: args, a ≠ [] ∧ Nested false a := fun a ha => hargs a (List.mem_cons_of_mem _ ha)
      obtain ⟨st', hst', hp', hc', hparsed, hpending⟩ := @ih (st.append (textOf arg)).pushElement (by simp) hrest
        hkept.2.2 hp hc rfl
      refine ⟨st', ?_, hp', hc', hparsed, ?_⟩
      · rw [runOn_append harg, runOn_cons hcomma, hst']
      · rw [show (st.append (textOf arg)).pushElement.currentSchedule = st.currentSchedule ++ [textOf arg] by
          simp [Schedule.append, Schedule.pushElement, hst]] at hpending
        simpa using hpending

/-- A directive is read, but for the completion of its last argument. -/
theorem runOn_directive {d : Directive} {st : Schedule} (h : d.WellFormed) (hkept : ∀ p ∈ d.pieces, p.Kept)
    (hp : st.parenthesesCnt = 0) (hc : st.curlyParenthesesCnt = 0) (hst : st.currentElement = [])
    (hst' : st.currentSchedule = []) :
    ∃ st', runOn text st d.pieces = .ok st' ∧ st'.parenthesesCnt = 0 ∧ st'.curlyParenthesesCnt = 0 ∧
      st'.parsed = st.parsed ∧ Pending st' d.strings := by
  simp only [Directive.pieces, List.mem_cons, List.mem_append, or_imp, forall_and] at hkept
  have hname : stepOn text st (Piece.identifier d.name).lexeme = .ok (st.append d.name) := rfl
  have hopen : stepOn text (st.append d.name) (Piece.symbol '(').lexeme = .ok ((st.append d.name).pushElement.nest 1 0) := by
    show Except.ok _ = _
    rw [if_pos (show (st.append d.name).parenthesesCnt = 0 from hp)]
    simp [Schedule.nest]
  obtain ⟨st', hargs, hp', hc', hparsed, hpending⟩ := @runOn_args text d.args ((st.append d.name).pushElement.nest 1 0)
    h.args_ne h.args hkept.2.2.1 (by simp [Schedule.pushElement, hp]) (by simp [Schedule.pushElement, hc]) rfl
  have hclose : stepOn text st' (Piece.symbol ')').lexeme = .ok (st'.nest (-1) 0) := by
    show (if st'.parenthesesCnt > 0 then _ else _) = _
    rw [if_pos (by omega), if_neg (by omega)]
    simp [Schedule.nest, ← sub_eq_add_neg]
  refine ⟨st'.nest (-1) 0, ?_, by simp [hp'], by simpa using hc', hparsed, ?_⟩
  · rw [Directive.pieces, runOn_cons hname, runOn_cons hopen, runOn_append hargs, runOn_cons hclose, runOn_nil]
  · simpa [Pending, Schedule.nest, Schedule.append, Schedule.pushElement, hst, hst', Directive.strings] using hpending

/-- All directives but the last are complete. -/
theorem runOn_schedule {ds : List Directive} {st : Schedule} (hne : ds ≠ []) (h : ∀ d ∈ ds, d.WellFormed)
    (hkept : ∀ p ∈ schedulePieces ds, p.Kept) (hp : st.parenthesesCnt = 0) (hc : st.curlyParenthesesCnt = 0)
    (hst : st.currentElement = []) (hst' : st.currentSchedule = []) :
    ∃ st', runOn text st (schedulePieces ds) = .ok st' ∧ st'.parenthesesCnt = 0 ∧
      ∃ schedule, Pending st' schedule ∧ st'.parsed ++ [schedule] = st.parsed ++ ds.map Directive.strings := by
  induction ds generalizing st with
  | nil => exact absurd rfl hne
  | cons d ds ih =>
    cases ds with
    | nil =>
      rw [schedulePieces, List.map_singleton, commaSeparated_single] at hkept ⊢
      obtain ⟨st', hrun, hp', -, hparsed, hpending⟩ := @runOn_directive text d st (h d (by simp)) hkept hp hc hst hst'
      exact ⟨st', hrun, hp', _, hpending, by rw [hparsed, List.map_singleton]⟩
    | cons d' ds =>
      rw [schedulePieces, List.map_cons, List.map_cons, commaSeparated_cons] at hkept ⊢
      simp only [List.mem_append, List.mem_cons, or_imp, forall_and] at hkept
      obtain ⟨st', hrun, hp', hc', hparsed, hpending⟩ := @runOn_directive text d st (h d (by simp)) hkept.1 hp hc hst hst'
      have hcomma : stepOn text st' (Piece.symbol ',').lexeme = .ok st'.pushElement.pushSchedule := by
        show (if st'.curlyParenthesesCnt > 0 then _ else if st'.parenthesesCnt = 0 then _ else if st'.parenthesesCnt = 1 then _
          else _) = _
        rw [if_neg (by omega), if_pos hp']
      have hrest : ∀ d ∈ d' :: ds, d.WellFormed := fun e he => h e (List.mem_cons_of_mem _ he)
      obtain ⟨st'', hrun', hp'', schedule, hpending', hparsed'⟩ := @ih st'.pushElement.pushSchedule (by simp) hrest
        hkept.2.2 hp' hc' rfl rfl
      refine ⟨st'', ?_, hp'', schedule, hpending', ?_⟩
      · rw [runOn_append hrun, runOn_cons hcomma]
        exact hrun'
      · rw [hparsed', show st'.pushElement.pushSchedule.parsed = st'.parsed ++ [d.strings] by
          rw [← hpending.2]
          rfl, hparsed]
        simp

theorem scheduleEnd_pending {st : Schedule} {schedule : List (List Char)} (hp : st.parenthesesCnt = 0)
    (h : Pending st schedule) : scheduleEnd text st = .ok (st.parsed ++ [schedule]) := by
  obtain ⟨hne, rfl⟩ := h
  unfold scheduleEnd
  rw [if_pos hp, if_pos (List.length_pos_iff.mpr hne)]
  show Except.ok (if st.pushElement.currentSchedule.length > 0 then st.pushElement.pushSchedule else st.pushElement).parsed = _
  rw [if_pos (by simp [Schedule.pushElement])]
  rfl

/-- What the lexer sees to the end is read back, if all of its pieces are kept. -/
theorem parses_of_renders {ds : List Directive} (h : ∀ d ∈ ds, d.WellFormed) (hrenders : Renders (schedulePieces ds) (seen text))
    (hsize : 0 ≤ size text) (hkept : ∀ p ∈ schedulePieces ds, p.Kept) :
    ∃ fuel, scheduleParser fuel text = pure (ds.map Directive.strings) := by
  obtain ⟨rest, hls, hrest⟩ := hrenders.lexemes fun p hp => ⟨isPiece_schedule h p hp, hkept p hp⟩
  have hlexed : Lexed text _ rest := ⟨hls, fun _ => hsize⟩
  refine scheduleParser_ok.mpr ⟨(schedulePieces ds).map Piece.lexeme, rest, ?_⟩
  by_cases hds : ds = []
  · subst hds
    exact ⟨.init, hlexed, .inl ⟨hrest, hsize⟩, rfl, rfl⟩
  · obtain ⟨st, hrun, hp, schedule, hpending, hparsed⟩ := @runOn_schedule text ds .init hds h hkept rfl rfl rfl rfl
    refine ⟨st, hlexed, .inl ⟨hrest, hsize⟩, hrun, ?_⟩
    rw [scheduleEnd_pending hp hpending, hparsed]
    rfl

end Parser
end Taco
