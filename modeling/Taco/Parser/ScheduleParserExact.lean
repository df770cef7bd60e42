import Taco.Parser.ScheduleParserReads

/-! When the parser of schedule directives reads printed directives back, and rejects what is not balanced. -/

namespace Taco
namespace Parser

variable {text : List Char}

/-! ### Counted characters -/

/-- The characters that a schedule is divided at, and one of each word that the lexer drops. -/
def isCounted (c : Char) : Bool := c = '(' || c = ')' || c = ',' || c = 'u' || c = 'x'

def countedIn (s : List Char) : ℕ := s.countP isCounted

@[simp] theorem countedIn_nil : countedIn [] = 0 := rfl

@[simp] theorem countedIn_append (s s' : List Char) : countedIn (s ++ s') = countedIn s + countedIn s' := List.countP_append

theorem countedIn_cons (c : Char) (s : List Char) : countedIn (c :: s) = countedIn s + if isCounted c then 1 else 0 :=
  List.countP_cons

theorem countedIn_filter_le (p : Char → Bool) (s : List Char) : countedIn (s.filter p) ≤ countedIn s :=
  List.filter_sublist.countP_le

theorem isCounted_blank {c : Char} (h : isspace c = true) : isCounted c = false := by
  rw [Bool.eq_false_iff]
  intro hc
  simp only [isCounted, Bool.or_eq_true, decide_eq_true_eq] at hc
  rcases hc with (((rfl | rfl) | rfl) | rfl) | rfl <;> cases h

theorem countedIn_blanks {s : List Char} (h : ∀ c ∈ s, isspace c = true) : countedIn s = 0 :=
  List.countP_eq_zero.mpr fun c hc => by simp [isCounted_blank (h c hc)]

/-- What is passed to the element of a lexeme. -/
def passed (x : Lexeme) : List Char := if hasWord x.token then x.identifier else tokenText x.token

/-- The lexer drops a part of the word. -/
def lost (x : Lexeme) : ℕ := if x.token = .complex_scalar ∨ x.token = .uint_scalar then 1 else 0

theorem lost_symbol (c : Option Char) : lost ⟨symbol c, []⟩ = 0 := by
  unfold symbol
  split <;> rfl

theorem passed_symbol (c : Char) : countedIn (passed ⟨symbol (some c), []⟩) ≤ countedIn [c] := by
  rw [passed, if_neg (by simp [hasWord_symbol])]
  unfold symbol
  split <;> rename_i heq <;> cases heq <;> first | exact le_rfl | exact Nat.zero_le _

/-- A lexeme has no more counted characters than its text, and less if a part is dropped. -/
theorem Lexes.counted {s rest : List Char} {x : Lexeme} (h : Lexes s x rest) :
    countedIn rest + countedIn (passed x) + lost x ≤ countedIn s := by
  induction h with
  | blank hc _ ih => rwa [countedIn_cons, isCounted_blank hc]
  | @identifier c w rest =>
    rw [countedIn_append, show passed ⟨.identifier, c :: w⟩ = c :: w from rfl, show lost ⟨.identifier, c :: w⟩ = 0 from rfl]
    omega
  | @complex w c body rest hw =>
    have hbody := countedIn_filter_le (!isspace ·) body
    have hword : 1 ≤ countedIn w := by
      simp only [isComplex, Bool.or_eq_true, decide_eq_true_eq] at hw
      rcases hw with rfl | rfl <;> decide
    rw [show passed ⟨.complex_scalar, c :: body.filter (!isspace ·) ++ [')']⟩ = c :: body.filter (!isspace ·) ++ [')'] from rfl,
      show lost ⟨.complex_scalar, c :: body.filter (!isspace ·) ++ [')']⟩ = 1 from rfl]
    simp only [countedIn_append, countedIn_cons, countedIn_nil, List.cons_append]
    omega
  | @integer c d rest =>
    rw [countedIn_append, show passed ⟨.int_scalar, c :: d⟩ = c :: d from rfl, show lost ⟨.int_scalar, c :: d⟩ = 0 from rfl]
    omega
  | @unsigned c d rest =>
    rw [countedIn_append, show passed ⟨.uint_scalar, c :: d⟩ = c :: d from rfl, show lost ⟨.uint_scalar, c :: d⟩ = 1 from rfl,
      countedIn_cons 'u', if_pos (by decide)]
    omega
  | @float c d f rest =>
    rw [countedIn_append, show passed ⟨.float_scalar, c :: d ++ '.' :: f⟩ = c :: d ++ '.' :: f from rfl,
      show lost ⟨.float_scalar, c :: d ++ '.' :: f⟩ = 0 from rfl]
    omega
  | @symbol c rest =>
    have hpassed := passed_symbol c
    rw [countedIn_cons, countedIn_nil, Nat.zero_add] at hpassed
    rw [countedIn_cons, lost_symbol]
    omega

def passedBy (ls : List Lexeme) : ℕ := (ls.map fun x => countedIn (passed x)).sum

theorem Lexemes.counted {s rest : List Char} {ls : List Lexeme} (h : Lexemes s ls rest) :
    countedIn rest + passedBy ls + (ls.map lost).sum ≤ countedIn s := by
  induction h with
  | nil => simp [passedBy]
  | cons hx _ ih =>
    have hx' := hx.counted
    simp only [passedBy, List.map_cons, List.sum_cons] at ih ⊢
    omega

/-! ### Counted characters of schedules -/

def elements (schedule : List (List Char)) : ℕ := (schedule.map countedIn).sum + schedule.length

/-- The counted characters of a printed directive, and of a comma behind it. -/
def value (schedule : List (List Char)) : ℕ := elements schedule + if 2 ≤ schedule.length then 1 else 0

/-- The parenthesis that closes a directive. -/
def closing (schedule : List (List Char)) (parenthesesCnt : ℤ) : ℕ := if schedule ≠ [] ∧ parenthesesCnt = 0 then 1 else 0

def potential (st : Schedule) : ℕ :=
  countedIn st.currentElement + elements st.currentSchedule + closing st.currentSchedule st.parenthesesCnt +
    (st.parsed.map value).sum

@[simp] theorem closing_nil (n : ℤ) : closing [] n = 0 := if_neg (by simp)

theorem closing_le (schedule : List (List Char)) (n : ℤ) : closing schedule n ≤ 1 := by
  unfold closing
  split <;> omega

theorem closing_of_ne {schedule : List (List Char)} {n : ℤ} (h : n ≠ 0) : closing schedule n = 0 := if_neg fun h' => h h'.2

@[simp] theorem elements_nil : elements [] = 0 := rfl

@[simp] theorem elements_append (schedule : List (List Char)) (element : List Char) :
    elements (schedule ++ [element]) = elements schedule + countedIn element + 1 := by
  simp [elements]
  omega

theorem value_append {schedule : List (List Char)} {element : List Char} :
    value (schedule ++ [element]) = elements schedule + countedIn element + 1 + closing schedule 0 := by
  unfold value closing
  rw [elements_append]
  cases schedule <;> simp

theorem value_le {schedule : List (List Char)} : value schedule ≤ elements schedule + 1 := by
  unfold value
  split <;> omega

theorem potential_append (st : Schedule) (w : List Char) : potential (st.append w) = potential st + countedIn w := by
  unfold potential
  simp only [Schedule.append, countedIn_append]
  omega

/-- A directive that is complete adds one. -/
theorem potential_pushSchedule {st : Schedule} (h : st.parenthesesCnt = 0) :
    potential st.pushElement.pushSchedule = potential st + 1 := by
  have hvalue := @value_append st.currentSchedule st.currentElement
  unfold potential
  simp only [Schedule.pushElement, Schedule.pushSchedule, List.map_append, List.map_cons, List.map_nil, List.sum_append,
    List.sum_cons, List.sum_nil, h, countedIn_nil, elements_nil, closing_nil]
  omega

/-- A lexeme adds no more than the counted characters that it passes. -/
theorem potential_step {st st' : Schedule} {x : Lexeme} (hp : 0 ≤ st.parenthesesCnt) (h : stepOn text st x = .ok st') :
    potential st' ≤ potential st + countedIn (passed x) := by
  obtain ⟨token, word⟩ := x
  unfold stepOn scheduleStep at h
  cases token
  case lparen =>
    cases h
    have hpassed : countedIn (passed ⟨.lparen, word⟩) = 1 := by
      change countedIn (tokenText .lparen) = 1
      decide
    rw [hpassed]
    by_cases h0 : st.parenthesesCnt = 0
    · simp only [if_pos h0, potential, Schedule.pushElement, elements_append, countedIn_nil]
      have hclosing := @closing_of_ne (st.currentSchedule ++ [st.currentElement]) (st.parenthesesCnt + 1) (by omega)
      omega
    · simp only [if_neg h0, potential, Schedule.append, countedIn_append]
      have hclosing := @closing_of_ne st.currentSchedule (st.parenthesesCnt + 1) (by omega)
      have htext : countedIn (tokenText .lparen) = 1 := hpassed
      omega
  case rparen =>
    dsimp only at h
    have hpassed : countedIn (passed ⟨.rparen, word⟩) = 1 := by
      change countedIn (tokenText .rparen) = 1
      decide
    rw [hpassed]
    split_ifs at h with h0 h1
    · cases h
      simp only [potential, Schedule.append, countedIn_append]
      have hclosing := @closing_of_ne st.currentSchedule (st.parenthesesCnt - 1) (by omega)
      have htext : countedIn (tokenText .rparen) = 1 := hpassed
      omega
    · cases h
      simp only [potential]
      have hclosing := closing_le st.currentSchedule (st.parenthesesCnt - 1)
      omega
  case comma =>
    dsimp only at h
    have hpassed : countedIn (passed ⟨.comma, word⟩) = 1 := by
      change countedIn (tokenText .comma) = 1
      decide
    rw [hpassed]
    split_ifs at h with hc h0 h1
    · cases h
      exact (potential_append st _).le.trans (by rw [show countedIn (tokenText .comma) = 1 from hpassed])
    · cases h
      rw [potential_pushSchedule h0]
    · cases h
      simp only [potential, Schedule.pushElement, elements_append, countedIn_nil]
      have hclosing := @closing_of_ne (st.currentSchedule ++ [st.currentElement]) st.parenthesesCnt (by omega)
      omega
    · cases h
      exact (potential_append st _).le.trans (by rw [show countedIn (tokenText .comma) = 1 from hpassed])
  case rcurly =>
    dsimp only at h
    split_ifs at h
    cases h
    exact (potential_append st _).le
  all_goals
    cases h
    exact (potential_append st _).le

theorem potential_fold {ls : List Lexeme} {st : Schedule} (h : ls.foldlM (stepOn text) .init = .ok st) :
    potential st ≤ passedBy ls := by
  induction ls using List.reverseRecOn generalizing st with
  | nil =>
    cases h
    exact le_rfl
  | append_singleton ls x ih =>
    obtain ⟨st', hls, hx⟩ := foldlM_concat_ok.mp h
    have hgrow := potential_step (counts_fold hls).parentheses_nonneg hx
    have hls' := ih hls
    simp only [passedBy, List.map_append, List.map_cons, List.map_nil, List.sum_append, List.sum_cons, List.sum_nil] at hls' ⊢
    omega

/-- The result has no more counted characters than were passed. -/
theorem value_result {st : Schedule} {result : List (List (List Char))} (h : scheduleEnd text st = .ok result) :
    (result.map value).sum ≤ potential st + 1 := by
  unfold scheduleEnd at h
  split_ifs at h with hp hel
  · have hpush : st.pushElement.currentSchedule.length > 0 := by simp [Schedule.pushElement]
    dsimp only at h
    rw [if_pos hpush] at h
    cases h
    have hvalue := @value_append st.currentSchedule st.currentElement
    simp only [potential, Schedule.pushElement, Schedule.pushSchedule, List.map_append, List.map_cons, List.map_nil,
      List.sum_append, List.sum_cons, List.sum_nil, hp]
    omega
  · dsimp only at h
    split_ifs at h
    · cases h
      have hvalue := @value_le st.currentSchedule
      simp only [potential, Schedule.pushSchedule, List.map_append, List.map_cons, List.map_nil, List.sum_append,
        List.sum_cons, List.sum_nil]
      omega
    · cases h
      unfold potential
      omega

/-! ### Counted characters of printed directives -/

theorem countedIn_commaSeparated {pss : List (List Piece)} (hne : pss ≠ []) :
    countedIn (textOf (commaSeparated pss)) + 1 = (pss.map fun ps => countedIn (textOf ps) + 1).sum := by
  induction pss with
  | nil => exact absurd rfl hne
  | cons ps pss ih =>
    cases pss with
    | nil => simp [commaSeparated_single]
    | cons ps' pss =>
      have hcomma : countedIn (Piece.symbol ',').text = 1 := by decide
      have hrest := ih (by simp)
      rw [commaSeparated_cons, textOf_append, textOf_cons, countedIn_append, countedIn_append, hcomma, List.map_cons,
        List.sum_cons]
      omega

theorem value_strings {d : Directive} (h : d.WellFormed) : value d.strings = countedIn (textOf d.pieces) + 1 := by
  have hargs := countedIn_commaSeparated h.args_ne
  have hlen : 2 ≤ d.strings.length := by
    have := List.length_pos_iff.mpr h.args_ne
    simp only [Directive.strings, List.length_cons, List.length_map]
    omega
  have hopen : countedIn (Piece.symbol '(').text = 1 := by decide
  have hclose : countedIn (textOf [Piece.symbol ')']) = 1 := by decide
  rw [List.sum_map_add, List.map_const', List.sum_replicate, smul_eq_mul, mul_one] at hargs
  rw [value, if_pos hlen, Directive.pieces, textOf_cons, textOf_cons, textOf_append, countedIn_append, countedIn_append,
    countedIn_append, hopen, hclose]
  simp only [elements, Directive.strings, List.map_cons, List.map_map, List.sum_cons, List.length_cons, List.length_map,
    Function.comp_def, Piece.text]
  omega

theorem value_schedule {ds : List Directive} (hne : ds ≠ []) (h : ∀ d ∈ ds, d.WellFormed) :
    ((ds.map Directive.strings).map value).sum = countedIn (textOf (schedulePieces ds)) + 1 := by
  rw [schedulePieces, countedIn_commaSeparated (by simpa using hne), List.map_map, List.map_map]
  exact congrArg List.sum (List.map_congr_left fun d hd => value_strings (h d hd))

theorem Renders.countedIn_eq {ps : List Piece} {s : List Char} (h : Renders ps s) : countedIn s = countedIn (textOf ps) := by
  induction h with
  | nil hblanks => exact countedIn_blanks hblanks
  | cons hblanks _ _ ih =>
    rw [countedIn_append, countedIn_append, countedIn_blanks hblanks, textOf_cons, countedIn_append, ih, Nat.zero_add]

/-! ### What is behind the last character -/

theorem suffix_of_not_mem {t u r : List Char} {c : Char} (h : t <:+ u ++ c :: r) (hc : c ∉ t) : t <:+ r := by
  rcases List.suffix_or_suffix_of_suffix h (List.suffix_append u (c :: r)) with hsuffix | hsuffix
  · rcases List.suffix_cons_iff.mp hsuffix with rfl | hsuffix
    · simp at hc
    · exact hsuffix
  · exact absurd (hsuffix.subset (List.mem_cons_self ..)) hc

theorem Piece.IsPiece.solid {p : Piece} (h : p.IsPiece) : ∃ init c, p.text = init ++ [c] ∧ isspace c = false := by
  have hne : p.text ≠ [] := by simpa [textOf] using textOf_eq_nil (show ∀ q ∈ [p], q.IsPiece by simpa using h) (by simp)
  have hall : ∀ c ∈ p.text, isspace c = false := by
    cases p with
    | identifier w =>
      obtain h | ⟨_, h, -⟩ := h
      · exact fun c hc => isspace_alnum ((isIdentifier_alnum h).2 c hc)
      · cases h
    | integer d =>
      obtain ⟨-, hd⟩ | ⟨_, h, -⟩ := h
      · exact fun c hc => isspace_alnum (isalnum_digit (hd c hc))
      · cases h
    | unsigned d =>
      obtain ⟨-, hd⟩ | ⟨_, h, -⟩ := h
      · simp only [Piece.text, List.mem_append, List.mem_singleton]
        rintro c (hc | rfl)
        · exact isspace_alnum (isalnum_digit (hd c hc))
        · decide
      · cases h
    | float d f =>
      obtain ⟨-, hd, hf⟩ | ⟨_, h, -⟩ := h
      · simp only [Piece.text, List.mem_append, List.mem_cons]
        rintro c (hc | rfl | hc)
        · exact isspace_alnum (isalnum_digit (hd c hc))
        · decide
        · exact isspace_alnum (isalnum_digit (hf c hc))
      · cases h
    | symbol c =>
      simp only [Piece.text, List.mem_singleton, forall_eq]
      exact (isSymbol_facts h.symbol).1
  exact ⟨_, _, (List.dropLast_append_getLast hne).symm, hall _ (List.getLast_mem hne)⟩

theorem Stops.of_append {p : Char → Bool} {s t : List Char} (h : Stops p (s ++ t)) : Stops p s := by
  cases s with
  | nil => simp [Stops]
  | cons c s => exact h

theorem Piece.Separated.of_append {p : Piece} {s t : List Char} (h : p.Separated (s ++ t)) : p.Separated s := by
  cases p with
  | identifier _ | integer _ | float _ _ => exact Stops.of_append h
  | unsigned _ | symbol _ => trivial

/-- Blanks at the end of a text may be left out. -/
theorem Renders.of_append {ps : List Piece} {u s t : List Char} (h : Renders ps u) (hps : ∀ p ∈ ps, p.IsPiece)
    (hu : u = s ++ t) (ht : ∀ c ∈ t, isspace c = true) : Renders ps s := by
  induction h generalizing s with
  | nil hblanks =>
    subst hu
    exact .nil fun c hc => hblanks c (List.mem_append_left _ hc)
  | @cons blanks rest p ps hblanks hsep _ ih =>
    simp only [List.mem_cons, forall_eq_or_imp] at hps
    obtain ⟨init, c, htext, hc⟩ := hps.1.solid
    have hsuffix : t <:+ (blanks ++ init) ++ c :: rest := ⟨s, by rw [← hu, htext]; simp⟩
    obtain ⟨s', rfl⟩ := suffix_of_not_mem hsuffix fun hmem => by
      rw [ht c hmem] at hc
      cases hc
    have hs : s = blanks ++ (p.text ++ s') := by
      rw [← List.append_assoc, ← List.append_assoc] at hu
      rw [← List.append_cancel_right hu, List.append_assoc]
    rw [hs]
    exact .cons hblanks hsep.of_append (ih hps.2 rfl)

/-- A text of pieces of which the last is a parenthesis ends with that. -/
theorem Renders.ends {ps : List Piece} {s : List Char} (h : Renders (ps ++ [.symbol ')']) s) :
    ∃ before blanks, s = before ++ ')' :: blanks ∧ ∀ c ∈ blanks, isspace c = true := by
  induction ps generalizing s with
  | nil =>
    cases h with
    | cons _ _ h =>
      cases h with
      | nil hblanks => exact ⟨_, _, rfl, hblanks⟩
  | cons p ps ih =>
    cases h with
    | @cons blanks rest _ _ _ _ h =>
      obtain ⟨before, blanks', rfl, hblanks'⟩ := ih h
      exact ⟨blanks ++ (p.text ++ before), blanks', by simp, hblanks'⟩

theorem commaSeparated_ends {pss : List (List Piece)} {p : Piece} (hne : pss ≠ []) (h : ∀ ps ∈ pss, ∃ init, ps = init ++ [p]) :
    ∃ init, commaSeparated pss = init ++ [p] := by
  induction pss with
  | nil => exact absurd rfl hne
  | cons ps pss ih =>
    cases pss with
    | nil =>
      rw [commaSeparated_single]
      exact h ps (by simp)
    | cons ps' pss =>
      obtain ⟨init, hinit⟩ := ih (by simp) fun ps hps => h ps (List.mem_cons_of_mem _ hps)
      rw [commaSeparated_cons, hinit]
      exact ⟨ps ++ .symbol ',' :: init, by simp⟩

theorem schedulePieces_ends {ds : List Directive} (hne : ds ≠ []) : ∃ init, schedulePieces ds = init ++ [.symbol ')'] := by
  refine commaSeparated_ends (by simpa using hne) fun ps hps => ?_
  obtain ⟨d, -, rfl⟩ := List.mem_map.mp hps
  exact ⟨.identifier d.name :: .symbol '(' :: commaSeparated d.args, by simp [Directive.pieces]⟩

/-- The end of a printed schedule has counted characters, or only blanks. -/
theorem blank_of_counted {ps : List Piece} {s t : List Char} (h : Renders (ps ++ [.symbol ')']) s) (ht : t <:+ s)
    (hcount : countedIn t = 0) : ∀ c ∈ t, isspace c = true := by
  obtain ⟨before, blanks, rfl, hblanks⟩ := h.ends
  have hparen : ')' ∉ t := fun hmem => absurd (List.countP_eq_zero.mp hcount ')' hmem) (by decide)
  exact fun c hc => hblanks c ((suffix_of_not_mem ht hparen).subset hc)

/-! ### What is kept -/

theorem Lexes.of_blanks {s rest blanks : List Char} {x : Lexeme} (hblanks : ∀ c ∈ blanks, isspace c = true)
    (h : Lexes (blanks ++ s) x rest) : Lexes s x rest :=
  lexes_of_scan ((scan_blanks hblanks).symm.trans (@Lexes.scan [] _ _ _ h (shown_of_nonneg (by decide)))) h.token_ne

theorem token_of_isComplex {w rest rest' : List Char} {x : Lexeme} (hw : isComplex w = true) (hstops : Stops isalnum rest)
    (h : Lexes (w ++ rest) x rest') : x.token = .complex_scalar := by
  obtain ⟨c, v, rfl, hc, hv⟩ := isComplex_cons hw
  have hscan := @Lexes.scan [] _ _ _ h (shown_of_nonneg (by decide))
  rw [List.cons_append, scan_alpha hc, scanWord_cons, takeWhile_of_stops hv hstops, dropWhile_of_stops hv hstops,
    shown_of_nonneg (by decide), Option.bind_some, if_pos hw] at hscan
  split_ifs at hscan
  obtain ⟨after, -, heq⟩ := Option.map_eq_some_iff.mp hscan
  cases heq
  rfl

/-- If nothing is dropped of the pieces up to the end, all of them are kept. -/
theorem Renders.kept {ps : List Piece} {s rest : List Char} {ls : List Lexeme} (h : Renders ps s)
    (hps : ∀ p ∈ ps, p.IsPiece) (hls : Lexemes s ls rest) (hrest : ∀ c ∈ rest, isspace c = true)
    (hlost : ∀ x ∈ ls, lost x = 0) : ∀ p ∈ ps, p.Kept := by
  induction h generalizing ls with
  | nil => simp
  | @cons blanks after p ps hblanks hsep _ ih =>
    simp only [List.mem_cons, forall_eq_or_imp] at hps ⊢
    cases hls with
    | nil =>
      obtain ⟨init, c, htext, hc⟩ := hps.1.solid
      rw [hrest c (by simp [htext])] at hc
      cases hc
    | @cons _ _ _ x ls hx hls =>
      simp only [List.mem_cons, forall_eq_or_imp] at hlost
      have hlexes := Lexes.of_blanks hblanks hx
      have hcomplex : ∀ w, p = .identifier w → isComplex w = false := by
        rintro w rfl
        rw [Bool.eq_false_iff]
        intro hw
        have hlost' := hlost.1
        rw [lost, if_pos (.inl (token_of_isComplex hw hsep hlexes))] at hlost'
        cases hlost'
      obtain ⟨rfl, rfl⟩ := hlexes.unique (hps.1.lexes hsep hcomplex)
      refine ⟨?_, ih hps.2 hls hlost.2⟩
      cases p with
      | identifier w => exact hcomplex w rfl
      | unsigned d => exact absurd (show 1 = 0 from hlost.1) (by decide)
      | integer d | float d f | symbol c => trivial

/-! ### What is read back -/

theorem size_of_ended {rest : List Char} (h : Ended text rest) (hrest : ∀ c ∈ rest, isspace c = true) : 0 ≤ size text := by
  obtain ⟨-, hsize⟩ | ⟨blanks, more, -, rfl, -⟩ := h
  · exact hsize
  · have hmark := hrest '\xff' (by simp)
    cases hmark

/-- If printed directives are read back, then the lexer has seen all of their text, and all of their pieces are kept. -/
theorem renders_of_parses {ds : List Directive} (h : ∀ d ∈ ds, d.WellFormed) (hrenders : Renders (schedulePieces ds) text)
    (hparse : ∃ fuel, scheduleParser fuel text = pure (ds.map Directive.strings)) :
    Renders (schedulePieces ds) (seen text) ∧ 0 ≤ size text ∧ ∀ p ∈ schedulePieces ds, p.Kept := by
  obtain ⟨ls, rest, st, ⟨hls, -⟩, hended, hfold, hend⟩ := scheduleParser_ok.mp hparse
  obtain ⟨tail, htail⟩ := seen_begins text
  have hpieces := isPiece_schedule h
  by_cases hds : ds = []
  · subst hds
    have hblank : ∀ c ∈ text, isspace c = true := by
      cases hrenders with
      | nil hblanks => exact hblanks
    have hseen : ∀ c ∈ seen text, isspace c = true := fun c hc => hblank c ((seen_begins text).subset hc)
    exact ⟨.nil hseen, size_of_ended hended fun c hc => hseen c (hls.suffix.subset hc), by simp [schedulePieces, commaSeparated]⟩
  · obtain ⟨init, hinit⟩ := schedulePieces_ends hds
    -- The result has all that is counted in the text, so nothing of that is dropped or left.
    have hvalue := value_schedule hds h
    have hresult := value_result hend
    have hpassed := potential_fold hfold
    have hcounted := hls.counted
    have htext : countedIn (seen text) + countedIn tail = countedIn (textOf (schedulePieces ds)) := by
      rw [← countedIn_append, htail, hrenders.countedIn_eq]
    have hblank : ∀ c ∈ tail, isspace c = true :=
      blank_of_counted (hinit ▸ hrenders) ⟨_, htail⟩ (by omega)
    have hseen := hrenders.of_append hpieces htail.symm hblank
    have hrest : ∀ c ∈ rest, isspace c = true := blank_of_counted (hinit ▸ hseen) hls.suffix (by omega)
    have hlost : ∀ x ∈ ls, lost x = 0 := fun x hx =>
      Nat.le_zero.mp ((List.single_le_sum (by simp) _ (List.mem_map_of_mem hx)).trans (by omega))
    exact ⟨hseen, size_of_ended hended hrest, hseen.kept hpieces hls hrest hlost⟩

/-- Printed directives are read back if and only if all of their text is seen, and no word of complex literals and no
    unsigned number is in it; and of the texts that are not balanced those are rejected that are mismatched, which a curly
    brace that is left open is not. -/
theorem schedule_reread_iff (text : List Char) :
    (∀ ds, (∀ d ∈ ds, d.WellFormed) → Renders (schedulePieces ds) text →
      ((∃ fuel, scheduleParser fuel text = pure (ds.map Directive.strings)) ↔
        Renders (schedulePieces ds) (seen text) ∧ 0 ≤ size text ∧ ∀ p ∈ schedulePieces ds, p.Kept)) ∧
    (¬ Balanced text → ((∃ fuel e, scheduleParser fuel text = throw e) ↔ Mismatched text)) :=
  ⟨fun _ h hrenders => ⟨renders_of_parses h hrenders, fun ⟨hseen, hsize, hkept⟩ => parses_of_renders h hseen hsize hkept⟩,
    fun _ => rejected_iff⟩

theorem Renders.tight {rest : List Char} {p : Piece} {ps : List Piece} (hsep : p.Separated rest) (h : Renders ps rest) :
    Renders (p :: ps) (p.text ++ rest) := @Renders.cons [] rest p ps (by simp) hsep h

/-- The commas of a list in curly braces divide no arguments. -/
theorem curlyList_reread : ∃ fuel, scheduleParser fuel ['a', '(', '\x7b', 'b', ',', 'c', '\x7d', ')'] =
    pure [[['a'], ['\x7b', 'b', ',', 'c', '\x7d']]] := by
  obtain ⟨hsize, hseen⟩ := @seen_of_le ['a', '(', '\x7b', 'b', ',', 'c', '\x7d', ')'] (by decide)
  have hwf : ∀ d ∈ [Directive.mk ['a'] [[.symbol '\x7b', .identifier ['b'], .symbol ',', .identifier ['c'], .symbol '\x7d']]],
      d.WellFormed := by
    simp only [List.mem_singleton, forall_eq]
    refine ⟨rfl, by simp, ?_⟩
    simp only [List.mem_singleton, forall_eq]
    exact ⟨by simp, @Nested.curly _ [_, _, _] _ (.piece (by rfl) (.comma (.piece (by rfl) .nil))) .nil⟩
  have hrenders : Renders (schedulePieces [Directive.mk ['a'] [[.symbol '\x7b', .identifier ['b'], .symbol ',', .identifier ['c'],
      .symbol '\x7d']]]) ['a', '(', '\x7b', 'b', ',', 'c', '\x7d', ')'] :=
    .tight (stops_head rfl) (.tight trivial (.tight trivial (.tight (stops_head rfl) (.tight trivial
      (.tight (stops_head rfl) (.tight trivial (.tight trivial (.nil (by simp)))))))))
  exact ((schedule_reread_iff _).1 _ hwf hrenders).mpr ⟨hseen.symm ▸ hrenders, hsize, by
    simp [schedulePieces, commaSeparated, Directive.pieces, Piece.Kept, isComplex]⟩

/-- A lexeme begins with no end. -/
theorem Ended.not_lexes {s rest : List Char} {x : Lexeme} (h : Ended text s) (hx : Lexes s x rest) (hrest : shown text rest = some rest) :
    False := by
  obtain ⟨y, rest', hscan, hy⟩ := ended_iff.mp h
  rw [hx.scan hrest] at hscan
  cases hscan
  exact hx.token_ne hy

/-- If no parenthesis is left open where the lexemes end, the text is not mismatched. -/
theorem not_mismatched {ls : List Lexeme} {rest : List Char} {st : Schedule} (hls : Lexed text ls rest) (hended : Ended text rest)
    (hfold : ls.foldlM (stepOn text) .init = .ok st) (h0 : st.parenthesesCnt = 0) : ¬ Mismatched text := by
  rintro ⟨ls', rest', hls', hexcess⟩
  have hbegin : ∃ more, ls = ls' ++ more ∧ Lexemes rest' more rest := by
    rcases hls'.1.total hls.1 with h | ⟨more, rfl, hmore⟩
    · exact h
    · cases hmore with
      | nil => exact ⟨[], by simp, .nil⟩
      | cons hx hmore => exact (hended.not_lexes hx (hmore.shown (lexed_shown hls'))).elim
  obtain ⟨more, rfl, hmore⟩ := hbegin
  rw [List.foldlM_append] at hfold
  match hfold' : ls'.foldlM (stepOn text) .init, hfold with
  | .ok st', hfold =>
    obtain ⟨hp, hc, hpn, hcn⟩ := counts_fold hfold'
    rcases hexcess with hneg | hneg | ⟨hended', hpos⟩
    · omega
    · omega
    · cases hmore with
      | nil =>
        cases hfold
        omega
      | cons hx hmore => exact hended'.not_lexes hx (hmore.shown (lexed_shown hls))

/-- A curly brace that is left open is not rejected. -/
theorem curly_left_open : ¬ ((∀ ds text, (∀ d ∈ ds, d.WellFormed) → Renders (schedulePieces ds) text →
      ∃ fuel, scheduleParser fuel text = pure (ds.map Directive.strings)) ∧
    ∀ text, ¬ Balanced text → ∃ fuel e, scheduleParser fuel text = throw e) := by
  rintro ⟨-, h⟩
  obtain ⟨hsize, hseen⟩ := @seen_of_le ['a', '(', '\x7b', ')'] (by decide)
  have hlexemes : Lexemes ['a', '(', '\x7b', ')'] [⟨.identifier, ['a']⟩, ⟨.lparen, []⟩, ⟨.lcurly, []⟩, ⟨.rparen, []⟩] [] :=
    .cons (.identifier (w := []) rfl (by simp) (stops_head rfl) rfl) (.cons (.symbol rfl rfl (by decide))
      (.cons (.symbol rfl rfl (by decide)) (.cons (.symbol rfl rfl (by decide)) .nil)))
  have hmismatched := rejected_iff.mp (h ['a', '(', '\x7b', ')'] fun hbalanced => absurd hbalanced.2.2 (by decide))
  exact not_mismatched ⟨hseen.symm ▸ hlexemes, fun _ => hsize⟩ (.inl ⟨by simp, hsize⟩) rfl rfl hmismatched

end Parser
end Taco
