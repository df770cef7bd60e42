import Taco.Parser.LexerExact
import Taco.Parser.ParserComplete

/-! The texts that the parser accepts: those that begin with an assignment that the next token does not go on with. -/

namespace Taco
namespace Parser

/-! ### Lexemes as a lexer -/

/-- A lexer that is a list of lexemes. -/
structure Tape where
  lexemes : List Lexeme
  word : List Char

def Tape.next : Tape → Token × Tape
  | ⟨[], word⟩ => (.eot, ⟨[], word⟩)
  | ⟨x :: ls, _⟩ => (x.token, ⟨ls, x.identifier⟩)

instance : Lexing Tape := ⟨fun _ l => some l.next, Tape.word⟩

/-- There is a word if and only if the token has one. -/
def IsLexeme (x : Lexeme) : Prop := x.identifier = [] ↔ hasWord x.token = false

def tape (ls : List Lexeme) (word : List Char) : Content Tape :=
  match ls with
  | [] => ⟨⟨[], word⟩, .eot⟩
  | x :: ls => ⟨⟨ls, x.identifier⟩, x.token⟩

theorem lexeme_tape {x : Lexeme} {ls : List Lexeme} {word : List Char} (hx : IsLexeme x) : lexeme (tape (x :: ls) word) = x := by
  show (⟨x.token, if hasWord x.token then x.identifier else []⟩ : Lexeme) = x
  cases hword : hasWord x.token with
  | true => rfl
  | false =>
    rw [if_neg Bool.false_ne_true, ← hx.mpr hword]

theorem feeds_tape {ls ls' : List Lexeme} {word : List Char} (h : ∀ x ∈ ls, IsLexeme x) :
    ∃ word', Feeds Moves (tape (ls ++ ls') word) ls (tape ls' word') := by
  induction ls generalizing word with
  | nil => exact ⟨word, .nil⟩
  | cons x ls ih =>
    obtain ⟨word', hfeeds⟩ := @ih x.identifier fun y hy => h y (List.mem_cons_of_mem _ hy)
    have hmoves : Moves (tape (x :: (ls ++ ls')) word) (tape (ls ++ ls') x.identifier) := by
      refine ⟨0, fun n _ => ?_⟩
      cases ls ++ ls' with
      | nil => rfl
      | cons y l => rfl
    have hcons := Feeds.cons hmoves hfeeds
    rw [lexeme_tape (h x (by simp))] at hcons
    exact ⟨word', hcons⟩

theorem not_continues_eot {ls : List Lexeme} : ¬ Continues ls .eot := by simp [Continues]

/-- An assignment is longer than another only if the next token goes on with that. -/
theorem continues_of_assigns {ls more : List Lexeme} {x : Lexeme} {a b : Assignment}
    (hls : ∀ y ∈ ls ++ x :: more, IsLexeme y) (ha : Assigns ls a) (hb : Assigns (ls ++ x :: more) b)
    (hx : x.token ≠ .eot) : Continues ls x.token := by
  by_contra hnot
  obtain ⟨word, hfeeds⟩ := @feeds_tape ls (x :: more) [] fun y hy => hls y (List.mem_append_left _ hy)
  obtain ⟨word', hfeeds'⟩ := @feeds_tape (ls ++ x :: more) [] [] hls
  rw [List.append_nil] at hfeeds'
  have heq := (yields_parseAssign ha hfeeds hnot).unique (yields_parseAssign hb hfeeds' not_continues_eot)
  exact hx (congrArg (fun r => r.2.currentToken) heq)

/-! ### Lexemes of texts -/

theorem hasWord_symbol (c : Option Char) : hasWord (symbol c) = false := by
  unfold symbol
  split <;> rfl

theorem Lexes.isLexeme {s rest : List Char} {x : Lexeme} (h : Lexes s x rest) : IsLexeme x := by
  induction h with
  | blank _ _ ih => exact ih
  | symbol _ _ _ => exact iff_of_true rfl (hasWord_symbol _)
  | _ => exact iff_of_false (by simp) (by simp [hasWord, isScalar])

theorem Lexemes.isLexeme {s rest : List Char} {ls : List Lexeme} (h : Lexemes s ls rest) : ∀ x ∈ ls, IsLexeme x := by
  induction h with
  | nil => simp
  | cons hx _ ih => simpa using ⟨hx.isLexeme, ih⟩

theorem Lexemes.token_ne {s rest : List Char} {ls : List Lexeme} (h : Lexemes s ls rest) : ∀ x ∈ ls, x.token ≠ .eot := by
  induction h with
  | nil => simp
  | cons hx _ ih => simpa using ⟨hx.token_ne, ih⟩

theorem Lexemes.suffix {s rest : List Char} {ls : List Lexeme} (h : Lexemes s ls rest) : rest <:+ s := by
  induction h with
  | nil => exact List.suffix_rfl
  | cons hx _ ih => exact ih.trans hx.suffix

theorem Lexes.unique {s rest rest' : List Char} {x y : Lexeme} (h : Lexes s x rest) (h' : Lexes s y rest') :
    x = y ∧ rest = rest' := by
  have hx := @Lexes.scan [] _ _ _ h (shown_of_nonneg (by decide))
  rw [h'.scan (shown_of_nonneg (by decide))] at hx
  cases hx
  exact ⟨rfl, rfl⟩

/-- Of two beginnings of a text, one goes on where the other ends. -/
theorem Lexemes.total {s rest rest' : List Char} {ls ls' : List Lexeme} (h : Lexemes s ls rest) (h' : Lexemes s ls' rest') :
    (∃ more, ls' = ls ++ more ∧ Lexemes rest more rest') ∨ ∃ more, ls = ls' ++ more ∧ Lexemes rest' more rest := by
  induction h generalizing ls' with
  | nil => exact .inl ⟨ls', rfl, h'⟩
  | cons hx hls ih =>
    cases h' with
    | nil => exact .inr ⟨_, rfl, .cons hx hls⟩
    | cons hy hls' =>
      obtain ⟨rfl, rfl⟩ := hx.unique hy
      rcases ih hls' with ⟨more, rfl, hmore⟩ | ⟨more, rfl, hmore⟩
      · exact .inl ⟨more, rfl, hmore⟩
      · exact .inr ⟨more, rfl, hmore⟩

theorem not_lexes_blank {s rest : List Char} {x : Lexeme} (hs : ∀ c ∈ s, isspace c = true) : ¬ Lexes s x rest := by
  intro h
  have hscan := @Lexes.scan [] _ _ _ h (shown_of_nonneg (by decide))
  rw [← List.append_nil s, scan_blanks hs, scan_nil, shown_of_nonneg (by decide)] at hscan
  cases hscan
  exact h.token_ne rfl

/-! ### The parser in a text -/

theorem isLexeme_of_scan {text s rest : List Char} {x : Lexeme} (h : scan text s = some (x, rest)) : IsLexeme x := by
  by_cases hx : x.token = .eot
  · exact iff_of_true (eot_of_scan h hx).1 (by rw [hx]; rfl)
  · exact (lexes_of_scan h hx).isLexeme

theorem suffix_of_scan {text s rest : List Char} {x : Lexeme} (h : scan text s = some (x, rest)) : rest <:+ s := by
  by_cases hx : x.token = .eot
  · obtain ⟨-, -, ⟨-, rfl⟩ | ⟨blanks, -, rfl⟩⟩ := eot_of_scan h hx
    · exact List.nil_suffix
    · exact (List.suffix_cons _ _).trans (List.suffix_append _ _)
  · exact (lexes_of_scan h hx).suffix

/-- A lexeme is in hand, and a text behind it is left. -/
def Holds (text : List Char) (x : Lexeme) (rest : List Char) (p : Content Lexer) : Prop :=
  IsLexeme x ∧ Remains text rest ∧ ∃ w, p = ⟨lexerAt text rest (wordAfter w x), x.token⟩

variable {text : List Char}

theorem Holds.token {x : Lexeme} {rest : List Char} {p : Content Lexer} (h : Holds text x rest p) :
    p.currentToken = x.token := by
  obtain ⟨-, -, w, rfl⟩ := h
  rfl

theorem Holds.lexeme_eq {x : Lexeme} {rest : List Char} {p : Content Lexer} (h : Holds text x rest p) : lexeme p = x := by
  obtain ⟨hx, -, w, rfl⟩ := h
  show (⟨x.token, if hasWord x.token then wordAfter w x else []⟩ : Lexeme) = x
  cases hword : hasWord x.token with
  | true =>
    have hne : x.identifier ≠ [] := fun hnil => by
      rw [hx.mp hnil] at hword
      cases hword
    rw [if_pos rfl, wordAfter, if_neg hne]
  | false => rw [if_neg Bool.false_ne_true, ← hx.mpr hword]

theorem settles_nextToken {s w : List Char} (hs : Remains text s) :
    Settles (fun n => nextToken n (lexerAt text s w))
      ((scan text s).map fun p => ⟨lexerAt text p.2 (wordAfter w p.1), p.1.token⟩) := by
  have h := (settles_getToken (w := w) hs).map (g := fun p => (⟨p.2, p.1⟩ : Content Lexer))
  rw [Option.map_map] at h
  exact h

theorem holds_of_scan {s rest w : List Char} {x : Lexeme} (hs : Remains text s) (h : scan text s = some (x, rest)) :
    Holds text x rest ⟨lexerAt text rest (wordAfter w x), x.token⟩ :=
  ⟨isLexeme_of_scan h, hs.of_suffix (suffix_of_scan h) (shown_of_scan h), w, rfl⟩

theorem Holds.moved {x : Lexeme} {rest : List Char} {p q : Content Lexer} (h : Holds text x rest p) (hq : Moved p q) :
    ∃ y rest', scan text rest = some (y, rest') ∧ Holds text y rest' q := by
  obtain ⟨-, hrest, w, rfl⟩ := h
  obtain ⟨fuel, hfuel⟩ := hq
  obtain ⟨⟨y, rest'⟩, hscan, rfl⟩ := Option.map_eq_some_iff.mp ((settles_nextToken hrest).1 fuel q hfuel)
  exact ⟨y, rest', hscan, holds_of_scan hrest hscan⟩

theorem Holds.moves {x y : Lexeme} {rest rest' : List Char} {p : Content Lexer} (h : Holds text x rest p)
    (hscan : scan text rest = some (y, rest')) : ∃ q, Moves p q ∧ Holds text y rest' q := by
  obtain ⟨-, hrest, w, rfl⟩ := h
  exact ⟨_, (settles_nextToken hrest).2 _ (by rw [hscan]; rfl), holds_of_scan hrest hscan⟩

/-- The parser's lexemes are lexemes of the text. -/
theorem lexemes_of_feeds {s rest : List Char} {x : Lexeme} {p q : Content Lexer} {ls : List Lexeme}
    (hs : scan text s = some (x, rest)) (hp : Holds text x rest p) (h : Feeds Moved p ls q)
    (hls : ∀ y ∈ ls, y.token ≠ .eot) :
    ∃ y s' rest', Lexemes s ls s' ∧ scan text s' = some (y, rest') ∧ Holds text y rest' q := by
  induction h generalizing s rest x with
  | nil => exact ⟨x, s, rest, .nil, hs, hp⟩
  | cons hstep _ ih =>
    obtain ⟨y, rest', hscan, hq⟩ := hp.moved hstep
    obtain ⟨z, s', t, hlexemes, hz, hr⟩ := ih hscan hq fun y hy => hls y (List.mem_cons_of_mem _ hy)
    rw [hp.lexeme_eq] at *
    exact ⟨z, s', t, .cons (lexes_of_scan hs (hls x (by simp))) hlexemes, hz, hr⟩

theorem shown_of_scan_some {s : List Char} {o : Lexeme × List Char} (h : scan text s = some o) : shown text s = some s := by
  cases s with
  | nil =>
    rcases Int.lt_or_le (size text) 0 with hneg | hnonneg
    · rw [scan_nil, shown_nil hneg] at h
      cases h
    · exact shown_of_nonneg hnonneg
  | cons c s => exact shown_cons

theorem Lexemes.shown {s rest : List Char} {ls : List Lexeme} (h : Lexemes s ls rest) (hrest : shown text rest = some rest) :
    shown text s = some s := by
  cases h with
  | nil => exact hrest
  | cons hx _ =>
    cases s with
    | nil => exact absurd hx.length_lt (Nat.not_lt_zero _)
    | cons c s => exact shown_cons

theorem Lexemes.scan_some {s rest : List Char} {ls : List Lexeme} (h : Lexemes s ls rest) {o : Lexeme × List Char}
    (hrest : scan text rest = some o) : ∃ x rest', scan text s = some (x, rest') := by
  cases h with
  | nil => exact ⟨o.1, o.2, hrest⟩
  | cons hx h => exact ⟨_, _, hx.scan (h.shown (shown_of_scan_some hrest))⟩

/-- The lexemes of a text are the parser's. -/
theorem feeds_of_lexemes {s s' rest rest' : List Char} {x y : Lexeme} {p : Content Lexer} {ls : List Lexeme}
    (h : Lexemes s ls s') (hs : scan text s = some (x, rest)) (hp : Holds text x rest p)
    (hs' : scan text s' = some (y, rest')) : ∃ q, Feeds Moves p ls q ∧ Holds text y rest' q := by
  induction h generalizing x rest p with
  | nil =>
    rw [hs] at hs'
    cases hs'
    exact ⟨p, .nil, hp⟩
  | cons hx h ih =>
    rw [hx.scan (h.shown (shown_of_scan_some hs'))] at hs
    cases hs
    obtain ⟨z, t, hz⟩ := h.scan_some hs'
    obtain ⟨q, hmoves, hq⟩ := hp.moves hz
    obtain ⟨r, hfeeds, hr⟩ := ih hz hq hs'
    refine ⟨r, ?_, hr⟩
    rw [← hp.lexeme_eq]
    exact .cons hmoves hfeeds

/-! ### What is accepted -/

theorem VarList.token_ne {ls : List Lexeme} {vars : List (List Char)} (h : VarList ls vars) : ∀ x ∈ ls, x.token ≠ .eot := by
  induction h with
  | var hx => simp [hx]
  | comma _ hc hx ih =>
    simp only [List.mem_append, List.mem_cons, List.not_mem_nil, or_false]
    rintro y (hy | rfl | rfl)
    · exact ih y hy
    · simp [hc]
    · simp [hx]

theorem Accesses.token_ne {ls : List Lexeme} {a : Access} (h : Accesses ls a) : ∀ x ∈ ls, x.token ≠ .eot := by
  cases h with
  | parens hx hl hvars hr =>
    simpa [hx, hl, hr, or_imp, forall_and] using hvars.token_ne
  | braces hx hu hl hvars hr =>
    simpa [hx, hu, hl, hr, or_imp, forall_and] using hvars.token_ne
  | var hx hu hv => simp [hx, hu, hv]
  | name hx => simp [hx]

theorem Derives.token_ne {s : Symbol} {ls : List Lexeme} {e : IndexExpr} (h : Derives s ls e) :
    ∀ x ∈ ls, x.token ≠ .eot := by
  induction h with
  | term _ ih | factor _ ih | final _ ih => exact ih
  | add _ hx _ iha ihb | sub _ hx _ iha ihb | mul _ hx _ iha ihb | div _ hx _ iha ihb =>
    simpa [hx, or_imp, forall_and] using ⟨iha, ihb⟩
  | parens hl _ hr ih => simpa [hl, hr, or_imp, forall_and] using ih
  | neg hx _ ih => simpa [hx] using ih
  | access ha => exact ha.token_ne
  | scalar hx =>
    simp only [List.mem_singleton, forall_eq]
    intro he
    rw [he] at hx
    cases hx

theorem Assigns.token_ne {ls : List Lexeme} {a : Assignment} (h : Assigns ls a) : ∀ x ∈ ls, x.token ≠ .eot := by
  cases h with
  | assign hlhs hx he => simpa [hx, or_imp, forall_and] using ⟨hlhs.token_ne, he.token_ne⟩
  | accumulate hlhs hx hy he => simpa [hx, hy, or_imp, forall_and] using ⟨hlhs.token_ne, he.token_ne⟩

theorem followed_iff {ls : List Lexeme} {s : List Char} :
    Followed (0 ≤ size text) ls s ↔ ∃ x rest, scan text s = some (x, rest) ∧ ¬ Continues ls x.token := by
  have hshown : ∀ rest : List Char, (rest = [] → 0 ≤ size text) → shown text rest = some rest := by
    intro rest h
    cases rest with
    | nil => exact shown_of_nonneg (h rfl)
    | cons c rest => exact shown_cons
  constructor
  · intro h
    cases h with
    | lexeme hx hrest hnot => exact ⟨_, _, hx.scan (hshown _ hrest), hnot⟩
    | @mark blanks rest hblanks hrest =>
      refine ⟨⟨.eot, []⟩, rest, ?_, not_continues_eot⟩
      rw [scan_blanks hblanks, scan_cons (by decide), if_neg (by decide), if_neg (by decide), hshown _ hrest]
      rfl
    | finish hblanks hends =>
      refine ⟨⟨.eot, []⟩, [], ?_, not_continues_eot⟩
      rw [← List.append_nil s, scan_blanks hblanks, scan_nil, shown_of_nonneg hends]
      rfl
  · rintro ⟨x, rest, hscan, hnot⟩
    have hrest : rest = [] → 0 ≤ size text := by
      rintro rfl
      by_contra hneg
      have := shown_of_scan hscan
      rw [shown_nil (Int.not_le.mp hneg)] at this
      cases this
    by_cases hx : x.token = .eot
    · obtain ⟨-, hend, ⟨hs, hnil⟩ | ⟨blanks, hblanks, rfl⟩⟩ := eot_of_scan hscan hx
      · exact .finish hs (hend hnil)
      · exact .mark hblanks hrest
    · exact .lexeme (lexes_of_scan hscan hx) hrest hnot

/-- The first token is the first of the text. -/
theorem holds_first {fuel : ℕ} {p : Content Lexer} (h : ExceptT.mk ((nextToken fuel (Lexer.make text)).map .ok) = (pure p : Run _)) :
    ∃ x rest, scan text (seen text) = some (x, rest) ∧ Holds text x rest p := by
  have hfirst := settles_nextToken (w := []) (remains_make text)
  rw [← make_eq, scan_blank (by decide)] at hfirst
  have hnext : nextToken fuel (Lexer.make text) = some p := by
    cases hn : nextToken fuel (Lexer.make text) with
    | none =>
      rw [hn] at h
      cases h
    | some r =>
      rw [hn] at h
      cases h
      rfl
  obtain ⟨⟨x, rest⟩, hscan, rfl⟩ := Option.map_eq_some_iff.mp (hfirst.1 fuel p hnext)
  exact ⟨x, rest, hscan, holds_of_scan (remains_make text) ((scan_blank (by decide)).trans hscan)⟩

theorem yields_first {x : Lexeme} {rest : List Char} (h : scan text (seen text) = some (x, rest)) :
    ∃ p, Yields (fun n => ExceptT.mk ((nextToken n (Lexer.make text)).map .ok)) p ∧ Holds text x rest p := by
  have hfirst := settles_nextToken (w := []) (remains_make text)
  rw [← make_eq, scan_blank (by decide)] at hfirst
  obtain ⟨bound, hbound⟩ := hfirst.2 _ (by rw [h]; rfl)
  refine ⟨_, ⟨bound, fun n hn => ?_⟩, holds_of_scan (w := []) (remains_make text) ((scan_blank (by decide)).trans h)⟩
  have hnext := hbound n hn
  dsimp only at hnext ⊢
  rw [hnext]
  rfl

/-- What the parser accepts, of what the lexer sees of a text. -/
theorem parse_accepts_iff (text : List Char) (a : Assignment) : (∃ fuel, parse fuel text = pure a) ↔
    ∃ ls rest, Lexemes (seen text) ls rest ∧ Assigns ls a ∧ Followed (0 ≤ size text) ls rest := by
  constructor
  · rintro ⟨fuel, h⟩
    obtain ⟨p, hp, h⟩ := pure_of_bind h
    obtain ⟨⟨b, q⟩, hq, h⟩ := pure_of_bind h
    cases pure_inj h
    obtain ⟨ls, hfeeds, ha, hnot⟩ := of_parseAssign hq
    obtain ⟨x, rest, hscan, hholds⟩ := holds_first hp
    obtain ⟨y, s', rest', hlexemes, hy, hholds'⟩ := lexemes_of_feeds hscan hholds hfeeds ha.token_ne
    exact ⟨ls, s', hlexemes, ha, followed_iff.mpr ⟨y, rest', hy, hholds'.token ▸ hnot⟩⟩
  · rintro ⟨ls, rest, hlexemes, ha, hfollowed⟩
    obtain ⟨y, rest', hy, hnot⟩ := followed_iff.mp hfollowed
    obtain ⟨x, s, hs⟩ := hlexemes.scan_some hy
    obtain ⟨p, hp, hholds⟩ := yields_first hs
    obtain ⟨q, hfeeds, hq⟩ := feeds_of_lexemes hlexemes hs hholds hy
    have hparse : Yields (fun n => parse n text) a := by
      unfold parse
      exact hp.bind ((yields_parseAssign ha hfeeds (hq.token ▸ hnot)).bind (.const a))
    obtain ⟨bound, hbound⟩ := hparse
    exact ⟨bound, hbound bound le_rfl⟩

theorem seen_of_le {text : List Char} (h : text.length ≤ intMax) : 0 ≤ size text ∧ seen text = text := by
  have hsize : size text = text.length := by
    unfold size intMax at *
    rw [Int.bmod_def]
    split_ifs <;> omega
  refine ⟨by omega, ?_⟩
  rw [seen, if_pos (by omega), hsize, Int.toNat_natCast, List.take_length]

/-- Behind an assignment that is followed, a text that is an assignment has only blanks. -/
theorem Whole.blank_of_followed {a b : Assignment} {ls : List Lexeme} {rest : List Char} (h : Whole text b)
    (hls : Lexemes text ls rest) (ha : Assigns ls a) (hfollowed : Followed True ls rest) :
    ∀ c ∈ rest, isspace c = true := by
  obtain ⟨ls', rest', hls', hb, hblank⟩ := h
  rcases hls.total hls' with ⟨more, rfl, hmore⟩ | ⟨more, rfl, hmore⟩
  · cases hmore with
    | nil => exact hblank
    | cons hx hmore =>
      exfalso
      cases hfollowed with
      | lexeme hy _ hnot =>
        obtain ⟨rfl, rfl⟩ := hx.unique hy
        exact hnot (continues_of_assigns hls'.isLexeme ha hb hx.token_ne)
      | mark hblanks _ =>
        have hscan := @Lexes.scan [] _ _ _ hx (shown_of_nonneg (by decide))
        rw [scan_blanks hblanks, scan_cons (by decide), if_neg (by decide), if_neg (by decide),
          shown_of_nonneg (by decide)] at hscan
        cases hscan
        exact hx.token_ne rfl
      | finish hblanks _ => exact not_lexes_blank hblanks hx
  · cases hmore with
    | nil => exact hblank
    | cons hx _ => exact absurd hx (not_lexes_blank hblank)

/-- The parser accepts its grammar, if and only if the text does not begin with an assignment that the next token does
    not go on with. This is for texts with a length that is an `int`. -/
theorem parse_grammar_iff (text : List Char) : (∀ a, (∃ fuel, parse fuel text = pure a) ↔ Whole text a) ↔
    (text.length ≤ intMax → ¬ ∃ ls rest a, Lexemes text ls rest ∧ Assigns ls a ∧ Followed True ls rest ∧
      ¬ ∀ c ∈ rest, isspace c = true) ∧
    (intMax < text.length → ∀ a, (∃ ls rest, Lexemes (seen text) ls rest ∧ Assigns ls a ∧
      Followed (0 ≤ size text) ls rest) ↔ Whole text a) := by
  simp only [parse_accepts_iff]
  rcases Nat.lt_or_ge intMax text.length with hlong | hshort
  · exact ⟨fun h => ⟨fun hle => absurd hlong (Nat.not_lt.mpr hle), fun _ => h⟩, fun h => h.2 hlong⟩
  · obtain ⟨hsize, hseen⟩ := seen_of_le hshort
    have htrue : (0 ≤ size text) = True := eq_true hsize
    rw [hseen, htrue]
    constructor
    · intro h
      refine ⟨fun _ => ?_, fun hlong => absurd hlong (Nat.not_lt.mpr hshort)⟩
      rintro ⟨ls, rest, a, hls, ha, hfollowed, hrest⟩
      exact hrest (((h a).mp ⟨ls, rest, hls, ha, hfollowed⟩).blank_of_followed hls ha hfollowed)
    · rintro ⟨h, -⟩ a
      constructor
      · rintro ⟨ls, rest, hls, ha, hfollowed⟩
        refine ⟨ls, rest, hls, ha, ?_⟩
        by_contra hrest
        exact h hshort ⟨ls, rest, a, hls, ha, hfollowed, hrest⟩
      · rintro ⟨ls, rest, hls, ha, hblank⟩
        exact ⟨ls, rest, hls, ha, .finish hblank trivial⟩

/-- Behind a complete assignment a name is left unread. -/
theorem parse_trailing : ¬ ∀ text a, (∃ fuel, parse fuel text = pure a) ↔ Whole text a := by
  intro h
  obtain ⟨hlong, hseen⟩ := @seen_of_le ['a', '=', 'b', ' ', 'c'] (by decide)
  have hlexemes : Lexemes ['a', '=', 'b', ' ', 'c'] [⟨.identifier, ['a']⟩, ⟨.eq, []⟩, ⟨.identifier, ['b']⟩] [' ', 'c'] :=
    .cons (.identifier (w := []) rfl (by simp) (stops_head rfl) rfl) (.cons (.symbol rfl rfl (by decide))
      (.cons (.identifier (w := []) rfl (by simp) (stops_head rfl) rfl) .nil))
  have hassigns : Assigns [⟨.identifier, ['a']⟩, ⟨.eq, []⟩, ⟨.identifier, ['b']⟩]
      ⟨⟨['a'], []⟩, false, .access ⟨['b'], []⟩⟩ :=
    @Assigns.assign [_] _ _ _ _ (.name rfl) rfl (.term (.factor (.final (.access (.name rfl)))))
  have hfollowed : ∀ ends : Prop, ends → Followed ends [⟨.identifier, ['a']⟩, ⟨.eq, []⟩, ⟨.identifier, ['b']⟩] [' ', 'c'] :=
    fun ends h => .lexeme (.blank rfl (@Lexes.identifier 'c' [] [] rfl (by simp) (by simp [Stops]) rfl)) (fun _ => h)
      (by simp [Continues])
  have hwhole := (h _ _).mp ((parse_accepts_iff _ _).mpr ⟨_, _, hseen.symm ▸ hlexemes, hassigns, hfollowed _ hlong⟩)
  have hblank := hwhole.blank_of_followed hlexemes hassigns (hfollowed True trivial) 'c' (by simp)
  cases hblank

end Parser
end Taco
