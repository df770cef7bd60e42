import Mathlib.Data.List.TakeWhile
import Taco.Library.Rounds
import Taco.Parser.Lexer

/-! The texts on which the lexer ends: those without an unclosed complex literal. -/

namespace Taco
namespace Parser

/-! ### Characters -/

@[simp] theorem promote_some {c : Char} (h : c ≠ '\xff') : promote c = some c := by simp [promote, h]

theorem toChar_promote (c : Char) : toChar (promote c) = c := by
  unfold promote
  split
  · rename_i h
    simp [toChar, h]
  · rfl

theorem any_promote {p : Char → Bool} (h : p '\xff' = false) (c : Char) : (promote c).any p = p c := by
  unfold promote
  split
  · rename_i hc
    simp [hc, h]
  · rfl

theorem bind_promote_eq_some {o : Option Char} {c : Char} : o.bind promote = some c ↔ o = some c ∧ c ≠ '\xff' := by
  cases o with
  | none => simp
  | some d =>
    simp only [Option.bind_some, promote, Option.some.injEq]
    split
    · rename_i hd
      simp [hd]
      exact fun hc => hc.symm
    · rename_i hd
      simp only [Option.some.injEq]
      exact ⟨fun h => ⟨h, h ▸ hd⟩, fun h => h.1⟩

/-! ### The lexer in a text -/

/-- What is left of a text, if the lexer comes to know of it: it does not know of the end of a text without a size. -/
def shown (text s : List Char) : Option (List Char) := if s = [] ∧ size text < 0 then none else some s

/-- A part of what is read of a text, from the character in hand. -/
def Remains (text s : List Char) : Prop := s <:+ ' ' :: seen text ∧ shown text s = some s

/-- The lexer that has a character in hand, the first that remains, and a word. -/
def lexerAt (text s word : List Char) : Lexer :=
  ⟨text, s.head?.bind promote, (seen text).length - s.tail.length, word⟩

@[simp] theorem lexerAt_identifier {text s w : List Char} : (lexerAt text s w).identifier = w := rfl

theorem shown_eq_some {text s t : List Char} (h : shown text s = some t) : t = s := by
  unfold shown at h
  split at h
  · cases h
  · exact (Option.some.inj h).symm

theorem shown_of_nonneg {text s : List Char} (h : 0 ≤ size text) : shown text s = some s :=
  if_neg fun hs => absurd h (Int.not_le.mpr hs.2)

theorem shown_nil {text : List Char} (h : size text < 0) : shown text [] = none := if_pos ⟨rfl, h⟩

theorem shown_cons {text s : List Char} {c : Char} : shown text (c :: s) = some (c :: s) := by simp [shown]

theorem remains_cons {text s : List Char} {c : Char} (h : c :: s <:+ ' ' :: seen text) : Remains text (c :: s) :=
  ⟨h, shown_cons⟩

theorem size_le {text : List Char} (h : 0 ≤ size text) : (size text).toNat ≤ text.length ∧ (size text).toNat ≤ intMax := by
  unfold size intMax at *
  rw [Int.bmod_def] at *
  split_ifs at * <;> omega

theorem length_seen_of_nonneg {text : List Char} (h : 0 ≤ size text) : (seen text).length = (size text).toNat := by
  rw [seen, if_pos h, List.length_take, min_eq_left (size_le h).1]

theorem intMax_lt_of_neg {text : List Char} (h : size text < 0) : intMax < text.length := by
  by_contra hle
  unfold size intMax at *
  rw [Int.bmod_def] at h
  split_ifs at h <;> omega

theorem length_seen_of_neg {text : List Char} (h : size text < 0) : (seen text).length = intMax + 1 := by
  rw [seen, if_neg (Int.not_le.mpr h), List.length_take, min_eq_left (intMax_lt_of_neg h)]

theorem seen_begins (text : List Char) : seen text <+: text := by
  unfold seen
  split <;> exact List.take_prefix _ _

theorem length_seen_le (text : List Char) : (seen text).length ≤ intMax + 1 := by
  rcases Int.lt_or_le (size text) 0 with hneg | hnonneg
  · exact (length_seen_of_neg hneg).le
  · rw [length_seen_of_nonneg hnonneg]
    exact (size_le hnonneg).2.trans (Nat.le_succ _)

theorem tail_suffix {s t : List Char} {c : Char} (h : s <:+ c :: t) : s.tail <:+ t := by
  rcases List.suffix_cons_iff.mp h with rfl | h
  · exact List.suffix_rfl
  · exact (List.tail_suffix s).trans h

theorem Remains.tail {text s t : List Char} (h : Remains text s) (ht : shown text s.tail = some t) : Remains text t := by
  cases shown_eq_some ht
  exact ⟨(List.tail_suffix s).trans h.1, ht⟩

theorem Remains.of_suffix {text s t u : List Char} (h : Remains text s) (ht : t <:+ s) (hu : shown text t = some u) :
    Remains text u := by
  cases shown_eq_some hu
  exact ⟨ht.trans h.1, hu⟩

theorem make_eq (text : List Char) : Lexer.make text = lexerAt text (' ' :: seen text) [] := by
  unfold Lexer.make lexerAt
  rw [List.head?_cons, List.tail_cons, Nat.sub_self, Option.bind_some, promote_some (by decide)]

theorem remains_make (text : List Char) : Remains text (' ' :: seen text) := remains_cons List.suffix_rfl

/-! ### The next character -/

theorem getNextChar_lexerAt {text s w : List Char} (h : Remains text s) :
    (lexerAt text s w).getNextChar = (shown text s.tail).map (lexerAt text · w) := by
  obtain ⟨before, hbefore⟩ := tail_suffix h.1
  have hread : (seen text).length - s.tail.length = before.length := by
    rw [← hbefore, List.length_append, Nat.add_sub_cancel]
  have hsize : (text.length : ℤ).bmod (2 ^ 32) = size text := rfl
  have hmax := length_seen_le text
  unfold Lexer.getNextChar lexerAt
  rw [hread, hsize]
  cases hs : s.tail with
  | nil =>
    rw [hs, List.append_nil] at hbefore
    rcases Int.lt_or_le (size text) 0 with hneg | hnonneg
    · have hlen : intMax < before.length := by
        rw [hbefore, length_seen_of_neg hneg]
        exact Nat.lt_succ_self _
      rw [if_neg (by omega), if_pos hlen, shown, if_pos ⟨rfl, hneg⟩, Option.map_none]
    · have hlen : size text = before.length := by
        rw [hbefore, length_seen_of_nonneg hnonneg, Int.toNat_of_nonneg hnonneg]
      rw [if_pos hlen, shown, if_neg (fun h => absurd hnonneg (Int.not_le.mpr h.2)), Option.map_some]
      simp [hbefore]
  | cons d rest =>
    rw [hs] at hbefore
    have hlen : (seen text).length = before.length + (rest.length + 1) := by rw [← hbefore]; simp
    have hat : text[before.length]? = some d := by
      obtain ⟨after, hafter⟩ := seen_begins text
      rw [← hafter, ← hbefore]
      simp
    have hle : ¬ intMax < before.length := by
      rw [Nat.not_lt]
      exact Nat.le_of_lt_succ (Nat.lt_of_lt_of_le (by rw [hlen]; omega) hmax)
    have hne : size text ≠ before.length := by
      rcases Int.lt_or_le (size text) 0 with hneg | hnonneg
      · omega
      · rw [length_seen_of_nonneg hnonneg] at hlen
        omega
    have hread' : (seen text).length - rest.length = before.length + 1 := by omega
    rw [if_neg hne, if_neg hle, hat, shown_cons, Option.map_some, Option.map_some, List.tail_cons, hread']
    rfl

/-! ### Loops -/

/-- The character in hand is appended to the word. -/
theorem lexerAt_append {text s w : List Char} {c : Char} :
    { lexerAt text (c :: s) w with
      identifier := (lexerAt text (c :: s) w).identifier ++ [toChar (lexerAt text (c :: s) w).lastChar] } =
    lexerAt text (c :: s) (w ++ [c]) :=
  congrArg (fun d => lexerAt text (c :: s) (w ++ [d])) (toChar_promote c)

theorem any_lastChar {p : Char → Bool} (hp : p '\xff' = false) {text s w : List Char} :
    (lexerAt text s w).lastChar.any p = s.head?.any p := by
  cases s with
  | nil => rfl
  | cons c s => exact any_promote hp c

theorem settles_skipSpaces {text s w : List Char} (h : Remains text s) :
    Settles (fun n => Lexer.skipSpaces n (lexerAt text s w))
      ((shown text (s.dropWhile isspace)).map (lexerAt text · w)) := by
  induction s with
  | nil =>
    rw [List.dropWhile_nil, h.2]
    exact Settles.of_succ rfl (Settles.const _)
  | cons c s ih =>
    refine Settles.of_succ rfl ?_
    simp only [Lexer.skipSpaces, any_lastChar (show isspace '\xff' = false by decide), List.head?_cons, Option.any_some,
      getNextChar_lexerAt h, List.tail_cons]
    cases hc : isspace c with
    | false =>
      rw [List.dropWhile_cons_of_neg (by simp [hc]), h.2]
      exact Settles.const _
    | true =>
      rw [List.dropWhile_cons_of_pos hc]
      cases hs : shown text s with
      | none =>
        have hnil : s = [] ∧ size text < 0 := by
          by_contra hnot
          simp [shown, hnot] at hs
        rw [hnil.1, List.dropWhile_nil, shown, if_pos ⟨rfl, hnil.2⟩]
        exact Settles.const _
      | some t =>
        cases shown_eq_some hs
        exact ih (h.tail hs)

theorem settles_appendWhile {p : Char → Bool} (hp : p '\xff' = false) {text s w : List Char} (h : Remains text s) :
    Settles (fun n => Lexer.appendWhile p n (lexerAt text s w))
      ((shown text (s.tail.dropWhile p)).map (lexerAt text · (w ++ s.tail.takeWhile p))) := by
  induction ht : s.tail generalizing s w with
  | nil =>
    refine Settles.of_succ rfl ?_
    simp only [Lexer.appendWhile, getNextChar_lexerAt h, ht, List.dropWhile_nil, List.takeWhile_nil, List.append_nil]
    cases hs : shown text [] with
    | none => exact Settles.const _
    | some t =>
      cases shown_eq_some hs
      exact Settles.const _
  | cons c t ih =>
    refine Settles.of_succ rfl ?_
    have hct : Remains text (c :: t) := h.tail (by rw [ht, shown_cons])
    simp only [Lexer.appendWhile, getNextChar_lexerAt h, ht, shown_cons, Option.map_some, Option.bind_some,
      any_lastChar hp, List.head?_cons, Option.any_some]
    cases hc : p c with
    | false =>
      rw [List.dropWhile_cons_of_neg (by simp [hc]), List.takeWhile_cons_of_neg (by simp [hc]), List.append_nil,
        shown_cons]
      exact Settles.const _
    | true =>
      rw [List.dropWhile_cons_of_pos hc, List.takeWhile_cons_of_pos hc, List.append_cons w c]
      refine Settles.congr (ih (w := w ++ [c]) hct rfl) fun n => ?_
      rw [if_pos rfl, lexerAt_append]

/-- Behind the end of the text no parenthesis comes. -/
theorem appendComplex_nil {text s w : List Char} (h : Remains text s) (ht : s.tail = []) (n : ℕ) :
    Lexer.appendComplex n (lexerAt text s w) = none := by
  induction n generalizing s w with
  | zero => rfl
  | succ n ih =>
    simp only [Lexer.appendComplex, getNextChar_lexerAt h, ht]
    cases hs : shown text [] with
    | none => rfl
    | some t =>
      cases shown_eq_some hs
      exact ih ⟨List.nil_suffix, hs⟩ rfl

theorem settles_appendComplex {text s w : List Char} (h : Remains text s) :
    Settles (fun n => Lexer.appendComplex n (lexerAt text s w))
      (if ')' ∈ s.tail then some (lexerAt text (s.tail.dropWhile (· ≠ ')'))
        (w ++ (s.tail.takeWhile (· ≠ ')')).filter (!isspace ·))) else none) := by
  induction ht : s.tail generalizing s w with
  | nil => exact Settles.of_none (appendComplex_nil h ht)
  | cons c t ih =>
    refine Settles.of_succ rfl ?_
    have hct : Remains text (c :: t) := h.tail (by rw [ht, shown_cons])
    simp only [Lexer.appendComplex, getNextChar_lexerAt h, ht, shown_cons, Option.map_some, Option.bind_some,
      any_lastChar (show isspace '\xff' = false by decide), List.head?_cons, Option.any_some]
    rcases eq_or_ne c ')' with rfl | hne
    · rw [if_pos List.mem_cons_self, List.dropWhile_cons_of_neg (by simp), List.takeWhile_cons_of_neg (by simp),
        List.filter_nil, List.append_nil]
      exact Settles.congr (Settles.const _) fun n => if_pos rfl
    · have hlast : (lexerAt text (c :: t) w).lastChar ≠ some ')' := by
        show promote c ≠ some ')'
        unfold promote
        split
        · simp
        · simpa using hne
      rw [List.dropWhile_cons_of_pos (by simp [hne]), List.takeWhile_cons_of_pos (by simp [hne])]
      have hmem : (')' ∈ c :: t) ↔ ')' ∈ t := by simp [hne.symm]
      simp only [hmem]
      cases hc : isspace c with
      | true =>
        rw [List.filter_cons_of_neg (by simp [hc])]
        refine Settles.congr (ih (w := w) hct rfl) fun n => ?_
        rw [if_neg hlast, if_pos rfl]
      | false =>
        rw [List.filter_cons_of_pos (by simp [hc]), List.append_cons w c]
        refine Settles.congr (ih (w := w ++ [c]) hct rfl) fun n => ?_
        rw [if_neg hlast, if_neg (by simp), lexerAt_append]

/-! ### Tokens -/

/-- The lexeme of a text that begins with a letter. -/
def scanWord (text s : List Char) : Option (Lexeme × List Char) :=
  (shown text (s.tail.dropWhile isalnum)).bind fun rest =>
    if isComplex (s.take 1 ++ s.tail.takeWhile isalnum) then
      if ')' ∈ rest.tail then
        (shown text (rest.tail.dropWhile (· ≠ ')')).tail).map fun rest' =>
          (⟨.complex_scalar, [toChar (rest.head?.bind promote)] ++
            (rest.tail.takeWhile (· ≠ ')')).filter (!isspace ·) ++ [')']⟩, rest')
      else none
    else some (⟨.identifier, s.take 1 ++ s.tail.takeWhile isalnum⟩, rest)

/-- The lexeme of a text that begins with a digit. -/
def scanNumber (text s : List Char) : Option (Lexeme × List Char) :=
  (shown text (s.tail.dropWhile isdigit)).bind fun rest =>
    if rest.head? = some '.' then
      (shown text (rest.tail.dropWhile isdigit)).map fun rest' =>
        (⟨.float_scalar, s.take 1 ++ s.tail.takeWhile isdigit ++ ['.'] ++ rest.tail.takeWhile isdigit⟩, rest')
    else if rest.head? = some 'u' then
      (shown text rest.tail).map fun rest' => (⟨.uint_scalar, s.take 1 ++ s.tail.takeWhile isdigit⟩, rest')
    else some (⟨.int_scalar, s.take 1 ++ s.tail.takeWhile isdigit⟩, rest)

/-- The first lexeme of a text, and what follows it. -/
def scan (text s : List Char) : Option (Lexeme × List Char) :=
  (shown text (s.dropWhile isspace)).bind fun s =>
    if s.head?.any isalpha then scanWord text s
    else if s.head?.any isdigit then scanNumber text s
    else (shown text s.tail).map fun rest => (⟨symbol (s.head?.bind promote), []⟩, rest)

/-- The word of the lexer behind a lexeme: symbols leave it as it was. -/
def wordAfter (w : List Char) (x : Lexeme) : List Char := if x.identifier = [] then w else x.identifier

/-- What the lexer returns when it has read a lexeme. -/
def scanned (text w : List Char) (x : Lexeme × List Char) : Token × Lexer :=
  (x.1.token, lexerAt text x.2 (wordAfter w x.1))

theorem dropWhile_of_mem {c : Char} {l : List Char} (h : c ∈ l) : ∃ r, l.dropWhile (· ≠ c) = c :: r := by
  induction l with
  | nil => cases h
  | cons d l ih =>
    by_cases hd : d = c
    · exact ⟨l, by rw [List.dropWhile_cons_of_neg (by simp [hd]), hd]⟩
    · rw [List.dropWhile_cons_of_pos (by simp [hd])]
      exact ih ((List.mem_cons.mp h).resolve_left (Ne.symm hd))

theorem settles_word {text s w : List Char} (h : Remains text s) (hs : s.head?.any isalpha = true) :
    Settles (fun n => (Lexer.appendWhile isalnum n { lexerAt text s w with identifier := [toChar (s.head?.bind promote)] }).bind
      fun l => if isComplex l.identifier then
          (Lexer.appendComplex n { l with identifier := [toChar l.lastChar] }).bind fun l =>
            (Lexer.getNextChar { l with identifier := l.identifier ++ [')'] }).bind fun l => some (.complex_scalar, l)
        else some (.identifier, l))
      ((scanWord text s).map (scanned text w)) := by
  cases s with
  | nil => simp at hs
  | cons c s =>
    have hword : ({ lexerAt text (c :: s) w with identifier := [toChar ((c :: s).head?.bind promote)] } : Lexer) =
        lexerAt text (c :: s) [c] := congrArg (fun d => lexerAt text (c :: s) [d]) (toChar_promote c)
    rw [hword, scanWord, Option.map_bind]
    refine Settles.bind_map (settles_appendWhile (by decide) h) fun rest hrest => ?_
    have hR := h.of_suffix ((List.dropWhile_suffix _).trans (List.tail_suffix _)) hrest
    show Settles (fun n => if isComplex ([c] ++ s.takeWhile isalnum) then _ else _) (Option.map _ (if isComplex ([c] ++ s.takeWhile isalnum) then _ else _))
    by_cases hc : isComplex ([c] ++ s.takeWhile isalnum) = true
    · simp only [if_pos hc]
      have hcomplex := settles_appendComplex (w := [toChar (rest.head?.bind promote)]) hR
      by_cases hmem : ')' ∈ rest.tail
      · rw [if_pos hmem] at hcomplex ⊢
        obtain ⟨r, hr⟩ := dropWhile_of_mem hmem
        have hclosed : Remains text (')' :: r) :=
          hR.of_suffix (hr ▸ (List.dropWhile_suffix _).trans (List.tail_suffix _)) shown_cons
        refine Settles.bind_some hcomplex ?_
        rw [hr]
        show Settles (fun _ => (Lexer.getNextChar (lexerAt text (')' :: r) _)).bind _) _
        rw [getNextChar_lexerAt hclosed, List.tail_cons, Option.bind_map, Option.map_map]
        cases shown text r with
        | none => exact Settles.const _
        | some t =>
          refine Settles.congr (Settles.const _) fun n => ?_
          simp [scanned, wordAfter]
      · rw [if_neg hmem] at hcomplex ⊢
        exact Settles.bind_none hcomplex
    · simp only [if_neg hc]
      exact Settles.const _

theorem settles_number {text s w : List Char} (h : Remains text s) (hs : s.head?.any isdigit = true) :
    Settles (fun n => (Lexer.appendWhile isdigit n { lexerAt text s w with identifier := [toChar (s.head?.bind promote)] }).bind
      fun l => if l.lastChar = some '.' then
          (Lexer.appendWhile isdigit n { l with identifier := l.identifier ++ [toChar l.lastChar] }).bind fun l =>
            some (.float_scalar, l)
        else if l.lastChar = some 'u' then l.getNextChar.bind fun l => some (.uint_scalar, l)
        else some (.int_scalar, l))
      ((scanNumber text s).map (scanned text w)) := by
  cases s with
  | nil => simp at hs
  | cons c s =>
    have hword : ({ lexerAt text (c :: s) w with identifier := [toChar ((c :: s).head?.bind promote)] } : Lexer) =
        lexerAt text (c :: s) [c] := congrArg (fun d => lexerAt text (c :: s) [d]) (toChar_promote c)
    rw [hword, scanNumber, Option.map_bind]
    refine Settles.bind_map (settles_appendWhile (by decide) h) fun rest hrest => ?_
    have hR := h.of_suffix ((List.dropWhile_suffix _).trans (List.tail_suffix _)) hrest
    have hlast : ∀ d ≠ '\xff', ((lexerAt text rest ([c] ++ s.takeWhile isdigit)).lastChar = some d ↔ rest.head? = some d) :=
      fun d hd => (bind_promote_eq_some).trans (and_iff_left hd)
    show Settles _ (Option.map _ (if rest.head? = some '.' then _ else if rest.head? = some 'u' then _ else _))
    simp only [List.tail_cons, hlast '.' (by decide), hlast 'u' (by decide)]
    by_cases hpoint : rest.head? = some '.'
    · simp only [if_pos hpoint]
      have hfloat : ({ lexerAt text rest ([c] ++ s.takeWhile isdigit) with
          identifier := (lexerAt text rest ([c] ++ s.takeWhile isdigit)).identifier ++
            [toChar (lexerAt text rest ([c] ++ s.takeWhile isdigit)).lastChar] } : Lexer) =
          lexerAt text rest ([c] ++ s.takeWhile isdigit ++ ['.']) := by
        rw [(hlast '.' (by decide)).mpr hpoint]
        rfl
      rw [hfloat, Option.map_map]
      have hread := settles_appendWhile (p := isdigit) (w := [c] ++ s.takeWhile isdigit ++ ['.']) (by decide) hR
      cases ht : shown text (rest.tail.dropWhile isdigit) with
      | none =>
        rw [ht] at hread
        exact hread.bind_none
      | some t =>
        rw [ht] at hread
        refine hread.bind_some (Settles.congr (Settles.const _) fun n => ?_)
        simp [scanned, wordAfter]
    · simp only [if_neg hpoint]
      by_cases hunsigned : rest.head? = some 'u'
      · simp only [if_pos hunsigned, getNextChar_lexerAt hR]
        cases shown text rest.tail with
        | none => exact Settles.const _
        | some t => exact Settles.const _
      · simp only [if_neg hunsigned]
        exact Settles.const _

theorem settles_getToken {text s w : List Char} (h : Remains text s) :
    Settles (fun n => Lexer.getToken n (lexerAt text s w)) ((scan text s).map (scanned text w)) := by
  rw [scan, Option.map_bind]
  refine Settles.bind_map (settles_skipSpaces h) fun rest hrest => ?_
  have hR := h.of_suffix (List.dropWhile_suffix _) hrest
  simp only [any_lastChar (show isalpha '\xff' = false by decide), any_lastChar (show isdigit '\xff' = false by decide)]
  show Settles _ (Option.map _ (if rest.head?.any isalpha = true then _ else _))
  by_cases halpha : rest.head?.any isalpha = true
  · simp only [if_pos halpha]
    exact settles_word hR halpha
  · simp only [if_neg halpha]
    by_cases hdigit : rest.head?.any isdigit = true
    · simp only [if_pos hdigit]
      exact settles_number hR hdigit
    · simp only [if_neg hdigit]
      show Settles (fun _ => (Lexer.getNextChar (lexerAt text rest w)).bind _) _
      rw [getNextChar_lexerAt hR, Option.bind_map, Option.map_map]
      cases shown text rest.tail with
      | none => exact Settles.const _
      | some t => exact Settles.const _

/-! ### Lexemes -/

theorem isalnum_eq (c : Char) : isalnum c = (isalpha c || isdigit c) := rfl

theorem isalpha_eq (c : Char) : isalpha c = (decide (c.val ≥ 'A'.val ∧ c.val ≤ 'Z'.val) ||
    (decide (c.val ≥ 'a'.val) && decide (c.val ≤ 'z'.val))) := rfl

theorem isspace_alnum {c : Char} (h : isalnum c = true) : isspace c = false := by
  unfold isspace
  rw [Bool.eq_false_iff]
  intro hs
  simp only [Bool.or_eq_true, Bool.and_eq_true, decide_eq_true_eq] at hs
  simp only [isalnum_eq, isalpha_eq, isdigit, Char.isDigit, Bool.or_eq_true, Bool.and_eq_true, decide_eq_true_eq, ge_iff_le,
    UInt32.le_iff_toNat_le] at h
  rcases hs with rfl | hs
  · revert h
    decide
  · have : c.toNat = c.val.toNat := rfl
    simp at h
    omega

theorem isalnum_alpha {c : Char} (h : isalpha c = true) : isalnum c = true := by
  rw [isalnum_eq, h, Bool.true_or]

theorem isalnum_digit {c : Char} (h : isdigit c = true) : isalnum c = true := by
  rw [isalnum_eq, h, Bool.or_true]

theorem isalpha_digit {c : Char} (h : isdigit c = true) : isalpha c = false := by
  rw [Bool.eq_false_iff]
  intro ha
  simp only [isalpha_eq, isdigit, Char.isDigit, Bool.or_eq_true, Bool.and_eq_true, decide_eq_true_eq, ge_iff_le,
    UInt32.le_iff_toNat_le] at h ha
  simp at h ha
  omega

theorem takeWhile_of_stops {p : Char → Bool} {w rest : List Char} (hw : ∀ c ∈ w, p c = true) (h : Stops p rest) :
    (w ++ rest).takeWhile p = w := by
  rw [List.takeWhile_append_of_pos hw]
  cases rest with
  | nil => simp
  | cons c rest => rw [List.takeWhile_cons_of_neg (by simp [h c (by simp)]), List.append_nil]

theorem dropWhile_of_stops {p : Char → Bool} {w rest : List Char} (hw : ∀ c ∈ w, p c = true) (h : Stops p rest) :
    (w ++ rest).dropWhile p = rest := by
  rw [List.dropWhile_append_of_pos hw]
  cases rest with
  | nil => simp
  | cons c rest => rw [List.dropWhile_cons_of_neg (by simp [h c (by simp)])]

theorem stops_dropWhile (p : Char → Bool) (l : List Char) : Stops p (l.dropWhile p) := by
  intro c hc
  have hne : l.dropWhile p ≠ [] := by
    rintro hnil
    rw [hnil] at hc
    cases hc
  have := List.head_dropWhile_not p hne
  rw [List.head?_eq_some_head hne, Option.mem_some_iff] at hc
  rwa [hc] at this

theorem symbol_ne_eot (c : Char) : symbol (some c) ≠ .eot := by
  unfold symbol
  split <;> simp_all

theorem Lexes.token_ne {s rest : List Char} {x : Lexeme} (h : Lexes s x rest) : x.token ≠ .eot := by
  induction h with
  | blank _ _ ih => exact ih
  | symbol _ _ _ => exact symbol_ne_eot _
  | _ => simp

/-! ### Reading lexemes -/

theorem scan_nil {text : List Char} : scan text [] = (shown text []).map fun _ => (⟨.eot, []⟩, []) := by
  rw [scan, List.dropWhile_nil]
  rcases Int.lt_or_le (size text) 0 with hneg | hnonneg
  · rw [shown_nil hneg, Option.bind_none, Option.map_none]
  · simp only [shown_of_nonneg hnonneg, Option.bind_some, List.head?_nil, Option.any_none, Bool.false_eq_true, if_false,
      Option.map_some, Option.bind_none, symbol, List.tail_nil]

theorem scan_blank {text s : List Char} {c : Char} (h : isspace c = true) : scan text (c :: s) = scan text s := by
  unfold scan
  rw [List.dropWhile_cons_of_pos h]

theorem scan_cons {text s : List Char} {c : Char} (h : isspace c = false) :
    scan text (c :: s) = if isalpha c then scanWord text (c :: s) else if isdigit c then scanNumber text (c :: s)
      else (shown text s).map fun rest => (⟨symbol (promote c), []⟩, rest) := by
  unfold scan
  rw [List.dropWhile_cons_of_neg (by simp [h]), shown_cons]
  rfl

theorem scanWord_cons {text s : List Char} {c : Char} : scanWord text (c :: s) =
    (shown text (s.dropWhile isalnum)).bind fun rest =>
      if isComplex (c :: s.takeWhile isalnum) then
        if ')' ∈ rest.tail then
          (shown text (rest.tail.dropWhile (· ≠ ')')).tail).map fun rest' =>
            (⟨.complex_scalar, [toChar (rest.head?.bind promote)] ++
              (rest.tail.takeWhile (· ≠ ')')).filter (!isspace ·) ++ [')']⟩, rest')
        else none
      else some (⟨.identifier, c :: s.takeWhile isalnum⟩, rest) := rfl

theorem scanNumber_cons {text s : List Char} {c : Char} : scanNumber text (c :: s) =
    (shown text (s.dropWhile isdigit)).bind fun rest =>
      if rest.head? = some '.' then
        (shown text (rest.tail.dropWhile isdigit)).map fun rest' =>
          (⟨.float_scalar, c :: s.takeWhile isdigit ++ ['.'] ++ rest.tail.takeWhile isdigit⟩, rest')
      else if rest.head? = some 'u' then
        (shown text rest.tail).map fun rest' => (⟨.uint_scalar, c :: s.takeWhile isdigit⟩, rest')
      else some (⟨.int_scalar, c :: s.takeWhile isdigit⟩, rest) := rfl

theorem lexes_of_scanWord {text s rest : List Char} {c : Char} {x : Lexeme} (hc : isalpha c = true)
    (h : scanWord text (c :: s) = some (x, rest)) : Lexes (c :: s) x rest := by
  rw [scanWord_cons] at h
  obtain ⟨after, hafter, h⟩ := Option.bind_eq_some_iff.mp h
  cases shown_eq_some hafter
  have hword : ∀ d ∈ s.takeWhile isalnum, isalnum d = true := fun d hd => List.mem_takeWhile_imp hd
  have hs : c :: s = c :: s.takeWhile isalnum ++ s.dropWhile isalnum := by simp
  have hstops := stops_dropWhile isalnum s
  by_cases hcomplex : isComplex (c :: s.takeWhile isalnum) = true
  · rw [if_pos hcomplex] at h
    by_cases hmem : ')' ∈ (s.dropWhile isalnum).tail
    · rw [if_pos hmem] at h
      obtain ⟨rest', hrest', he⟩ := Option.map_eq_some_iff.mp h
      cases shown_eq_some hrest'
      cases he
      cases hd : s.dropWhile isalnum with
      | nil => simp [hd] at hmem
      | cons d r =>
        rw [hd] at hs hstops hmem
        obtain ⟨rest, hrest⟩ := dropWhile_of_mem hmem
        rw [List.tail_cons] at hrest
        have hbody : r.takeWhile (· ≠ ')') ++ ')' :: rest = r := by rw [← hrest, List.takeWhile_append_dropWhile]
        have hnot : ')' ∉ r.takeWhile (· ≠ ')') := fun hm => by simpa using List.mem_takeWhile_imp hm
        have hlex : Lexes _ _ rest := .complex hcomplex (hstops d (by simp)) hnot
        rw [List.tail_cons, hrest, List.head?_cons, Option.bind_some, toChar_promote]
        simp only [List.append_assoc, List.cons_append, hbody] at hlex
        rw [hs]
        exact hlex
    · rw [if_neg hmem] at h
      cases h
  · rw [if_neg hcomplex] at h
    cases h
    rw [hs]
    exact Lexes.identifier hc hword hstops (by simpa using hcomplex)

theorem lexes_of_scanNumber {text s rest : List Char} {c : Char} {x : Lexeme} (hc : isdigit c = true)
    (h : scanNumber text (c :: s) = some (x, rest)) : Lexes (c :: s) x rest := by
  rw [scanNumber_cons] at h
  obtain ⟨after, hafter, h⟩ := Option.bind_eq_some_iff.mp h
  cases shown_eq_some hafter
  have hdigits : ∀ d ∈ s.takeWhile isdigit, isdigit d = true := fun d hd => List.mem_takeWhile_imp hd
  have hs : c :: s = c :: s.takeWhile isdigit ++ s.dropWhile isdigit := by simp
  have hstops := stops_dropWhile isdigit s
  by_cases hpoint : (s.dropWhile isdigit).head? = some '.'
  · rw [if_pos hpoint] at h
    obtain ⟨rest', hrest', he⟩ := Option.map_eq_some_iff.mp h
    cases shown_eq_some hrest'
    cases he
    obtain ⟨r, hr⟩ := List.head?_eq_some_iff.mp hpoint
    have hlex := Lexes.float (f := r.takeWhile isdigit) hc hdigits (fun d hd => List.mem_takeWhile_imp hd)
      (stops_dropWhile isdigit r)
    rw [hs, hr, List.tail_cons]
    simpa using hlex
  · rw [if_neg hpoint] at h
    by_cases hunsigned : (s.dropWhile isdigit).head? = some 'u'
    · rw [if_pos hunsigned] at h
      obtain ⟨rest', hrest', he⟩ := Option.map_eq_some_iff.mp h
      cases shown_eq_some hrest'
      cases he
      obtain ⟨r, hr⟩ := List.head?_eq_some_iff.mp hunsigned
      rw [hs, hr, List.tail_cons]
      exact Lexes.unsigned hc hdigits
    · rw [if_neg hunsigned] at h
      cases h
      rw [hs]
      refine Lexes.integer hc hdigits fun d hd => ?_
      have hne : d ≠ '.' ∧ d ≠ 'u' := ⟨fun he => hpoint (he ▸ hd), fun he => hunsigned (he ▸ hd)⟩
      simp [hstops d hd, hne]

/-- What is read as a lexeme is one. -/
theorem lexes_of_scan {text s rest : List Char} {x : Lexeme} (h : scan text s = some (x, rest)) (hx : x.token ≠ .eot) :
    Lexes s x rest := by
  induction s with
  | nil =>
    rw [scan_nil] at h
    obtain ⟨t, -, he⟩ := Option.map_eq_some_iff.mp h
    cases he
    exact absurd rfl hx
  | cons c s ih =>
    cases hspace : isspace c with
    | true => exact .blank hspace (ih (by rwa [scan_blank hspace] at h))
    | false =>
      rw [scan_cons hspace] at h
      cases halpha : isalpha c with
      | true => exact lexes_of_scanWord halpha (by rwa [halpha] at h)
      | false =>
        cases hdigit : isdigit c with
        | true => exact lexes_of_scanNumber hdigit (by rwa [halpha, hdigit] at h)
        | false =>
          rw [halpha, hdigit] at h
          obtain ⟨t, ht, he⟩ := Option.map_eq_some_iff.mp h
          cases shown_eq_some ht
          cases he
          have hne : c ≠ '\xff' := by
            rintro rfl
            exact hx rfl
          rw [promote_some hne]
          exact .symbol hspace (by rw [isalnum_eq, halpha, hdigit, Bool.false_or]) hne

theorem stops_head {p : Char → Bool} {c : Char} {s : List Char} (h : p c = false) : Stops p (c :: s) := by
  intro d hd
  cases hd
  exact h

theorem scanWord_identifier {text w rest : List Char} {c : Char} (hw : ∀ d ∈ w, isalnum d = true)
    (hrest : Stops isalnum rest) (hword : isComplex (c :: w) = false) (hs : shown text rest = some rest) :
    scanWord text (c :: (w ++ rest)) = some (⟨.identifier, c :: w⟩, rest) := by
  rw [scanWord_cons, takeWhile_of_stops hw hrest, dropWhile_of_stops hw hrest, hs, Option.bind_some,
    if_neg (by simp [hword])]

theorem scanWord_complex {text w body rest : List Char} {c d : Char} (hw : ∀ e ∈ w, isalnum e = true)
    (hd : isalnum d = false) (hword : isComplex (c :: w) = true) (hbody : ')' ∉ body) (hs : shown text rest = some rest) :
    scanWord text (c :: (w ++ d :: (body ++ ')' :: rest))) =
      some (⟨.complex_scalar, d :: body.filter (!isspace ·) ++ [')']⟩, rest) := by
  have hstops : Stops isalnum (d :: (body ++ ')' :: rest)) := stops_head hd
  have hbody' : ∀ e ∈ body, decide (e ≠ ')') = true := fun e he => decide_eq_true (fun h => hbody (h ▸ he))
  have hstops' : Stops (fun e => decide (e ≠ ')')) (')' :: rest) := stops_head (by simp)
  rw [scanWord_cons, takeWhile_of_stops hw hstops, dropWhile_of_stops hw hstops, shown_cons, Option.bind_some,
    if_pos hword, List.tail_cons, if_pos (by simp), takeWhile_of_stops hbody' hstops', dropWhile_of_stops hbody' hstops',
    List.tail_cons, hs, Option.map_some, List.head?_cons, Option.bind_some, toChar_promote]
  rfl

theorem isComplex_cons {w : List Char} (h : isComplex w = true) :
    ∃ c v, w = c :: v ∧ isalpha c = true ∧ ∀ d ∈ v, isalnum d = true := by
  simp only [isComplex, Bool.or_eq_true, decide_eq_true_eq] at h
  rcases h with rfl | rfl
  · exact ⟨_, _, rfl, by decide, List.all_eq_true.mp (by decide)⟩
  · exact ⟨_, _, rfl, by decide, List.all_eq_true.mp (by decide)⟩

theorem scan_alpha {text s : List Char} {c : Char} (h : isalpha c = true) :
    scan text (c :: s) = scanWord text (c :: s) := by
  rw [scan_cons (isspace_alnum (isalnum_alpha h)), if_pos h]

theorem scan_digit {text s : List Char} {c : Char} (h : isdigit c = true) :
    scan text (c :: s) = scanNumber text (c :: s) := by
  rw [scan_cons (isspace_alnum (isalnum_digit h)), if_neg (by simp [isalpha_digit h]), if_pos h]

/-- A lexeme is read, if it does not end where the text ends without the lexer's knowledge. -/
theorem Lexes.scan {text s rest : List Char} {x : Lexeme} (h : Lexes s x rest) (hs : shown text rest = some rest) :
    scan text s = some (x, rest) := by
  induction h with
  | blank hc _ ih => rw [scan_blank hc, ih hs]
  | identifier hc hw hstops hword =>
    rw [List.cons_append, scan_alpha hc, scanWord_identifier hw hstops hword hs]
  | complex hw hc hbody =>
    obtain ⟨c, v, rfl, hc', hv⟩ := isComplex_cons hw
    rw [List.append_assoc, List.cons_append, List.cons_append, scan_alpha hc', scanWord_complex hv hc hw hbody hs]
  | @integer c d rest hc hd hstops =>
    have hdigit : Stops isdigit rest := fun e he => by
      have := hstops e he
      simp only [Bool.or_eq_false_iff] at this
      exact this.1.1
    have hpoint : rest.head? ≠ some '.' := fun he => by simpa using hstops '.' he
    have hunsigned : rest.head? ≠ some 'u' := fun he => by simpa using hstops 'u' he
    rw [List.cons_append, scan_digit hc, scanNumber_cons, takeWhile_of_stops hd hdigit, dropWhile_of_stops hd hdigit, hs,
      Option.bind_some, if_neg hpoint, if_neg hunsigned]
  | @unsigned c d rest hc hd =>
    have hstops : Stops isdigit ('u' :: rest) := stops_head (by decide)
    rw [List.cons_append, scan_digit hc, scanNumber_cons, takeWhile_of_stops hd hstops, dropWhile_of_stops hd hstops,
      shown_cons, Option.bind_some, if_neg (by simp), if_pos List.head?_cons, List.tail_cons, hs, Option.map_some]
  | @float c d f rest hc hd hf hstops =>
    have hpoint : Stops isdigit ('.' :: (f ++ rest)) := stops_head (by decide)
    rw [List.append_assoc, List.cons_append, List.cons_append, scan_digit hc, scanNumber_cons, takeWhile_of_stops hd hpoint,
      dropWhile_of_stops hd hpoint, shown_cons, Option.bind_some, if_pos List.head?_cons, List.tail_cons,
      takeWhile_of_stops hf hstops, dropWhile_of_stops hf hstops, hs, Option.map_some]
    simp
  | @symbol c rest hspace hc hne =>
    have halpha : isalpha c = false := by
      rw [Bool.eq_false_iff]
      exact fun ha => by simp [isalnum_alpha ha] at hc
    have hdigit : isdigit c = false := by
      rw [Bool.eq_false_iff]
      exact fun ha => by simp [isalnum_digit ha] at hc
    rw [scan_cons hspace, if_neg (by simp [halpha]), if_neg (by simp [hdigit]), hs, Option.map_some, promote_some hne]

theorem Lexes.length_lt {s rest : List Char} {x : Lexeme} (h : Lexes s x rest) : rest.length < s.length := by
  induction h with
  | blank _ _ ih => exact Nat.lt_succ_of_lt ih
  | _ => simp only [List.length_append, List.length_cons]; omega

theorem Reaches.length_le {s rest : List Char} (h : Reaches s rest) : rest.length ≤ s.length := by
  induction h with
  | refl => exact le_rfl
  | lexeme hx _ ih => exact ih.trans hx.length_lt.le

/-! ### Texts without a lexeme -/

theorem Unclosed.blank {s : List Char} {c : Char} (hc : isspace c = true) (h : Unclosed s) : Unclosed (c :: s) := by
  obtain ⟨blanks, w, rest, hblanks, hw, hstops, hnot, rfl⟩ := h
  exact ⟨c :: blanks, w, rest, by simpa using ⟨hc, hblanks⟩, hw, hstops, hnot, rfl⟩

theorem Marked.blank {s : List Char} {c : Char} (hc : isspace c = true) (h : Marked s) : Marked (c :: s) := by
  obtain ⟨blanks, rest, hblanks, hrest, rfl⟩ := h
  exact ⟨c :: blanks, rest, by simpa using ⟨hc, hblanks⟩, hrest, rfl⟩

theorem scan_blanks {text blanks s : List Char} (h : ∀ c ∈ blanks, isspace c = true) :
    scan text (blanks ++ s) = scan text s := by
  induction blanks with
  | nil => rfl
  | cons c blanks ih =>
    rw [List.cons_append, scan_blank (h c (by simp)), ih fun d hd => h d (List.mem_cons_of_mem _ hd)]

theorem Unclosed.scan {text s : List Char} (h : Unclosed s) : scan text s = none := by
  obtain ⟨blanks, w, rest, hblanks, hw, hstops, hnot, rfl⟩ := h
  obtain ⟨c, v, rfl, hc, hv⟩ := isComplex_cons hw
  rw [scan_blanks hblanks, List.cons_append, scan_alpha hc, scanWord_cons, takeWhile_of_stops hv hstops,
    dropWhile_of_stops hv hstops]
  cases hs : shown text rest with
  | none => rfl
  | some t =>
    cases shown_eq_some hs
    rw [Option.bind_some, if_pos hw, if_neg hnot]

theorem Marked.scan {text s : List Char} (h : Marked s) : ∃ rest, scan text s = some (⟨.eot, []⟩, rest) := by
  obtain ⟨blanks, rest, hblanks, hrest, rfl⟩ := h
  refine ⟨rest, ?_⟩
  obtain ⟨c, rest, rfl⟩ := List.exists_cons_of_ne_nil hrest
  rw [scan_blanks hblanks, scan_cons (by decide), if_neg (by decide), if_neg (by decide), shown_cons, Option.map_some]
  rfl

/-- A text of which no lexeme is read, though its end is known, is unclosed. -/
theorem unclosed_of_scan {text s : List Char} (hsize : 0 ≤ size text) (h : scan text s = none) : Unclosed s := by
  induction s with
  | nil =>
    rw [scan_nil, shown_of_nonneg hsize] at h
    cases h
  | cons c s ih =>
    cases hspace : isspace c with
    | true => exact .blank hspace (ih (by rwa [scan_blank hspace] at h))
    | false =>
      rw [scan_cons hspace] at h
      by_cases halpha : isalpha c = true
      · rw [if_pos halpha, scanWord_cons, shown_of_nonneg hsize, Option.bind_some] at h
        by_cases hcomplex : isComplex (c :: s.takeWhile isalnum) = true
        · rw [if_pos hcomplex] at h
          by_cases hmem : ')' ∈ (s.dropWhile isalnum).tail
          · rw [if_pos hmem, shown_of_nonneg hsize] at h
            cases h
          · exact ⟨[], c :: s.takeWhile isalnum, s.dropWhile isalnum, by simp, hcomplex, stops_dropWhile _ _, hmem,
              by simp⟩
        · rw [if_neg hcomplex] at h
          cases h
      · rw [if_neg halpha] at h
        by_cases hdigit : isdigit c = true
        · rw [if_pos hdigit, scanNumber_cons, shown_of_nonneg hsize, Option.bind_some] at h
          split_ifs at h <;> rw [shown_of_nonneg hsize] at h <;> cases h
        · rw [if_neg hdigit, shown_of_nonneg hsize] at h
          cases h

/-- The last token comes of the end of the text, where it is known, or of a mark. -/
theorem eot_of_scan {text s rest : List Char} {x : Lexeme} (h : scan text s = some (x, rest)) (hx : x.token = .eot) :
    x.identifier = [] ∧ (rest = [] → 0 ≤ size text) ∧ (((∀ c ∈ s, isspace c = true) ∧ rest = []) ∨
      ∃ blanks, (∀ c ∈ blanks, isspace c = true) ∧ s = blanks ++ '\xff' :: rest) := by
  have hsize : ∀ t, shown text t = some rest → rest = [] → 0 ≤ size text := by
    intro t ht hnil
    by_contra hneg
    rw [← shown_eq_some ht, hnil, shown_nil (Int.not_le.mp hneg)] at ht
    cases ht
  induction s with
  | nil =>
    rw [scan_nil] at h
    obtain ⟨t, ht, he⟩ := Option.map_eq_some_iff.mp h
    obtain ⟨rfl, rfl⟩ := Prod.mk.inj he
    rw [shown_eq_some ht] at ht
    exact ⟨rfl, hsize _ ht, .inl ⟨by simp, rfl⟩⟩
  | cons c s ih =>
    cases hspace : isspace c with
    | true =>
      rw [scan_blank hspace] at h
      obtain ⟨hword, hend, ⟨hs, hrest⟩ | ⟨blanks, hblanks, hs⟩⟩ := ih h
      · exact ⟨hword, hend, .inl ⟨by simpa using ⟨hspace, hs⟩, hrest⟩⟩
      · exact ⟨hword, hend, .inr ⟨c :: blanks, by simpa using ⟨hspace, hblanks⟩, by rw [hs, List.cons_append]⟩⟩
    | false =>
      by_cases halpha : isalpha c = true
      · rw [scan_alpha halpha] at h
        exact absurd hx (lexes_of_scanWord halpha h).token_ne
      · by_cases hdigit : isdigit c = true
        · rw [scan_digit hdigit] at h
          exact absurd hx (lexes_of_scanNumber hdigit h).token_ne
        · rw [scan_cons hspace, if_neg halpha, if_neg hdigit] at h
          obtain ⟨t, ht, he⟩ := Option.map_eq_some_iff.mp h
          obtain ⟨rfl, rfl⟩ := Prod.mk.inj he
          have hc : c = '\xff' := by
            by_contra hne
            rw [promote_some hne] at hx
            exact symbol_ne_eot c hx
          exact ⟨rfl, hsize _ ht, .inr ⟨[], by simp, by rw [hc, shown_eq_some ht, List.nil_append]⟩⟩

/-- Where the end of the text is not known, the last token comes of a mark. -/
theorem marked_of_scan {text s rest : List Char} {x : Lexeme} (hneg : size text < 0)
    (h : scan text s = some (x, rest)) (hx : x.token = .eot) : Marked s := by
  obtain ⟨-, hend, ⟨-, hrest⟩ | ⟨blanks, hblanks, hs⟩⟩ := eot_of_scan h hx
  · exact absurd (hend hrest) (Int.not_le.mpr hneg)
  · exact ⟨blanks, rest, hblanks, fun hrest => absurd (hend hrest) (Int.not_le.mpr hneg), hs⟩

/-! ### All tokens -/

/-- The tokens of what remains of a text come to an end. -/
def Finishes (text s : List Char) : Prop :=
  (0 ≤ size text → ∀ rest, Reaches s rest → ¬ Unclosed rest) ∧ (size text < 0 → ∃ rest, Reaches s rest ∧ Marked rest)

theorem Marked.shown_of_reaches {text s rest : List Char} (h : Marked rest) (hs : Reaches s rest) :
    shown text s = some s := by
  obtain ⟨blanks, after, -, -, rfl⟩ := h
  have hlen := hs.length_le
  cases s with
  | nil => simp at hlen
  | cons c s => exact shown_cons

theorem not_finishes {text s : List Char} (h : scan text s = none) : ¬ Finishes text s := by
  rintro ⟨hclosed, hmarked⟩
  rcases Int.lt_or_le (size text) 0 with hneg | hnonneg
  · obtain ⟨rest, hreaches, hmark⟩ := hmarked hneg
    cases hreaches with
    | refl =>
      obtain ⟨t, ht⟩ := @Marked.scan text _ hmark
      rw [h] at ht
      cases ht
    | lexeme hx hr =>
      have hscan := hx.scan (@Marked.shown_of_reaches text _ _ hmark hr)
      rw [h] at hscan
      cases hscan
  · exact hclosed hnonneg s .refl (unclosed_of_scan hnonneg h)

theorem finishes_eot {text s rest : List Char} {x : Lexeme} (h : scan text s = some (x, rest)) (hx : x.token = .eot) :
    Finishes text s := by
  refine ⟨fun hnonneg t ht hunclosed => ?_, fun hneg => ⟨s, .refl, marked_of_scan hneg h hx⟩⟩
  cases ht with
  | refl =>
    rw [hunclosed.scan] at h
    cases h
  | lexeme hy _ =>
    rw [hy.scan (shown_of_nonneg hnonneg)] at h
    cases h
    exact hy.token_ne hx

theorem finishes_lexeme {text s rest : List Char} {x : Lexeme} (h : scan text s = some (x, rest)) (hx : x.token ≠ .eot) :
    Finishes text s ↔ Finishes text rest := by
  have hlex := lexes_of_scan h hx
  constructor
  · rintro ⟨hclosed, hmarked⟩
    refine ⟨fun hnonneg t ht => hclosed hnonneg t (.lexeme hlex ht), fun hneg => ?_⟩
    obtain ⟨t, ht, hmark⟩ := hmarked hneg
    cases ht with
    | refl =>
      obtain ⟨u, hu⟩ := @Marked.scan text _ hmark
      rw [h] at hu
      cases hu
      exact absurd rfl hx
    | lexeme hy hr =>
      rw [hy.scan (hmark.shown_of_reaches hr)] at h
      cases h
      exact ⟨t, hr, hmark⟩
  · rintro ⟨hclosed, hmarked⟩
    refine ⟨fun hnonneg t ht hunclosed => ?_, fun hneg => ?_⟩
    · cases ht with
      | refl =>
        rw [hunclosed.scan] at h
        cases h
      | lexeme hy hr =>
        rw [hy.scan (shown_of_nonneg hnonneg)] at h
        cases h
        exact hclosed hnonneg t hr hunclosed
    · obtain ⟨t, ht, hmark⟩ := hmarked hneg
      exact ⟨t, .lexeme hlex ht, hmark⟩

theorem Lexes.suffix {s rest : List Char} {x : Lexeme} (h : Lexes s x rest) : rest <:+ s := by
  induction h with
  | blank _ _ ih => exact ih.trans (List.suffix_cons _ _)
  | identifier _ _ _ _ => exact List.suffix_append _ _
  | complex _ _ _ => exact (List.suffix_cons _ _).trans (List.suffix_append _ _)
  | integer _ _ _ => exact List.suffix_append _ _
  | unsigned _ _ => exact (List.suffix_cons _ _).trans (List.suffix_append _ _)
  | float _ _ _ _ => exact List.suffix_append _ _
  | symbol _ _ _ => exact List.suffix_cons _ _

/-- What is left behind a lexeme is known to the lexer. -/
theorem shown_of_scan {text s rest : List Char} {x : Lexeme} (h : scan text s = some (x, rest)) :
    shown text rest = some rest := by
  induction s with
  | nil =>
    rw [scan_nil] at h
    obtain ⟨t, ht, he⟩ := Option.map_eq_some_iff.mp h
    have hrest := shown_eq_some ht
    rw [← (Prod.mk.inj he).2]
    rw [hrest] at ht
    exact ht
  | cons c s ih =>
    cases hspace : isspace c with
    | true => exact ih (by rwa [scan_blank hspace] at h)
    | false =>
      by_cases halpha : isalpha c = true
      · rw [scan_alpha halpha, scanWord_cons] at h
        obtain ⟨after, hafter, h⟩ := Option.bind_eq_some_iff.mp h
        cases shown_eq_some hafter
        split_ifs at h
        · obtain ⟨t, ht, he⟩ := Option.map_eq_some_iff.mp h
          cases shown_eq_some ht
          cases he
          exact ht
        · cases h
          exact hafter
      · by_cases hdigit : isdigit c = true
        · rw [scan_digit hdigit, scanNumber_cons] at h
          obtain ⟨after, hafter, h⟩ := Option.bind_eq_some_iff.mp h
          cases shown_eq_some hafter
          split_ifs at h
          · obtain ⟨t, ht, he⟩ := Option.map_eq_some_iff.mp h
            cases shown_eq_some ht
            cases he
            exact ht
          · obtain ⟨t, ht, he⟩ := Option.map_eq_some_iff.mp h
            cases shown_eq_some ht
            cases he
            exact ht
          · cases h
            exact hafter
        · rw [scan_cons hspace, if_neg halpha, if_neg hdigit] at h
          obtain ⟨t, ht, he⟩ := Option.map_eq_some_iff.mp h
          cases shown_eq_some ht
          cases he
          exact ht

/-- The calls up to the last token settle, and on tokens if and only if the text finishes. -/
theorem settles_getTokens {text s w : List Char} (h : Remains text s) :
    ∃ o, Settles (fun n => Lexer.getTokens n (lexerAt text s w)) o ∧ ((∃ tokens, o = some tokens) ↔ Finishes text s) := by
  induction hlen : s.length using Nat.strong_induction_on generalizing s w with
  | _ k ih =>
  subst hlen
  have htoken := settles_getToken (w := w) h
  cases hscan : scan text s with
  | none =>
    rw [hscan] at htoken
    exact ⟨none, Settles.of_succ rfl htoken.bind_none, by simpa using not_finishes hscan⟩
  | some p =>
    obtain ⟨x, rest⟩ := p
    rw [hscan] at htoken
    by_cases hx : x.token = .eot
    · refine ⟨some [x.token], Settles.of_succ rfl (htoken.bind_some ?_), by simpa using finishes_eot hscan hx⟩
      refine Settles.congr (Settles.const _) fun n => ?_
      dsimp only [scanned]
      rw [if_pos hx]
    · have hlex := lexes_of_scan hscan hx
      obtain ⟨o, ho, hiff⟩ := ih rest.length hlex.length_lt (w := wordAfter w x)
        (h.of_suffix hlex.suffix (shown_of_scan hscan)) rfl
      refine ⟨o.map (x.token :: ·), Settles.of_succ rfl (htoken.bind_some ?_), ?_⟩
      · refine Settles.congr ho.map fun n => ?_
        dsimp only [scanned]
        rw [if_neg hx]
      · rw [finishes_lexeme hscan hx, ← hiff]
        simp

theorem finishes_blank {text s : List Char} {c : Char} (hc : isspace c = true) :
    Finishes text (c :: s) ↔ Finishes text s := by
  cases hscan : scan text s with
  | none => exact iff_of_false (not_finishes (by rwa [scan_blank hc])) (not_finishes hscan)
  | some p =>
    obtain ⟨x, rest⟩ := p
    have hblank : scan text (c :: s) = some (x, rest) := by rwa [scan_blank hc]
    by_cases hx : x.token = .eot
    · exact iff_of_true (finishes_eot hblank hx) (finishes_eot hscan hx)
    · rw [finishes_lexeme hblank hx, finishes_lexeme hscan hx]

/-- The calls of the lexer come to the end of the tokens, all reads within the text, if and only if no lexeme of the text
    is an unclosed complex literal. This is for texts with a size that is an `int`; a text without one needs a mark. -/
theorem getTokens_ends_iff (text : List Char) : (∃ fuel tokens, Lexer.getTokens fuel (Lexer.make text) = some tokens) ↔
    (0 ≤ size text → ∀ rest, Reaches (seen text) rest → ¬ Unclosed rest) ∧
    (size text < 0 → ∃ rest, Reaches (seen text) rest ∧ Marked rest) := by
  obtain ⟨o, ho, hiff⟩ := settles_getTokens (w := []) (remains_make text)
  rw [make_eq, ho.exists_iff, hiff, finishes_blank (by decide)]
  rfl

/-- A complex literal without its parenthesis is never read. -/
theorem getTokens_unclosed : ¬ ∀ text, ∃ fuel tokens, Lexer.getTokens fuel (Lexer.make text) = some tokens := by
  intro h
  obtain ⟨fuel, tokens, h⟩ := h ['c', 'o', 'm', 'p', 'l', 'e', 'x', '(', '1']
  rw [make_eq] at h
  obtain ⟨o, ho, hiff⟩ := settles_getTokens (w := []) (remains_make ['c', 'o', 'm', 'p', 'l', 'e', 'x', '(', '1'])
  obtain ⟨hclosed, -⟩ := hiff.mp ⟨tokens, ho.1 fuel tokens h⟩
  refine hclosed (by decide) _ .refl ⟨[' '], ['c', 'o', 'm', 'p', 'l', 'e', 'x'], ['(', '1'], List.all_eq_true.mp (by decide), by decide,
    stops_head (by decide), by decide, ?_⟩
  decide

end Parser
end Taco
