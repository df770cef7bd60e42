import Mathlib.Tactic

/-! Text streams, as far as files are read with them: lines, words and integers. -/

namespace Taco
namespace FileIO

/-! ### Lines and words -/

/-- The lines that `getline` finds one after the other. -/
def lines : List Char → List (List Char)
  | [] => []
  | c :: text =>
    if c = '\n' then [] :: lines text
    else
      match lines text with
      | line :: rest => if text.head? = some '\n' then [c] :: rest else (c :: line) :: rest
      | [] => [[c]]

def isspace (c : Char) : Bool := c = ' ' || '\t' ≤ c && c ≤ '\r'

/-- The words that `>>` reads from a line one after the other. -/
def words (line : List Char) : List (List Char) := (line.splitOnP isspace).filter (· ≠ [])

theorem lines_append {line rest : List Char} (h : '\n' ∉ line) : lines (line ++ '\n' :: rest) = line :: lines rest := by
  induction line with
  | nil => rw [List.nil_append, lines, if_pos rfl]
  | cons c line ih =>
    rw [List.mem_cons, not_or] at h
    rw [List.cons_append, lines, if_neg (Ne.symm h.1), ih h.2]
    cases line with
    | nil => rfl
    | cons c' line =>
      have hc : c' ≠ '\n' := fun heq => h.2 (heq ▸ List.mem_cons_self)
      simp [hc]

theorem lines_flatMap {α : Type*} (f : α → List Char) {l : List α} (h : ∀ a ∈ l, '\n' ∉ f a) :
    lines (l.flatMap fun a => f a ++ ['\n']) = l.map f := by
  induction l with
  | nil => rfl
  | cons a l ih =>
    rw [List.flatMap_cons, List.append_assoc, List.singleton_append, lines_append (h a List.mem_cons_self),
      ih fun b hb => h b (List.mem_cons_of_mem _ hb), List.map_cons]

/-! ### Integers -/

/-- A sign, and what is behind it. -/
def signOf : List Char → Bool × List Char
  | '-' :: text => (true, text)
  | '+' :: text => (false, text)
  | text => (false, text)

/-- The digits at the beginning of a text as a number, and what is behind them; nothing if there is no digit. -/
def leadingDigits (text : List Char) : Option (ℕ × List Char) :=
  let digits := text.takeWhile Char.isDigit
  if digits = [] then none else some (Nat.ofDigitChars 10 digits 0, text.dropWhile Char.isDigit)

/-- `strtoul` of base 10 for 64 bits, with the text behind the number; the whole text where there is none. -/
def strtoul (text : List Char) : ℕ × List Char :=
  let (negative, unsigned) := signOf (text.dropWhile isspace)
  match leadingDigits unsigned with
  | none => (0, text)
  | some (n, rest) =>
    if 2 ^ 64 ≤ n then (2 ^ 64 - 1, rest) else if negative then ((2 ^ 64 - n) % 2 ^ 64, rest) else (n, rest)

/-- `strtol` of base 10 for 64 bits. -/
def strtol (text : List Char) : ℤ × List Char :=
  let (negative, unsigned) := signOf (text.dropWhile isspace)
  match leadingDigits unsigned with
  | none => (0, text)
  | some (n, rest) => (max (-2 ^ 63) (min (2 ^ 63 - 1) (if negative then -(n : ℤ) else n)), rest)

/-- The digits of a number. -/
def digits (n : ℕ) : List Char := Nat.toDigits 10 n

theorem digits_ne_nil (n : ℕ) : digits n ≠ [] := Nat.toDigits_ne_nil

theorem isDigit_of_mem_digits {n : ℕ} {c : Char} (h : c ∈ digits n) : c.isDigit = true :=
  Nat.isDigit_of_mem_toDigits (by norm_num) (by norm_num) h

theorem not_isspace_of_isDigit {c : Char} (h : c.isDigit = true) : isspace c = false := by
  have hrange : 48 ≤ c.val ∧ c.val ≤ 57 := by simpa [Char.isDigit] using h
  have hspace : c ≠ ' ' := by
    rintro rfl
    exact absurd hrange.1 (by decide)
  have hcr : ¬ c ≤ '\r' := by
    intro hle
    exact absurd (UInt32.le_trans hrange.1 hle) (by decide)
  simp [isspace, hspace, hcr]

/-- What is behind a number. -/
def NoDigit (rest : List Char) : Prop := ∀ c ∈ rest.head?, c.isDigit = false

theorem leadingDigits_digits {n : ℕ} {rest : List Char} (h : NoDigit rest) : leadingDigits (digits n ++ rest) = some (n, rest) := by
  have hall : ∀ c ∈ digits n, c.isDigit = true := fun c hc => isDigit_of_mem_digits hc
  have htake : rest.takeWhile Char.isDigit = [] := by
    cases rest with
    | nil => rfl
    | cons c rest => rw [List.takeWhile_cons, h c rfl, if_neg Bool.false_ne_true]
  have hdrop : rest.dropWhile Char.isDigit = rest := by
    cases rest with
    | nil => rfl
    | cons c rest => rw [List.dropWhile_cons, h c rfl, if_neg Bool.false_ne_true]
  rw [leadingDigits, List.takeWhile_append_of_pos hall, List.dropWhile_append_of_pos hall, htake, hdrop, List.append_nil,
    if_neg (digits_ne_nil n)]
  exact congrArg (fun m => some (m, rest)) (Nat.ofDigitChars_toDigits (by norm_num) (by norm_num))

/-- Blanks before a number and no sign. -/
theorem signOf_digits (n : ℕ) (rest : List Char) :
    signOf ((digits n ++ rest).dropWhile isspace) = (false, digits n ++ rest) := by
  obtain ⟨c, cs, hcs⟩ := List.exists_cons_of_ne_nil (digits_ne_nil n)
  have hdigit : c.isDigit = true := isDigit_of_mem_digits (hcs ▸ List.mem_cons_self)
  have hminus : c ≠ '-' := by
    rintro rfl
    exact absurd hdigit (by decide)
  have hplus : c ≠ '+' := by
    rintro rfl
    exact absurd hdigit (by decide)
  rw [hcs, List.cons_append, List.dropWhile_cons, not_isspace_of_isDigit hdigit, if_neg Bool.false_ne_true]
  unfold signOf
  split
  · exact absurd (List.cons.inj ‹_›).1 hminus
  · exact absurd (List.cons.inj ‹_›).1 hplus
  · rfl

theorem strtoul_digits {n : ℕ} {rest : List Char} (hn : n < 2 ^ 64) (h : NoDigit rest) :
    strtoul (digits n ++ rest) = (n, rest) := by
  rw [strtoul, signOf_digits]
  simp only [leadingDigits_digits h, if_neg (not_le.mpr hn), Bool.false_eq_true, if_false]

theorem strtol_digits {n : ℕ} {rest : List Char} (hn : n < 2 ^ 63) (h : NoDigit rest) :
    strtol (digits n ++ rest) = ((n : ℤ), rest) := by
  rw [strtol, signOf_digits]
  simp only [leadingDigits_digits h, Bool.false_eq_true, if_false, Prod.mk.injEq, and_true]
  omega

theorem strtoul_blank (text : List Char) (h : (strtoul text).2 ≠ text) : strtoul (' ' :: text) = strtoul text := by
  have hdrop : (' ' :: text).dropWhile isspace = text.dropWhile isspace := by
    rw [List.dropWhile_cons]
    rfl
  unfold strtoul at h ⊢
  rw [hdrop]
  cases hlead : leadingDigits (signOf (text.dropWhile isspace)).2 with
  | none => simp [hlead] at h
  | some p => simp only [hlead]

theorem strtol_blank (text : List Char) (h : (strtol text).2 ≠ text) : strtol (' ' :: text) = strtol text := by
  have hdrop : (' ' :: text).dropWhile isspace = text.dropWhile isspace := by
    rw [List.dropWhile_cons]
    rfl
  unfold strtol at h ⊢
  rw [hdrop]
  cases hlead : leadingDigits (signOf (text.dropWhile isspace)).2 with
  | none => simp [hlead] at h
  | some p => simp only [hlead]

end FileIO
end Taco
