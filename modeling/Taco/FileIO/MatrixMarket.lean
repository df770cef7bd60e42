import Taco.FileIO.Text
import Taco.Notation.Nodes

/-! Matrix Market files: the reader, and the writer of tensors with compressed levels. -/

namespace Taco
namespace FileIO

open Notation (Format ModeFormat)

/-! ### The reader -/

def intMax : ℕ := 2 ^ 31 - 1

/-- A tensor that is read, with the components that are inserted into it; packing them is left out. -/
structure TensorBase (V : Type) where
  dimensions : List ℕ
  format : Format
  components : List (List ℤ × V)

/-- What a file is read into: one format for all levels, or the format of the tensor. -/
inductive Target where
  | modeFormat (modeFormat : ModeFormat)
  | format (format : Format)

namespace Target

/-- Construction of a tensor, which asserts that its format has as many levels as there are dimensions. -/
def make {V : Type} (target : Target) (dimensions : List ℕ) : Option (TensorBase V) :=
  match target with
  | modeFormat m =>
    some ⟨dimensions, ⟨List.replicate dimensions.length [m], List.range dimensions.length, by simp⟩, []⟩
  | format f => if f.getOrder = dimensions.length then some ⟨dimensions, f, []⟩ else none

/-- The formats that tensors of an order can have. -/
def Permits (target : Target) (order : ℕ) : Prop :=
  match target with
  | modeFormat _ => True
  | format f => f.getOrder = order

end Target

/-- The loop over the comments; a line without a word leaves the token as it is. -/
def skipComments (token line : List Char) : List (List Char) → List Char × List (List Char)
  | [] => if ((words line).headD token).head? ≠ some '%' then (line, []) else ([], [])
  | next :: rest =>
    if ((words line).headD token).head? ≠ some '%' then (line, next :: rest)
    else skipComments ((words line).headD token) next rest

/-- The line with the dimensions, which are read until a number is 0 or missing. -/
def readDimensions : ℕ → List Char → Option (List ℕ)
  | 0, _ => none
  | fuel + 1, linePtr =>
    let (dimension, linePtr) := strtoul linePtr
    if dimension = 0 then some []
    else if dimension ≤ intMax then (readDimensions fuel linePtr).map (dimension :: ·)
    else none

/-- The loop over the modes of a line, with the text behind the indices. -/
def readCoordinates : ℕ → List Char → Option (List ℤ × List Char)
  | 0, linePtr => some ([], linePtr)
  | modes + 1, linePtr =>
    let (index, linePtr) := strtol linePtr
    if index ≤ intMax then (readCoordinates modes linePtr).map fun p => (index.bmod (2 ^ 32) :: p.1, p.2) else none

section Reader

variable {V : Type} (strtod : List Char → V)

/-- A line with a component. -/
def readComponent (order : ℕ) (line : List Char) : Option (List ℤ × V) :=
  (readCoordinates order line).map fun p => (p.1, strtod p.2)

/-- A component that is inserted, and its mirror image in a symmetric matrix. -/
def insertion (symm : Bool) (coord : List ℤ) (val : V) : List (List ℤ × V) :=
  if symm && coord.head? ≠ coord.getLast? then [(coord, val), (coord.reverse, val)] else [(coord, val)]

/-- The insertions of the first `nnz` entries; nothing if there are fewer, which are read beyond the end of the vector. -/
def insertEntries (symm : Bool) (entries : List (List ℤ × V)) (nnz : ℕ) : Option (List (List ℤ × V)) :=
  ((List.range nnz).mapM fun i => (entries[i]?).map fun e => insertion symm (e.1.map (· - 1)) e.2).map List.flatten

def readSparse (stream : List (List Char)) (target : Target) (symm : Bool) : Option (TensorBase V) := do
  let (line, stream) := skipComments [] (stream.headD []) stream.tail
  let numbers ← readDimensions (line.length + 1) line
  let nnz ← numbers.getLast?
  let dimensions := numbers.dropLast
  if symm && dimensions.length ≠ 2 then none
  else
    let entries ← stream.mapM (readComponent strtod dimensions.length)
    let tensor : TensorBase V ← target.make dimensions
    let components ← insertEntries symm entries nnz
    some { tensor with components := components }

/-- The coordinates of the value with a number in an array file. -/
def denseCoordinates : List ℕ → ℕ → List ℤ
  | [], _ => []
  | [_], index => [(index : ℤ)]
  | dimension :: dimensions, index => ((index % dimension : ℕ) : ℤ) :: denseCoordinates dimensions (index / dimension)

/-- The number of values, and twice as much in a symmetric matrix, is an `int`. -/
def readDense (stream : List (List Char)) (target : Target) (symm : Bool) : Option (TensorBase V) := do
  let (line, stream) := skipComments [] (stream.headD []) stream.tail
  let dimensions ← readDimensions (line.length + 1) line
  if dimensions.isEmpty || symm && dimensions.length ≠ 2 then none
  else if intMax < (if symm then 2 * dimensions.prod else dimensions.prod) then none
  else
    let values := stream.map strtod
    let tensor : TensorBase V ← target.make dimensions
    let components ← (List.range dimensions.prod).mapM fun n =>
      (values[n]?).map fun v => insertion symm (denseCoordinates dimensions n) v
    some { tensor with components := components.flatten }

def readMTX (text : List Char) (target : Target) : Option (TensorBase V) :=
  match lines text with
  | [] => some ⟨[], ⟨[], [], by simp⟩, []⟩
  | line :: stream =>
    let word := fun i => (words line).getD i []
    let symm : Bool := word 4 = "symmetric".toList
    if word 0 = "%%MatrixMarket".toList ∧ (word 1 = "matrix".toList ∨ word 1 = "tensor".toList) ∧
        word 3 = "real".toList ∧ (word 4 = "general".toList ∨ word 4 = "symmetric".toList) then
      if word 2 = "coordinate".toList then readSparse strtod stream target symm
      else if word 2 = "array".toList then readDense strtod stream target symm
      else none
    else none

end Reader

/-! ### The writer -/

def isDense (format : Format) : Bool := format.modeFormatPacks.flatten.all fun modeFormat => modeFormat = .dense

/-- A tensor for which `writeMTX` takes `writeSparse`, with its components in the order in which they are iterated. -/
structure SparseTensor (V : Type) where
  dimensions : List ℕ
  format : Format
  components : List (List ℕ × V)
  order_eq : format.getOrder = dimensions.length
  two_le : 2 ≤ dimensions.length
  dimension : ∀ d ∈ dimensions, 0 < d ∧ d ≤ intMax
  bounded : ∀ c ∈ components, List.Forall₂ (fun x d => x < d) c.1 dimensions
  not_dense : isDense format = false

section Writer

variable {V : Type} (toText : V → List Char)

/-- The levels that `getSize` of an index supports. -/
def Supported (format : Format) : Prop :=
  ∀ modeFormat ∈ format.modeFormatPacks.flatten, modeFormat.name = "dense" ∨ modeFormat.name = "compressed"

instance (format : Format) : Decidable (Supported format) := inferInstanceAs (Decidable (∀ m ∈ _, _))

/-- `getSize` of the index: the number of positions of its last level, which are iterated. -/
def SparseTensor.getSize (t : SparseTensor V) : Option ℕ := if Supported t.format then some t.components.length else none

/-- The line of a component. -/
def componentLine (c : List ℕ × V) : List Char := (c.1.flatMap fun k => digits (k + 1) ++ [' ']) ++ toText c.2

def header (order : ℕ) : List Char :=
  if order = 2 then "%%MatrixMarket matrix coordinate real general".toList
  else "%%MatrixMarket tensor coordinate real general".toList

/-- The line of the dimensions and the number of components. -/
def sizeLine (dimensions : List ℕ) (size : ℕ) : List Char :=
  [' '].intercalate (dimensions.map digits) ++ [' '] ++ digits size

def writeSparse (t : SparseTensor V) : Option (List Char) :=
  t.getSize.map fun size =>
    header t.dimensions.length ++ ['\n'] ++ ['%', '\n'] ++ sizeLine t.dimensions size ++ ['\n'] ++
      t.components.flatMap fun c => componentLine toText c ++ ['\n']

end Writer

/-! ### What is read back -/

variable {V : Type}

/-- The tensor that is read has the dimensions and the components of the tensor that was written. -/
def SparseTensor.Same (t : SparseTensor V) (r : TensorBase V) : Prop :=
  r.dimensions = t.dimensions ∧ r.components = t.components.map fun c => (c.1.map Int.ofNat, c.2)

/-- What is written is read back by both readers. -/
def SparseTensor.RoundTrips (toText : V → List Char) (strtod : List Char → V) (t : SparseTensor V) (target : Target) : Prop :=
  ∃ text, writeSparse toText t = some text ∧ (∃ r, readMTX strtod text target = some r ∧ t.Same r) ∧
    ∃ r, readSparse strtod (lines text) target false = some r ∧ t.Same r

/-! ### The size line -/

theorem strtoul_eq {n : ℕ} {rest : List Char} (h : NoDigit rest) :
    strtoul (digits n ++ rest) = (if n < 2 ^ 64 then n else 2 ^ 64 - 1, rest) := by
  split_ifs with hn
  · exact strtoul_digits hn h
  · rw [strtoul, signOf_digits]
    simp only [leadingDigits_digits h, if_pos (not_lt.mp hn)]

theorem strtoul_blank_digits {n : ℕ} {rest : List Char} (h : NoDigit rest) :
    strtoul (' ' :: (digits n ++ rest)) = (if n < 2 ^ 64 then n else 2 ^ 64 - 1, rest) := by
  rw [strtoul_blank, strtoul_eq h]
  rw [strtoul_eq h]
  intro heq
  exact digits_ne_nil n (List.append_left_eq_self.mp heq.symm)

/-- Numbers behind blanks. -/
def numbersText (numbers : List ℕ) : List Char := numbers.flatMap fun n => ' ' :: digits n

theorem noDigit_numbersText_append (numbers : List ℕ) {rest : List Char} (hrest : NoDigit rest) :
    NoDigit (numbersText numbers ++ rest) := by
  cases numbers with
  | nil => exact hrest
  | cons n numbers =>
    rintro c hc
    obtain rfl : ' ' = c := Option.some.inj hc
    rfl

theorem noDigit_nil : NoDigit [] := fun c hc => by cases hc

theorem noDigit_numbersText (numbers : List ℕ) : NoDigit (numbersText numbers) := by
  have h := noDigit_numbersText_append numbers noDigit_nil
  rwa [List.append_nil] at h

theorem join_eq (d : ℕ) (dimensions : List ℕ) :
    [' '].intercalate ((d :: dimensions).map digits) = digits d ++ numbersText dimensions := by
  induction dimensions generalizing d with
  | nil => simp [numbersText, List.intercalate]
  | cons e dimensions ih =>
    have h := ih e
    simp only [List.map_cons, List.intercalate, List.intersperse_cons_cons, List.flatten_cons, numbersText,
      List.flatMap_cons] at h ⊢
    rw [h]
    simp

theorem sizeLine_eq {d : ℕ} {dimensions : List ℕ} {size : ℕ} :
    sizeLine (d :: dimensions) size = digits d ++ numbersText (dimensions ++ [size]) := by
  rw [sizeLine, join_eq]
  simp [numbersText]

/-- Dimensions that are not 0 are read one after the other. -/
theorem readDimensions_numbersText {fuel : ℕ} (numbers : List ℕ) {rest : List Char} (hrest : NoDigit rest)
    (h : ∀ n ∈ numbers, 0 < n ∧ n ≤ intMax) (hfuel : numbers.length ≤ fuel) :
    readDimensions fuel (numbersText numbers ++ rest) =
      (readDimensions (fuel - numbers.length) rest).map (numbers ++ ·) := by
  induction numbers generalizing fuel with
  | nil => simp [numbersText]
  | cons n numbers ih =>
    obtain ⟨fuel, rfl⟩ := Nat.exists_eq_succ_of_ne_zero (Nat.ne_zero_of_lt hfuel)
    obtain ⟨hpos, hle⟩ := h n List.mem_cons_self
    have hlt : n < 2 ^ 64 := hle.trans_lt (by rw [intMax]; norm_num)
    have htext : numbersText (n :: numbers) ++ rest = ' ' :: (digits n ++ (numbersText numbers ++ rest)) := by
      simp [numbersText]
    rw [htext, readDimensions, strtoul_blank_digits (noDigit_numbersText_append numbers hrest), if_pos hlt]
    simp only [if_neg hpos.ne', if_pos hle]
    rw [ih (fun m hm => h m (List.mem_cons_of_mem _ hm)) (Nat.le_of_succ_le_succ hfuel), Option.map_map]
    simp only [List.length_cons, Nat.succ_eq_add_one, Nat.add_sub_add_right]
    rfl

theorem readDimensions_last (fuel size : ℕ) :
    readDimensions (fuel + 2) (numbersText [size]) =
      if size = 0 then some [] else if size ≤ intMax then some [size] else none := by
  have htext : numbersText [size] = ' ' :: (digits size ++ []) := by simp [numbersText]
  have hend : strtoul [] = (0, []) := rfl
  rw [htext, readDimensions, strtoul_blank_digits noDigit_nil]
  by_cases hlt : size < 2 ^ 64
  · simp only [if_pos hlt, readDimensions, hend, if_true, Option.map_some]
  · have hbig : ¬ size ≤ intMax := fun h => hlt (h.trans_lt (by rw [intMax]; norm_num))
    have hclamp : ¬ 2 ^ 64 - 1 ≤ intMax := by rw [intMax]; norm_num
    have hne : size ≠ 0 := by
      rintro rfl
      exact hlt (by norm_num)
    simp only [if_neg hlt, if_neg hbig, if_neg hclamp, if_neg hne]
    rw [if_neg (by norm_num)]

theorem length_numbersText (numbers : List ℕ) : numbers.length ≤ (numbersText numbers).length := by
  induction numbers with
  | nil => exact Nat.zero_le _
  | cons n numbers ih =>
    have htext : numbersText (n :: numbers) = ' ' :: (digits n ++ numbersText numbers) := by simp [numbersText]
    rw [htext, List.length_cons, List.length_cons, List.length_append]
    omega

/-- The numbers that are read from the size line: the number of components is not among them if it is 0. -/
theorem readDimensions_sizeLine {dimensions : List ℕ} (hne : dimensions ≠ []) (size : ℕ)
    (h : ∀ d ∈ dimensions, 0 < d ∧ d ≤ intMax) :
    readDimensions ((sizeLine dimensions size).length + 1) (sizeLine dimensions size) =
      if size = 0 then some dimensions else if size ≤ intMax then some (dimensions ++ [size]) else none := by
  obtain ⟨d, dimensions, rfl⟩ := List.exists_cons_of_ne_nil hne
  have hlength := length_numbersText (dimensions ++ [size])
  have hdigits := List.length_pos_iff.mpr (digits_ne_nil d)
  rw [List.length_append, List.length_singleton] at hlength
  obtain ⟨hpos, hle⟩ := h d List.mem_cons_self
  have hlt : d < 2 ^ 64 := hle.trans_lt (by rw [intMax]; norm_num)
  rw [sizeLine_eq, List.length_append, readDimensions, strtoul_eq (noDigit_numbersText _), if_pos hlt]
  simp only [if_neg hpos.ne', if_pos hle]
  have happend : numbersText (dimensions ++ [size]) = numbersText dimensions ++ numbersText [size] := by simp [numbersText]
  nth_rewrite 2 [happend]
  rw [readDimensions_numbersText dimensions (noDigit_numbersText _) (fun m hm => h m (List.mem_cons_of_mem _ hm)) (by omega)]
  obtain ⟨fuel, hfuel⟩ : ∃ fuel, (digits d).length + (numbersText (dimensions ++ [size])).length - dimensions.length = fuel + 2 :=
    ⟨(digits d).length + (numbersText (dimensions ++ [size])).length - dimensions.length - 2, by omega⟩
  rw [hfuel, readDimensions_last]
  split_ifs <;> simp

/-! ### The component lines -/

section Components

variable (toText : V → List Char) (strtod : List Char → V)

theorem readCoordinates_eq (coords : List ℕ) (rest : List Char) (hcoords : ∀ k ∈ coords, k < intMax) (blank : Bool)
    (hrest : coords ≠ [] ∨ blank = false) :
    readCoordinates coords.length ((if blank then [' '] else []) ++ (coords.flatMap fun k => digits (k + 1) ++ [' ']) ++ rest) =
      some (coords.map fun k => ((k + 1 : ℕ) : ℤ), (if coords = [] then [] else [' ']) ++ rest) := by
  induction coords generalizing blank with
  | nil =>
    obtain rfl := hrest.resolve_left (fun h => h rfl)
    rfl
  | cons k coords ih =>
    have hk : k < intMax := hcoords k List.mem_cons_self
    have hlt : k + 1 < 2 ^ 63 := lt_of_le_of_lt hk (by rw [intMax]; norm_num)
    have hnodigit : NoDigit (' ' :: ((coords.flatMap fun k => digits (k + 1) ++ [' ']) ++ rest)) := by
      rintro c hc
      obtain rfl : ' ' = c := Option.some.inj hc
      rfl
    have hread : strtol ((if blank then [' '] else []) ++
        ((k :: coords).flatMap fun k => digits (k + 1) ++ [' ']) ++ rest) =
        (((k + 1 : ℕ) : ℤ), ' ' :: ((coords.flatMap fun k => digits (k + 1) ++ [' ']) ++ rest)) := by
      have htext : ((k :: coords).flatMap fun k => digits (k + 1) ++ [' ']) ++ rest =
          digits (k + 1) ++ ' ' :: ((coords.flatMap fun k => digits (k + 1) ++ [' ']) ++ rest) := by simp
      rw [List.append_assoc, htext]
      cases blank with
      | false => exact strtol_digits hlt hnodigit
      | true =>
        have hdigits := strtol_digits hlt hnodigit
        change strtol (' ' :: (digits (k + 1) ++ _)) = _
        refine (strtol_blank _ ?_).trans hdigits
        rw [hdigits]
        intro heq
        exact digits_ne_nil (k + 1) (List.append_left_eq_self.mp heq.symm)
    have hmax : ((k + 1 : ℕ) : ℤ) ≤ intMax := by exact_mod_cast hk
    have hcast : ((k + 1 : ℕ) : ℤ).bmod (2 ^ 32) = ((k + 1 : ℕ) : ℤ) := by
      have hbound : ((k + 1 : ℕ) : ℤ) ≤ 2 ^ 31 - 1 := hmax.trans (by rw [intMax]; norm_num)
      exact Int.bmod_eq_of_le (by omega) (by omega)
    rw [List.length_cons, readCoordinates, hread]
    simp only [if_pos hmax, hcast]
    cases coords with
    | nil => rfl
    | cons k' coords =>
      have hnext := ih (fun j hj => hcoords j (List.mem_cons_of_mem _ hj)) true (Or.inl (List.cons_ne_nil _ _))
      simp only [if_true, List.cons_append, List.nil_append] at hnext
      rw [hnext]
      rfl

variable {toText strtod}

theorem readComponent_eq (hread : ∀ v, strtod (' ' :: toText v) = v) {c : List ℕ × V} (hne : c.1 ≠ [])
    (hcoords : ∀ k ∈ c.1, k < intMax) :
    readComponent strtod c.1.length (componentLine toText c) = some (c.1.map fun k => ((k + 1 : ℕ) : ℤ), c.2) := by
  have h := readCoordinates_eq c.1 (toText c.2) hcoords false (Or.inr rfl)
  simp only [Bool.false_eq_true, if_false, List.nil_append, if_neg hne, List.singleton_append] at h
  rw [readComponent, componentLine, h, Option.map_some, hread]

theorem newline_notMem_digits (n : ℕ) : '\n' ∉ digits n := fun h => absurd (isDigit_of_mem_digits h) (by decide)

theorem newline_notMem_componentLine (htext : ∀ v, '\n' ∉ toText v) (c : List ℕ × V) : '\n' ∉ componentLine toText c := by
  rw [componentLine, List.mem_append, not_or]
  refine ⟨fun h => ?_, htext c.2⟩
  obtain ⟨k, -, hk⟩ := List.mem_flatMap.mp h
  rcases List.mem_append.mp hk with hk | hk
  · exact newline_notMem_digits _ hk
  · exact absurd (List.mem_singleton.mp hk) (by decide)

theorem newline_notMem_sizeLine {dimensions : List ℕ} (hne : dimensions ≠ []) (size : ℕ) :
    '\n' ∉ sizeLine dimensions size := by
  obtain ⟨d, dimensions, rfl⟩ := List.exists_cons_of_ne_nil hne
  rw [sizeLine_eq, List.mem_append, not_or]
  refine ⟨newline_notMem_digits d, fun h => ?_⟩
  obtain ⟨n, -, hn⟩ := List.mem_flatMap.mp h
  rcases List.mem_cons.mp hn with hn | hn
  · exact absurd hn (by decide)
  · exact newline_notMem_digits n hn

theorem mapM_eq_some {α β : Type} {f : α → Option β} {g : α → β} {l : List α} (h : ∀ a ∈ l, f a = some (g a)) :
    l.mapM f = some (l.map g) := by
  induction l with
  | nil => rfl
  | cons a l ih =>
    rw [List.mapM_cons, h a List.mem_cons_self, ih fun b hb => h b (List.mem_cons_of_mem _ hb)]
    rfl

theorem mapM_eq_none {α β : Type} {f : α → Option β} {l : List α} {a : α} (ha : a ∈ l) (h : f a = none) : l.mapM f = none := by
  induction l with
  | nil => cases ha
  | cons b l ih =>
    rw [List.mapM_cons]
    rcases List.mem_cons.mp ha with rfl | ha
    · rw [h]
      rfl
    · rw [ih ha]
      cases f b <;> rfl

/-- The insertions of all entries of a file that is not symmetric. -/
theorem insertEntries_all (entries : List (List ℤ × V)) :
    insertEntries false entries entries.length = some (entries.map fun e => (e.1.map (· - 1), e.2)) := by
  rw [insertEntries, mapM_eq_some (g := fun i => ((entries[i]?).map fun e => (e.1.map (· - 1), e.2)).toList), Option.map_some]
  · refine congrArg some ?_
    induction entries with
    | nil => rfl
    | cons e entries ih =>
      rw [List.length_cons, List.range_succ_eq_map, List.map_cons, List.map_map, List.flatten_cons]
      exact congrArg ((e.1.map (· - 1), e.2) :: ·) ih
  · intro i hi
    rw [List.getElem?_eq_getElem (List.mem_range.mp hi)]
    simp [insertion]

theorem mapM_readComponent (hread : ∀ v, strtod (' ' :: toText v) = v) {order : ℕ} (horder : 0 < order)
    {components : List (List ℕ × V)} (hcomponents : ∀ c ∈ components, c.1.length = order ∧ ∀ k ∈ c.1, k < intMax) :
    (components.map (componentLine toText)).mapM (readComponent strtod order) =
      some (components.map fun c => (c.1.map fun k => ((k + 1 : ℕ) : ℤ), c.2)) := by
  induction components with
  | nil => rfl
  | cons c components ih =>
    obtain ⟨hlength, hcoords⟩ := hcomponents c List.mem_cons_self
    have hne : c.1 ≠ [] := List.ne_nil_of_length_pos (hlength ▸ horder)
    rw [List.map_cons, List.mapM_cons, ← hlength, readComponent_eq hread hne hcoords, hlength,
      ih fun c' hc' => hcomponents c' (List.mem_cons_of_mem _ hc')]
    rfl

/-! ### The whole file -/

/-- The words of a header; the characters of a literal are spelled out where they are compared. -/
theorem words_header (order : ℕ) : ∃ type, words (header order) =
    ["%%MatrixMarket".toList, type, "coordinate".toList, "real".toList, "general".toList] ∧
      (type = "matrix".toList ∨ type = "tensor".toList) ∧ '\n' ∉ header order ∧ (header order).head? = some '%' := by
  have hmarket : "%%MatrixMarket".toList = ['%', '%', 'M', 'a', 't', 'r', 'i', 'x', 'M', 'a', 'r', 'k', 'e', 't'] :=
    String.toList_ofList
  have hmatrix : "matrix".toList = ['m', 'a', 't', 'r', 'i', 'x'] := String.toList_ofList
  have htensor : "tensor".toList = ['t', 'e', 'n', 's', 'o', 'r'] := String.toList_ofList
  have hcoordinate : "coordinate".toList = ['c', 'o', 'o', 'r', 'd', 'i', 'n', 'a', 't', 'e'] := String.toList_ofList
  have hreal : "real".toList = ['r', 'e', 'a', 'l'] := String.toList_ofList
  have hgeneral : "general".toList = ['g', 'e', 'n', 'e', 'r', 'a', 'l'] := String.toList_ofList
  have htwo : "%%MatrixMarket matrix coordinate real general".toList =
      ['%', '%', 'M', 'a', 't', 'r', 'i', 'x', 'M', 'a', 'r', 'k', 'e', 't', ' ', 'm', 'a', 't', 'r', 'i', 'x', ' ', 'c', 'o',
        'o', 'r', 'd', 'i', 'n', 'a', 't', 'e', ' ', 'r', 'e', 'a', 'l', ' ', 'g', 'e', 'n', 'e', 'r', 'a', 'l'] :=
    String.toList_ofList
  have hmore : "%%MatrixMarket tensor coordinate real general".toList =
      ['%', '%', 'M', 'a', 't', 'r', 'i', 'x', 'M', 'a', 'r', 'k', 'e', 't', ' ', 't', 'e', 'n', 's', 'o', 'r', ' ', 'c', 'o',
        'o', 'r', 'd', 'i', 'n', 'a', 't', 'e', ' ', 'r', 'e', 'a', 'l', ' ', 'g', 'e', 'n', 'e', 'r', 'a', 'l'] :=
    String.toList_ofList
  rw [header, hmarket, hmatrix, htensor, hcoordinate, hreal, hgeneral, htwo, hmore]
  split_ifs
  · exact ⟨_, rfl, Or.inl rfl, by decide, rfl⟩
  · exact ⟨_, rfl, Or.inr rfl, by decide, rfl⟩

theorem words_cons {c : Char} (h : isspace c = false) (cs : List Char) : ∃ w ws, words (c :: cs) = (c :: w) :: ws := by
  obtain ⟨w, ws, hsplit⟩ := List.exists_cons_of_ne_nil (List.splitOnP_ne_nil isspace cs)
  refine ⟨w, ws.filter (· ≠ []), ?_⟩
  rw [words, List.splitOnP_cons_eq_if_modifyHead, h, if_neg Bool.false_ne_true, hsplit]
  exact List.filter_cons_of_pos (by simp)

theorem skipComments_comment (token cs next : List Char) (rest : List (List Char)) :
    ∃ w, skipComments token ('%' :: cs) (next :: rest) = skipComments ('%' :: w) next rest := by
  obtain ⟨w, ws, hwords⟩ := words_cons (by rfl : isspace '%' = false) cs
  refine ⟨w, ?_⟩
  rw [skipComments, hwords]
  exact if_neg (not_not.mpr rfl)

theorem skipComments_number (token line : List Char) (n : ℕ) (rest : List (List Char)) :
    skipComments token (digits n ++ line) rest = (digits n ++ line, rest) := by
  obtain ⟨c, cs, hcs⟩ := List.exists_cons_of_ne_nil (digits_ne_nil n)
  have hdigit : c.isDigit = true := isDigit_of_mem_digits (hcs ▸ List.mem_cons_self)
  obtain ⟨w, ws, hwords⟩ := words_cons (not_isspace_of_isDigit hdigit) (cs ++ line)
  have hne : ((words (c :: (cs ++ line))).headD token).head? ≠ some '%' := by
    rw [hwords]
    intro heq
    obtain rfl : c = '%' := Option.some.inj heq
    exact absurd hdigit (by decide)
  rw [hcs, List.cons_append]
  cases rest with
  | nil => rw [skipComments, if_pos hne]
  | cons next rest => rw [skipComments, if_pos hne]

namespace SparseTensor

variable (t : SparseTensor V)

theorem dimensions_ne_nil : t.dimensions ≠ [] := List.ne_nil_of_length_pos (Nat.zero_lt_two.trans_le t.two_le)

/-- The coordinates of a component lie within the dimensions. -/
theorem coordinates {c : List ℕ × V} (hc : c ∈ t.components) :
    c.1.length = t.dimensions.length ∧ ∀ k ∈ c.1, k < intMax := by
  have hall := t.bounded c hc
  refine ⟨hall.length_eq, fun k hk => ?_⟩
  obtain ⟨i, hi, rfl⟩ := List.mem_iff_getElem.mp hk
  have hlt : i < t.dimensions.length := hall.length_eq ▸ hi
  exact (hall.get hi hlt).trans_le (t.dimension _ (List.getElem_mem hlt)).2

/-- The lines behind the comments. -/
def body (toText : V → List Char) : List (List Char) :=
  sizeLine t.dimensions t.components.length :: t.components.map (componentLine toText)

theorem lines_writeSparse (htext : ∀ v, '\n' ∉ toText v) (h : Supported t.format) :
    ∃ text, writeSparse toText t = some text ∧ lines text = header t.dimensions.length :: ['%'] :: t.body toText := by
  obtain ⟨-, -, -, hheader, -⟩ := words_header t.dimensions.length
  refine ⟨_, by rw [writeSparse, getSize, if_pos h, Option.map_some], ?_⟩
  have hcomment : ∀ rest, lines ('%' :: '\n' :: rest) = ['%'] :: lines rest := fun rest =>
    lines_append (by decide : '\n' ∉ ['%'])
  have hsize := newline_notMem_sizeLine t.dimensions_ne_nil t.components.length
  simp only [List.append_assoc, List.cons_append, List.nil_append]
  rw [lines_append hheader, hcomment, lines_append hsize, lines_flatMap _ fun c _ => newline_notMem_componentLine htext c, body]

/-- The comments before the size line, from any token on. -/
theorem skipComments_body (toText : V → List Char) (token : List Char) :
    skipComments token ['%'] (t.body toText) =
      (sizeLine t.dimensions t.components.length, t.components.map (componentLine toText)) := by
  obtain ⟨token', hcomment⟩ := skipComments_comment token [] (sizeLine t.dimensions t.components.length)
    (t.components.map (componentLine toText))
  obtain ⟨d, dimensions, heq⟩ := List.exists_cons_of_ne_nil t.dimensions_ne_nil
  rw [body, hcomment, heq, sizeLine_eq]
  exact skipComments_number _ _ d _

theorem skipComments_header (toText : V → List Char) (order : ℕ) :
    skipComments [] (header order) (['%'] :: t.body toText) =
      (sizeLine t.dimensions t.components.length, t.components.map (componentLine toText)) := by
  obtain ⟨-, -, -, -, hhead⟩ := words_header order
  obtain ⟨cs, hcs⟩ := List.head?_eq_some_iff.mp hhead
  obtain ⟨token, hcomment⟩ := skipComments_comment [] cs ['%'] (t.body toText)
  rw [hcs, hcomment, skipComments_body]

/-- What the reader makes of the size line and the lines behind it. -/
theorem readSparse_eq (hread : ∀ v, strtod (' ' :: toText v) = v) (target : Target) (stream : List (List Char))
    (hskip : skipComments [] (stream.headD []) stream.tail =
      (sizeLine t.dimensions t.components.length, t.components.map (componentLine toText))) :
    readSparse strtod stream target false =
      if 0 < t.components.length ∧ t.components.length ≤ intMax then
        (target.make t.dimensions : Option (TensorBase V)).map fun tensor =>
          { tensor with components := t.components.map fun c => (c.1.map Int.ofNat, c.2) }
      else none := by
  have hnumbers := readDimensions_sizeLine t.dimensions_ne_nil t.components.length t.dimension
  rw [readSparse, hskip]
  dsimp only
  rw [hnumbers]
  by_cases hzero : t.components.length = 0
  · -- the last dimension is taken for the number of components, of which there are none
    obtain ⟨rest, d, hd⟩ := (List.eq_nil_or_concat t.dimensions).resolve_left t.dimensions_ne_nil
    have hpos : 0 < d := (t.dimension d (by simp [hd])).1
    obtain ⟨n, rfl⟩ := Nat.exists_eq_succ_of_ne_zero hpos.ne'
    have hnil : t.components = [] := List.eq_nil_of_length_eq_zero hzero
    have hnone : insertEntries false ([] : List (List ℤ × V)) (n + 1) = none := by
      rw [insertEntries, List.range_succ_eq_map, List.mapM_cons]
      rfl
    rw [if_pos hzero, if_neg (by omega)]
    simp [hd, hnil, hnone]
  · rw [if_neg hzero]
    by_cases hmax : t.components.length ≤ intMax
    · have horder : 0 < t.dimensions.length := Nat.zero_lt_two.trans_le t.two_le
      have hentries := mapM_readComponent hread horder fun c hc => t.coordinates hc
      have hall := insertEntries_all (t.components.map fun c => (c.1.map fun k => ((k + 1 : ℕ) : ℤ), c.2))
      rw [if_pos hmax, if_pos ⟨by omega, hmax⟩]
      rw [List.length_map] at hall
      rw [Option.bind_eq_bind, Option.bind_some, List.getLast?_concat, Option.bind_eq_bind, Option.bind_some,
        List.dropLast_concat, if_neg (by simp), hentries, Option.bind_eq_bind, Option.bind_some, hall]
      have hback : ((t.components.map fun c => (c.1.map fun k => ((k + 1 : ℕ) : ℤ), c.2)).map fun e =>
          (e.1.map (· - 1), e.2)) = t.components.map fun c => (c.1.map Int.ofNat, c.2) := by
        simp [Function.comp_def]
      rw [hback]
      cases target.make (V := V) t.dimensions <;> rfl
    · rw [if_neg hmax, if_neg fun h => hmax h.2]
      rfl

theorem readMTX_header (order : ℕ) (text : List Char) (stream : List (List Char)) (target : Target)
    (h : lines text = header order :: stream) : readMTX strtod text target = readSparse strtod stream target false := by
  obtain ⟨type, hwords, htype, -⟩ := words_header order
  have hgeneral : "general".toList = ['g', 'e', 'n', 'e', 'r', 'a', 'l'] := String.toList_ofList
  have hsymmetric : "symmetric".toList = ['s', 'y', 'm', 'm', 'e', 't', 'r', 'i', 'c'] := String.toList_ofList
  have hne : "general".toList ≠ "symmetric".toList := by
    rw [hgeneral, hsymmetric]
    decide
  rw [readMTX, h]
  dsimp only
  rw [hwords]
  simp only [List.getD_cons_zero, List.getD_cons_succ]
  rw [if_pos ⟨trivial, htype, trivial, Or.inl trivial⟩, if_pos trivial, decide_eq_false hne]

/-- A file is read back unless there is no component, which ends the size line early, or one too many for an `int`,
    and a tensor with another kind of level is not written at all. -/
theorem readsBack_iff (htext : ∀ v, '\n' ∉ toText v) (hread : ∀ v, strtod (' ' :: toText v) = v) (target : Target)
    (hpermits : target.Permits t.dimensions.length) :
    t.RoundTrips toText strtod target ↔
      Supported t.format ∧ 0 < t.components.length ∧ t.components.length ≤ intMax := by
  have hmake : ∃ format, (target.make t.dimensions : Option (TensorBase V)) = some ⟨t.dimensions, format, []⟩ := by
    cases target with
    | modeFormat m => exact ⟨_, rfl⟩
    | format f => exact ⟨f, if_pos hpermits⟩
  have hbehind := t.readSparse_eq hread target (['%'] :: t.body toText) (t.skipComments_body toText [])
  constructor
  · rintro ⟨text, hwrite, ⟨r, hr, -⟩, -⟩
    have hsupported : Supported t.format := by
      by_contra hnot
      rw [writeSparse, getSize, if_neg hnot] at hwrite
      cases hwrite
    obtain ⟨text', hwrite', hlines⟩ := t.lines_writeSparse htext hsupported
    obtain rfl : text = text' := Option.some.inj (hwrite.symm.trans hwrite')
    refine ⟨hsupported, ?_⟩
    by_contra hnot
    rw [readMTX_header _ _ _ _ hlines, hbehind, if_neg hnot] at hr
    cases hr
  · rintro ⟨hsupported, hsize⟩
    obtain ⟨text, hwrite, hlines⟩ := t.lines_writeSparse htext hsupported
    obtain ⟨format, hformat⟩ := hmake
    have hwhole : skipComments [] ((lines text).headD []) (lines text).tail =
        (sizeLine t.dimensions t.components.length, t.components.map (componentLine toText)) := by
      rw [hlines]
      exact t.skipComments_header toText _
    have hlined := t.readSparse_eq hread target _ hwhole
    rw [if_pos hsize, hformat] at hbehind hlined
    exact ⟨text, hwrite, ⟨_, (readMTX_header _ _ _ _ hlines).trans hbehind, rfl, rfl⟩, ⟨_, hlined, rfl, rfl⟩⟩

end SparseTensor

end Components

/-! ### Matrices of whole numbers -/

/-- The value of a line whose value is a whole number. -/
def wholeNumber (text : List Char) : ℕ := ((leadingDigits (text.dropWhile isspace)).map Prod.fst).getD 0

theorem wholeNumber_digits (n : ℕ) : wholeNumber (' ' :: digits n) = n := by
  have hdrop : (' ' :: digits n).dropWhile isspace = digits n ++ [] := by
    obtain ⟨c, cs, hcs⟩ := List.exists_cons_of_ne_nil (digits_ne_nil n)
    have hspace := not_isspace_of_isDigit (isDigit_of_mem_digits (n := n) (hcs ▸ List.mem_cons_self : c ∈ digits n))
    rw [hcs, List.dropWhile_cons, if_pos (by rfl : isspace ' ' = true), List.dropWhile_cons, hspace, if_neg Bool.false_ne_true, List.append_nil]
  rw [wholeNumber, hdrop, leadingDigits_digits noDigit_nil]
  rfl

/-- Rows whose elements are compressed. -/
def compressedRows : Format where
  modeFormatPacks := [[.dense], [⟨"compressed", false, true, true, false, true, false⟩]]
  modeOrdering := [0, 1]
  complete := by decide

def oneElement : SparseTensor ℕ where
  dimensions := [5, 5]
  format := compressedRows
  components := [([0, 3], 7)]
  order_eq := rfl
  two_le := by decide
  dimension := by simp [intMax]
  bounded := by simp
  not_dense := by decide

def noElement : SparseTensor ℕ where
  dimensions := [5, 5]
  format := compressedRows
  components := []
  order_eq := rfl
  two_le := by decide
  dimension := by simp [intMax]
  bounded := by simp
  not_dense := by decide

theorem readsBack_iff_oneElement : oneElement.RoundTrips digits wholeNumber (.format compressedRows) :=
  (SparseTensor.readsBack_iff oneElement newline_notMem_digits wholeNumber_digits (.format compressedRows) rfl).mpr
    ⟨by decide, by decide, by simp [oneElement, intMax]⟩

/-- The size line `5 5 0` is read as that of a vector with 5 components. -/
theorem noElement_not_roundTrips :
    ¬ ∀ (t : SparseTensor ℕ) (target : Target), target.Permits t.dimensions.length →
      t.RoundTrips digits wholeNumber target := by
  intro h
  obtain ⟨text, hwrite, -, r, hr, -⟩ := h noElement (.format compressedRows) rfl
  obtain ⟨text', hwrite', hlines⟩ := noElement.lines_writeSparse newline_notMem_digits (by decide)
  obtain rfl : text = text' := Option.some.inj (hwrite.symm.trans hwrite')
  rw [hlines] at hr
  have hnone : readSparse wholeNumber (header 2 :: ['%'] :: noElement.body digits) (.format compressedRows) false = none := by
    rw [readSparse, List.headD_cons, List.tail_cons, noElement.skipComments_header]
    decide
  rw [show noElement.dimensions.length = 2 from rfl, hnone] at hr
  cases hr

end FileIO
end Taco
