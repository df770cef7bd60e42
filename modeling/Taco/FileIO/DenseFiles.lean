import Taco.FileIO.MatrixMarket
import Taco.Library.LoopNumbers
import Mathlib.Data.List.GetD

/-! Array files: tensors with dense levels, the values of which are written in the order in which they are stored and read
    with the first mode running fastest. -/

namespace Taco
namespace FileIO

open Notation (Format)
open LoopNumbers

/-- A tensor for which `writeMTX` takes `writeDense`, with its value at each coordinate. -/
structure DenseTensor (V : Type) where
  dimensions : List ℕ
  format : Format
  value : List ℕ → V
  order_eq : format.getOrder = dimensions.length
  dimension : ∀ d ∈ dimensions, 0 < d ∧ d ≤ intMax
  dense : isDense format = true

/-! ### The writer -/

section Writer

variable {V : Type} (toText : V → List Char)

def getDimension (dimensions : List ℕ) (mode : ℕ) : ℕ := dimensions.getD mode 0

def coordinate (coord : List ℕ) (mode : ℕ) : ℕ := coord.getD mode 0

/-- The coordinates of a tensor in the order in which they are stored, and so iterated. -/
def DenseTensor.iterate (t : DenseTensor V) : List (List ℕ × V) :=
  (nest (getDimension t.dimensions) t.format.modeOrdering fun _ => 0).map fun env =>
    ((List.range t.dimensions.length).map env, t.value ((List.range t.dimensions.length).map env))

def arrayHeader (order : ℕ) : List Char :=
  if order = 2 then "%%MatrixMarket matrix array real general".toList
  else "%%MatrixMarket tensor array real general".toList

/-- The line of the dimensions, which ends with a blank. -/
def dimensionsLine (dimensions : List ℕ) : List Char := [' '].intercalate (dimensions.map digits) ++ [' ']

/-- An array file with a header. -/
def arrayText (header : List Char) (dimensions : List ℕ) (values : List V) : List Char :=
  header ++ ['\n'] ++ ['%', '\n'] ++ dimensionsLine dimensions ++ ['\n'] ++ values.flatMap fun v => toText v ++ ['\n']

def writeDense (t : DenseTensor V) : List Char :=
  arrayText toText (arrayHeader t.dimensions.length) t.dimensions (t.iterate.map Prod.snd)

end Writer

/-! ### What is read back -/

variable {V : Type}

/-- The components that are inserted at a coordinate. -/
def TensorBase.at (r : TensorBase V) (coord : List ℕ) : List V :=
  r.components.filterMap fun c => if c.1 = coord.map Int.ofNat then some c.2 else none

/-- A coordinate lies within the dimensions. -/
def Inside (dimensions coord : List ℕ) : Prop := List.Forall₂ (fun x d => x < d) coord dimensions

namespace DenseTensor

/-- The tensor that is read has the dimensions of the tensor that was written, and its value once at every coordinate. -/
def Same (t : DenseTensor V) (r : TensorBase V) : Prop :=
  r.dimensions = t.dimensions ∧ ∀ coord, Inside t.dimensions coord → r.at coord = [t.value coord]

/-- What is written is read back by both readers. -/
def RoundTrips (toText : V → List Char) (strtod : List Char → V) (t : DenseTensor V) (target : Target) : Prop :=
  (∃ r, readMTX strtod (writeDense toText t) target = some r ∧ t.Same r) ∧
    ∃ r, readDense strtod (lines (writeDense toText t)) target false = some r ∧ t.Same r

/-- The number of a coordinate in the storage of the tensor. -/
def storageNumber (t : DenseTensor V) (coord : List ℕ) : ℕ :=
  number (getDimension t.dimensions) t.format.modeOrdering (coordinate coord)

end DenseTensor

/-- The number of a coordinate in an array file, the first mode of which runs fastest. -/
def fileNumber (dimensions coord : List ℕ) : ℕ :=
  number (getDimension dimensions) (List.range dimensions.length).reverse (coordinate coord)

/-- Wherever the storage and the file have the same number, the tensor has the same value. -/
def DenseTensor.Alike (t : DenseTensor V) : Prop :=
  ∀ stored coord, Inside t.dimensions stored → Inside t.dimensions coord →
    t.storageNumber stored = fileNumber t.dimensions coord → t.value stored = t.value coord

/-- The modes with several coordinates are stored in reverse order, so that the first of them runs fastest. -/
def ColumnMajor (dimensions : List ℕ) (format : Format) : Prop :=
  format.modeOrdering.filter (1 < getDimension dimensions ·) =
    (List.range dimensions.length).reverse.filter (1 < getDimension dimensions ·)

instance (dimensions : List ℕ) (format : Format) : Decidable (ColumnMajor dimensions format) :=
  inferInstanceAs (Decidable (_ = _))

/-- A file of this shape can be read: it has a mode, and its size is an `int`. -/
def Readable (dimensions : List ℕ) : Prop := dimensions ≠ [] ∧ dimensions.prod ≤ intMax

/-! ### Coordinates -/

section Coordinates

variable {dimensions : List ℕ} {coord : List ℕ}

theorem map_getDimension (dimensions : List ℕ) : (List.range dimensions.length).map (getDimension dimensions) = dimensions := by
  refine List.ext_getElem (by simp) fun i _ hi => ?_
  simp [getDimension, hi]

theorem map_coordinate (h : Inside dimensions coord) : (List.range dimensions.length).map (coordinate coord) = coord := by
  rw [← h.length_eq]
  exact map_getDimension coord

theorem within_coordinate {ms : List ℕ} (hms : ∀ m ∈ ms, m < dimensions.length) (h : Inside dimensions coord) :
    Within (getDimension dimensions) ms (coordinate coord) := by
  intro m hm
  have hm' : m < dimensions.length := hms m hm
  have hlt : m < coord.length := h.length_eq ▸ hm'
  rw [getDimension, coordinate, List.getD_eq_getElem _ _ hm', List.getD_eq_getElem _ _ hlt]
  exact h.get hlt hm'

/-- An iteration over the modes as a coordinate. -/
theorem inside_map {env : ℕ → ℕ} (h : Within (getDimension dimensions) (List.range dimensions.length) env) :
    Inside dimensions ((List.range dimensions.length).map env) := by
  refine List.forall₂_iff_get.mpr ⟨by simp, fun i hi hi' => ?_⟩
  have hlt := h i (List.mem_range.mpr hi')
  rw [getDimension, List.getD_eq_getElem _ _ hi'] at hlt
  simpa using hlt

theorem coordinate_map {env : ℕ → ℕ} {order m : ℕ} (hm : m < order) : coordinate ((List.range order).map env) m = env m := by
  simp [coordinate, hm]

theorem mem_reverse_range {order m : ℕ} (h : m ∈ (List.range order).reverse) : m < order :=
  List.mem_range.mp (List.mem_reverse.mp h)

/-- The number in the file, with the first mode taken off. -/
theorem fileNumber_cons (d x : ℕ) : fileNumber (d :: dimensions) (x :: coord) = fileNumber dimensions coord * d + x := by
  have hmodes : (List.range (dimensions.length + 1)).reverse = ((List.range dimensions.length).reverse.map Nat.succ) ++ [0] := by
    rw [List.range_succ_eq_map, List.reverse_cons, List.map_reverse]
  rw [fileNumber, List.length_cons, hmodes, number_append, number_map]
  simp only [number, List.map_cons, List.map_nil, List.prod_cons, List.prod_nil, Nat.mul_one, Nat.add_zero]
  rfl

theorem fileNumber_lt (h : Inside dimensions coord) : fileNumber dimensions coord < dimensions.prod := by
  have hlt := number_lt (within_coordinate (fun m => mem_reverse_range) h)
  rwa [List.map_reverse, List.prod_reverse, map_getDimension] at hlt

/-- The reader counts its coordinates as the file does. -/
theorem denseCoordinates_fileNumber (h : Inside dimensions coord) :
    denseCoordinates dimensions (fileNumber dimensions coord) = coord.map Int.ofNat := by
  induction h with
  | nil => rfl
  | @cons x d coord dimensions hx h ih =>
    cases h with
    | nil =>
      rw [denseCoordinates, fileNumber_cons]
      simp [fileNumber, number]
    | @cons x' d' coord dimensions hx' h =>
      have hpos : 0 < d := Nat.zero_lt_of_lt hx
      have hmod : (fileNumber (d' :: dimensions) (x' :: coord) * d + x) % d = x :=
        Nat.mul_add_mod_of_lt hx
      have hdiv : (fileNumber (d' :: dimensions) (x' :: coord) * d + x) / d = fileNumber (d' :: dimensions) (x' :: coord) := by
        rw [Nat.mul_comm, Nat.mul_add_div hpos, Nat.div_eq_of_lt hx, Nat.add_zero]
      rw [denseCoordinates, fileNumber_cons, hmod, hdiv, ih, List.map_cons]
      · rfl
      · exact fun h => by cases h

/-- Every number of the file has a coordinate. -/
theorem exists_fileNumber {n : ℕ} (h : n < dimensions.prod) : ∃ coord, Inside dimensions coord ∧ fileNumber dimensions coord = n := by
  have hnodup : (List.range dimensions.length).reverse.Nodup := List.nodup_reverse.mpr List.nodup_range
  have hprod : ((List.range dimensions.length).reverse.map (getDimension dimensions)).prod = dimensions.prod := by
    rw [List.map_reverse, List.prod_reverse, map_getDimension]
  have hn : n ∈ (nest (getDimension dimensions) (List.range dimensions.length).reverse fun _ => 0).map
      (number (getDimension dimensions) (List.range dimensions.length).reverse) := by
    rw [map_number_nest hnodup, hprod]
    exact List.mem_range.mpr h
  obtain ⟨env, henv, rfl⟩ := List.mem_map.mp hn
  have hwithin := (nest_spec hnodup henv).1
  refine ⟨(List.range dimensions.length).map env, inside_map fun m hm => hwithin m (List.mem_reverse.mpr hm), ?_⟩
  exact number_congr fun m hm => coordinate_map (mem_reverse_range hm)

theorem denseCoordinates_eq_iff {n : ℕ} (hn : n < dimensions.prod) (h : Inside dimensions coord) :
    denseCoordinates dimensions n = coord.map Int.ofNat ↔ n = fileNumber dimensions coord := by
  constructor
  · intro heq
    obtain ⟨coord', h', rfl⟩ := exists_fileNumber hn
    rw [denseCoordinates_fileNumber h'] at heq
    rw [List.map_injective_iff.mpr (fun _ _ h => Int.ofNat.inj h) heq]
  · rintro rfl
    exact denseCoordinates_fileNumber h

end Coordinates

/-! ### The components that are inserted -/

section Inserted

/-- One element of a list is the only one that contributes. -/
theorem flatMap_single {α β : Type} [DecidableEq α] {l : List α} (hnodup : l.Nodup) {a : α} (ha : a ∈ l) (f : α → List β) :
    (l.flatMap fun b => if b = a then f b else []) = f a := by
  induction l with
  | nil => cases ha
  | cons b l ih =>
    obtain ⟨hb, hnodup⟩ := List.nodup_cons.mp hnodup
    rw [List.flatMap_cons]
    rcases List.mem_cons.mp ha with rfl | hmem
    · have hrest : (l.flatMap fun c => if c = a then f c else []) = [] :=
        List.flatMap_eq_nil_iff.mpr fun c hc => if_neg (by rintro rfl; exact hb hc)
      rw [if_pos rfl, hrest, List.append_nil]
    · rw [if_neg (by rintro rfl; exact hb hmem), ih hnodup hmem, List.nil_append]

/-- The components that are inserted for the values of a file. -/
def inserted (symm : Bool) (dimensions : List ℕ) (values : List V) : List (List ℤ × V) :=
  (List.range dimensions.prod).flatMap fun n =>
    ((values[n]?).map (insertion symm (denseCoordinates dimensions n))).getD []

theorem mapM_insertion (symm : Bool) (dimensions : List ℕ) (values : List V) :
    ((List.range dimensions.prod).mapM fun n => (values[n]?).map fun v => insertion symm (denseCoordinates dimensions n) v).map
      List.flatten = if dimensions.prod ≤ values.length then some (inserted symm dimensions values) else none := by
  split_ifs with hlength
  · rw [mapM_eq_some (g := fun n => ((values[n]?).map (insertion symm (denseCoordinates dimensions n))).getD [])]
    · rfl
    · intro n hn
      have hlt : n < values.length := (List.mem_range.mp hn).trans_le hlength
      rw [List.getElem?_eq_getElem hlt]
      rfl
  · have hlast : values.length ∈ List.range dimensions.prod := List.mem_range.mpr (not_le.mp hlength)
    rw [mapM_eq_none hlast (by rw [List.getElem?_eq_none (le_refl _)]; rfl), Option.map_none]

variable {dimensions : List ℕ} {coord : List ℕ} {r : TensorBase V}

/-- What is at a coordinate is the value with its number in the file. -/
theorem at_inserted {values : List V} (hr : r.components = inserted false dimensions values) (h : Inside dimensions coord) :
    r.at coord = (values[fileNumber dimensions coord]?).toList := by
  rw [TensorBase.at, hr, inserted, List.filterMap_flatMap]
  refine Eq.trans (List.flatMap_congr fun n hn => ?_)
    (flatMap_single List.nodup_range (List.mem_range.mpr (fileNumber_lt h)) fun n => (values[n]?).toList)
  have hiff := denseCoordinates_eq_iff (List.mem_range.mp hn) h
  cases values[n]? with
  | none => simp
  | some v =>
    by_cases heq : n = fileNumber dimensions coord
    · simp [insertion, hiff.mpr heq, if_pos heq]
    · simp [insertion, mt hiff.mp heq, if_neg heq]

end Inserted

/-! ### The values in the order of the storage -/

namespace DenseTensor

variable (t : DenseTensor V) {coord stored : List ℕ}

theorem modeOrdering_perm : t.format.modeOrdering.Perm (List.range t.dimensions.length) := by
  have h := t.format.complete
  rwa [← Notation.Format.getOrder, t.order_eq] at h

theorem mem_modeOrdering {m : ℕ} : m ∈ t.format.modeOrdering ↔ m < t.dimensions.length :=
  t.modeOrdering_perm.mem_iff.trans List.mem_range

theorem modeOrdering_nodup : t.format.modeOrdering.Nodup := t.modeOrdering_perm.nodup_iff.mpr List.nodup_range

theorem prod_modeOrdering : (t.format.modeOrdering.map (getDimension t.dimensions)).prod = t.dimensions.prod := by
  rw [(t.modeOrdering_perm.map _).prod_eq, map_getDimension]

theorem map_number_iterate :
    ((nest (getDimension t.dimensions) t.format.modeOrdering fun _ => 0).map
      (number (getDimension t.dimensions) t.format.modeOrdering)) = List.range t.dimensions.prod := by
  rw [map_number_nest t.modeOrdering_nodup, prod_modeOrdering]

theorem length_iterate : t.iterate.length = t.dimensions.prod := by
  have h := congrArg List.length t.map_number_iterate
  rw [List.length_map, List.length_range] at h
  rw [iterate, List.length_map, h]

/-- The component with a number of the storage. -/
theorem getElem?_iterate (h : Inside t.dimensions stored) :
    t.iterate[t.storageNumber stored]? = some (stored, t.value stored) := by
  have hwithin := within_coordinate (fun m hm => t.mem_modeOrdering.mp hm) h
  have hlt : t.storageNumber stored < t.dimensions.prod := t.prod_modeOrdering ▸ number_lt hwithin
  have hnumber := congrArg (·[t.storageNumber stored]?) t.map_number_iterate
  rw [List.getElem?_map, List.getElem?_range hlt] at hnumber
  obtain ⟨env, henv, heq⟩ := Option.map_eq_some_iff.mp hnumber
  have hsame := eq_of_number_eq (nest_spec t.modeOrdering_nodup (List.mem_of_getElem? henv)).1 hwithin heq
  have hmap : (List.range t.dimensions.length).map env = stored := by
    rw [← map_coordinate h]
    exact List.map_congr_left fun m hm => hsame m (t.mem_modeOrdering.mpr (List.mem_range.mp hm))
  rw [iterate, List.getElem?_map, henv, Option.map_some, hmap]

/-- Every number of the storage has a coordinate. -/
theorem exists_storageNumber {n : ℕ} (h : n < t.dimensions.prod) : ∃ stored, Inside t.dimensions stored ∧ t.storageNumber stored = n := by
  have hn : n ∈ (nest (getDimension t.dimensions) t.format.modeOrdering fun _ => 0).map
      (number (getDimension t.dimensions) t.format.modeOrdering) := t.map_number_iterate ▸ List.mem_range.mpr h
  obtain ⟨env, henv, rfl⟩ := List.mem_map.mp hn
  have hwithin := (nest_spec t.modeOrdering_nodup henv).1
  refine ⟨(List.range t.dimensions.length).map env, inside_map fun m hm => hwithin m (t.mem_modeOrdering.mpr (List.mem_range.mp hm)), ?_⟩
  exact number_congr fun m hm => coordinate_map (t.mem_modeOrdering.mp hm)

/-- The file has the value of the tensor at each coordinate exactly if storage and file are alike. -/
theorem alike_iff : (∀ coord, Inside t.dimensions coord →
    (t.iterate.map Prod.snd)[fileNumber t.dimensions coord]? = some (t.value coord)) ↔ t.Alike := by
  constructor
  · intro h stored coord hstored hcoord heq
    have hvalue := h coord hcoord
    rw [← heq, List.getElem?_map, t.getElem?_iterate hstored] at hvalue
    exact Option.some.inj hvalue
  · intro h coord hcoord
    obtain ⟨stored, hstored, heq⟩ := t.exists_storageNumber (fileNumber_lt hcoord)
    rw [← heq, List.getElem?_map, t.getElem?_iterate hstored, Option.map_some, h stored coord hstored hcoord heq]

theorem same_iff {r : TensorBase V} (hdimensions : r.dimensions = t.dimensions)
    (hr : r.components = inserted false t.dimensions (t.iterate.map Prod.snd)) : t.Same r ↔ t.Alike := by
  rw [Same, ← alike_iff]
  refine ⟨fun h coord hcoord => ?_, fun h => ⟨hdimensions, fun coord hcoord => ?_⟩⟩
  · have hat := h.2 coord hcoord
    rw [at_inserted hr hcoord] at hat
    exact Option.toList_eq_singleton_iff.mp hat
  · rw [at_inserted hr hcoord, h coord hcoord]
    rfl

/-- All tensors of a shape are alike exactly if their modes are stored column by column. -/
theorem alike_forall_iff [Nontrivial V] :
    (∀ value : List ℕ → V, Alike { t with value := value }) ↔ ColumnMajor t.dimensions t.format := by
  have hperm : t.format.modeOrdering.Perm (List.range t.dimensions.length).reverse :=
    t.modeOrdering_perm.trans (List.reverse_perm _).symm
  have hpos : ∀ m ∈ t.format.modeOrdering, 0 < getDimension t.dimensions m := fun m hm => by
    have hlt := t.mem_modeOrdering.mp hm
    rw [getDimension, List.getD_eq_getElem _ _ hlt]
    exact (t.dimension _ (List.getElem_mem hlt)).1
  rw [ColumnMajor, ← number_eq_iff t.modeOrdering_nodup hperm hpos]
  constructor
  · intro h env henv
    obtain ⟨v, v', hne⟩ := exists_pair_ne V
    have hrange : Within (getDimension t.dimensions) (List.range t.dimensions.length) env := fun m hm =>
      henv m (t.mem_modeOrdering.mpr (List.mem_range.mp hm))
    have hcoord := inside_map hrange
    -- the coordinate that the file has at the number of this one in the storage
    have hstorage : t.storageNumber ((List.range t.dimensions.length).map env) =
        number (getDimension t.dimensions) t.format.modeOrdering env :=
      number_congr fun m hm => coordinate_map (t.mem_modeOrdering.mp hm)
    have hfile : fileNumber t.dimensions ((List.range t.dimensions.length).map env) =
        number (getDimension t.dimensions) (List.range t.dimensions.length).reverse env :=
      number_congr fun m hm => coordinate_map (mem_reverse_range hm)
    have hlt := number_lt henv
    rw [prod_modeOrdering, ← hstorage] at hlt
    obtain ⟨coord, hinside, heq⟩ := exists_fileNumber hlt
    have hvalue := h (fun c => if c = coord then v else v') _ coord hcoord hinside heq.symm
    have hsame : (List.range t.dimensions.length).map env = coord := by
      by_contra hdiff
      simp only [if_neg hdiff, if_true] at hvalue
      exact hne hvalue.symm
    rw [← hstorage, ← hfile, ← heq, hsame]
  · intro h value stored coord hstored hcoord heq
    have hwithin := within_coordinate (fun m hm => t.mem_modeOrdering.mp hm) hstored
    have hfile : fileNumber t.dimensions stored = fileNumber t.dimensions coord := (h _ hwithin).symm.trans heq
    have hcoords := congrArg (denseCoordinates t.dimensions) hfile
    rw [denseCoordinates_fileNumber hstored, denseCoordinates_fileNumber hcoord] at hcoords
    rw [List.map_injective_iff.mpr (fun _ _ h => Int.ofNat.inj h) hcoords]

end DenseTensor

/-! ### The text of an array file -/

section Reading

variable {toText : V → List Char} {strtod : List Char → V} {dimensions : List ℕ} {values : List V}

theorem newline_notMem_dimensionsLine (dimensions : List ℕ) : '\n' ∉ dimensionsLine dimensions := by
  rw [dimensionsLine, List.mem_append, not_or]
  refine ⟨fun h => ?_, by decide⟩
  cases dimensions with
  | nil => cases h
  | cons d dimensions =>
    rw [join_eq, List.mem_append] at h
    rcases h with h | h
    · exact newline_notMem_digits d h
    · obtain ⟨n, -, hn⟩ := List.mem_flatMap.mp h
      rcases List.mem_cons.mp hn with hn | hn
      · exact absurd hn (by decide)
      · exact newline_notMem_digits n hn

theorem lines_arrayText (htext : ∀ v, '\n' ∉ toText v) {header : List Char} (hheader : '\n' ∉ header) :
    lines (arrayText toText header dimensions values) =
      header :: ['%'] :: dimensionsLine dimensions :: values.map toText := by
  have hcomment : ∀ rest, lines ('%' :: '\n' :: rest) = ['%'] :: lines rest := fun rest =>
    lines_append (by decide : '\n' ∉ ['%'])
  rw [arrayText]
  simp only [List.append_assoc, List.cons_append, List.nil_append]
  rw [lines_append hheader, hcomment, lines_append (newline_notMem_dimensionsLine dimensions), lines_flatMap _ fun v _ => htext v]

/-- The comments before the dimensions, from any token on. -/
theorem skipComments_dimensionsLine (hne : dimensions ≠ []) (token cs : List Char) (rest : List (List Char)) :
    skipComments token ('%' :: cs) (dimensionsLine dimensions :: rest) = (dimensionsLine dimensions, rest) := by
  obtain ⟨d, dimensions, rfl⟩ := List.exists_cons_of_ne_nil hne
  obtain ⟨w, hcomment⟩ := skipComments_comment token cs (dimensionsLine (d :: dimensions)) rest
  rw [hcomment, dimensionsLine, join_eq, List.append_assoc, skipComments_number]

theorem noDigit_blank : NoDigit [' '] := by
  rintro c hc
  obtain rfl : ' ' = c := Option.some.inj hc
  rfl

theorem readDimensions_dimensionsLine (hne : dimensions ≠ []) (h : ∀ d ∈ dimensions, 0 < d ∧ d ≤ intMax) :
    readDimensions ((dimensionsLine dimensions).length + 1) (dimensionsLine dimensions) = some dimensions := by
  obtain ⟨d, dimensions, rfl⟩ := List.exists_cons_of_ne_nil hne
  have hlength := length_numbersText dimensions
  obtain ⟨hpos, hle⟩ := h d List.mem_cons_self
  have hlt : d < 2 ^ 64 := hle.trans_lt (by rw [intMax]; norm_num)
  have hline : dimensionsLine (d :: dimensions) = digits d ++ (numbersText dimensions ++ [' ']) := by
    rw [dimensionsLine, join_eq, List.append_assoc]
  have hend : ∀ fuel, readDimensions (fuel + 1) [' '] = some [] := fun fuel => by
    have hblank : strtoul [' '] = (0, [' ']) := rfl
    rw [readDimensions, hblank]
    rfl
  rw [hline, readDimensions, strtoul_eq (noDigit_numbersText_append dimensions noDigit_blank), if_pos hlt]
  simp only [if_neg hpos.ne', if_pos hle]
  rw [List.length_append, List.length_append, List.length_singleton,
    readDimensions_numbersText dimensions noDigit_blank (fun m hm => h m (List.mem_cons_of_mem _ hm)) (by omega)]
  obtain ⟨fuel, hfuel⟩ : ∃ fuel, (digits d).length + ((numbersText dimensions).length + 1) - dimensions.length = fuel + 1 :=
    ⟨(digits d).length + (numbersText dimensions).length - dimensions.length, by omega⟩
  rw [hfuel, hend]
  simp

/-- The tensor that is read from the values of a file. -/
def readValues (symm : Bool) (target : Target) (dimensions : List ℕ) (values : List V) : Option (TensorBase V) :=
  if (if symm then 2 * dimensions.prod else dimensions.prod) ≤ intMax ∧ dimensions.prod ≤ values.length then
    (target.make dimensions : Option (TensorBase V)).map fun tensor =>
      { tensor with components := inserted symm dimensions values }
  else none

/-- What the reader makes of the dimensions and the lines behind them. -/
theorem readDense_eq (hread : ∀ v, strtod (toText v) = v) (hne : dimensions ≠ []) (h : ∀ d ∈ dimensions, 0 < d ∧ d ≤ intMax)
    {symm : Bool} (hsymm : symm = true → dimensions.length = 2) (target : Target) (stream : List (List Char))
    (hskip : skipComments [] (stream.headD []) stream.tail = (dimensionsLine dimensions, values.map toText)) :
    readDense strtod stream target symm = readValues symm target dimensions values := by
  have hvalues : (values.map toText).map strtod = values := by
    rw [List.map_map]
    exact List.map_id'' hread values
  have hmatrix : (dimensions.isEmpty || symm && decide (dimensions.length ≠ 2)) = false := by
    cases symm with
    | false => simp [hne]
    | true => simp [hne, hsymm rfl]
  have hinsert := mapM_insertion symm dimensions values
  rw [readDense, readValues, hskip]
  dsimp only
  rw [readDimensions_dimensionsLine hne h, Option.bind_eq_bind, Option.bind_some, hmatrix, if_neg Bool.false_ne_true, hvalues]
  by_cases hsize : (if symm then 2 * dimensions.prod else dimensions.prod) ≤ intMax
  · rw [if_neg (not_lt.mpr hsize)]
    simp only [hsize, true_and]
    cases target.make (V := V) dimensions with
    | none => simp
    | some tensor =>
      rw [Option.bind_eq_bind, Option.bind_some]
      split_ifs at hinsert ⊢ with hlength
      · obtain ⟨components, hcomponents, hflatten⟩ := Option.map_eq_some_iff.mp hinsert
        rw [hcomponents, Option.bind_eq_bind, Option.bind_some, hflatten]
        rfl
      · rw [Option.map_eq_none_iff.mp hinsert]
        rfl
  · rw [if_pos (not_le.mp hsize), if_neg fun h => hsize h.1]

/-- A header of an array file. -/
structure ArrayHeader (header symmetry : List Char) : Prop where
  words : ∃ type, words header = ["%%MatrixMarket".toList, type, "array".toList, "real".toList, symmetry] ∧
    (type = "matrix".toList ∨ type = "tensor".toList)
  symmetry : symmetry = "general".toList ∨ symmetry = "symmetric".toList
  newline : '\n' ∉ header
  comment : header.head? = some '%'

/-- The characters of a literal are spelled out where they are compared. -/
theorem arrayHeader_spec (order : ℕ) : ArrayHeader (arrayHeader order) "general".toList := by
  have hmarket : "%%MatrixMarket".toList = ['%', '%', 'M', 'a', 't', 'r', 'i', 'x', 'M', 'a', 'r', 'k', 'e', 't'] :=
    String.toList_ofList
  have hmatrix : "matrix".toList = ['m', 'a', 't', 'r', 'i', 'x'] := String.toList_ofList
  have htensor : "tensor".toList = ['t', 'e', 'n', 's', 'o', 'r'] := String.toList_ofList
  have harray : "array".toList = ['a', 'r', 'r', 'a', 'y'] := String.toList_ofList
  have hreal : "real".toList = ['r', 'e', 'a', 'l'] := String.toList_ofList
  have hgeneral : "general".toList = ['g', 'e', 'n', 'e', 'r', 'a', 'l'] := String.toList_ofList
  have htwo : "%%MatrixMarket matrix array real general".toList =
      ['%', '%', 'M', 'a', 't', 'r', 'i', 'x', 'M', 'a', 'r', 'k', 'e', 't', ' ', 'm', 'a', 't', 'r', 'i', 'x', ' ', 'a', 'r',
        'r', 'a', 'y', ' ', 'r', 'e', 'a', 'l', ' ', 'g', 'e', 'n', 'e', 'r', 'a', 'l'] := String.toList_ofList
  have hmore : "%%MatrixMarket tensor array real general".toList =
      ['%', '%', 'M', 'a', 't', 'r', 'i', 'x', 'M', 'a', 'r', 'k', 'e', 't', ' ', 't', 'e', 'n', 's', 'o', 'r', ' ', 'a', 'r',
        'r', 'a', 'y', ' ', 'r', 'e', 'a', 'l', ' ', 'g', 'e', 'n', 'e', 'r', 'a', 'l'] := String.toList_ofList
  refine ⟨?_, Or.inl rfl, ?_, ?_⟩ <;> rw [arrayHeader, htwo, hmore]
  · rw [hmarket, hmatrix, htensor, harray, hreal, hgeneral]
    split_ifs
    · exact ⟨_, rfl, Or.inl rfl⟩
    · exact ⟨_, rfl, Or.inr rfl⟩
  · split_ifs <;> decide
  · split_ifs <;> rfl

/-- The reader of the whole file takes the reader of arrays. -/
theorem readMTX_arrayHeader {header symmetry : List Char} (hheader : ArrayHeader header symmetry) (text : List Char)
    (stream : List (List Char)) (target : Target) (h : lines text = header :: stream) :
    readMTX strtod text target = readDense strtod stream target (symmetry = "symmetric".toList) := by
  have hcoordinate : "coordinate".toList = ['c', 'o', 'o', 'r', 'd', 'i', 'n', 'a', 't', 'e'] := String.toList_ofList
  have harray : "array".toList = ['a', 'r', 'r', 'a', 'y'] := String.toList_ofList
  have hne : "array".toList ≠ "coordinate".toList := by
    rw [harray, hcoordinate]
    decide
  obtain ⟨type, hwords, htype⟩ := hheader.words
  rw [readMTX, h]
  dsimp only
  rw [hwords]
  simp only [List.getD_cons_zero, List.getD_cons_succ]
  rw [if_pos ⟨trivial, htype, trivial, hheader.symmetry⟩, if_neg hne, if_pos trivial]

theorem skipComments_header_dimensionsLine {header symmetry : List Char} (hheader : ArrayHeader header symmetry) (hne : dimensions ≠ [])
    (rest : List (List Char)) :
    skipComments [] header (['%'] :: dimensionsLine dimensions :: rest) = (dimensionsLine dimensions, rest) := by
  obtain ⟨cs, hcs⟩ := List.head?_eq_some_iff.mp hheader.comment
  obtain ⟨w, hcomment⟩ := skipComments_comment [] cs ['%'] (dimensionsLine dimensions :: rest)
  rw [hcs, hcomment, skipComments_dimensionsLine hne]

/-! ### No dimension -/

theorem pos_of_readDimensions {fuel : ℕ} {line : List Char} (h : readDimensions fuel line = some dimensions) :
    ∀ d ∈ dimensions, 0 < d := by
  induction fuel generalizing line dimensions with
  | zero => cases h
  | succ fuel ih =>
    rw [readDimensions] at h
    dsimp only at h
    split_ifs at h with hzero hle
    · obtain rfl := Option.some.inj h
      exact fun d hd => by cases hd
    · obtain ⟨rest, hrest, rfl⟩ := Option.map_eq_some_iff.mp h
      exact fun d hd => (List.mem_cons.mp hd).elim (fun heq => heq ▸ Nat.pos_of_ne_zero hzero) (ih hrest d)

/-- A file that ends with the line of the dimensions has too few values. -/
theorem readDense_nil {stream : List (List Char)} (h : (skipComments [] (stream.headD []) stream.tail).2 = []) (target : Target) :
    readDense strtod stream target false = none := by
  rw [readDense]
  obtain ⟨line, hskip⟩ : ∃ line, skipComments [] (stream.headD []) stream.tail = (line, []) := ⟨_, Prod.ext rfl h⟩
  rw [hskip]
  dsimp only
  cases hdimensions : readDimensions (line.length + 1) line with
  | none => rfl
  | some dimensions =>
    have hpos : 0 < dimensions.prod := List.prod_pos (pos_of_readDimensions hdimensions)
    have hnone : ((List.range dimensions.prod).mapM fun n =>
        (([] : List V)[n]?).map fun v => insertion false (denseCoordinates dimensions n) v) = none :=
      mapM_eq_none (List.mem_range.mpr hpos) rfl
    rw [Option.bind_eq_bind, Option.bind_some]
    simp only [Bool.false_eq_true, if_false]
    split_ifs
    · rfl
    · rfl
    · cases target.make (V := V) dimensions with
      | none => rfl
      | some tensor => rw [Option.bind_eq_bind, Option.bind_some, List.map_nil, hnone]; rfl

/-- The line without dimensions has no word and is skipped, and then the line of the value. -/
theorem skipComments_blank (token cs text : List Char) : (skipComments token ('%' :: cs) [[' '], text]).2 = [] := by
  obtain ⟨w, hcomment⟩ := skipComments_comment token cs [' '] [text]
  have hblank : words [' '] = [] := rfl
  have htoken : ('%' :: w).head? = some '%' := rfl
  rw [hcomment, skipComments, hblank, List.headD_nil, if_neg (not_not.mpr htoken), skipComments]
  split_ifs <;> rfl

/-! ### Tensors that are read back -/

theorem Target.exists_make {target : Target} (h : target.Permits dimensions.length) :
    ∃ format, (target.make dimensions : Option (TensorBase V)) = some ⟨dimensions, format, []⟩ := by
  cases target with
  | modeFormat m => exact ⟨_, rfl⟩
  | format f => exact ⟨f, if_pos h⟩

section ArrayText

variable {header symmetry : List Char} (hheader : ArrayHeader header symmetry) (htext : ∀ v, '\n' ∉ toText v)
  (hread : ∀ v, strtod (toText v) = v) (hne : dimensions ≠ []) (h : ∀ d ∈ dimensions, 0 < d ∧ d ≤ intMax)
  (values)

include hheader htext hread hne h

theorem readMTX_arrayText (hsymm : symmetry = "symmetric".toList → dimensions.length = 2) (target : Target) :
    readMTX strtod (arrayText toText header dimensions values) target =
      readValues (symmetry = "symmetric".toList) target dimensions values := by
  rw [readMTX_arrayHeader hheader _ _ target (lines_arrayText htext hheader.newline)]
  exact readDense_eq hread hne h (fun hs => hsymm (of_decide_eq_true hs)) target _ (skipComments_dimensionsLine hne _ _ _)

theorem readDense_arrayText (target : Target) :
    readDense strtod (lines (arrayText toText header dimensions values)) target false =
      readValues false target dimensions values := by
  refine readDense_eq hread hne h (fun hs => by cases hs) target _ ?_
  rw [lines_arrayText htext hheader.newline]
  exact skipComments_header_dimensionsLine hheader hne _

end ArrayText

namespace DenseTensor

variable (t : DenseTensor V)

/-- A scalar is not read back, and a tensor of a higher order exactly if its size is an `int` and its storage is like the
    file. -/
theorem roundTrips_eq (htext : ∀ v, '\n' ∉ toText v) (hread : ∀ v, strtod (toText v) = v) {target : Target}
    (hpermits : target.Permits t.dimensions.length) :
    t.RoundTrips toText strtod target ↔ Readable t.dimensions ∧ t.Alike := by
  have hheader := arrayHeader_spec t.dimensions.length
  have hgeneral : "general".toList ≠ "symmetric".toList := by
    rw [(String.toList_ofList : "general".toList = ['g', 'e', 'n', 'e', 'r', 'a', 'l']),
      (String.toList_ofList : "symmetric".toList = ['s', 'y', 'm', 'm', 'e', 't', 'r', 'i', 'c'])]
    decide
  by_cases hne : t.dimensions = []
  · refine iff_of_false (fun h => ?_) fun h => h.1.1 hne
    obtain ⟨-, r, hr, -⟩ := h
    obtain ⟨cs, hcs⟩ := List.head?_eq_some_iff.mp hheader.comment
    have hlength : (t.iterate.map Prod.snd).length = 1 := by
      rw [List.length_map, t.length_iterate, hne, List.prod_nil]
    obtain ⟨v, hv⟩ := List.length_eq_one_iff.mp hlength
    rw [writeDense, lines_arrayText htext hheader.newline, hv, hcs, hne, readDense_nil] at hr
    · cases hr
    · obtain ⟨w, hcomment⟩ := skipComments_comment [] cs ['%'] [[' '], toText v]
      exact (congrArg Prod.snd hcomment).trans (skipComments_blank _ _ _)
  · obtain ⟨format, hformat⟩ := Target.exists_make (V := V) hpermits
    have hvalues : readValues false target t.dimensions (t.iterate.map Prod.snd) = if t.dimensions.prod ≤ intMax then
        some ⟨t.dimensions, format, inserted false t.dimensions (t.iterate.map Prod.snd)⟩ else none := by
      rw [readValues, hformat, List.length_map, t.length_iterate]
      simp
    have hmtx := readMTX_arrayText (t.iterate.map Prod.snd) hheader htext hread hne t.dimension
      (fun h => absurd h hgeneral) target
    have hdense := readDense_arrayText (t.iterate.map Prod.snd) hheader htext hread hne t.dimension target
    rw [decide_eq_false hgeneral] at hmtx
    rw [RoundTrips, writeDense, hmtx, hdense, and_self, hvalues]
    constructor
    · rintro ⟨r, hr, hsame⟩
      split_ifs at hr with hsize
      obtain rfl := Option.some.inj hr
      exact ⟨⟨hne, hsize⟩, (t.same_iff rfl rfl).mp hsame⟩
    · rintro ⟨⟨-, hsize⟩, halike⟩
      exact ⟨_, if_pos hsize, (t.same_iff rfl rfl).mpr halike⟩

end DenseTensor

end Reading

/-! ### Symmetric matrices -/

/-- A symmetric matrix, by its entries. -/
structure SymmetricMatrix (V : Type) where
  size : ℕ
  entry : ℕ → ℕ → V
  symmetric : ∀ i j, entry i j = entry j i
  dimension : 0 < size ∧ size ≤ intMax

namespace SymmetricMatrix

def symmetricHeader : List Char := "%%MatrixMarket matrix array real symmetric".toList

variable (m : SymmetricMatrix V)

/-- The entries on the diagonal and below it, column by column. -/
def lowerTriangle : List V :=
  (List.range m.size).flatMap fun j => ((List.range m.size).filter (j ≤ ·)).map fun i => m.entry i j

/-- All entries, column by column. -/
def allEntries : List V := (List.range m.size).flatMap fun j => (List.range m.size).map fun i => m.entry i j

/-- The file that lists some entries is read as the matrix, with each entry once at its coordinate. -/
def Mirrored (toText : V → List Char) (strtod : List Char → V) (target : Target) (listed : List V) : Prop :=
  ∃ r, readMTX strtod (arrayText toText symmetricHeader [m.size, m.size] listed) target = some r ∧
    ∀ i < m.size, ∀ j < m.size, r.at [i, j] = [m.entry i j]

theorem arrayHeader_symmetric : ArrayHeader symmetricHeader "symmetric".toList := by
  have hmarket : "%%MatrixMarket".toList = ['%', '%', 'M', 'a', 't', 'r', 'i', 'x', 'M', 'a', 'r', 'k', 'e', 't'] :=
    String.toList_ofList
  have hmatrix : "matrix".toList = ['m', 'a', 't', 'r', 'i', 'x'] := String.toList_ofList
  have harray : "array".toList = ['a', 'r', 'r', 'a', 'y'] := String.toList_ofList
  have hreal : "real".toList = ['r', 'e', 'a', 'l'] := String.toList_ofList
  have hsymmetric : "symmetric".toList = ['s', 'y', 'm', 'm', 'e', 't', 'r', 'i', 'c'] := String.toList_ofList
  have hheader : symmetricHeader =
      ['%', '%', 'M', 'a', 't', 'r', 'i', 'x', 'M', 'a', 'r', 'k', 'e', 't', ' ', 'm', 'a', 't', 'r', 'i', 'x', ' ', 'a', 'r',
        'r', 'a', 'y', ' ', 'r', 'e', 'a', 'l', ' ', 's', 'y', 'm', 'm', 'e', 't', 'r', 'i', 'c'] := String.toList_ofList
  refine ⟨?_, Or.inr rfl, ?_, ?_⟩ <;> rw [hheader]
  · rw [hmarket, hmatrix, harray, hreal, hsymmetric]
    exact ⟨_, rfl, Or.inl rfl⟩
  · decide
  · rfl

/-- An entry off the diagonal is inserted for both of its coordinates, and so twice at each. -/
theorem two_le_length_at {r : TensorBase V} {values : List V} (h : 1 < m.size)
    (hlength : m.size * m.size ≤ values.length) (hr : r.components = inserted true [m.size, m.size] values) :
    2 ≤ (r.at [0, 1]).length := by
  have hmany : m.size < m.size * m.size := by nlinarith
  have hone : denseCoordinates [m.size, m.size] 1 = [1, 0] := by
    simp [denseCoordinates, Nat.mod_eq_of_lt h, Nat.div_eq_of_lt h]
  have hsize : denseCoordinates [m.size, m.size] m.size = [0, 1] := by
    simp [denseCoordinates, Nat.div_self (Nat.zero_lt_of_lt h)]
  have hrange : [1, m.size].Sublist (List.range (m.size * m.size)) := by
    refine List.sublist_of_subperm_of_pairwise (r := (· < ·)) ?_ (by simpa using h) List.pairwise_lt_range
    refine (List.subperm_of_subset (by simpa using h.ne) ?_)
    intro n hn
    rcases List.mem_cons.mp hn with rfl | hn
    · exact List.mem_range.mpr (h.trans hmany)
    · rw [List.mem_singleton.mp hn]
      exact List.mem_range.mpr hmany
  have hsub : (([1, m.size].flatMap fun n => ((values[n]?).map (insertion true (denseCoordinates [m.size, m.size] n))).getD []).filterMap
      fun c => if c.1 = [0, 1] then some c.2 else none).Sublist (r.at [0, 1]) := by
    rw [TensorBase.at, hr, inserted]
    simp only [List.prod_cons, List.prod_nil, Nat.mul_one]
    exact (hrange.flatMap _).filterMap _
  refine le_trans (le_of_eq ?_) hsub.length_le
  have hfirst : 1 < values.length := (h.trans hmany).trans_le hlength
  have hsecond : m.size < values.length := hmany.trans_le hlength
  simp [hone, hsize, List.getElem?_eq_getElem hfirst, List.getElem?_eq_getElem hsecond, insertion]

variable {m} {toText : V → List Char} {strtod : List Char → V} {target : Target}

theorem readMTX_symmetric (htext : ∀ v, '\n' ∉ toText v) (hread : ∀ v, strtod (toText v) = v) (listed : List V) :
    readMTX strtod (arrayText toText symmetricHeader [m.size, m.size] listed) target =
      readValues true target [m.size, m.size] listed := by
  have hdimension : ∀ d ∈ [m.size, m.size], 0 < d ∧ d ≤ intMax := fun d hd => by
    obtain rfl : d = m.size := by simpa using hd
    exact m.dimension
  have h := readMTX_arrayText listed arrayHeader_symmetric htext hread (List.cons_ne_nil _ _) hdimension (fun _ => rfl) target
  rwa [decide_eq_true rfl] at h

/-- No list of values at all is read as a matrix with two rows or more. -/
theorem not_mirrored (htext : ∀ v, '\n' ∉ toText v) (hread : ∀ v, strtod (toText v) = v) (h : 1 < m.size) (listed : List V) :
    ¬ m.Mirrored toText strtod target listed := by
  rintro ⟨r, hr, hmirrored⟩
  rw [readMTX_symmetric htext hread, readValues] at hr
  simp only [if_true] at hr
  split_ifs at hr with hsize
  obtain ⟨tensor, -, rfl⟩ := Option.map_eq_some_iff.mp hr
  have htwice := m.two_le_length_at (r := { tensor with components := inserted true [m.size, m.size] listed }) h
    (by simpa using hsize.2) rfl
  rw [hmirrored 0 (Nat.zero_lt_of_lt h) 1 h] at htwice
  exact absurd htwice (by simp)

theorem mirrored_one (htext : ∀ v, '\n' ∉ toText v) (hread : ∀ v, strtod (toText v) = v) (hpermits : target.Permits 2)
    (h : m.size = 1) : m.Mirrored toText strtod target [m.entry 0 0] := by
  obtain ⟨format, hformat⟩ : ∃ format, (target.make [m.size, m.size] : Option (TensorBase V)) = some ⟨_, format, []⟩ :=
    Target.exists_make hpermits
  have hint : 2 ≤ intMax := by
    rw [intMax]
    norm_num
  have hsize : 2 * [m.size, m.size].prod ≤ intMax ∧ [m.size, m.size].prod ≤ [m.entry 0 0].length := by simpa [h] using hint
  refine ⟨⟨[m.size, m.size], format, inserted true [m.size, m.size] [m.entry 0 0]⟩, ?_, ?_⟩
  · rw [readMTX_symmetric htext hread, readValues, hformat]
    exact if_pos hsize
  · intro i hi j hj
    obtain rfl : i = 0 := by omega
    obtain rfl : j = 0 := by omega
    simp [TensorBase.at, inserted, h, denseCoordinates, insertion]

theorem mirrored_iff (htext : ∀ v, '\n' ∉ toText v) (hread : ∀ v, strtod (toText v) = v) (hpermits : target.Permits 2)
    {listed : List V} (hlisted : m.size = 1 → listed = [m.entry 0 0]) : m.Mirrored toText strtod target listed ↔ m.size = 1 := by
  have hpos := m.dimension.1
  constructor
  · intro hmirrored
    by_contra hne
    exact not_mirrored htext hread (by omega) listed hmirrored
  · intro h
    rw [hlisted h]
    exact mirrored_one htext hread hpermits h

end SymmetricMatrix

/-! ### Which files are read back -/

/-- The values of a tensor come back exactly if the file is not that of a scalar, has an `int` as its size, and numbers the
    values like the storage; all tensors of a shape come back exactly if their modes are stored column by column. Of the
    symmetric matrices, only those with one entry come back, in whichever way they are listed. -/
theorem dense_iff [Nontrivial V] {toText : V → List Char} {strtod : List Char → V} (htext : ∀ v, '\n' ∉ toText v)
    (hread : ∀ v, strtod (toText v) = v) (target : Target) :
    (∀ t : DenseTensor V, target.Permits t.dimensions.length →
      (t.RoundTrips toText strtod target ↔ Readable t.dimensions ∧ t.Alike) ∧
        ((∀ value, DenseTensor.RoundTrips toText strtod { t with value := value } target) ↔
          Readable t.dimensions ∧ ColumnMajor t.dimensions t.format)) ∧
      ∀ m : SymmetricMatrix V, target.Permits 2 →
        (m.Mirrored toText strtod target m.lowerTriangle ↔ m.size = 1) ∧
          (m.Mirrored toText strtod target m.allEntries ↔ m.size = 1) := by
  refine ⟨fun t hpermits => ⟨t.roundTrips_eq htext hread hpermits, ?_⟩, fun m hpermits => ⟨?_, ?_⟩⟩
  · have heach : ∀ value, DenseTensor.RoundTrips toText strtod { t with value := value } target ↔
        Readable t.dimensions ∧ DenseTensor.Alike { t with value := value } := fun value =>
      DenseTensor.roundTrips_eq { t with value := value } htext hread hpermits
    rw [← t.alike_forall_iff]
    constructor
    · exact fun h => ⟨((heach t.value).mp (h t.value)).1, fun value => ((heach value).mp (h value)).2⟩
    · exact fun h value => (heach value).mpr ⟨h.1, h.2 value⟩
  · exact SymmetricMatrix.mirrored_iff htext hread hpermits fun h => by simp [SymmetricMatrix.lowerTriangle, h]
  · exact SymmetricMatrix.mirrored_iff htext hread hpermits fun h => by simp [SymmetricMatrix.allEntries, h]

/-! ### Matrices stored by columns and by rows -/

theorem wholeNumber_number (n : ℕ) : wholeNumber (digits n) = n := wholeNumber_digits n

def columns : Format where
  modeFormatPacks := [[.dense], [.dense]]
  modeOrdering := [1, 0]
  complete := by decide

/-- The matrix with the rows 1, 2, 3 and 4, 5, 6, stored by columns. -/
def storedByColumns : DenseTensor ℕ where
  dimensions := [2, 3]
  format := columns
  value := fun coord => 3 * coordinate coord 0 + coordinate coord 1 + 1
  order_eq := rfl
  dimension := by simp [intMax]
  dense := by decide

theorem dense_storedByColumns : storedByColumns.RoundTrips digits wholeNumber (.format columns) :=
  (((dense_iff newline_notMem_digits wholeNumber_number (.format columns)).1 storedByColumns rfl).2.mpr
    ⟨⟨List.cons_ne_nil _ _, by simp [storedByColumns, intMax]⟩, by decide⟩) storedByColumns.value

/-- The matrix with the rows 1, 2 and 3, 4, stored by rows. -/
def storedByRows : DenseTensor ℕ where
  dimensions := [2, 2]
  format := Format.dense 2
  value := fun coord => 2 * coordinate coord 0 + coordinate coord 1 + 1
  order_eq := rfl
  dimension := by simp [intMax]
  dense := by decide

/-- The matrix is read as its transpose. -/
theorem storedByRows_not_dense :
    ¬ ∀ (t : DenseTensor ℕ) (target : Target), target.Permits t.dimensions.length →
      t.RoundTrips digits wholeNumber target := by
  intro h
  have hpermits : (Target.format (Format.dense 2)).Permits storedByRows.dimensions.length := rfl
  have halike := ((storedByRows.roundTrips_eq newline_notMem_digits wholeNumber_number hpermits).mp
    (h storedByRows (.format (Format.dense 2)) hpermits)).2
  exact absurd (halike [0, 1] [1, 0] (by simp [Inside, storedByRows]) (by simp [Inside, storedByRows]) (by decide)) (by decide)

end FileIO
end Taco
