import Taco.Lower.AppendedSlices

/-! The arrays that the kernel leaves: what a walk over them finds, and that they are well formed. -/

namespace Taco
namespace Assembly

variable {V : Type} {result : Result} {computes : Bool}

/-! ### The whole loops -/

section

variable [Zero V] [Add V]

omit [Add V] in
/-- Above the result there is one position, for which everything is initialized. -/
theorem initLevelsBelow_root (result : Result) (computes : Bool) (above : Parent) (stride : Size) (levels : List Level)
    (arrays : Arrays V levels) :
    initLevelsBelow result computes .root (.literal 0) above stride levels arrays = some arrays := by
  induction levels generalizing above stride with
  | nil => rfl
  | cons level levels ih =>
    cases level with
    | dense n isFixed => exact ih .insert _ arrays
    | compressed n =>
      obtain ⟨a, arrays⟩ := arrays
      have hbegin : (Size.literal 0).mul stride = .literal 0 := by
        cases stride with
        | literal n => rw [Size.mul, Nat.zero_mul]
        | computed n => rfl
      rw [initLevelsBelow, hbegin]
      rfl

omit [Add V] in
theorem initResultArrays_root (result : Result) (computes : Bool) (levels : List Level) (arrays : Arrays V levels) :
    initResultArrays result computes .root (.literal 0) levels arrays = some arrays :=
  initLevelsBelow_root result computes .root (.literal 1) levels arrays

omit [Zero V] [Add V] in
theorem getAppendInitLevel_root (hroom : 0 < result.allocSize) (a : LevelArrays) (X : Type) :
    ∃ a', getAppendInitLevel result .root (.literal 1) a = some a' ∧ 1 < a'.posArray.capacity ∧
      { a' with posVar := 0 }.Hold (Phase.edges .building .root) ([] : List (List (ℕ × X))) := by
  obtain ⟨posArray, hstore, hholds, hcapacity⟩ :=
    (Growable.holds_nil Eq (a.posArray.resize 2)).push Nat.two_pos (Eq.refl 0)
  rw [List.length_nil] at hstore
  refine ⟨{ a with posArray := posArray, crdArray := a.crdArray.resize result.allocSize }, ?_, ?_,
    LevelArrays.hold_replicate (k := 0) hholds rfl hroom⟩
  · simp [getAppendInitLevel, hstore]
  · show 1 < posArray.capacity
    rw [hcapacity]
    exact Nat.one_lt_two

/-- After the loops the arrays represent what was visited. -/
theorem loops_represent (hroom : 0 < result.allocSize) {levels : List Level} (hne : levels ≠ []) (visits : result.Visits V levels)
    (arrays : Arrays V levels) :
    ∃ arrays₁ arrays₂, initLevels result computes .root (.literal 1) levels arrays = some arrays₁ ∧
      lowerForall result computes .root (.literal 0) levels visits arrays₁ = some arrays₂ ∧
        Represents computes .building .root levels arrays₂ [some visits] := by
  cases levels with
  | nil => exact absurd rfl hne
  | cons level levels =>
    cases level with
    | dense n isFixed =>
      obtain ⟨arrays₁, hinit, hrep⟩ := initLevels_represents (V := V) hroom .insert ((Size.literal 1).mul (getWidth n isFixed))
        levels arrays (Or.inl rfl)
      have hstart : Represents computes .building .insert levels arrays₁
          (([] : List (Option (result.Visits V levels))) ++ slotsOf n [] ++ List.replicate 0 none) := by
        simpa [slotsOf_nil] using hrep
      obtain ⟨arrays₂, hloop, hrep'⟩ := lowerInsertLoop_represents (lowerForall_represents (V := V) levels).1
        (by rw [List.length_nil, Nat.zero_mul]) [] visits.val visits.property.1 visits.property.2 hstart
      rw [List.nil_append, List.nil_append, List.replicate_zero, List.append_nil] at hrep'
      refine ⟨arrays₁, arrays₂, hinit, ?_, ?_⟩
      · rw [lowerForall, initResultArrays_root]
        exact hloop
      · rw [represents_dense, List.flatMap_singleton]
        exact hrep'
    | compressed n =>
      obtain ⟨a, arrays⟩ := arrays
      obtain ⟨a', hlevel, hcapacity, hhold⟩ := getAppendInitLevel_root hroom a (result.Visits V levels)
      obtain ⟨arrays₁, hinit, hrep⟩ := initLevels_represents (V := V) hroom .append (.literal 0) levels arrays (Or.inr ⟨rfl, rfl⟩)
      have hstart : Represents computes .building .root (.compressed n :: levels) ({ a' with posVar := 0 }, arrays₁)
          ([] : List (Option (result.Visits V (.compressed n :: levels)))) := ⟨hhold, hrep⟩
      obtain ⟨arrays₂, hloop, -, hrep'⟩ := lowerAppendLoop_next (lowerForall_represents (V := V) levels).2
        (by decide : Parent.root ≠ .insert) hstart hcapacity visits
      refine ⟨({ a' with posVar := 0 }, arrays₁), arrays₂, ?_, ?_, hrep'⟩
      · rw [initLevels]
        simp [hlevel, hinit]
      · rw [lowerForall, initResultArrays_root]
        exact hloop

end

/-! ### Finalization -/

section

variable [Zero V] [Add V]

omit [Zero V] [Add V] in
theorem scanl_eq_cons (cs : ℕ) (lengths : List ℕ) :
    lengths.scanl (· + ·) cs = cs :: (lengths.scanl (· + ·) cs).tail := by
  cases lengths <;> simp [List.scanl_cons]

omit [Zero V] [Add V] in
/-- The loop that adds up the entries from one on, with the sum of those before. -/
theorem foldlM_addUp (lengths sums : List ℕ) (cs : ℕ) {posArray : Growable ℕ}
    (h : posArray.Holds Eq (sums ++ lengths)) :
    ∃ st, (List.range' sums.length lengths.length).foldlM addUp (cs, posArray) = some st ∧
      st.2.Holds Eq (sums ++ (lengths.scanl (· + ·) cs).tail) := by
  induction lengths generalizing sums cs posArray with
  | nil => exact ⟨(cs, posArray), rfl, h⟩
  | cons x lengths ih =>
    have hx : posArray.data sums.length = x := h.data_eq (by simp)
    obtain ⟨posArray₁, hstore, hholds, -⟩ := h.set (Eq.refl (cs + x))
    obtain ⟨st, hloop, hst⟩ := ih (sums ++ [cs + x]) (cs + x) (by simpa using hholds)
    rw [List.append_assoc, List.singleton_append, ← scanl_eq_cons] at hst
    refine ⟨st, ?_, by rwa [List.scanl_cons, List.tail_cons]⟩
    rw [List.length_cons, List.range'_succ, List.foldlM_cons]
    simp only [addUp, hx, hstore, Option.bind_eq_bind, Option.bind_some, Option.pure_def]
    simpa using hloop

omit [Zero V] [Add V] in
theorem getAppendFinalizeLevel_hold {parent : Parent} {a : LevelArrays} {X : Type} {slices : List (List (ℕ × X))}
    (h : a.Hold (Phase.edges .building parent) slices) {parentSize : Size} (hsize : parentSize.value = slices.length) :
    ∃ a', getAppendFinalizeLevel parent parentSize a = some a' ∧ a'.posVar = a.posVar ∧ a'.Hold List.partialSums slices := by
  cases parent with
  | root | append => exact ⟨a, by simp [getAppendFinalizeLevel], rfl, h⟩
  | insert =>
    -- for one parent the length of its slice is the sum already
    by_cases hone : parentSize = .literal 1
    · obtain ⟨slice, rfl⟩ := List.length_eq_one_iff.mp (hsize.symm.trans (congrArg Size.value hone))
      refine ⟨a, by simp [getAppendFinalizeLevel, hone], rfl, ?_, h.crdArray, h.posVar, h.room⟩
      simpa [Phase.edges, List.partialSums] using h.posArray
    · obtain ⟨⟨cs, posArray⟩, hloop, hholds⟩ := foldlM_addUp (slices.map List.length) [0] 0 h.posArray
      rw [List.length_map, ← hsize] at hloop
      refine ⟨{ a with posArray := posArray }, ?_, rfl, ?_, h.crdArray, h.posVar, h.room⟩
      · have hloop' : (List.range' 1 parentSize.value).foldlM addUp (0, a.posArray) = some (cs, posArray) := hloop
        simp [getAppendFinalizeLevel, hone, hloop']
      · rw [List.partialSums, scanl_eq_cons]
        exact hholds

theorem finalizeLevels_represents (parent : Parent) (parentSize : Size) (levels : List Level) (arrays : Arrays V levels)
    {slots : List (Option (result.Visits V levels))} (h : Represents computes .building parent levels arrays slots)
    (hsize : parentSize.value = slots.length) :
    ∃ arrays', finalizeLevels computes parent parentSize levels arrays = some arrays' ∧
      Represents computes .finalized parent levels arrays' slots := by
  induction levels generalizing parent parentSize with
  | nil =>
    refine ⟨if computes then arrays else Growable.resize arrays parentSize.value, rfl, ?_⟩
    cases computes with
    | false => exact ⟨Bool.false_ne_true.elim, fun _ => hsize.ge⟩
    | true =>
      have hholds := (represents_building_nil.mp h rfl).holds
      refine ⟨fun _ => ⟨hholds, fun h => by cases h⟩, fun _ => ?_⟩
      have hfits := hholds.fits
      rwa [List.length_map] at hfits
  | cons level levels ih =>
    cases level with
    | dense n isFixed =>
      exact ih .insert (parentSize.mul (getWidth n isFixed)) arrays h (by rw [length_flatMap_expand]; simp [hsize])
    | compressed n =>
      obtain ⟨a, arrays⟩ := arrays
      obtain ⟨hhold, hbelow⟩ := represents_compressed.mp h
      obtain ⟨a', hlevel, hvar, hhold'⟩ := getAppendFinalizeLevel_hold hhold (hsize.trans (List.length_map _).symm)
      obtain ⟨arrays', hfinal, hrep⟩ := ih .append (.computed a'.posVar) arrays hbelow (by
        rw [List.length_map]
        exact hhold'.posVar)
      refine ⟨(a', arrays'), ?_, hhold', hrep⟩
      rw [finalizeLevels]
      simp [hlevel, hfinal]

/-- No store of the kernel is out of bounds, and the arrays represent what was visited. -/
theorem assemble_represents (hroom : 0 < result.allocSize) {levels : List Level} (hne : levels ≠ [])
    (visits : result.Visits V levels) (arrays : Arrays V levels) :
    ∃ arrays', assemble result computes levels visits arrays = some arrays' ∧
      Represents computes .finalized .root levels arrays' [some visits] := by
  obtain ⟨arrays₁, arrays₂, hinit, hloops, hrep⟩ := loops_represent hroom hne visits arrays
  obtain ⟨arrays₃, hfinal, hrep'⟩ := finalizeLevels_represents .root (.literal 1) levels arrays₂ hrep rfl
  refine ⟨arrays₃, ?_, hrep'⟩
  rw [assemble, hinit]
  show (lowerForall result computes .root (.literal 0) levels visits arrays₁ >>= _) = _
  rw [hloops]
  exact hfinal

end

/-! ### Walks -/

def locate (parentPos n coord : ℕ) : ℕ := parentPos * n + coord

def posIterBounds (parentPos : ℕ) (a : LevelArrays) : ℕ × ℕ := (a.posArray.data parentPos, a.posArray.data (parentPos + 1))

def posIterAccess (pos : ℕ) (a : LevelArrays) : ℕ := a.crdArray.data pos

/-- The components that a walk over the levels finds below a position, with their coordinates. -/
def components : (levels : List Level) → Arrays V levels → ℕ → List (List ℕ × V)
  | [], values, pos => [([], Growable.data values pos)]
  | .dense n _ :: levels, arrays, parentPos =>
    (List.range n).flatMap fun i => (components levels arrays (locate parentPos n i)).map fun c => (i :: c.1, c.2)
  | .compressed _ :: levels, (a, arrays), parentPos =>
    let (pBegin, pEnd) := posIterBounds parentPos a
    (List.range' pBegin (pEnd - pBegin)).flatMap fun pos =>
      (components levels arrays pos).map fun c => (posIterAccess pos a :: c.1, c.2)

section

variable [Zero V] [Add V]

/-- The components below a slot: all the coordinates of a dense level, and those of a compressed level that were visited. -/
def entries : (levels : List Level) → Option (result.Visits V levels) → List (List ℕ × V)
  | [], slot => [([], slot.elim 0 fun assigned => result.valueOf (assignedOf assigned))]
  | .dense n _ :: levels, slot =>
    (List.range n).flatMap fun i =>
      (entries levels (List.lookup i (slot.elim [] Subtype.val))).map fun c => (i :: c.1, c.2)
  | .compressed _ :: levels, slot =>
    (slot.elim [] Subtype.val).flatMap fun visit => (entries levels (some visit.2)).map fun c => (visit.1 :: c.1, c.2)

/-- Every value below a visited coordinate is assigned. -/
def Filled : (levels : List Level) → Option (result.Visits V levels) → Prop
  | [], slot => slot.isSome
  | .dense n _ :: levels, slot => ∀ i < n, Filled levels (List.lookup i (slot.elim [] Subtype.val))
  | .compressed _ :: levels, slot => ∀ visit ∈ slot.elim [] Subtype.val, Filled levels (some visit.2)

theorem entries_of_not_kept {levels : List Level} {visits : result.Visits V levels} (h : kept levels visits = false) :
    entries levels (some visits) = [] := by
  induction levels with
  | nil => cases h
  | cons level levels ih =>
    cases level with
    | dense n isFixed => cases h
    | compressed n =>
      rw [kept, List.any_eq_false] at h
      show (visits.val.flatMap fun visit => (entries levels (some visit.2)).map fun c => (visit.1 :: c.1, c.2)) = []
      rw [List.flatMap_eq_nil_iff]
      intro visit hvisit
      rw [ih (Bool.eq_false_iff.mpr (h visit hvisit)), List.map_nil]

omit [Zero V] [Add V] in
theorem flatMap_filter_eq {X Y : Type} {f : X → List Y} {p : X → Bool} (l : List X) (h : ∀ x ∈ l, p x = false → f x = []) :
    (l.filter p).flatMap f = l.flatMap f := by
  induction l with
  | nil => rfl
  | cons x l ih =>
    have ih' := ih fun y hy => h y (List.mem_cons_of_mem _ hy)
    by_cases hx : p x = true
    · rw [List.filter_cons_of_pos hx, List.flatMap_cons, List.flatMap_cons, ih']
    · rw [List.filter_cons_of_neg hx, List.flatMap_cons, h x List.mem_cons_self (Bool.eq_false_iff.mpr hx), ih', List.nil_append]

omit [Zero V] [Add V] in
theorem range'_flatMap_eq {X Y : Type} {f : ℕ → List Y} {g : X → List Y} (l : List X) (start : ℕ)
    (h : ∀ j x, l[j]? = some x → f (start + j) = g x) : (List.range' start l.length).flatMap f = l.flatMap g := by
  induction l generalizing start with
  | nil => rfl
  | cons x l ih =>
    rw [List.length_cons, List.range'_succ, List.flatMap_cons, List.flatMap_cons, ← h 0 x rfl,
      ih (start + 1) fun j y hy => by rw [Nat.add_right_comm, Nat.add_assoc]; exact h (j + 1) y hy]
    rfl

omit [Zero V] [Add V] in
theorem mem_of_mem_slice {n : ℕ} {levels : List Level} {slot : Option (result.Visits V (.compressed n :: levels))}
    {visit : ℕ × result.Visits V levels} (h : visit ∈ slice slot) : visit ∈ slot.elim [] Subtype.val := by
  cases slot with
  | none => exact h
  | some visits => exact List.mem_of_mem_filter h

omit [Zero V] [Add V] in
theorem getElem?_flatMap_expand {n : ℕ} {isFixed : Bool} {levels : List Level}
    {slots : List (Option (result.Visits V (.dense n isFixed :: levels)))} {q : ℕ}
    {slot : Option (result.Visits V (.dense n isFixed :: levels))}
    (h : slots[q]? = some slot) {i : ℕ} (hi : i < n) :
    (slots.flatMap expand)[q * n + i]? = some (List.lookup i (slot.elim [] Subtype.val)) := by
  induction slots generalizing q with
  | nil => simp at h
  | cons first slots ih =>
    rw [List.flatMap_cons]
    cases q with
    | zero =>
      obtain rfl : first = slot := Option.some.inj h
      rw [Nat.zero_mul, Nat.zero_add, List.getElem?_append_left (by rw [length_expand]; exact hi), expand, slotsOf]
      simp [hi]
    | succ q =>
      rw [List.getElem?_append_right (by rw [length_expand, Nat.succ_mul]; omega), length_expand,
        show (q + 1) * n + i - n = q * n + i by rw [Nat.succ_mul]; omega]
      exact ih h

end

/-! ### Slices in the arrays -/

section

variable {a : LevelArrays} {X : Type} {slices : List (List (ℕ × X))} {q : ℕ} {slice : List (ℕ × X)}

theorem LevelArrays.Hold.begins (h : a.Hold List.partialSums slices) (hq : q ≤ slices.length) :
    a.posArray.data q = (slices.take q).flatten.length := by
  refine h.posArray.data_eq ?_
  rw [List.getElem?_partialSums, if_pos (by rwa [List.length_map]), List.length_flatten, List.map_take]

theorem LevelArrays.Hold.ends (h : a.Hold List.partialSums slices) (hq : slices[q]? = some slice) :
    a.posArray.data (q + 1) = a.posArray.data q + slice.length := by
  obtain ⟨hlt, rfl⟩ := List.getElem?_eq_some_iff.mp hq
  rw [h.begins hlt, h.begins hlt.le, ← List.take_concat_get' slices q hlt, List.flatten_append, List.length_append,
    List.flatten_singleton]

theorem getElem?_flatten (hq : slices[q]? = some slice) {j : ℕ} (hj : j < slice.length) :
    slices.flatten[(slices.take q).flatten.length + j]? = slice[j]? := by
  obtain ⟨hlt, rfl⟩ := List.getElem?_eq_some_iff.mp hq
  have hsplit : slices.flatten = (slices.take q).flatten ++ (slices[q] ++ (slices.drop (q + 1)).flatten) := by
    rw [← List.flatten_cons, ← List.drop_eq_getElem_cons hlt, ← List.flatten_append, List.take_append_drop]
  rw [hsplit, List.getElem?_append_right (Nat.le_add_right _ _), Nat.add_sub_cancel_left, List.getElem?_append_left hj]

theorem LevelArrays.Hold.coord (h : a.Hold List.partialSums slices) (hq : slices[q]? = some slice) {j : ℕ} {c : ℕ × X}
    (hj : slice[j]? = some c) : a.crdArray.data (a.posArray.data q + j) = c.1 := by
  obtain ⟨hlt, hc⟩ := List.getElem?_eq_some_iff.mp hj
  rw [h.begins (List.getElem?_eq_some_iff.mp hq).1.le]
  refine h.crdArray.data_eq ?_
  rw [List.getElem?_map, getElem?_flatten hq hlt, hj, Option.map_some]

end

/-! ### What a walk finds -/

section

variable [Zero V] [Add V]

theorem components_eq (parent : Parent) (levels : List Level) {arrays : Arrays V levels}
    {slots : List (Option (result.Visits V levels))} {q : ℕ} {slot : Option (result.Visits V levels)}
    (h : Represents true .finalized parent levels arrays slots) (hq : slots[q]? = some slot)
    (hfilled : result.zeroes = true ∨ Filled levels slot) : components levels arrays q = entries levels slot := by
  induction levels generalizing parent q with
  | nil =>
    have hvalue := ((represents_nil.mp h).1 rfl).holds.stored q (slot.map assignedOf)
      (by rw [List.getElem?_map, hq, Option.map_some])
    cases slot with
    | none =>
      have hzero : Growable.data arrays q = 0 := hvalue (hfilled.resolve_right Bool.false_ne_true)
      rw [components, hzero]
      rfl
    | some assigned =>
      have hassigned : Growable.data arrays q = result.valueOf (assignedOf assigned) := hvalue assigned.property
      rw [components, hassigned]
      rfl
  | cons level levels ih =>
    cases level with
    | dense n isFixed =>
      rw [components, entries]
      refine List.flatMap_congr fun i hi => ?_
      have hlt := List.mem_range.mp hi
      rw [locate, ih .insert h (getElem?_flatMap_expand hq hlt) (hfilled.imp_right fun hfilled => hfilled i hlt)]
    | compressed n =>
      obtain ⟨a, arrays⟩ := arrays
      obtain ⟨hhold, hbelow⟩ := represents_compressed.mp h
      have hslice : (slots.map slice)[q]? = some (slice slot) := by rw [List.getElem?_map, hq, Option.map_some]
      -- what is found at a place of the segment is what was visited there
      have hfound : ∀ j visit, (slice slot)[j]? = some visit →
          ((components levels arrays (a.posArray.data q + j)).map fun c =>
              (posIterAccess (a.posArray.data q + j) a :: c.1, c.2)) =
            (entries levels (some visit.2)).map fun c => (visit.1 :: c.1, c.2) := fun j visit hvisit => by
        have hbegin := hhold.begins (List.getElem?_eq_some_iff.mp hslice).1.le
        have hplace :
            ((slots.map slice).flatten.map fun visit => some visit.2)[a.posArray.data q + j]? = some (some visit.2) := by
          rw [List.getElem?_map, hbegin, getElem?_flatten hslice (List.getElem?_eq_some_iff.mp hvisit).1, hvisit, Option.map_some]
        have hentries := ih .append hbelow hplace
          (hfilled.imp_right fun hfilled => hfilled visit (mem_of_mem_slice (List.mem_of_getElem? hvisit)))
        rw [hentries, posIterAccess, hhold.coord hslice hvisit]
      rw [components, posIterBounds, entries]
      dsimp only
      rw [hhold.ends hslice, Nat.add_sub_cancel_left, range'_flatMap_eq _ _ hfound]
      cases slot with
      | none => rfl
      | some visits =>
        refine flatMap_filter_eq visits.val fun visit _ hkept => ?_
        rw [entries_of_not_kept hkept, List.map_nil]

end

/-! ### Well-formed arrays -/

/-- The arrays of a level below a number of positions: the position array bounds a segment for each of them, and the
    coordinates of a segment are in order. -/
structure LevelArrays.WellFormed (a : LevelArrays) (size positions : ℕ) : Prop where
  begins : a.posArray.data 0 = 0
  ends : a.posArray.data positions = a.posVar
  monotone : ∀ p < positions, a.posArray.data p ≤ a.posArray.data (p + 1)
  sorted : ∀ p < positions, ∀ q q', a.posArray.data p ≤ q → q < q' → q' < a.posArray.data (p + 1) →
    a.crdArray.data q < a.crdArray.data q'
  bounded : ∀ q < a.posVar, a.crdArray.data q < size
  posRoom : positions < a.posArray.capacity
  crdRoom : a.posVar ≤ a.crdArray.capacity

/-- The arrays below a number of positions; no segment below an append level is empty. -/
def WellFormed : Parent → (levels : List Level) → Arrays V levels → ℕ → Prop
  | _, [], values, positions => positions ≤ Growable.capacity values
  | _, .dense n _ :: levels, arrays, positions => WellFormed .insert levels arrays (positions * n)
  | parent, .compressed n :: levels, (a, arrays), positions =>
    a.WellFormed n positions ∧ (parent = .append → ∀ p < positions, a.posArray.data p < a.posArray.data (p + 1)) ∧
      WellFormed .append levels arrays a.posVar

section

variable [Zero V] [Add V]

theorem LevelArrays.Hold.wellFormed {a : LevelArrays} {X : Type} {slices : List (List (ℕ × X))} {size : ℕ}
    (h : a.Hold List.partialSums slices)
    (hslices : ∀ slice ∈ slices, (slice.map Prod.fst).Pairwise (· < ·) ∧ ∀ i ∈ slice.map Prod.fst, i < size) :
    a.WellFormed size slices.length where
  begins := h.begins (Nat.zero_le _)
  ends := by rw [h.begins (Nat.le_refl _), List.take_length, h.posVar]
  monotone p hp := by
    rw [h.ends (List.getElem?_eq_getElem hp)]
    exact Nat.le_add_right _ _
  sorted p hp q q' hq hlt hq' := by
    have hslice := List.getElem?_eq_getElem hp
    rw [h.ends hslice] at hq'
    obtain ⟨j, rfl⟩ := Nat.exists_eq_add_of_le hq
    obtain ⟨j', rfl⟩ := Nat.exists_eq_add_of_le (hq.trans hlt.le)
    have hj' : j' < slices[p].length := by omega
    have hj : j < slices[p].length := by omega
    rw [h.coord hslice (List.getElem?_eq_getElem hj), h.coord hslice (List.getElem?_eq_getElem hj')]
    have hpairwise := (hslices _ (List.getElem_mem hp)).1
    rw [List.pairwise_map] at hpairwise
    exact List.pairwise_iff_getElem.mp hpairwise j j' hj hj' (by omega)
  bounded q hq := by
    rw [h.posVar] at hq
    rw [h.crdArray.data_eq (x := slices.flatten[q].1) (by rw [List.getElem?_map, List.getElem?_eq_getElem hq, Option.map_some])]
    obtain ⟨slice, hslice, hmem⟩ := List.mem_flatten.mp (List.getElem_mem hq)
    exact (hslices slice hslice).2 _ (List.mem_map_of_mem hmem)
  posRoom := by
    have hfits := h.posArray.fits
    rw [List.length_partialSums, List.length_map] at hfits
    exact hfits
  crdRoom := by
    have hfits := h.crdArray.fits
    rwa [List.length_map, ← h.posVar] at hfits

omit [Zero V] [Add V] in
theorem slice_ordered {n : ℕ} {levels : List Level} (slot : Option (result.Visits V (.compressed n :: levels))) :
    ((slice slot).map Prod.fst).Pairwise (· < ·) ∧ ∀ i ∈ (slice slot).map Prod.fst, i < n := by
  cases slot with
  | none => exact ⟨List.Pairwise.nil, fun i hi => by cases hi⟩
  | some visits =>
    have hsublist : ((slice (some visits)).map Prod.fst).Sublist (visits.val.map Prod.fst) := List.filter_sublist.map _
    exact ⟨visits.property.1.sublist hsublist, fun i hi => visits.property.2 i (hsublist.subset hi)⟩

theorem wellFormed_of_represents (parent : Parent) (levels : List Level) {arrays : Arrays V levels}
    {slots : List (Option (result.Visits V levels))} (h : Represents computes .finalized parent levels arrays slots)
    (hkept : parent = .append → ∀ slot ∈ slots, ∃ visits, slot = some visits ∧ kept levels visits = true) :
    WellFormed parent levels arrays slots.length := by
  induction levels generalizing parent with
  | nil => exact (represents_nil.mp h).2 rfl
  | cons level levels ih =>
    cases level with
    | dense n isFixed =>
      have hbelow := ih .insert h fun heq => by cases heq
      rwa [length_flatMap_expand] at hbelow
    | compressed n =>
      obtain ⟨a, arrays⟩ := arrays
      obtain ⟨hhold, hbelow⟩ := represents_compressed.mp h
      have hlength : (slots.map slice).length = slots.length := List.length_map _
      refine ⟨hlength ▸ hhold.wellFormed fun s hs => ?_, fun happend p hp => ?_, ?_⟩
      · obtain ⟨slot, -, rfl⟩ := List.mem_map.mp hs
        exact slice_ordered slot
      · obtain ⟨visits, hvisits, hnonempty⟩ := hkept happend _ (List.getElem_mem hp)
        have hslice : (slots.map slice)[p]? = some (slice slots[p]) := by
          rw [List.getElem?_map, List.getElem?_eq_getElem hp, Option.map_some]
        rw [hhold.ends hslice]
        have hne : slice slots[p] ≠ [] := by
          rw [hvisits]
          exact fun hnil => Bool.false_ne_true ((keptVisits_eq_nil.mp hnil).symm.trans hnonempty)
        have hpos := List.length_pos_iff.mpr hne
        omega
      · have hwell := ih .append hbelow fun _ slot hslot => by
          obtain ⟨visit, hvisit, rfl⟩ := List.mem_map.mp hslot
          obtain ⟨s, hs, hmem⟩ := List.mem_flatten.mp hvisit
          obtain ⟨slot, -, rfl⟩ := List.mem_map.mp hs
          refine ⟨visit.2, rfl, ?_⟩
          cases slot with
          | none => cases hmem
          | some visits => exact (List.mem_filter.mp hmem).2
        rwa [List.length_map, ← hhold.posVar] at hwell

end

/-! ### The kernel -/

section

variable [Zero V] [Add V]

/-- Compressed rows of which only two coordinates are visited, below a dense level. -/
def rowLevels : List Level := [.dense 2 true, .compressed 3, .dense 2 false]

def sumResult : Result := ⟨1, true, true⟩

def added (assigned : List ℤ) : sumResult.Visits ℤ [] := ⟨assigned, fun _ => rfl⟩

def rowVisits : sumResult.Visits ℤ rowLevels :=
  ⟨[(1, ⟨[(0, ⟨[(1, added [2, 3])], by decide⟩), (2, ⟨[(0, added [])], by decide⟩)], by decide⟩)], by decide⟩

/-- What is in arrays before they are initialized. -/
def leftOver : Arrays ℤ rowLevels := (⟨⟨0, fun _ => 7⟩, ⟨0, fun _ => 7⟩, 7⟩, ⟨0, fun _ => 7⟩)

end

end Assembly
end Taco
