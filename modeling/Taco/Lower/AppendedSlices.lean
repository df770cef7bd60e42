import Mathlib
import Taco.Lower.AppendAssembly

/-! What the arrays of a result represent while it is assembled, and that the loops append to it what they visit. -/

namespace Taco
namespace Assembly

variable {V : Type} {result : Result}

/-! ### What is kept -/

namespace Result

variable [Zero V] [Add V] (result : Result)

/-- What assignments leave in a value: their sum where the result is added to, and the last one elsewhere. -/
def valueOf (assigned : List V) : V := assigned.foldl (fun y x => if result.reduced then y + x else x) 0

/-- What a value may be: after assignments, or while nothing is assigned to it. -/
def IsValue : Option (List V) → V → Prop
  | none, y => result.zeroes = true → y = 0
  | some assigned, y => (assigned = [] → result.reduced = true) → y = result.valueOf assigned

end Result

/-- Whether a slice is appended to the level above: a compressed level appends no empty ones. -/
def kept : (levels : List Level) → result.Visits V levels → Bool
  | [], _ | .dense _ _ :: _, _ => true
  | .compressed _ :: levels, visits => visits.val.any fun visit => kept levels visit.2

/-- What a compressed level stores of what is visited. -/
def keptVisits (levels : List Level) (visits : List (ℕ × result.Visits V levels)) : List (ℕ × result.Visits V levels) :=
  visits.filter fun visit => kept levels visit.2

/-- The slice at a position of the parent, which is empty if the position is not visited. -/
def slice {n : ℕ} {levels : List Level} (slot : Option (result.Visits V (.compressed n :: levels))) :
    List (ℕ × result.Visits V levels) :=
  slot.elim [] fun visits => keptVisits levels visits.val

/-- What is visited at each coordinate. -/
def slotsOf {X : Type} (n : ℕ) (visits : List (ℕ × X)) : List (Option X) := (List.range n).map fun i => List.lookup i visits

/-- The positions below one of a dense level. -/
def expand {n : ℕ} {isFixed : Bool} {levels : List Level} (slot : Option (result.Visits V (.dense n isFixed :: levels))) :
    List (Option (result.Visits V levels)) :=
  slotsOf n (slot.elim [] Subtype.val)

/-- What is assigned to a value. -/
def assignedOf (assigned : result.Visits V []) : List V := assigned.val

/-! ### What arrays represent -/

/-- Position arrays below insert levels are finalized after the loops. -/
inductive Phase where
  | building
  | finalized

/-- The entries of a position array: below an insert level the lengths of the slices, until they are added up. -/
def Phase.edges : Phase → Parent → List ℕ → List ℕ
  | .building, .insert, lengths => 0 :: lengths
  | .building, .root, lengths | .building, .append, lengths | .finalized, _, lengths => lengths.partialSums

/-- The arrays of a level hold the slices one after the other. -/
structure LevelArrays.Hold (a : LevelArrays) (edges : List ℕ → List ℕ) {X : Type} (slices : List (List (ℕ × X))) : Prop where
  posArray : a.posArray.Holds Eq (edges (slices.map List.length))
  crdArray : a.crdArray.Holds Eq (slices.flatten.map Prod.fst)
  posVar : a.posVar = slices.flatten.length
  room : 0 < a.crdArray.capacity

/-- The values of the slots; while values are appended there is room for some. -/
structure ValuesHold [Zero V] [Add V] (phase : Phase) (parent : Parent) (values : Growable V)
    (slots : List (Option (result.Visits V []))) : Prop where
  holds : values.Holds result.IsValue (slots.map (Option.map assignedOf))
  room : phase = .building → parent = .append → 0 < values.capacity

/-- At each position of the parent, what the arrays of the levels represent. -/
def Represents [Zero V] [Add V] (computes : Bool) (phase : Phase) :
    Parent → (levels : List Level) → Arrays V levels → List (Option (result.Visits V levels)) → Prop
  | parent, [], values, slots =>
    (computes = true → ValuesHold phase parent values slots) ∧ (phase = .finalized → slots.length ≤ Growable.capacity values)
  | _, .dense _ _ :: levels, arrays, slots => Represents computes phase .insert levels arrays (slots.flatMap expand)
  | parent, .compressed _ :: levels, (a, arrays), slots =>
    a.Hold (phase.edges parent) (slots.map slice) ∧
      Represents computes phase .append levels arrays ((slots.map slice).flatten.map fun visit => some visit.2)

section

variable [Zero V] [Add V] {computes : Bool} {phase : Phase} {parent : Parent} {levels : List Level} {n : ℕ} {isFixed : Bool}

theorem represents_nil {values : Growable V} {slots : List (Option (result.Visits V []))} :
    Represents computes phase parent [] values slots ↔
      (computes = true → ValuesHold phase parent values slots) ∧
        (phase = .finalized → slots.length ≤ Growable.capacity values) := Iff.rfl

theorem represents_building_nil {values : Growable V} {slots : List (Option (result.Visits V []))} :
    Represents computes .building parent [] values slots ↔ (computes = true → ValuesHold .building parent values slots) :=
  represents_nil.trans (and_iff_left fun h => by cases h)

theorem represents_dense {arrays : Arrays V levels} {slots : List (Option (result.Visits V (.dense n isFixed :: levels)))} :
    Represents computes phase parent (.dense n isFixed :: levels) arrays slots ↔
      Represents computes phase .insert levels arrays (slots.flatMap expand) := Iff.rfl

theorem represents_compressed {a : LevelArrays} {arrays : Arrays V levels}
    {slots : List (Option (result.Visits V (.compressed n :: levels)))} :
    Represents computes phase parent (.compressed n :: levels) (a, arrays) slots ↔
      a.Hold (phase.edges parent) (slots.map slice) ∧
        Represents computes phase .append levels arrays ((slots.map slice).flatten.map fun visit => some visit.2) := Iff.rfl

end

/-! ### Growing arrays -/

section

variable {A B : Type} {R : B → A → Prop} {a : Growable A} {l : List B}

theorem holds_doubleSizeIfFull (h : a.Holds R l) (needed : ℕ) : (doubleSizeIfFull a needed).Holds R l := by
  rw [doubleSizeIfFull]
  split
  · exact h.resize (by have := h.fits; omega)
  · exact h

theorem lt_capacity_doubleSizeIfFull {needed : ℕ} (hroom : 0 < a.capacity) (hle : needed ≤ a.capacity) :
    needed < (doubleSizeIfFull a needed).capacity := by
  rw [doubleSizeIfFull]
  split
  · show needed < a.capacity * 2
    omega
  · omega

theorem holds_atLeastDoubleSizeIfFull (h : a.Holds R l) (needed : ℕ) : (atLeastDoubleSizeIfFull a needed).Holds R l := by
  rw [atLeastDoubleSizeIfFull]
  split
  · exact h.resize (by have := h.fits; omega)
  · exact h

theorem lt_capacity_atLeastDoubleSizeIfFull (a : Growable A) (needed : ℕ) :
    needed < (atLeastDoubleSizeIfFull a needed).capacity := by
  rw [atLeastDoubleSizeIfFull]
  split
  · exact lt_of_lt_of_le (Nat.lt_succ_self needed) (le_max_right _ _)
  · omega

end

/-! ### Slots -/

section

variable {X : Type} {visits : List (ℕ × X)} {i n : ℕ} {x : X}

theorem length_slotsOf (n : ℕ) (visits : List (ℕ × X)) : (slotsOf n visits).length = n := by
  rw [slotsOf, List.length_map, List.length_range]

theorem slotsOf_nil (n : ℕ) : slotsOf n ([] : List (ℕ × X)) = List.replicate n none := by
  simp [slotsOf]

theorem lookup_eq_none (h : ∀ j ∈ visits.map Prod.fst, j < i) {k : ℕ} (hk : i ≤ k) : List.lookup k visits = none := by
  rw [List.lookup_eq_none_iff]
  intro c hc
  have hlt := h c.1 (List.mem_map_of_mem hc)
  rw [bne_iff_ne]
  omega

theorem slotsOf_append (hi : i < n) :
    slotsOf n visits = slotsOf i visits ++ (List.lookup i visits :: (List.range' (i + 1) (n - i - 1)).map fun k =>
      List.lookup k visits) := by
  obtain ⟨m, rfl⟩ : ∃ m, n = i + (1 + m) := ⟨n - i - 1, by omega⟩
  rw [slotsOf, List.range_eq_range', ← List.range'_append_1, ← List.range'_append_1, List.map_append, List.map_append,
    slotsOf, List.range_eq_range', Nat.zero_add, show i + (1 + m) - i - 1 = m by omega]
  rfl

theorem lt_of_sorted {done visits : List (ℕ × X)} (hsorted : ((done ++ (i, x) :: visits).map Prod.fst).Pairwise (· < ·)) :
    ∀ j ∈ done.map Prod.fst, j < i := fun j hj => by
  rw [List.map_append, List.pairwise_append] at hsorted
  exact hsorted.2.2 j hj i List.mem_cons_self

/-- The slots before the visit of a coordinate behind the visited ones. -/
theorem slotsOf_before (hi : i < n) (h : ∀ j ∈ visits.map Prod.fst, j < i) :
    slotsOf n visits = slotsOf i visits ++ none :: List.replicate (n - i - 1) none := by
  rw [slotsOf_append hi, lookup_eq_none h (Nat.le_refl i)]
  congr 2
  rw [List.eq_replicate_iff, List.length_map, List.length_range']
  refine ⟨rfl, fun slot hslot => ?_⟩
  obtain ⟨k, hk, rfl⟩ := List.mem_map.mp hslot
  rw [List.mem_range'_1] at hk
  exact lookup_eq_none h (by omega)

/-- The slots after the visit. -/
theorem slotsOf_after (hi : i < n) (h : ∀ j ∈ visits.map Prod.fst, j < i) :
    slotsOf n (visits ++ [(i, x)]) = slotsOf i visits ++ some x :: List.replicate (n - i - 1) none := by
  have hsame : ∀ k ≠ i, List.lookup k (visits ++ [(i, x)]) = List.lookup k visits := fun k hk => by
    rw [List.lookup_append]
    simp [List.lookup, beq_false_of_ne hk]
  rw [slotsOf_append hi, List.lookup_append, lookup_eq_none h (Nat.le_refl i)]
  congr 1
  · refine List.map_congr_left fun k hk => hsame k ?_
    exact (List.mem_range.mp hk).ne
  · congr 1
    · simp [List.lookup]
    · rw [List.eq_replicate_iff, List.length_map, List.length_range']
      refine ⟨rfl, fun slot hslot => ?_⟩
      obtain ⟨k, hk, rfl⟩ := List.mem_map.mp hslot
      rw [List.mem_range'_1] at hk
      rw [hsame k (by omega), lookup_eq_none h (by omega)]

end

section

variable {n : ℕ} {isFixed : Bool} {levels : List Level}

theorem length_expand (slot : Option (result.Visits V (.dense n isFixed :: levels))) : (expand slot).length = n :=
  length_slotsOf n _

theorem length_flatMap_expand (slots : List (Option (result.Visits V (.dense n isFixed :: levels)))) :
    (slots.flatMap expand).length = slots.length * n := by
  simp [List.length_flatMap, length_expand]

theorem expand_none : expand (none : Option (result.Visits V (.dense n isFixed :: levels))) = List.replicate n none :=
  slotsOf_nil n

theorem flatMap_expand_replicate (k : ℕ) :
    (List.replicate k (none : Option (result.Visits V (.dense n isFixed :: levels)))).flatMap expand =
      List.replicate (k * n) none := by
  rw [List.flatMap_replicate, expand_none, List.flatten_replicate_replicate]

theorem slice_none : slice (none : Option (result.Visits V (.compressed n :: levels))) = [] := rfl

theorem map_slice_replicate (k : ℕ) :
    (List.replicate k (none : Option (result.Visits V (.compressed n :: levels)))).map slice = List.replicate k [] :=
  List.map_replicate

theorem keptVisits_eq_nil {visits : result.Visits V (.compressed n :: levels)} :
    keptVisits levels visits.val = [] ↔ kept (.compressed n :: levels) visits = false := by
  rw [keptVisits, List.filter_eq_nil_iff, kept, List.any_eq_false]

end

/-! ### Initialization -/

section

variable [Zero V] [Add V] {computes : Bool} {parent : Parent} {n : ℕ}

/-- A level without coordinates. -/
theorem LevelArrays.hold_replicate {a : LevelArrays} {edges : List ℕ → List ℕ} {k : ℕ} {X : Type}
    (hpos : a.posArray.Holds Eq (edges (List.replicate k 0))) (hvar : a.posVar = 0) (hroom : 0 < a.crdArray.capacity) :
    a.Hold edges (List.replicate k ([] : List (ℕ × X))) := by
  refine ⟨?_, ?_, ?_, hroom⟩
  · rwa [List.map_replicate, List.length_nil]
  · rw [List.flatten_replicate_nil]
    exact Growable.holds_nil _ _
  · rw [List.flatten_replicate_nil]
    exact hvar

omit [Zero V] [Add V] in
theorem getAppendInitLevel_hold (hroom : 0 < result.allocSize) (a : LevelArrays) {parentSize : Size}
    (h : parent = .insert ∨ parentSize = .literal 0) (X : Type) :
    ∃ a', getAppendInitLevel result parent parentSize a = some a' ∧
      { a' with posVar := 0 }.Hold (Phase.edges .building parent) (List.replicate parentSize.value ([] : List (ℕ × X))) := by
  by_cases hzero : parentSize = .literal 0
  · subst hzero
    obtain ⟨posArray, hstore, hholds, -⟩ := (Growable.holds_nil Eq (a.posArray.resize result.allocSize)).push hroom (Eq.refl 0)
    rw [List.length_nil] at hstore
    refine ⟨{ a with posArray := posArray, crdArray := a.crdArray.resize result.allocSize }, ?_,
      LevelArrays.hold_replicate ?_ rfl hroom⟩
    · simp [getAppendInitLevel, hstore]
    · cases parent <;> exact hholds
  · obtain rfl := h.resolve_right hzero
    obtain ⟨posArray, hstore, hholds, hcapacity⟩ :=
      (Growable.holds_nil Eq (a.posArray.resize (parentSize.value + 1))).push (Nat.succ_pos _) (Eq.refl 0)
    obtain ⟨posArray', hfill, hholds', -⟩ := hholds.fill (n := parentSize.value)
      (by rw [hcapacity]; exact (Nat.add_comm _ _).le) (Eq.refl 0)
    rw [List.length_nil] at hstore
    refine ⟨{ a with posArray := posArray', crdArray := a.crdArray.resize result.allocSize }, ?_,
      LevelArrays.hold_replicate hholds' rfl hroom⟩
    have hfill' : posArray.fill 0 1 parentSize.value = some posArray' := hfill
    simp [getAppendInitLevel, hzero, hstore, hfill']

theorem initLevels_values (result : Result) (values : Growable V) {parentSize : Size}
    (h : parent = .insert ∨ parent = .append ∧ parentSize = .literal 0) :
    ∃ values' : Growable V, initLevels result true parent parentSize [] values = some values' ∧
      values'.Holds result.IsValue (List.replicate parentSize.value none) ∧ (parent = .append → 0 < values'.capacity) := by
  by_cases hzero : parentSize = .literal 0
  · subst hzero
    exact ⟨values.resize defaultAllocSize, by simp [initLevels], Growable.holds_nil _ _, fun _ => Nat.two_pow_pos 20⟩
  · obtain rfl : parent = .insert := h.resolve_right fun h => hzero h.2
    have hholds := Growable.holds_nil result.IsValue (values.resize parentSize.value)
    by_cases hzeroes : result.zeroes = true
    · obtain ⟨values', hfill, hholds, -⟩ := hholds.fill (n := parentSize.value) (b := none) (x := 0) (by simp [Growable.resize])
        fun _ => rfl
      refine ⟨values', ?_, hholds, fun h => by cases h⟩
      simpa [initLevels, hzero, hzeroes] using hfill
    · exact ⟨values.resize parentSize.value, by simp [initLevels, hzero, hzeroes],
        hholds.append_replicate (by simp [Growable.resize]) fun y h => absurd h hzeroes, fun h => by cases h⟩

/-- Nothing is visited yet. -/
theorem initLevels_represents (hroom : 0 < result.allocSize) (parent : Parent) (parentSize : Size) (levels : List Level)
    (arrays : Arrays V levels) (h : parent = .insert ∨ parent = .append ∧ parentSize = .literal 0) :
    ∃ arrays', initLevels result computes parent parentSize levels arrays = some arrays' ∧
      Represents computes .building parent levels arrays'
        (List.replicate parentSize.value (none : Option (result.Visits V levels))) := by
  induction levels generalizing parent parentSize with
  | nil =>
    cases computes with
    | false => exact ⟨arrays, rfl, represents_building_nil.mpr Bool.false_ne_true.elim⟩
    | true =>
      obtain ⟨values, hinit, hholds, hroom⟩ := initLevels_values result arrays h
      refine ⟨values, hinit, represents_building_nil.mpr fun _ => ⟨?_, fun _ => hroom⟩⟩
      rw [List.map_replicate]
      exact hholds
  | cons level levels ih =>
    cases level with
    | dense n isFixed =>
      obtain ⟨arrays', hinit, hrep⟩ := ih .insert (parentSize.mul (getWidth n isFixed)) arrays (Or.inl rfl)
      refine ⟨arrays', hinit, ?_⟩
      rw [represents_dense, flatMap_expand_replicate]
      simpa using hrep
    | compressed n =>
      obtain ⟨a, below⟩ := arrays
      obtain ⟨a', hlevel, hhold⟩ := getAppendInitLevel_hold hroom a (h.imp_right And.right) (result.Visits V levels)
      obtain ⟨below', hbelow, hrep⟩ := ih .append (.literal 0) below (Or.inr ⟨rfl, rfl⟩)
      refine ⟨({ a' with posVar := 0 }, below'), by rw [initLevels]; simp [hlevel, hbelow], ?_⟩
      rw [represents_compressed, map_slice_replicate, List.flatten_replicate_nil]
      exact ⟨hhold, hrep⟩

end

/-! ### Initialization below a position -/

section

variable [Zero V] [Add V] {computes : Bool} {parent : Parent} {n : ℕ}

/-- More slices that are empty. -/
theorem LevelArrays.Hold.append_replicate {a : LevelArrays} {edges edges' : List ℕ → List ℕ} {X : Type}
    {slices : List (List (ℕ × X))} (h : a.Hold edges slices) {k : ℕ} {posArray : Growable ℕ}
    (hpos : posArray.Holds Eq (edges' (slices.map List.length ++ List.replicate k 0))) :
    { a with posArray := posArray }.Hold edges' (slices ++ List.replicate k []) := by
  have hflatten : (slices ++ List.replicate k []).flatten = slices.flatten := by
    rw [List.flatten_append, List.flatten_replicate_nil, List.append_nil]
  refine ⟨?_, ?_, ?_, h.room⟩
  · rwa [List.map_append, List.map_replicate, List.length_nil]
  · rw [hflatten]
    exact h.crdArray
  · rw [hflatten]
    exact h.posVar

omit [Zero V] [Add V] in
/-- The entries for the positions of an insert level are zero first. -/
theorem getAppendInitEdges_insert {a : LevelArrays} {X : Type} {slices : List (List (ℕ × X))}
    (h : a.Hold (Phase.edges .building .insert) slices) {p : ℕ} {stride : Size} (hlength : slices.length = p * stride.value) :
    ∃ a', getAppendInitEdges .insert ((Size.computed p).mul stride) ((p + 1) * stride.value) a = some a' ∧
      a'.Hold (Phase.edges .building .insert) (slices ++ List.replicate stride.value []) := by
  by_cases hstride : stride = .literal 0
  · subst hstride
    refine ⟨a, rfl, ?_⟩
    simpa [Size.value] using h
  · have hbegin : (Size.computed p).mul stride = .computed (p * stride.value) := by
      cases stride with
      | literal n => rw [Size.mul, if_neg fun hn => hstride (congrArg Size.literal hn), Size.value]
      | computed n => rfl
    have hpos := holds_atLeastDoubleSizeIfFull h.posArray ((p + 1) * stride.value)
    have hcapacity := lt_capacity_atLeastDoubleSizeIfFull a.posArray ((p + 1) * stride.value)
    have hnext : (p + 1) * stride.value = p * stride.value + stride.value := Nat.succ_mul p _
    obtain ⟨posArray, hfill, hholds, -⟩ := hpos.fill (n := stride.value) (by
      rw [Phase.edges, List.length_cons, List.length_map, hlength]
      omega) (Eq.refl 0)
    refine ⟨{ a with posArray := posArray }, ?_, h.append_replicate hholds⟩
    rw [Phase.edges, List.length_cons, List.length_map, hlength] at hfill
    rw [hbegin, getAppendInitEdges, if_neg (not_not.mpr rfl),
      show (p + 1) * stride.value - p * stride.value = stride.value by omega, hfill]
    rfl

theorem initLevelsBelow_values {values : Growable V} {l : List (Option (List V))} (h : values.Holds result.IsValue l) {p : ℕ}
    {stride : Size} (hlength : l.length = p * stride.value) :
    ∃ values' : Growable V, initLevelsBelow result true .append (.computed p) .insert stride [] values = some values' ∧
      values'.Holds result.IsValue (l ++ List.replicate stride.value none) := by
  have hgrown := holds_atLeastDoubleSizeIfFull h ((p + 1) * stride.value)
  have hcapacity := lt_capacity_atLeastDoubleSizeIfFull values ((p + 1) * stride.value)
  have hfits : l.length + stride.value ≤ (atLeastDoubleSizeIfFull values ((p + 1) * stride.value)).capacity := by
    rw [hlength, ← Nat.succ_mul]
    exact hcapacity.le
  by_cases hzeroes : result.zeroes = true
  · obtain ⟨values', hfill, hholds, -⟩ := hgrown.fill hfits (b := none) (x := 0) fun _ => rfl
    rw [hlength] at hfill
    exact ⟨values', by simpa [initLevelsBelow, hzeroes] using hfill, hholds⟩
  · exact ⟨_, by simp [initLevelsBelow, hzeroes], hgrown.append_replicate hfits fun y h => absurd h hzeroes⟩

/-- The positions below one more position of an append level are not visited yet. -/
theorem initLevelsBelow_represents (levels : List Level) {arrays : Arrays V levels} {p : ℕ} (stride : Size)
    {slots : List (Option (result.Visits V levels))} (h : Represents computes .building .insert levels arrays slots)
    (hlength : slots.length = p * stride.value) :
    ∃ arrays', initLevelsBelow result computes .append (.computed p) .insert stride levels arrays = some arrays' ∧
      Represents computes .building .insert levels arrays' (slots ++ List.replicate stride.value none) := by
  induction levels generalizing stride with
  | nil =>
    cases computes with
    | false => exact ⟨arrays, rfl, represents_building_nil.mpr Bool.false_ne_true.elim⟩
    | true =>
      obtain ⟨values', hinit, hholds⟩ := initLevelsBelow_values (represents_building_nil.mp h rfl).holds
        (by rw [List.length_map, hlength])
      refine ⟨values', hinit, represents_building_nil.mpr fun _ => ⟨?_, fun _ h => by cases h⟩⟩
      rw [List.map_append, List.map_replicate]
      exact hholds
  | cons level levels ih =>
    cases level with
    | dense n isFixed =>
      rw [represents_dense] at h
      obtain ⟨arrays', hinit, hrep⟩ := ih (stride.mul (getWidth n isFixed)) h (by
        rw [length_flatMap_expand, hlength]
        simp [mul_assoc])
      refine ⟨arrays', hinit, ?_⟩
      rw [represents_dense, List.flatMap_append, flatMap_expand_replicate]
      simpa using hrep
    | compressed n =>
      obtain ⟨a, below⟩ := arrays
      rw [represents_compressed] at h
      obtain ⟨a', hedges, hhold⟩ := getAppendInitEdges_insert h.1 (by rw [List.length_map, hlength])
      refine ⟨(a', below), by rw [initLevelsBelow]; simp [hedges], ?_⟩
      rw [represents_compressed, List.map_append, map_slice_replicate, List.flatten_append, List.flatten_replicate_nil,
        List.append_nil]
      exact ⟨hhold, h.2⟩

end

/-! ### Values -/

section

variable [Zero V] [Add V]

theorem Result.valueOf_concat (assigned : List V) (x : V) :
    result.valueOf (assigned ++ [x]) = if result.reduced then result.valueOf assigned + x else x := by
  rw [valueOf, List.foldl_append]
  rfl

/-- Assignments to one value, after others. -/
theorem foldlM_assign (assigned : List V) {values : Growable V} {l r : List (Option (List V))} {before : List V}
    (h : values.Holds result.IsValue (l ++ some before :: r)) :
    ∃ values', assigned.foldlM (assign result l.length) values = some values' ∧
      values'.Holds result.IsValue (l ++ some (before ++ assigned) :: r) ∧ values'.capacity = values.capacity := by
  induction assigned generalizing values before with
  | nil => exact ⟨values, rfl, by rwa [List.append_nil], rfl⟩
  | cons x assigned ih =>
    have hvalue : result.IsValue (some (before ++ [x])) (if result.reduced then values.data l.length + x else x) := by
      intro _
      have hold := h.stored l.length (some before) (by simp)
      rw [Result.valueOf_concat]
      split
      case isTrue hreduced => rw [hold fun _ => hreduced]
      case isFalse => rfl
    obtain ⟨values₁, hstore, hholds, hcapacity⟩ := h.set hvalue
    obtain ⟨values₂, hassign, hholds', hcapacity'⟩ := ih hholds
    refine ⟨values₂, ?_, ?_, hcapacity'.trans hcapacity⟩
    · rw [List.foldlM_cons, assign, hstore]
      exact hassign
    · rwa [List.append_assoc, List.singleton_append] at hholds'

end

/-! ### Loops -/

section

variable [Zero V] [Add V] {computes : Bool}

/-- A visit of a position of an insert level, behind which nothing is visited. -/
def InsertsAt (result : Result) (computes : Bool) (levels : List Level) : Prop :=
  ∀ (visits : result.Visits V levels) (arrays : Arrays V levels) (slots : List (Option (result.Visits V levels))) (k p : ℕ),
    Represents computes .building .insert levels arrays (slots ++ none :: List.replicate k none) → p = slots.length →
      ∃ arrays', lowerForall result computes .insert (.computed p) levels visits arrays = some arrays' ∧
        Represents computes .building .insert levels arrays' (slots ++ some visits :: List.replicate k none)

/-- A visit of the next position of an append level. -/
def AppendsTo (result : Result) (computes : Bool) (levels : List Level) : Prop :=
  ∀ (visits : result.Visits V levels) (arrays : Arrays V levels) (slots : List (Option (result.Visits V levels))) (p : ℕ),
    Represents computes .building .append levels arrays slots → p = slots.length →
      ∃ below, resizeAndInitValues result computes levels p arrays = some below ∧
        ∃ arrays', lowerForall result computes .append (.computed p) levels visits below = some arrays' ∧
          Represents computes .building .append levels arrays' (slots ++ [some visits]) ∧
            shouldAppend levels below arrays' = kept levels visits

theorem insertsAt_nil : InsertsAt (V := V) result computes [] := by
  intro visits values slots k p h hp
  cases computes with
  | false => exact ⟨values, rfl, represents_building_nil.mpr Bool.false_ne_true.elim⟩
  | true =>
    have hholds := (represents_building_nil.mp h rfl).holds
    rw [List.map_append, List.map_cons, List.map_replicate, Option.map_none] at hholds
    have hstart : values.Holds result.IsValue
        (slots.map (Option.map assignedOf) ++ some [] :: List.replicate k none) :=
      hholds.change fun hnone hreduced => hnone (by rw [Result.zeroes, hreduced rfl, Bool.or_true])
    obtain ⟨values', hassign, hholds', -⟩ := foldlM_assign visits.val hstart
    rw [List.length_map, ← hp] at hassign
    refine ⟨values', hassign, represents_building_nil.mpr fun _ => ⟨?_, fun _ h => by cases h⟩⟩
    rw [List.map_append, List.map_cons, List.map_replicate]
    exact hholds'

theorem appendsTo_nil : AppendsTo (V := V) result computes [] := by
  intro visits values slots p h hp
  cases computes with
  | false => exact ⟨values, rfl, values, rfl, represents_building_nil.mpr Bool.false_ne_true.elim, rfl⟩
  | true =>
    obtain ⟨hholds, hroom⟩ := represents_building_nil.mp h rfl
    have hlength : (slots.map (Option.map assignedOf)).length = p := by rw [List.length_map, hp]
    have hgrown := holds_doubleSizeIfFull hholds p
    have hlt := lt_capacity_doubleSizeIfFull (hroom rfl rfl) (hlength ▸ hholds.fits)
    -- where the result is not added to, what the value was does not matter
    obtain ⟨below, hinit, hstart, hcapacity⟩ : ∃ below : Growable V, resizeAndInitValues result true [] p values = some below ∧
        below.Holds result.IsValue (slots.map (Option.map assignedOf) ++ [some []]) ∧ 0 < below.capacity := by
      by_cases hreduced : result.reduced = true
      · obtain ⟨below, hstore, hstart, hcapacity⟩ := hgrown.push (hlength.trans_lt hlt) (b := some []) (x := 0) fun _ => rfl
        rw [hlength] at hstore
        exact ⟨below, by simpa [resizeAndInitValues, hreduced] using hstore, hstart, hcapacity ▸ Nat.zero_lt_of_lt hlt⟩
      · exact ⟨doubleSizeIfFull values p, by simp [resizeAndInitValues, hreduced],
          hgrown.append_replicate (n := 1) (hlength ▸ hlt) fun y h => absurd (h rfl) hreduced, Nat.zero_lt_of_lt hlt⟩
    obtain ⟨values', hassign, hholds', hcapacity'⟩ := foldlM_assign visits.val hstart
    rw [hlength] at hassign
    refine ⟨below, hinit, values', hassign, represents_building_nil.mpr fun _ => ⟨?_, fun _ _ => hcapacity' ▸ hcapacity⟩, rfl⟩
    rw [List.map_append]
    exact hholds'

omit [Zero V] [Add V] in
theorem append_replicate_none {X : Type} (l₁ l₂ : List (Option X)) (slot : Option X) (m k : ℕ) :
    l₁ ++ (l₂ ++ slot :: List.replicate m none) ++ List.replicate k none = l₁ ++ l₂ ++ slot :: List.replicate (m + k) none := by
  rw [List.replicate_add, List.append_assoc, List.append_assoc, List.append_assoc, List.cons_append]

/-- The positions below one of a dense level are visited in order. -/
theorem lowerInsertLoop_represents {levels : List Level} (hins : InsertsAt (V := V) result computes levels) {n q k : ℕ}
    {slots : List (Option (result.Visits V levels))} (hlength : slots.length = q * n)
    (done visits : List (ℕ × result.Visits V levels)) {arrays : Arrays V levels}
    (hsorted : ((done ++ visits).map Prod.fst).Pairwise (· < ·)) (hlt : ∀ i ∈ visits.map Prod.fst, i < n)
    (h : Represents computes .building .insert levels arrays (slots ++ slotsOf n done ++ List.replicate k none)) :
    ∃ arrays', lowerInsertLoop result levels (fun pos => lowerForall result computes .insert pos levels) q n visits arrays =
        some arrays' ∧
      Represents computes .building .insert levels arrays' (slots ++ slotsOf n (done ++ visits) ++ List.replicate k none) := by
  induction visits generalizing done arrays with
  | nil => exact ⟨arrays, rfl, by rwa [List.append_nil]⟩
  | cons visit visits ih =>
    obtain ⟨i, w⟩ := visit
    have hi : i < n := hlt i List.mem_cons_self
    have hdone := lt_of_sorted hsorted
    rw [slotsOf_before hi hdone, append_replicate_none] at h
    obtain ⟨arrays₁, hlower, hrep⟩ := hins w arrays (slots ++ slotsOf i done) (n - i - 1 + k) (q * n + i) h
      (by rw [List.length_append, hlength, length_slotsOf])
    obtain ⟨arrays₂, hloop, hrep'⟩ := ih (done ++ [(i, w)]) (by simpa using hsorted)
      (fun j hj => hlt j (List.mem_cons_of_mem _ hj)) (by
        rw [slotsOf_after hi hdone, append_replicate_none]
        exact hrep)
    refine ⟨arrays₂, ?_, by simpa using hrep'⟩
    rw [lowerInsertLoop, List.foldlM_cons, hlower]
    exact hloop

section Dense

variable {n : ℕ} {isFixed : Bool} {levels : List Level}

theorem insertsAt_dense (hins : InsertsAt (V := V) result computes levels) :
    InsertsAt (V := V) result computes (.dense n isFixed :: levels) := by
  intro visits arrays slots k p h hp
  rw [represents_dense, List.flatMap_append, List.flatMap_cons, flatMap_expand_replicate, ← List.append_assoc] at h
  obtain ⟨arrays', hloop, hrep⟩ := lowerInsertLoop_represents hins (n := n) (q := p)
    (by rw [length_flatMap_expand, ← hp]) [] visits.val visits.property.1 visits.property.2 h
  refine ⟨arrays', hloop, ?_⟩
  rw [represents_dense, List.flatMap_append, List.flatMap_cons, flatMap_expand_replicate, ← List.append_assoc]
  exact hrep

theorem appendsTo_dense (hins : InsertsAt (V := V) result computes levels) :
    AppendsTo (V := V) result computes (.dense n isFixed :: levels) := by
  intro visits arrays slots p h hp
  rw [represents_dense] at h
  obtain ⟨arrays₁, hinit, hrep⟩ := initLevelsBelow_represents levels (p := p)
    ((Size.literal 1).mul (getWidth n isFixed)) h (by rw [length_flatMap_expand, ← hp]; simp)
  have hstart : Represents computes .building .insert levels arrays₁
      (slots.flatMap expand ++ slotsOf n [] ++ List.replicate 0 none) := by
    rw [slotsOf_nil, List.replicate_zero, List.append_nil]
    simpa using hrep
  obtain ⟨arrays', hloop, hrep'⟩ := lowerInsertLoop_represents hins (n := n) (q := p)
    (by rw [length_flatMap_expand, ← hp]) [] visits.val visits.property.1 visits.property.2 hstart
  refine ⟨arrays, rfl, arrays', ?_, ?_, rfl⟩
  · have hinit' : initResultArrays result computes .append (.computed p) (.dense n isFixed :: levels) arrays = some arrays₁ := hinit
    rw [lowerForall, hinit']
    exact hloop
  · rw [represents_dense, List.flatMap_append, List.flatMap_singleton]
    rw [List.replicate_zero, List.append_nil] at hrep'
    exact hrep'

end Dense

section Compressed

variable {n : ℕ} {levels : List Level}

/-- The coordinates and the levels below them after some visits were appended. -/
structure Appended (computes : Bool) (levels : List Level) (state : LevelArrays × Arrays V levels)
    (appended : List (ℕ × result.Visits V levels)) : Prop where
  crdArray : state.1.crdArray.Holds Eq (appended.map Prod.fst)
  posVar : state.1.posVar = appended.length
  room : 0 < state.1.crdArray.capacity
  below : Represents computes .building .append levels state.2 (appended.map fun visit => some visit.2)

/-- An empty slice that is not kept leaves no trace. -/
theorem represents_of_not_kept {arrays : Arrays V levels} {slots : List (Option (result.Visits V levels))}
    {visits : result.Visits V levels} (h : Represents computes .building .append levels arrays (slots ++ [some visits]))
    (hkept : kept levels visits = false) : Represents computes .building .append levels arrays slots := by
  cases levels with
  | nil => cases hkept
  | cons level levels =>
    cases level with
    | dense n isFixed => cases hkept
    | compressed n =>
      obtain ⟨a, arrays⟩ := arrays
      have hempty : slice (some visits) = [] := keptVisits_eq_nil.mpr hkept
      rw [represents_compressed, List.map_append, List.map_singleton, hempty, List.flatten_append, List.flatten_singleton,
        List.append_nil] at h
      obtain ⟨hhold, hbelow⟩ := h
      have hpos := hhold.posArray
      rw [List.map_append, Phase.edges, List.partialSums_append] at hpos
      have hflatten : (slots.map slice ++ [([] : List (ℕ × result.Visits V levels))]).flatten = (slots.map slice).flatten := by
        rw [List.flatten_append, List.flatten_singleton, List.append_nil]
      refine ⟨⟨hpos.left, ?_, ?_, hhold.room⟩, hbelow⟩
      · rw [← hflatten]
        exact hhold.crdArray
      · rw [← hflatten]
        exact hhold.posVar

theorem lowerForallBody_appended (happ : AppendsTo (V := V) result computes levels) {state : LevelArrays × Arrays V levels}
    {appended : List (ℕ × result.Visits V levels)} (h : Appended computes levels state appended)
    (visit : ℕ × result.Visits V levels) :
    ∃ state', lowerForallBody result computes levels (fun pos => lowerForall result computes .append pos levels) state visit =
        some state' ∧
      state'.1.posArray = state.1.posArray ∧ Appended computes levels state' (appended ++ keptVisits levels [visit]) := by
  obtain ⟨a, arrays⟩ := state
  obtain ⟨i, w⟩ := visit
  obtain ⟨below, hresize, arrays', hlower, hrep, hshould⟩ :=
    happ w arrays _ a.posVar h.below (by rw [List.length_map]; exact h.posVar)
  have hlength : (appended.map Prod.fst).length = a.posVar := by rw [List.length_map, h.posVar]
  -- the coordinate is appended unless the slice below it stayed empty
  by_cases hkept : kept levels w = true
  · have hlt : a.posVar < (doubleSizeIfFull a.crdArray a.posVar).capacity :=
      lt_capacity_doubleSizeIfFull h.room (hlength ▸ h.crdArray.fits)
    obtain ⟨crdArray, hstore, hholds, hcapacity⟩ :=
      (holds_doubleSizeIfFull h.crdArray a.posVar).push (hlength.trans_lt hlt) (Eq.refl i)
    have hvisit : keptVisits levels [(i, w)] = [(i, w)] := by simp [keptVisits, hkept]
    rw [hlength] at hstore
    refine ⟨({ a with crdArray := crdArray, posVar := a.posVar + 1 }, arrays'), ?_, rfl, ?_⟩
    · simp [lowerForallBody, hresize, hlower, appendCoordinate, hshould, hkept, getAppendCoord, hstore]
    · rw [hvisit]
      refine ⟨?_, ?_, hcapacity ▸ Nat.zero_lt_of_lt hlt, ?_⟩
      · rw [List.map_append]
        exact hholds
      · rw [List.length_append, ← h.posVar]
        rfl
      · rw [List.map_append]
        exact hrep
  · have hvisit : keptVisits levels [(i, w)] = [] := by simp [keptVisits, hkept]
    refine ⟨(a, arrays'), ?_, rfl, ?_⟩
    · simp [lowerForallBody, hresize, hlower, appendCoordinate, hshould, hkept]
    · rw [hvisit, List.append_nil]
      exact ⟨h.crdArray, h.posVar, h.room, represents_of_not_kept hrep (Bool.eq_false_iff.mpr hkept)⟩

/-- A loop appends what it visits, except for empty slices. -/
theorem foldlM_appended (happ : AppendsTo (V := V) result computes levels) (visits : List (ℕ × result.Visits V levels))
    {state : LevelArrays × Arrays V levels} {appended : List (ℕ × result.Visits V levels)}
    (h : Appended computes levels state appended) :
    ∃ state', visits.foldlM (lowerForallBody result computes levels fun pos => lowerForall result computes .append pos levels) state =
        some state' ∧
      state'.1.posArray = state.1.posArray ∧ Appended computes levels state' (appended ++ keptVisits levels visits) := by
  induction visits generalizing state appended with
  | nil => exact ⟨state, rfl, rfl, by rwa [keptVisits, List.filter_nil, List.append_nil]⟩
  | cons visit visits ih =>
    obtain ⟨state₁, hbody, hpos, hstep⟩ := lowerForallBody_appended happ h visit
    obtain ⟨state₂, hloop, hpos', hrun⟩ := ih hstep
    refine ⟨state₂, ?_, hpos'.trans hpos, ?_⟩
    · rw [List.foldlM_cons, hbody]
      exact hloop
    · rw [List.append_assoc, keptVisits, keptVisits, ← List.filter_append, List.singleton_append] at hrun
      exact hrun

/-- The slice of one more position, from the loop over it. -/
theorem lowerAppendLoop_represents (happ : AppendsTo (V := V) result computes levels) (parent : Parent) {a : LevelArrays}
    {arrays : Arrays V levels} {before after : List (List (ℕ × result.Visits V levels))} (hafter : after.flatten = [])
    (hhold : Appended computes levels (a, arrays) before.flatten) (visits : List (ℕ × result.Visits V levels)) {p : ℕ}
    (hedge : ∀ pEnd, pEnd = before.flatten.length + (keptVisits levels visits).length →
      ∃ posArray, a.posArray.store (p + 1) (if parent ≠ .insert then pEnd else pEnd - before.flatten.length) = some posArray ∧
        posArray.Holds Eq (Phase.edges .building parent ((before ++ keptVisits levels visits :: after).map List.length))) :
    ∃ state', lowerAppendLoop result computes levels (fun pos => lowerForall result computes .append pos levels) parent p visits
        (a, arrays) = some state' ∧ state'.1.posVar = before.flatten.length + (keptVisits levels visits).length ∧
      state'.1.Hold (Phase.edges .building parent) (before ++ keptVisits levels visits :: after) ∧
        Represents computes .building .append levels state'.2
          ((before ++ keptVisits levels visits :: after).flatten.map fun visit => some visit.2) := by
  obtain ⟨⟨a', arrays'⟩, hloop, hpos, happended⟩ := foldlM_appended happ visits hhold
  have hend : a'.posVar = before.flatten.length + (keptVisits levels visits).length := by
    rw [happended.posVar, List.length_append]
  have hflatten : (before ++ keptVisits levels visits :: after).flatten = before.flatten ++ keptVisits levels visits := by
    rw [List.flatten_append, List.flatten_cons, hafter, List.append_nil]
  obtain ⟨posArray, hstore, hholds⟩ := hedge a'.posVar hend
  rw [← hhold.posVar] at hstore
  refine ⟨({ a' with posArray := posArray }, arrays'), ?_, hend, ⟨hholds, ?_, ?_, happended.room⟩, ?_⟩
  · dsimp only at hpos
    simp only [lowerAppendLoop, hloop, getAppendEdges, hpos, hstore, Option.bind_eq_bind, Option.bind_some, Option.pure_def]
  · rw [hflatten]
    exact happended.crdArray
  · rw [hflatten]
    exact happended.posVar
  · rw [hflatten]
    exact happended.below

theorem insertsAt_compressed (happ : AppendsTo (V := V) result computes levels) :
    InsertsAt (V := V) result computes (.compressed n :: levels) := by
  intro visits arrays slots k p h hp
  obtain ⟨a, arrays⟩ := arrays
  rw [represents_compressed, List.map_append, List.map_cons, map_slice_replicate, slice_none] at h
  obtain ⟨hhold, hbelow⟩ := h
  have hafter : (List.replicate k ([] : List (ℕ × result.Visits V levels))).flatten = [] := List.flatten_replicate_nil
  have hflatten : (slots.map slice ++ [] :: List.replicate k []).flatten = (slots.map slice).flatten := by
    rw [List.flatten_append, List.flatten_cons, hafter, List.append_nil, List.append_nil]
  have hpos := hhold.posArray
  rw [Phase.edges, List.map_append, List.map_cons, List.length_nil, ← List.cons_append] at hpos
  obtain ⟨state', hloop, -, hhold', hbelow'⟩ := lowerAppendLoop_represents happ .insert hafter
    ⟨hflatten ▸ hhold.crdArray, hflatten ▸ hhold.posVar, hhold.room, hflatten ▸ hbelow⟩ visits.val (p := p) fun pEnd hend => by
      obtain ⟨posArray, hstore, hholds, -⟩ := hpos.set (Eq.refl (keptVisits levels visits.val).length)
      refine ⟨posArray, ?_, ?_⟩
      · simpa [hend, hp] using hstore
      · simpa [Phase.edges] using hholds
  refine ⟨state', hloop, ?_⟩
  rw [represents_compressed, List.map_append, List.map_cons, map_slice_replicate]
  exact ⟨hhold', hbelow'⟩

/-- The next slice of a level whose position array has room for it. -/
theorem lowerAppendLoop_next (happ : AppendsTo (V := V) result computes levels) {parent : Parent} (hparent : parent ≠ .insert)
    {a : LevelArrays} {arrays : Arrays V levels} {slots : List (Option (result.Visits V (.compressed n :: levels)))}
    (h : Represents computes .building parent (.compressed n :: levels) (a, arrays) slots)
    (hroom : slots.length + 1 < a.posArray.capacity) (visits : result.Visits V (.compressed n :: levels)) :
    ∃ state', lowerAppendLoop result computes levels (fun pos => lowerForall result computes .append pos levels) parent
        slots.length visits.val (a, arrays) = some state' ∧
      state'.1.posVar = a.posVar + (keptVisits levels visits.val).length ∧
        Represents computes .building parent (.compressed n :: levels) state' (slots ++ [some visits]) := by
  obtain ⟨hhold, hbelow⟩ := represents_compressed.mp h
  have hedges : ∀ lengths, Phase.edges .building parent lengths = lengths.partialSums := by
    cases parent
    case insert => exact absurd rfl hparent
    all_goals exact fun _ => rfl
  obtain ⟨state', hloop, hend, hhold', hbelow'⟩ := lowerAppendLoop_represents happ parent List.flatten_nil
    ⟨hhold.crdArray, hhold.posVar, hhold.room, hbelow⟩ visits.val (p := slots.length) fun pEnd hend => by
      have hpos := hhold.posArray
      rw [hedges] at hpos
      have hlength : ((slots.map slice).map List.length).partialSums.length = slots.length + 1 := by simp
      obtain ⟨posArray, hstore, hholds, -⟩ := hpos.push (hlength.trans_lt hroom) (Eq.refl pEnd)
      rw [hlength] at hstore
      refine ⟨posArray, by rwa [if_pos hparent], ?_⟩
      have hsum : ((slots.map slice).map List.length).sum = (slots.map slice).flatten.length := List.length_flatten.symm
      rw [hedges, List.map_append, List.partialSums_append, hsum]
      simpa [List.partialSums, hend] using hholds
  refine ⟨state', hloop, hend.trans (by rw [hhold.posVar]), ?_⟩
  rw [represents_compressed, List.map_append]
  exact ⟨hhold', hbelow'⟩

theorem appendsTo_compressed (happ : AppendsTo (V := V) result computes levels) :
    AppendsTo (V := V) result computes (.compressed n :: levels) := by
  rintro visits ⟨a, arrays⟩ slots p h rfl
  obtain ⟨hhold, hbelow⟩ := represents_compressed.mp h
  have hlength : (Phase.edges .building .append ((slots.map slice).map List.length)).length = slots.length + 1 := by
    simp [Phase.edges]
  have hfits := hlength ▸ hhold.posArray.fits
  let grown : LevelArrays := { a with posArray := doubleSizeIfFull a.posArray (slots.length + 1) }
  have hgrown : Represents computes .building .append (.compressed n :: levels) (grown, arrays) slots :=
    ⟨⟨holds_doubleSizeIfFull hhold.posArray _, hhold.crdArray, hhold.posVar, hhold.room⟩, hbelow⟩
  obtain ⟨state', hloop, hend, hrep⟩ := lowerAppendLoop_next happ (by decide : Parent.append ≠ .insert) hgrown
    (lt_capacity_doubleSizeIfFull (Nat.zero_lt_of_lt hfits) hfits) visits
  have hinit : initResultArrays result computes .append (.computed slots.length) (.compressed n :: levels) (a, arrays) =
      some (grown, arrays) := by
    simp [initResultArrays, initLevelsBelow, getAppendInitEdges, Size.mul, grown]
  refine ⟨(a, arrays), rfl, state', ?_, hrep, ?_⟩
  · rw [lowerForall, hinit]
    exact hloop
  · have hkept : a.posVar < state'.1.posVar ↔ kept (.compressed n :: levels) visits = true := by
      rw [hend, ← Bool.not_eq_false, ← keptVisits_eq_nil, ← List.length_eq_zero_iff]
      show a.posVar < a.posVar + _ ↔ _
      omega
    exact Bool.eq_iff_iff.mpr (decide_eq_true_iff.trans hkept)

end Compressed

/-- The loops over the levels, by the levels below. -/
theorem lowerForall_represents (levels : List Level) :
    InsertsAt (V := V) result computes levels ∧ AppendsTo (V := V) result computes levels := by
  induction levels with
  | nil => exact ⟨insertsAt_nil, appendsTo_nil⟩
  | cons level levels ih =>
    cases level with
    | dense n isFixed => exact ⟨insertsAt_dense ih.1, appendsTo_dense ih.1⟩
    | compressed n => exact ⟨insertsAt_compressed ih.2, appendsTo_compressed ih.2⟩

end

end Assembly
end Taco
