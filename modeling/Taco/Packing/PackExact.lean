import Mathlib.Data.List.GetD
import Taco.Packing.Contents

/-! When packing sorted coordinates round-trips: when the sizes of the arrays are in their types. -/

namespace Taco
namespace Packing

variable {V : Type}

/-! ### Sizes of levels -/

theorem sizeWith_concat (levels : List Level) (level : Level) (n : ℕ) : sizeWith (levels ++ [level]) n =
    match level.modeFormat with
    | .dense => sizeWith levels n * level.dimension
    | .sparse => n := by
  unfold sizeWith denseSize
  cases hmode : level.modeFormat with
  | dense =>
    have hdense : level.isDense = true := by simp [Level.isDense, hmode]
    rw [List.rdropWhile_concat_pos _ _ _ hdense, List.rtakeWhile_concat_pos _ _ _ hdense]
    simp [Nat.mul_assoc]
  | sparse =>
    have hsparse : ¬ level.isDense = true := by simp [Level.isDense, hmode]
    rw [List.rdropWhile_concat_neg _ _ _ hsparse, List.rtakeWhile_concat_neg _ _ _ hsparse]
    simp

theorem toLongLong_eq {n : ℕ} : toLongLong n = if n < 2 ^ 63 then some (n : ℤ) else none := by
  unfold toLongLong
  split_ifs <;> first | rfl | omega

/-- What is allocated, if no size overflows. -/
theorem maxSize_eq_some {levels : List Level} {n : ℕ} {size : ℤ} : maxSize levels n = some size ↔
    (∀ k ≤ levels.length, sizeWith (levels.take k) n < 2 ^ 63) ∧ size = sizeWith levels n := by
  induction levels using List.reverseRecOn generalizing size with
  | nil =>
    have hone : sizeWith [] n = 1 := by simp [sizeWith, denseSize]
    simp [maxSize, hone, eq_comm]
  | append_singleton levels level ih =>
    have hconcat : maxSize (levels ++ [level]) n = (maxSize levels n).bind (growSize n · level) := by
      unfold maxSize
      rw [List.foldlM_append]
      simp
    have hstep : maxSize (levels ++ [level]) n = some size ↔
        (∃ m, maxSize levels n = some m) ∧ toLongLong (sizeWith (levels ++ [level]) n) = some size := by
      rw [hconcat]
      cases hlevels : maxSize levels n with
      | none => simp
      | some m =>
        obtain ⟨-, rfl⟩ := ih.mp hlevels
        rw [sizeWith_concat, Option.bind_some, growSize]
        cases hmode : level.modeFormat <;> simp
    rw [hstep, toLongLong_eq]
    have htake : (∀ k ≤ (levels ++ [level]).length, sizeWith ((levels ++ [level]).take k) n < 2 ^ 63) ↔
        (∀ k ≤ levels.length, sizeWith (levels.take k) n < 2 ^ 63) ∧ sizeWith (levels ++ [level]) n < 2 ^ 63 := by
      constructor
      · intro h
        refine ⟨fun k hk => ?_, ?_⟩
        · have := h k (by rw [List.length_append]; omega)
          rwa [List.take_append_of_le_length hk] at this
        · have := h _ le_rfl
          rwa [List.take_length] at this
      · rintro ⟨h, hlast⟩ k hk
        rcases hk.eq_or_lt with rfl | hlt
        · rwa [List.take_length]
        · rw [List.length_append, List.length_singleton] at hlt
          rw [List.take_append_of_le_length (by omega)]
          exact h k (by omega)
    rw [htake]
    split_ifs with hlast
    · constructor
      · rintro ⟨⟨m, hm⟩, hsize⟩
        exact ⟨⟨(ih.mp hm).1, hlast⟩, (Option.some.inj hsize).symm⟩
      · rintro ⟨⟨h, -⟩, rfl⟩
        exact ⟨⟨_, ih.mpr ⟨h, rfl⟩⟩, rfl⟩
    · exact iff_of_false (by simp) fun h => hlast h.1.2

theorem rdropWhile_cons {α : Type} (p : α → Bool) (a : α) (l : List α) : (a :: l).rdropWhile p =
    if l.rdropWhile p = [] then [a].rdropWhile p else a :: l.rdropWhile p := by
  unfold List.rdropWhile
  rw [List.reverse_cons, List.dropWhile_append]
  by_cases h : l.reverse.dropWhile p = []
  · simp [h]
  · simp [h]

theorem rtakeWhile_cons {α : Type} (p : α → Bool) (a : α) (l : List α) : (a :: l).rtakeWhile p =
    if l.rdropWhile p = [] then if p a then a :: l else l else l.rtakeWhile p := by
  have hall : l.rdropWhile p = [] ↔ ∀ x ∈ l.reverse, p x = true := by
    rw [List.rdropWhile_eq_nil_iff]
    simp
  unfold List.rtakeWhile
  rw [List.reverse_cons]
  by_cases h : l.rdropWhile p = []
  · rw [if_pos h, List.takeWhile_append_of_pos (hall.mp h)]
    by_cases ha : p a = true <;> simp [ha]
  · rw [if_neg h, List.takeWhile_append, if_neg]
    intro hlength
    refine h (hall.mpr fun x hx => ?_)
    have heq : l.reverse.takeWhile p = l.reverse := (List.takeWhile_prefix p).eq_of_length hlength
    rw [← heq] at hx
    exact List.mem_takeWhile_imp hx

/-- The size of levels below a first one. -/
theorem sizeWith_cons (level : Level) (levels : List Level) (n : ℕ) : sizeWith (level :: levels) n =
    if levels.rdropWhile Level.isDense = [] then
      (match level.modeFormat with
      | .dense => level.dimension
      | .sparse => n) * sizeWith levels n
    else sizeWith levels n := by
  unfold sizeWith denseSize
  rw [rdropWhile_cons, rtakeWhile_cons]
  by_cases h : levels.rdropWhile Level.isDense = []
  · rw [if_pos h, if_pos h, if_pos h, if_pos h]
    have hall : levels.rtakeWhile Level.isDense = levels := by
      rw [List.rtakeWhile_eq_self_iff]
      exact List.rdropWhile_eq_nil_iff.mp h
    rw [hall]
    cases hmode : level.modeFormat <;> simp [Level.isDense, hmode, List.rdropWhile]
  · rw [if_neg h, if_neg h, if_neg h, if_neg h, if_neg (by simp)]

theorem sizeWith_mono {levels : List Level} {n m : ℕ} (h : n ≤ m) : sizeWith levels n ≤ sizeWith levels m := by
  unfold sizeWith
  split
  · exact le_rfl
  · exact Nat.mul_le_mul_right _ h

/-! ### Counting beginnings -/

/-- The coordinates at a place, from a level on. -/
def row (coords : ℕ → ℕ → ℕ) (i m k : ℕ) : List ℕ := (List.range m).map fun l => coords (i + l) k

/-- The number of different coordinates at places, from a level on. -/
def rows (coords : ℕ → ℕ → ℕ) (i m : ℕ) (ks : List ℕ) : ℕ := (ks.map (row coords i m)).toFinset.card

section

variable {coords : ℕ → ℕ → ℕ} {i m : ℕ} {ks : List ℕ}

theorem row_succ (k : ℕ) : row coords i (m + 1) k = coords i k :: row coords (i + 1) m k := by
  unfold row
  rw [List.range_succ_eq_map, List.map_cons, List.map_map]
  refine congrArg₂ List.cons rfl (List.map_congr_left fun l _ => ?_)
  simp only [Function.comp_apply]
  rw [Nat.add_succ, Nat.succ_add]

/-- Coordinates are counted below each first one. -/
theorem rows_succ {js : List ℕ} (hjs : js.Nodup) (hmem : ∀ k ∈ ks, coords i k ∈ js) :
    rows coords i (m + 1) ks = (js.map fun j => rows coords (i + 1) m (placesOf coords i ks j)).sum := by
  have hmaps : ∀ r ∈ (ks.map (row coords i (m + 1))).toFinset, r.headD 0 ∈ js.toFinset := by
    intro r hr
    obtain ⟨k, hk, rfl⟩ := List.mem_map.mp (List.mem_toFinset.mp hr)
    rw [row_succ]
    exact List.mem_toFinset.mpr (hmem k hk)
  have hfiber : ∀ j, (ks.map (row coords i (m + 1))).toFinset.filter (fun r => r.headD 0 = j) =
      ((placesOf coords i ks j).map (row coords (i + 1) m)).toFinset.image (List.cons j) := by
    intro j
    ext r
    simp only [Finset.mem_filter, List.mem_toFinset, List.mem_map, Finset.mem_image, mem_placesOf]
    constructor
    · rintro ⟨⟨k, hk, rfl⟩, hj⟩
      rw [row_succ] at hj ⊢
      exact ⟨_, ⟨k, ⟨hk, hj⟩, rfl⟩, by rw [← show coords i k = j from hj]⟩
    · rintro ⟨_, ⟨k, ⟨hk, rfl⟩, rfl⟩, rfl⟩
      exact ⟨⟨k, hk, row_succ k⟩, rfl⟩
  rw [rows, Finset.card_eq_sum_card_fiberwise hmaps, ← List.sum_toFinset _ hjs]
  refine Finset.sum_congr rfl fun j _ => ?_
  rw [hfiber, Finset.card_image_of_injective _ List.cons_injective]
  rfl

theorem rows_zero (hne : ks ≠ []) : rows coords i 0 ks = 1 := by
  have heq : (ks.map (row coords i 0)).toFinset = {[]} := by
    ext r
    simp only [List.mem_toFinset, List.mem_map, Finset.mem_singleton]
    constructor
    · rintro ⟨k, -, rfl⟩
      rfl
    · rintro rfl
      obtain ⟨k, hk⟩ := List.exists_mem_of_ne_nil ks hne
      exact ⟨k, hk, rfl⟩
  rw [rows, heq, Finset.card_singleton]

theorem keys_nodup (level : Level) : (keys coords level i ks).Nodup := by
  unfold keys
  cases level.modeFormat with
  | dense => exact List.nodup_range
  | sparse => exact List.nodup_dedup _

theorem mem_keys_of_mem {level : Level} {levels : List Level} (hwithin : Within coords (level :: levels) i ks) :
    ∀ k ∈ ks, coords i k ∈ keys coords level i ks := fun k hk =>
  (mem_keys hwithin).mpr ⟨hwithin.head k hk, fun _ => ⟨k, hk, rfl⟩⟩

theorem length_keys (level : Level) (hmode : level.modeFormat = .sparse) :
    (keys coords level i ks).length = rows coords i 1 ks := by
  have hkeys : keys coords level i ks = (ks.map (coords i)).dedup := by
    unfold keys
    rw [hmode]
  rw [hkeys, rows_succ (List.nodup_dedup (ks.map (coords i))) fun k hk => List.mem_dedup.mpr (List.mem_map_of_mem hk)]
  rw [List.map_congr_left fun j hj => rows_zero fun hnil => ?_, List.map_const', List.sum_replicate, smul_eq_mul, Nat.mul_one]
  obtain ⟨k, hk, rfl⟩ := List.mem_map.mp (List.mem_dedup.mp hj)
  have hmem : k ∈ placesOf coords i ks (coords i k) := mem_placesOf.mpr ⟨hk, rfl⟩
  rw [hnil] at hmem
  cases hmem

variable [Zero V] {vals : ℕ → V}

theorem length_flatten_flatMap (js : List ℕ) (f : ℕ → List (List ℕ)) :
    (js.flatMap f).flatten.length = (js.map fun j => (f j).flatten.length).sum := by
  induction js with
  | nil => rfl
  | cons j js ih => rw [List.flatMap_cons, List.flatten_append, List.length_append, ih, List.map_cons, List.sum_cons]

/-- A compressed level has an entry for each beginning of coordinates. -/
theorem length_segments {levels : List Level} {l : ℕ} {level : Level} (hl : levels[l]? = some level)
    (hmode : level.modeFormat = .sparse) (hwithin : Within coords levels i ks) :
    ((packed coords vals levels i ks).segments (i + l)).flatten.length = rows coords i (l + 1) ks := by
  induction levels generalizing i l ks with
  | nil => cases hl
  | cons first levels ih =>
    rw [packed, Packed.append_segments]
    cases l with
    | zero =>
      cases hl
      have hown : (ownSegment level i (keys coords level i ks) : Packed V).segments i = [keys coords level i ks] := by
        unfold ownSegment
        rw [hmode]
        exact Packed.segment_self _ _
      rw [Nat.add_zero, hown, join_packed_segments, ← length_keys level hmode]
      simp
    | succ l =>
      have hown : (ownSegment first i (keys coords first i ks) : Packed V).segments (i + (l + 1)) = [] := by
        unfold ownSegment
        cases first.modeFormat with
        | dense => rfl
        | sparse => exact Packed.segment_of_ne (by omega) _
      rw [hown, List.nil_append, join_segments, rows_succ (keys_nodup first) (mem_keys_of_mem hwithin), List.flatMap_map,
        length_flatten_flatMap]
      refine congrArg List.sum (List.map_congr_left fun j _ => ?_)
      rw [← Nat.add_assoc, Nat.add_right_comm]
      exact ih hl (hwithin.next fun k hk => (mem_placesOf.mp hk).1)

/-- A dense level has no segments. -/
theorem segments_of_dense {levels : List Level} {l : ℕ} (h : ∀ level, levels[l]? = some level → level.modeFormat = .dense) :
    (packed coords vals levels i ks).segments (i + l) = [] := by
  induction levels generalizing i l ks with
  | nil => rfl
  | cons first levels ih =>
    rw [packed, Packed.append_segments]
    cases l with
    | zero => rw [Nat.add_zero, join_packed_segments, ownSegment, h first rfl]; rfl
    | succ l =>
      have hown : (ownSegment first i (keys coords first i ks) : Packed V).segments (i + (l + 1)) = [] := by
        unfold ownSegment
        cases first.modeFormat with
        | dense => rfl
        | sparse => exact Packed.segment_of_ne (by omega) _
      rw [hown, List.nil_append, join_segments, List.flatMap_map, List.flatMap_eq_nil_iff]
      intro j _
      rw [← Nat.add_assoc, Nat.add_right_comm]
      exact ih h

/-- The number of the values. -/
theorem length_values {levels : List Level} (hwithin : Within coords levels i ks) :
    (packed coords vals levels i ks).values.length =
      sizeWith levels (rows coords i (levels.rdropWhile Level.isDense).length ks) := by
  induction levels generalizing i ks with
  | nil => simp [packed, Packed.value, sizeWith, denseSize]
  | cons level levels ih =>
    have hown : (ownSegment level i (keys coords level i ks) : Packed V).values = [] := by
      unfold ownSegment
      cases level.modeFormat <;> rfl
    have hbelow : (packed coords vals (level :: levels) i ks).values.length = ((keys coords level i ks).map fun j =>
        sizeWith levels (rows coords (i + 1) (levels.rdropWhile Level.isDense).length (placesOf coords i ks j))).sum := by
      rw [packed, Packed.append_values, hown, List.nil_append, join_values, List.flatMap_map, List.length_flatMap]
      exact congrArg List.sum (List.map_congr_left fun j _ => ih (hwithin.next fun k hk => (mem_placesOf.mp hk).1))
    rw [hbelow, sizeWith_cons, rdropWhile_cons]
    by_cases h : levels.rdropWhile Level.isDense = []
    · have hsize : ∀ n, sizeWith levels n = denseSize levels := fun n => by rw [sizeWith, if_pos h, Nat.one_mul]
      rw [if_pos h, if_pos h]
      simp only [hsize]
      rw [List.map_const', List.sum_replicate, smul_eq_mul]
      cases hmode : level.modeFormat with
      | dense =>
        have hkeys : (keys coords level i ks).length = level.dimension := by
          unfold keys
          rw [hmode]
          exact List.length_range
        rw [hkeys]
      | sparse =>
        have hlast : [level].rdropWhile Level.isDense = [level] := by simp [List.rdropWhile, Level.isDense, hmode]
        rw [hlast, length_keys level hmode]
        rfl
    · have hsize : ∀ n, sizeWith levels n = n * denseSize levels := fun n => by rw [sizeWith, if_neg h]
      rw [if_neg h, if_neg h]
      simp only [hsize]
      rw [List.sum_map_mul_right, List.length_cons, rows_succ (keys_nodup level) (mem_keys_of_mem hwithin)]

end

/-! ### Types of positions -/

theorem IndexType.conv_eq_iff (type : IndexType) (n : ℕ) : type.conv n = n ↔ n < type.limit := by
  cases type <;> simp only [conv, IR.Datatype.wrapBits, signed, bits, limit, if_true, if_false, Bool.false_eq_true,
    Int.bmod_def] <;> norm_num <;> omega

theorem mem_ends_le {segments : List (List ℕ)} {n m : ℕ} (h : m ∈ ends n segments) : m ≤ n + segments.flatten.length := by
  induction segments generalizing n with
  | nil => cases h
  | cons crd segments ih =>
    rw [List.flatten_cons, List.length_append]
    rcases List.mem_cons.mp h with rfl | h
    · omega
    · have := ih h
      omega

/-- Positions that are in their types are stored as they are. -/
theorem holds_arrays {levels : List Level} {X : Packed V} (h : ∀ i level, levels[i]? = some level →
    level.modeFormat = .sparse → (X.segments i).flatten.length < level.coordinateTypePos.limit) :
    Holds ⟨arrays levels X, X.values⟩ levels X := by
  refine ⟨rfl, fun i level hlevel hmode => ?_⟩
  have hconv : ((ends 0 (X.segments i)).map fun n : ℕ => level.coordinateTypePos.conv n) =
      (ends 0 (X.segments i)).map Nat.cast := by
    refine List.map_congr_left fun n hn => (IndexType.conv_eq_iff _ n).mpr ?_
    have hle := mem_ends_le hn
    rw [Nat.zero_add] at hle
    exact hle.trans_lt (h i level hlevel hmode)
  simp [arrays, hlevel, levelIndex, hmode, hconv]

/-- The last position of a level is in its type if it is the number of the entries. -/
theorem lt_limit_of_getLast {level : Level} {segments : List (List ℕ)} (hmode : level.modeFormat = .sparse)
    (h : (levelIndex level segments).pos.getLast? = some ((levelIndex level segments).crd.length : ℤ)) :
    segments.flatten.length < level.coordinateTypePos.limit := by
  rw [← IndexType.conv_eq_iff]
  have hzero : level.coordinateTypePos.conv (0 : ℕ) = 0 := by
    unfold IndexType.conv
    exact IR.Datatype.wrapBits_zero _ _
  have hpos : (levelIndex level segments).pos = (0 :: ends 0 segments).map fun n : ℕ => level.coordinateTypePos.conv (n : ℤ) := by
    rw [List.map_cons, hzero]
    simp [levelIndex, hmode]
  rw [hpos, List.getLast?_map, ends_getLast, Nat.zero_add, Option.map_some] at h
  exact Option.some.inj h

theorem getLast_of_segmented {s : TensorStorage V} {levels : List Level} {i positions l : ℕ} {level : Level}
    (h : s.Segmented levels i positions) (hl : levels[l]? = some level) (hmode : level.modeFormat = .sparse) :
    (s.indices (i + l)).pos.getLast? = some ((s.indices (i + l)).crd.length : ℤ) := by
  induction levels generalizing i positions l with
  | nil => cases hl
  | cons first levels ih =>
    unfold TensorStorage.Segmented at h
    cases l with
    | zero =>
      cases hl
      simp only [hmode] at h
      exact h.2.2.2.1
    | succ l =>
      rw [← Nat.add_assoc, Nat.add_right_comm]
      cases hfirst : first.modeFormat with
      | dense =>
        simp only [hfirst] at h
        exact ih h hl
      | sparse =>
        simp only [hfirst] at h
        exact ih h.2.2.2.2.2 hl

/-! ### Sorted components -/

theorem getD_le_of_lt {a b : List ℕ} (h : a < b) {l : ℕ} (heq : ∀ l' < l, a.getD l' 0 = b.getD l' 0) :
    a.getD l 0 ≤ b.getD l 0 := by
  induction a generalizing b l with
  | nil => simp
  | cons x a ih =>
    cases b with
    | nil => exact absurd h (List.not_lt_nil _)
    | cons y b =>
      rcases List.cons_lt_cons_iff.mp h with hlt | ⟨rfl, hlt⟩
      · cases l with
        | zero => exact hlt.le
        | succ l => exact absurd (heq 0 (Nat.succ_pos l)) hlt.ne
      · cases l with
        | zero => exact le_rfl
        | succ l => exact ih hlt fun l' hl' => heq (l' + 1) (Nat.succ_lt_succ hl')

theorem take_eq_map {c : List ℕ} {m : ℕ} (h : m ≤ c.length) : c.take m = (List.range m).map fun l => c.getD l 0 := by
  refine List.ext_getElem (by simpa using h) fun l hl hl' => ?_
  rw [List.length_take] at hl
  rw [List.getElem_take, List.getElem_map, List.getElem_range, List.getD_eq_getElem _ _ (by omega)]

namespace Components

variable {levels : List Level} (components : Components V levels)

theorem length_coordinates : components.coordinates.length = components.entries.length := List.length_map _

theorem getD_coordinates {k : ℕ} (hk : k < components.entries.length) :
    components.coordinates.getD k [] = components.entries[k].1 := by
  rw [List.getD_eq_getElem _ _ (by rwa [length_coordinates])]
  exact List.getElem_map _

theorem forall_coordinate {c : List ℕ} (hc : c ∈ components.coordinates) :
    List.Forall₂ (fun x level => x < level.dimension) c levels := by
  obtain ⟨e, he, rfl⟩ := List.mem_map.mp hc
  exact components.bounded e he

theorem mem_coordinates_iff {c : List ℕ} : c ∈ components.coordinates ↔
    ∃ k ∈ places 0 components.entries.length, components.coordinates.getD k [] = c := by
  simp only [mem_places]
  constructor
  · intro hc
    obtain ⟨k, hk, rfl⟩ := List.getElem_of_mem hc
    exact ⟨k, ⟨Nat.zero_le k, by rwa [length_coordinates] at hk⟩, List.getD_eq_getElem _ _ hk⟩
  · rintro ⟨k, ⟨-, hk⟩, rfl⟩
    rw [List.getD_eq_getElem _ _ (by rwa [length_coordinates])]
    exact List.getElem_mem _

theorem ordered : Ordered components.coords 0 0 components.entries.length := by
  intro k k' _ hkk' hk' l _ heq
  rcases hkk'.eq_or_lt with rfl | hlt
  · exact le_rfl
  · have hk : k < components.coordinates.length := by rw [length_coordinates]; omega
    have hk' : k' < components.coordinates.length := by rw [length_coordinates]; omega
    have hsorted : components.coordinates[k] < components.coordinates[k'] :=
      List.pairwise_iff_getElem.mp components.sorted k k' hk hk' hlt
    rw [← List.getD_eq_getElem _ [] hk, ← List.getD_eq_getElem _ [] hk'] at hsorted
    exact getD_le_of_lt hsorted fun l' hl' => heq l' (Nat.zero_le l') hl'

theorem within : Within components.coords levels 0 (places 0 components.entries.length) := by
  intro l level hl k hk
  have hbound := components.forall_coordinate (components.mem_coordinates_iff.mpr ⟨k, hk, rfl⟩)
  obtain ⟨hlt, hlevel⟩ := List.getElem?_eq_some_iff.mp hl
  have hlt' : l < (components.coordinates.getD k []).length := by rwa [hbound.length_eq]
  have := hbound.get (i := l) hlt' hlt
  rw [Nat.zero_add]
  show (components.coordinates.getD k []).getD l 0 < _
  rw [List.getD_eq_getElem _ _ hlt', ← hlevel]
  exact this

theorem rows_eq {m : ℕ} (hm : m ≤ levels.length) :
    rows components.coords 0 m (places 0 components.entries.length) = beginnings components.coordinates m := by
  have hmap : (places 0 components.entries.length).map (row components.coords 0 m) =
      components.coordinates.map (List.take m) := by
    refine List.ext_getElem (by simp [places, length_coordinates]) fun k hk hk' => ?_
    rw [List.length_map] at hk'
    rw [List.length_map] at hk
    have hlength : components.coordinates[k].length = levels.length :=
      (components.forall_coordinate (List.getElem_mem hk')).length_eq
    rw [List.getElem_map, List.getElem_map, take_eq_map (by omega)]
    refine List.map_congr_left fun l _ => ?_
    show (components.coordinates.getD _ []).getD _ 0 = _
    rw [show (places 0 components.entries.length)[k] = k by simp [places], Nat.zero_add, List.getD_eq_getElem _ _ hk']
  rw [rows, hmap, List.card_toFinset]
  rfl

/-! ### What the storage has -/

theorem agree_iff {m k : ℕ} {c : List ℕ} (hm : m ≤ levels.length) (hk : k ∈ places 0 components.entries.length)
    (hc : c.length = levels.length) :
    Agree components.coords 0 m c k ↔ (components.coordinates.getD k []).take m = c.take m := by
  have hlength := (components.forall_coordinate (components.mem_coordinates_iff.mpr ⟨k, hk, rfl⟩)).length_eq
  rw [take_eq_map (by omega), take_eq_map (by omega), List.map_inj_left]
  simp only [List.mem_range]
  refine forall₂_congr fun l _ => ?_
  rw [Nat.zero_add]
  rfl

theorem exists_agree_iff {m : ℕ} {c : List ℕ} (hm : m ≤ levels.length) (hc : c.length = levels.length) :
    (∃ k ∈ places 0 components.entries.length, Agree components.coords 0 m c k) ↔
      ∃ c' ∈ components.coordinates, c'.take m = c.take m := by
  constructor
  · rintro ⟨k, hk, hagree⟩
    exact ⟨_, components.mem_coordinates_iff.mpr ⟨k, hk, rfl⟩, (components.agree_iff hm hk hc).mp hagree⟩
  · rintro ⟨c', hc', heq⟩
    obtain ⟨k, hk, rfl⟩ := components.mem_coordinates_iff.mp hc'
    exact ⟨k, hk, (components.agree_iff hm hk hc).mpr heq⟩

theorem value_unique {c : List ℕ} {v w : V} (hv : (c, v) ∈ components.entries) (hw : (c, w) ∈ components.entries) : v = w := by
  have hnodup : components.coordinates.Nodup := components.sorted.imp fun h => h.ne
  exact (Prod.mk.inj (List.inj_on_of_nodup_map hnodup hv hw rfl)).2

theorem beginnings_le (k : ℕ) : beginnings components.coordinates k ≤ components.entries.length := by
  have hle := (List.dedup_sublist (components.coordinates.map (List.take k))).length_le
  rwa [List.length_map, length_coordinates] at hle

variable [Zero V]

/-- The value at coordinates is that of the component that has them, or zero. -/
theorem value_iff {c : List ℕ} {v : V} (hc : c.length = levels.length) :
    v = ((places 0 components.entries.length).filter fun k => Agree components.coords 0 levels.length c k).head?.elim 0
        components.vals ↔ if c ∈ components.coordinates then (c, v) ∈ components.entries else v = 0 := by
  have hagree : ∀ k ∈ places 0 components.entries.length,
      (Agree components.coords 0 levels.length c k ↔ components.coordinates.getD k [] = c) := by
    intro k hk
    have hlength := (components.forall_coordinate (components.mem_coordinates_iff.mpr ⟨k, hk, rfl⟩)).length_eq
    rw [components.agree_iff le_rfl hk hc, List.take_of_length_le hlength.le, List.take_of_length_le hc.le]
  cases hhead : ((places 0 components.entries.length).filter fun k => Agree components.coords 0 levels.length c k).head? with
  | none =>
    have hnot : c ∉ components.coordinates := by
      intro hmem
      obtain ⟨k, hk, heq⟩ := components.mem_coordinates_iff.mp hmem
      have hnil := List.filter_eq_nil_iff.mp (List.head?_eq_none_iff.mp hhead) k hk
      exact hnil (decide_eq_true ((hagree k hk).mpr heq))
    rw [if_neg hnot]
    rfl
  | some k =>
    obtain ⟨hk, hk'⟩ := List.mem_filter.mp (List.mem_of_head? hhead)
    have heq := (hagree k hk).mp (of_decide_eq_true hk')
    have hlt := (mem_places.mp hk).2
    have hentry : (c, components.vals k) ∈ components.entries := by
      rw [components.getD_coordinates hlt] at heq
      have hval : components.vals k = components.entries[k].2 := by
        unfold vals
        rw [List.getD_eq_getElem _ _ (by simpa using hlt), List.getElem_map]
      rw [← heq, hval]
      exact List.getElem_mem hlt
    rw [if_pos (components.mem_coordinates_iff.mpr ⟨k, hk, heq⟩)]
    exact ⟨fun hv => hv ▸ hentry, fun hv => components.value_unique hv hentry⟩

theorem mem_contents_iff {c : List ℕ} {v : V} :
    (c, v) ∈ contents components.coords components.vals levels 0 (places 0 components.entries.length) ↔
      components.Stored c ∧ if c ∈ components.coordinates then (c, v) ∈ components.entries else v = 0 := by
  rw [mem_contents components.within, ← and_assoc]
  unfold Stored
  constructor
  · rintro ⟨⟨hbound, hstored⟩, hv⟩
    refine ⟨⟨hbound, fun l level hl hmode => ?_⟩, (components.value_iff hbound.length_eq).mp hv⟩
    exact (components.exists_agree_iff (List.getElem?_eq_some_iff.mp hl).1 hbound.length_eq).mp (hstored l level hl hmode)
  · rintro ⟨⟨hbound, hstored⟩, hv⟩
    refine ⟨⟨hbound, fun l level hl hmode => ?_⟩, (components.value_iff hbound.length_eq).mpr hv⟩
    exact (components.exists_agree_iff (List.getElem?_eq_some_iff.mp hl).1 hbound.length_eq).mpr (hstored l level hl hmode)

/-! ### Round trips -/

/-- What the components are packed to. -/
def packing : Packed V := packed components.coords components.vals levels 0 (places 0 components.entries.length)

theorem length_packing_segments {i : ℕ} {level : Level} (hl : levels[i]? = some level) (hmode : level.modeFormat = .sparse) :
    (components.packing.segments i).flatten.length = beginnings components.coordinates (i + 1) := by
  have h := @length_segments V components.coords 0 (places 0 components.entries.length) _ components.vals levels i level hl hmode
    components.within
  rw [Nat.zero_add] at h
  rw [← components.rows_eq (List.getElem?_eq_some_iff.mp hl).1]
  exact h

theorem length_packing_values : components.packing.values.length =
    sizeWith levels (beginnings components.coordinates (levels.rdropWhile Level.isDense).length) := by
  rw [← components.rows_eq (List.rdropWhile_prefix _ _).length_le]
  exact length_values components.within

/-- The sizes of what is packed are in an `int`. -/
theorem inRange_iff (numBytes : ℕ) : components.packing.InRange numBytes ↔
    sizeWith levels (beginnings components.coordinates (levels.rdropWhile Level.isDense).length) * numBytes < 2 ^ 31 ∧
      ∀ i level, levels[i]? = some level → level.modeFormat = .sparse → beginnings components.coordinates (i + 1) < 2 ^ 31 := by
  unfold Packed.InRange
  rw [components.length_packing_values]
  refine and_congr_right fun _ => ⟨fun h i level hl hmode => ?_, fun h i => ?_⟩
  · rw [← components.length_packing_segments hl hmode]
    exact h i
  · by_cases hsparse : ∃ level, levels[i]? = some level ∧ level.modeFormat = .sparse
    · obtain ⟨level, hl, hmode⟩ := hsparse
      rw [components.length_packing_segments hl hmode]
      exact h i level hl hmode
    · have hnil : components.packing.segments i = [] := by
        have := @segments_of_dense V components.coords 0 (places 0 components.entries.length) _ components.vals levels i
          fun level hl => by
            cases hmode : level.modeFormat with
            | dense => rfl
            | sparse => exact absurd ⟨level, hl, hmode⟩ hsparse
        rwa [Nat.zero_add] at this
      rw [hnil]
      decide

theorem becomes_packing {numBytes : ℕ} : Becomes levels numBytes
    (packTensor components.coords components.vals numBytes levels 0 0 components.entries.length (.init levels))
    components.packing := by
  have hnil : (Packed.nil : Packed V).InRange numBytes := ⟨by simp [Packed.nil], by simp [Packed.nil]⟩
  have h : Becomes levels numBytes (packTensor components.coords components.vals numBytes levels 0 0 _
      (buffersOf levels numBytes .nil)) _ :=
    becomes_packTensor List.drop_zero (Nat.zero_le _) components.ordered components.within hnil
  rwa [buffersOf_nil] at h

/-- Packing returns what the components are packed to, if no size overflows. -/
theorem pack_eq_some {numBytes : ℕ} {s : TensorStorage V} :
    pack levels components.coords components.entries.length components.vals numBytes = some s ↔
      (∀ k ≤ levels.length, sizeWith (levels.take k) components.entries.length < 2 ^ 63) ∧
      sizeWith levels components.entries.length * numBytes < 2 ^ 63 ∧ components.packing.InRange numBytes ∧
      s = ⟨arrays levels components.packing, components.packing.values⟩ := by
  have hpack : pack levels components.coords components.entries.length components.vals numBytes = some s ↔
      ∃ size, maxSize levels components.entries.length = some size ∧ (∃ bytes, toLongLong (size * numBytes) = some bytes) ∧
        ∃ buffers, packTensor components.coords components.vals numBytes levels 0 0 components.entries.length (.init levels) =
          some buffers ∧ ⟨buffers.indices, buffers.values⟩ = s := by
    unfold pack
    rw [if_neg (by simpa using components.levels_ne)]
    simp only [Option.bind_eq_bind, Option.bind_eq_some_iff, Option.some.injEq]
    constructor
    · rintro ⟨size, hsize, bytes, hbytes, h⟩
      exact ⟨size, hsize, ⟨bytes, hbytes⟩, h⟩
    · rintro ⟨size, hsize, ⟨bytes, hbytes⟩, h⟩
      exact ⟨size, hsize, bytes, hbytes, h⟩
  have hbytes : (∃ bytes, toLongLong ((sizeWith levels components.entries.length : ℤ) * numBytes) = some bytes) ↔
      sizeWith levels components.entries.length * numBytes < 2 ^ 63 := by
    rw [← Nat.cast_mul, toLongLong_eq]
    by_cases h : sizeWith levels components.entries.length * numBytes < 2 ^ 63
    · exact iff_of_true ⟨_, if_pos h⟩ h
    · exact iff_of_false (by rw [if_neg h]; simp) h
  rw [hpack]
  constructor
  · rintro ⟨size, hsize, hlong, buffers, hbuffers, rfl⟩
    obtain ⟨hsizes, rfl⟩ := maxSize_eq_some.mp hsize
    have hrange : components.packing.InRange numBytes := by
      by_contra hnot
      rw [components.becomes_packing.2 hnot] at hbuffers
      cases hbuffers
    rw [components.becomes_packing.1 hrange] at hbuffers
    cases hbuffers
    exact ⟨hsizes, hbytes.mp hlong, hrange, rfl⟩
  · rintro ⟨hsizes, hlong, hrange, rfl⟩
    exact ⟨_, maxSize_eq_some.mpr ⟨hsizes, rfl⟩, hbytes.mpr hlong, _, components.becomes_packing.1 hrange, rfl⟩

/-- Sorted components round-trip if and only if the sizes of their arrays are in the types of these. -/
theorem roundTrips_iff (numBytes : ℕ) :
    (∃ s, pack levels components.coords components.entries.length components.vals numBytes = some s ∧
      components.RoundTrips s) ↔ components.Fits numBytes := by
  have hcounts : CountsTo levels 0 1 components.packing := countsTo_packed (countsTo_nil levels 0) _
  constructor
  · rintro ⟨s, hs, hround⟩
    obtain ⟨hsizes, hbytes, hrange, rfl⟩ := components.pack_eq_some.mp hs
    obtain ⟨hvalues, hsegments⟩ := (components.inRange_iff numBytes).mp hrange
    refine ⟨hsizes, hbytes, hvalues, fun i level hl hmode => ⟨hsegments i level hl hmode, ?_⟩⟩
    have hlast := getLast_of_segmented hround.segmented hl hmode
    have hindex : arrays levels components.packing i = levelIndex level (components.packing.segments i) := by simp [arrays, hl]
    rw [Nat.zero_add] at hlast
    replace hlast : (arrays levels components.packing i).pos.getLast? =
      some ((arrays levels components.packing i).crd.length : ℤ) := hlast
    rw [hindex] at hlast
    rw [← components.length_packing_segments hl hmode]
    exact lt_limit_of_getLast hmode hlast
  · rintro ⟨hsizes, hbytes, hvalues, hsegments⟩
    have hrange := (components.inRange_iff numBytes).mpr ⟨hvalues, fun i level hl hmode => (hsegments i level hl hmode).1⟩
    refine ⟨_, components.pack_eq_some.mpr ⟨hsizes, hbytes, hrange, rfl⟩, ?_⟩
    have hholds : Holds ⟨arrays levels components.packing, components.packing.values⟩ levels components.packing := by
      refine holds_arrays fun i level hl hmode => ?_
      rw [components.length_packing_segments hl hmode]
      exact (hsegments i level hl hmode).2
    have hwalk : TensorStorage.walk ⟨arrays levels components.packing, components.packing.values⟩ levels 0 0 = some _ :=
      walk_packed hholds List.drop_zero (countsTo_nil levels 0) (Packed.append_nil components.packing).symm
    refine ⟨⟨_, hwalk, contents_sorted components.ordered.orderedOn, fun c v => components.mem_contents_iff⟩, ?_, ?_⟩
    · exact segmented_of_holds hholds List.drop_zero hcounts fun l crd hcrd =>
        packed_segments_sorted components.ordered.orderedOn hcrd
    · refine ⟨_, maxSize_eq_some.mpr ⟨hsizes, rfl⟩, ?_⟩
      rw [components.length_packing_values]
      exact_mod_cast sizeWith_mono (components.beginnings_le _)

end Components

/-- A vector of 2 ^ 28 numbers of 8 bytes has more bytes than an `int` counts. -/
theorem valuesIndex_overflows : ¬ ∀ (levels : List Level) (components : Components ℚ levels) (numBytes : ℕ),
    ∃ s, pack levels components.coords components.entries.length components.vals numBytes = some s ∧
      components.RoundTrips s := by
  intro h
  let level : Level := ⟨.dense, 2 ^ 28, .int32, by norm_num⟩
  let components : Components ℚ [level] := ⟨by simp, [], by simp, by simp⟩
  obtain ⟨s, hs, -⟩ := h [level] components 8
  obtain ⟨-, -, hrange, -⟩ := components.pack_eq_some.mp hs
  have hvalues := ((components.inRange_iff 8).mp hrange).1
  have hsize : ∀ n, sizeWith [level] n = 2 ^ 28 := fun n => by
    rw [sizeWith_cons]
    simp [level, sizeWith, denseSize]
  rw [hsize] at hvalues
  norm_num at hvalues

end Packing
end Taco
