import Taco.Packing.PackRuns

/-! A walk over packed arrays finds the components below each position. -/

namespace Taco
namespace Packing

variable {V : Type}

/-! ### Positions -/

@[simp] theorem join_segments (Ds : List (Packed V)) (i : ℕ) : (Packed.join Ds).segments i = Ds.flatMap (·.segments i) := by
  induction Ds with
  | nil => rfl
  | cons D Ds ih => rw [Packed.join, Packed.append_segments, ih, List.flatMap_cons]

@[simp] theorem join_values (Ds : List (Packed V)) : (Packed.join Ds).values = Ds.flatMap (·.values) := by
  induction Ds with
  | nil => rfl
  | cons D Ds ih => rw [Packed.join, Packed.append_values, ih, List.flatMap_cons]

/-- The levels from a level with a number of positions on are packed below all of these. -/
def CountsTo : List Level → ℕ → ℕ → Packed V → Prop
  | [], _, positions, D => D.values.length = positions
  | level :: levels, i, positions, D =>
    match level.modeFormat with
    | .dense => CountsTo levels (i + 1) (positions * level.dimension) D
    | .sparse => (D.segments i).length = positions ∧ CountsTo levels (i + 1) (D.segments i).flatten.length D

theorem CountsTo.congr {levels : List Level} {i positions : ℕ} {D E : Packed V} (h : CountsTo levels i positions D)
    (hvalues : E.values = D.values) (hsegments : ∀ l ≥ i, E.segments l = D.segments l) : CountsTo levels i positions E := by
  induction levels generalizing i positions with
  | nil => rwa [CountsTo, hvalues]
  | cons level levels ih =>
    unfold CountsTo at h ⊢
    have hnext : ∀ l ≥ i + 1, E.segments l = D.segments l := fun l hl => hsegments l (by omega)
    cases hmode : level.modeFormat with
    | dense =>
      simp only [hmode] at h ⊢
      exact ih h hnext
    | sparse =>
      simp only [hmode] at h ⊢
      rw [hsegments i le_rfl]
      exact ⟨h.1, ih h.2 hnext⟩

theorem countsTo_nil (levels : List Level) (i : ℕ) : CountsTo levels i 0 (.nil : Packed V) := by
  induction levels generalizing i with
  | nil => rfl
  | cons level levels ih =>
    unfold CountsTo
    cases hmode : level.modeFormat with
    | dense => simpa using ih (i + 1)
    | sparse => exact ⟨rfl, ih (i + 1)⟩

theorem countsTo_join {levels : List Level} {i positions : ℕ} {D : Packed V} {js : List ℕ} {f : ℕ → Packed V}
    (hD : CountsTo levels i positions D)
    (hf : ∀ j positions D, CountsTo levels i positions D → CountsTo levels i (positions + 1) (D ++ f j)) :
    CountsTo levels i (positions + js.length) (D ++ .join (js.map f)) := by
  induction js generalizing positions D with
  | nil => simpa [Packed.join] using hD
  | cons j js ih =>
    rw [List.map_cons, Packed.join, ← Packed.append_assoc, List.length_cons, Nat.add_comm js.length, ← Nat.add_assoc]
    exact ih (hf j _ _ hD)

theorem countsTo_segment {levels : List Level} {i positions : ℕ} {D : Packed V} (h : CountsTo levels (i + 1) positions D)
    (crd : List ℕ) : CountsTo levels (i + 1) positions (D ++ .segment i crd) :=
  h.congr (by simp [Packed.segment]) fun l hl => by simp [Packed.segment_of_ne (show l ≠ i by omega)]

section

variable [Zero V] {coords : ℕ → ℕ → ℕ} {vals : ℕ → V}

/-- No segments are packed for the levels before. -/
theorem packed_segments_of_lt {levels : List Level} {i l : ℕ} (hl : l < i) (ks : List ℕ) :
    (packed coords vals levels i ks).segments l = [] := by
  induction levels generalizing i ks with
  | nil => rfl
  | cons level levels ih =>
    have hown : (ownSegment level i (keys coords level i ks) : Packed V).segments l = [] := by
      unfold ownSegment
      cases level.modeFormat with
      | dense => rfl
      | sparse => exact Packed.segment_of_ne hl.ne _
    rw [packed, Packed.append_segments, hown, join_segments, List.nil_append, List.flatMap_eq_nil_iff]
    intro D hD
    obtain ⟨j, -, rfl⟩ := List.mem_map.mp hD
    exact ih (Nat.lt_succ_of_lt hl) _

theorem join_packed_segments {levels : List Level} (i : ℕ) (js : List ℕ) (ks : List ℕ) :
    (Packed.join (js.map fun j => packed coords vals levels (i + 1) (placesOf coords i ks j))).segments i = [] := by
  rw [join_segments, List.flatMap_eq_nil_iff]
  intro D hD
  obtain ⟨j, -, rfl⟩ := List.mem_map.mp hD
  exact packed_segments_of_lt (Nat.lt_succ_self i) _

/-- What is packed is below one more position. -/
theorem countsTo_packed {levels : List Level} {i positions : ℕ} {D : Packed V} (h : CountsTo levels i positions D)
    (ks : List ℕ) : CountsTo levels i (positions + 1) (D ++ packed coords vals levels i ks) := by
  induction levels generalizing i positions D ks with
  | nil =>
    have hvalues : D.values.length = positions := h
    simp [CountsTo, packed, Packed.value, hvalues]
  | cons level levels ih =>
    unfold CountsTo at h ⊢
    rw [packed, ← Packed.append_assoc]
    have hjoin : ∀ {q : ℕ} {E : Packed V} (js : List ℕ), CountsTo levels (i + 1) q E → CountsTo levels (i + 1) (q + js.length)
        (E ++ .join (js.map fun j => packed coords vals levels (i + 1) (placesOf coords i ks j))) := fun js hE =>
      countsTo_join hE fun j q E hE => ih hE (placesOf coords i ks j)
    cases hmode : level.modeFormat with
    | dense =>
      simp only [hmode, ownSegment, keys, Packed.append_nil, Nat.succ_mul] at h ⊢
      simpa using hjoin (List.range level.dimension) h
    | sparse =>
      simp only [hmode, ownSegment, keys] at h ⊢
      have hsegments : ∀ js crd : List ℕ, (D ++ Packed.segment i crd ++ Packed.join (js.map fun j =>
          packed coords vals levels (i + 1) (placesOf coords i ks j))).segments i = D.segments i ++ [crd] := fun js crd => by
        rw [Packed.append_segments, join_packed_segments, Packed.append_segments, Packed.segment_self, List.append_nil]
      rw [hsegments]
      refine ⟨by simp [h.1], ?_⟩
      simpa using hjoin (ks.map (coords i)).dedup (countsTo_segment h.2 (ks.map (coords i)).dedup)

/-! ### Walks -/

/-- What is stored below a position. -/
def contents (coords : ℕ → ℕ → ℕ) (vals : ℕ → V) : List Level → ℕ → List ℕ → List (List ℕ × V)
  | [], _, ks => [([], ks.head?.elim 0 vals)]
  | level :: levels, i, ks =>
    (keys coords level i ks).flatMap fun j => below j (contents coords vals levels (i + 1) (placesOf coords i ks j))

end

/-- The arrays of a storage are exactly those of segments. -/
structure Holds (s : TensorStorage V) (all : List Level) (X : Packed V) : Prop where
  values : s.values = X.values
  indices : ∀ i level, all[i]? = some level → level.modeFormat = .sparse →
    s.indices i = ⟨0 :: (ends 0 (X.segments i)).map Nat.cast, (X.segments i).flatten⟩

theorem ends_getD (segments : List (List ℕ)) (n p : ℕ) (hp : p ≤ segments.length) :
    (n :: ends n segments).getD p 0 = n + (segments.take p).flatten.length := by
  induction segments generalizing n p with
  | nil =>
    obtain rfl : p = 0 := by simpa using hp
    simp [ends]
  | cons crd segments ih =>
    cases p with
    | zero => simp
    | succ p =>
      rw [ends, List.getD_cons_succ, ih _ p (by simpa using hp)]
      simp [Nat.add_assoc]

theorem pos_getD (segments : List (List ℕ)) {p : ℕ} (hp : p ≤ segments.length) :
    ((0 : ℤ) :: (ends 0 segments).map Nat.cast).getD p 0 = ((segments.take p).flatten.length : ℕ) := by
  have hcast : ((0 : ℤ) :: (ends 0 segments).map Nat.cast) = (0 :: ends 0 segments).map Nat.cast := rfl
  have hends := ends_getD segments 0 p hp
  rw [List.getD_eq_getElem?_getD, Nat.zero_add] at hends
  rw [hcast, List.getD_eq_getElem?_getD, List.getElem?_map, ← hends]
  cases (0 :: ends 0 segments)[p]? <;> rfl

theorem segment_eq {before after : List (List ℕ)} {crd : List ℕ} :
    (⟨0 :: (ends 0 (before ++ crd :: after)).map Nat.cast, (before ++ crd :: after).flatten⟩ : LevelIndex).segment before.length
      = crd := by
  unfold LevelIndex.segment
  dsimp only
  rw [pos_getD _ (by simp), pos_getD _ (by simp)]
  have htake : (before ++ crd :: after).take (before.length + 1) = before ++ [crd] := by
    rw [List.take_append]
    simp
  rw [htake, List.take_left, Int.toNat_natCast, Int.toNat_natCast,
    show (before ++ crd :: after).flatten = (before.flatten ++ crd) ++ after.flatten by simp,
    show (before ++ [crd]).flatten = before.flatten ++ crd by simp, List.take_left, List.drop_left]

section

variable {s : TensorStorage V} {all : List Level} {X : Packed V}

/-- What is below consecutive positions is found below these. -/
theorem walk_positions {levels : List Level} {i q : ℕ} {js : List ℕ} {D E : Packed V} {f : ℕ → Packed V}
    {g : ℕ → List (List ℕ × V)} (hX : X = D ++ .join (js.map f) ++ E) (hD : CountsTo levels i q D)
    (hcounts : ∀ j q D, CountsTo levels i q D → CountsTo levels i (q + 1) (D ++ f j))
    (hf : ∀ j q D E, CountsTo levels i q D → X = D ++ f j ++ E → s.walk levels i q = some (g j)) :
    (((List.range' q js.length).zip js).mapM fun (q, c) => (s.walk levels i q).map (below c)) =
      some (js.map fun j => below j (g j)) := by
  induction js generalizing q D with
  | nil => rfl
  | cons j js ih =>
    rw [List.map_cons, Packed.join] at hX
    have hfirst := hf j q D (.join (js.map f) ++ E) hD (by rw [hX]; simp only [Packed.append_assoc])
    have hrest := @ih (q + 1) (D ++ f j) (by rw [hX]; simp only [Packed.append_assoc]) (hcounts j q D hD)
    rw [List.length_cons, List.range'_succ, List.zip_cons_cons, List.mapM_cons]
    dsimp only
    rw [hfirst, hrest]
    rfl

/-- A walk over the arrays finds what was packed. -/
theorem walk_packed [Zero V] {coords : ℕ → ℕ → ℕ} {vals : ℕ → V} (hs : Holds s all X) {levels : List Level} {i p : ℕ} {ks : List ℕ} {D E : Packed V}
    (hall : all.drop i = levels) (hD : CountsTo levels i p D) (hX : X = D ++ packed coords vals levels i ks ++ E) :
    s.walk levels i p = some (contents coords vals levels i ks) := by
  induction levels generalizing i p ks D E with
  | nil =>
    have hp : D.values.length = p := hD
    rw [TensorStorage.walk, hs.values, hX, Packed.append_values, Packed.append_values, packed, Packed.value, List.append_assoc,
      List.getElem?_append_right hp.le, hp, Nat.sub_self]
    rfl
  | cons level levels ih =>
    have hlevel : all[i]? = some level := by
      rw [← List.head?_drop, hall]
      rfl
    have hnext : all.drop (i + 1) = levels := by
      rw [← List.tail_drop, hall]
      rfl
    rw [TensorStorage.walk, contents]
    unfold CountsTo at hD
    rw [packed, ← Packed.append_assoc] at hX
    have hchildren : ∃ q, s.children level i p = (List.range' q (keys coords level i ks).length).zip (keys coords level i ks) ∧
        CountsTo levels (i + 1) q (D ++ ownSegment level i (keys coords level i ks)) := by
      unfold TensorStorage.children
      cases hmode : level.modeFormat with
      | dense =>
        simp only [hmode, ownSegment, keys, Packed.append_nil, List.length_range] at hD ⊢
        exact ⟨_, rfl, hD⟩
      | sparse =>
        simp only [hmode, ownSegment, keys] at hD hX ⊢
        have hsegments : X.segments i = D.segments i ++ (ks.map (coords i)).dedup :: E.segments i := by
          rw [hX, Packed.append_segments, Packed.append_segments, join_packed_segments, Packed.append_segments,
            Packed.segment_self]
          simp
        refine ⟨_, ?_, countsTo_segment hD.2 _⟩
        rw [hs.indices i level hlevel hmode, hsegments, ← hD.1, segment_eq, pos_getD _ (by simp), List.take_left,
          Int.toNat_natCast]
    obtain ⟨q, hq, hcounts⟩ := hchildren
    rw [hq, walk_positions hX hcounts (fun j q D hD => countsTo_packed hD _) fun j q D E hD hX => ih hnext hD hX]
    rw [Option.map_some, List.flatMap_def]

end

/-! ### Sorted places -/

/-- Coordinates at places are sorted from a level on. -/
def OrderedOn (coords : ℕ → ℕ → ℕ) (i : ℕ) (ks : List ℕ) : Prop :=
  ks.Pairwise fun k k' => ∀ l ≥ i, (∀ l', i ≤ l' → l' < l → coords l' k = coords l' k') → coords l k ≤ coords l k'

theorem OrderedOn.mono {coords : ℕ → ℕ → ℕ} {i : ℕ} {ks : List ℕ} (h : OrderedOn coords i ks) :
    (ks.map (coords i)).Pairwise (· ≤ ·) :=
  List.pairwise_map.mpr (h.imp fun h => h i le_rfl fun _ hl hl' => absurd (hl.trans_lt hl') (lt_irrefl i))

theorem mem_placesOf {coords : ℕ → ℕ → ℕ} {i j k : ℕ} {ks : List ℕ} : k ∈ placesOf coords i ks j ↔ k ∈ ks ∧ coords i k = j := by
  rw [placesOf, List.mem_filter, decide_eq_true_eq]

theorem OrderedOn.next {coords : ℕ → ℕ → ℕ} {i : ℕ} {ks : List ℕ} (h : OrderedOn coords i ks) (j : ℕ) :
    OrderedOn coords (i + 1) (placesOf coords i ks j) := by
  refine (h.sublist List.filter_sublist).imp_of_mem fun {k k'} hk hk' hkk' l hl heq => ?_
  refine hkk' l (by omega) fun l' hl' hlt => ?_
  rcases hl'.eq_or_lt with rfl | hgt
  · rw [(mem_placesOf.mp hk).2, (mem_placesOf.mp hk').2]
  · exact heq l' hgt hlt

theorem Ordered.orderedOn {coords : ℕ → ℕ → ℕ} {i begin stop : ℕ} (h : Ordered coords i begin stop) :
    OrderedOn coords i (places begin stop) := by
  refine List.Pairwise.imp_of_mem ?_ List.pairwise_lt_range'
  exact fun {k k'} hk hk' hlt => h k k' (mem_places.mp hk).1 hlt.le (mem_places.mp hk').2

theorem keys_sorted {coords : ℕ → ℕ → ℕ} {i : ℕ} {ks : List ℕ} (h : OrderedOn coords i ks) (level : Level) :
    (keys coords level i ks).Pairwise (· < ·) := by
  unfold keys
  cases level.modeFormat with
  | dense => exact List.pairwise_lt_range
  | sparse => exact dedup_sorted h.mono

section

variable [Zero V] {coords : ℕ → ℕ → ℕ} {vals : ℕ → V}

/-- The segments that are packed are sorted, without duplicates. -/
theorem packed_segments_sorted {levels : List Level} {i l : ℕ} {ks crd : List ℕ} (h : OrderedOn coords i ks)
    (hcrd : crd ∈ (packed coords vals levels i ks).segments l) : crd.Pairwise (· < ·) := by
  induction levels generalizing i ks with
  | nil => cases hcrd
  | cons level levels ih =>
    rw [packed, Packed.append_segments, join_segments, List.mem_append, List.mem_flatMap] at hcrd
    rcases hcrd with hcrd | ⟨D, hD, hcrd⟩
    · have hsorted := keys_sorted h level
      unfold ownSegment at hcrd
      cases hmode : level.modeFormat with
      | dense =>
        rw [hmode] at hcrd
        cases hcrd
      | sparse =>
        simp only [hmode] at hcrd
        by_cases hl : l = i
        · subst hl
          rw [Packed.segment_self, List.mem_singleton] at hcrd
          exact hcrd ▸ hsorted
        · rw [Packed.segment_of_ne hl] at hcrd
          cases hcrd
    · obtain ⟨j, -, rfl⟩ := List.mem_map.mp hD
      exact ih (h.next j) hcrd

/-- What is found is in order. -/
theorem contents_sorted {levels : List Level} {i : ℕ} {ks : List ℕ} (h : OrderedOn coords i ks) :
    ((contents coords vals levels i ks).map Prod.fst).Pairwise (· < ·) := by
  induction levels generalizing i ks with
  | nil => exact List.pairwise_singleton _ _
  | cons level levels ih =>
    rw [contents, List.map_flatMap, List.pairwise_flatMap]
    constructor
    · intro j _
      rw [below, List.map_map, List.pairwise_map]
      exact (List.pairwise_map.mp (ih (h.next j))).imp fun hlt => List.cons_lt_cons_iff.mpr (.inr ⟨rfl, hlt⟩)
    · refine (keys_sorted h level).imp fun {j j'} hlt => ?_
      simp only [below, List.map_map, List.mem_map, Function.comp_apply, forall_exists_index, and_imp]
      rintro c e _ rfl c' e' _ rfl
      exact List.cons_lt_cons_iff.mpr (.inl hlt)

/-! ### What is found -/

/-- The coordinates at a place begin, from a level on, like others. -/
def Agree (coords : ℕ → ℕ → ℕ) (i n : ℕ) (c : List ℕ) (k : ℕ) : Prop := ∀ l < n, coords (i + l) k = c.getD l 0

instance (coords : ℕ → ℕ → ℕ) (i n : ℕ) (c : List ℕ) (k : ℕ) : Decidable (Agree coords i n c k) :=
  inferInstanceAs (Decidable (∀ l < n, coords (i + l) k = c.getD l 0))

theorem agree_cons {i n x k : ℕ} {c : List ℕ} :
    Agree coords i (n + 1) (x :: c) k ↔ coords i k = x ∧ Agree coords (i + 1) n c k := by
  constructor
  · intro h
    refine ⟨h 0 (Nat.succ_pos n), fun l hl => ?_⟩
    have := h (l + 1) (Nat.succ_lt_succ hl)
    rwa [List.getD_cons_succ, ← Nat.add_assoc, Nat.add_right_comm] at this
  · rintro ⟨hx, h⟩ l hl
    cases l with
    | zero => exact hx
    | succ l =>
      have := h l (Nat.lt_of_succ_lt_succ hl)
      rwa [List.getD_cons_succ, ← Nat.add_assoc, Nat.add_right_comm]

theorem mem_keys {level : Level} {levels : List Level} {i x : ℕ} {ks : List ℕ} (hwithin : Within coords (level :: levels) i ks) :
    x ∈ keys coords level i ks ↔ x < level.dimension ∧ (level.modeFormat = .sparse → ∃ k ∈ ks, coords i k = x) := by
  unfold keys
  cases hmode : level.modeFormat with
  | dense => simp
  | sparse =>
    dsimp only
    rw [List.mem_dedup, List.mem_map]
    constructor
    · rintro ⟨k, hk, rfl⟩
      exact ⟨hwithin.head k hk, fun _ => ⟨k, hk, rfl⟩⟩
    · rintro ⟨-, h⟩
      exact h rfl

theorem exists_agree_cons {i n x : ℕ} {ks c : List ℕ} :
    (∃ k ∈ ks, Agree coords i (n + 1) (x :: c) k) ↔ ∃ k ∈ placesOf coords i ks x, Agree coords (i + 1) n c k := by
  simp only [agree_cons, mem_placesOf, and_assoc]

theorem filter_agree_cons {i n x : ℕ} {ks c : List ℕ} : (ks.filter fun k => Agree coords i (n + 1) (x :: c) k) =
    (placesOf coords i ks x).filter fun k => Agree coords (i + 1) n c k := by
  rw [placesOf, List.filter_filter]
  refine List.filter_congr fun k _ => ?_
  rw [decide_eq_decide.mpr agree_cons, Bool.decide_and, Bool.and_comm]

/-- Coordinates within the dimensions are found if each compressed level has components below them, with the value of the
    component that has them. -/
theorem mem_contents {levels : List Level} {i : ℕ} {ks c : List ℕ} {v : V} (hwithin : Within coords levels i ks) :
    (c, v) ∈ contents coords vals levels i ks ↔ List.Forall₂ (fun x level => x < level.dimension) c levels ∧
      (∀ l level, levels[l]? = some level → level.modeFormat = .sparse → ∃ k ∈ ks, Agree coords i (l + 1) c k) ∧
      v = (ks.filter fun k => Agree coords i levels.length c k).head?.elim 0 vals := by
  induction levels generalizing i ks c with
  | nil =>
    have hall : (ks.filter fun k => Agree coords i 0 c k) = ks := List.filter_eq_self.mpr fun k _ => by simp [Agree]
    rw [List.length_nil, hall, contents, List.mem_singleton, Prod.mk.injEq]
    simp
  | cons level levels ih =>
    have hbelow : (c, v) ∈ contents coords vals (level :: levels) i ks ↔ ∃ x c', c = x :: c' ∧ x ∈ keys coords level i ks ∧
        (c', v) ∈ contents coords vals levels (i + 1) (placesOf coords i ks x) := by
      simp only [contents, List.mem_flatMap, below, List.mem_map, Prod.mk.injEq]
      constructor
      · rintro ⟨x, hx, ⟨c', w⟩, hmem, rfl, rfl⟩
        exact ⟨x, c', rfl, hx, hmem⟩
      · rintro ⟨x, c', rfl, hx, hmem⟩
        exact ⟨x, hx, (c', v), hmem, rfl, rfl⟩
    have hnext : ∀ x, Within coords levels (i + 1) (placesOf coords i ks x) := fun x =>
      hwithin.next fun k hk => (mem_placesOf.mp hk).1
    rw [hbelow]
    constructor
    · rintro ⟨x, c', rfl, hx, hmem⟩
      obtain ⟨hbound, hstored, hv⟩ := (ih (hnext x)).mp hmem
      obtain ⟨hlt, hkey⟩ := (mem_keys hwithin).mp hx
      refine ⟨.cons hlt hbound, fun l level' hl hmode => ?_, by rw [hv, List.length_cons, filter_agree_cons]⟩
      cases l with
      | zero =>
        cases hl
        obtain ⟨k, hk, rfl⟩ := hkey hmode
        exact ⟨k, hk, agree_cons.mpr ⟨rfl, by simp [Agree]⟩⟩
      | succ l => exact exists_agree_cons.mpr (hstored l level' hl hmode)
    · rintro ⟨hbound, hstored, hv⟩
      cases hbound with
      | @cons x _ c' _ hlt hbound =>
        refine ⟨x, c', rfl, (mem_keys hwithin).mpr ⟨hlt, fun hmode => ?_⟩, (ih (hnext x)).mpr ⟨hbound, ?_, ?_⟩⟩
        · obtain ⟨k, hk, hagree⟩ := hstored 0 level rfl hmode
          exact ⟨k, hk, (agree_cons.mp hagree).1⟩
        · exact fun l level' hl hmode => exists_agree_cons.mp (hstored (l + 1) level' hl hmode)
        · rw [hv, List.length_cons, filter_agree_cons]

end

/-! ### Arrays -/

theorem length_ends (n : ℕ) (segments : List (List ℕ)) : (ends n segments).length = segments.length := by
  induction segments generalizing n with
  | nil => rfl
  | cons crd segments ih => rw [ends, List.length_cons, ih, List.length_cons]

theorem ends_sorted (n : ℕ) (segments : List (List ℕ)) : (n :: ends n segments).Pairwise (· ≤ ·) := by
  induction segments generalizing n with
  | nil => exact List.pairwise_singleton _ _
  | cons crd segments ih =>
    have hrest := ih (n + crd.length)
    refine List.pairwise_cons.mpr ⟨fun m hm => ?_, hrest⟩
    rcases List.mem_cons.mp hm with rfl | hm
    · omega
    · exact (Nat.le_add_right n crd.length).trans (List.rel_of_pairwise_cons hrest hm)

theorem ends_getLast (n : ℕ) (segments : List (List ℕ)) :
    (n :: ends n segments).getLast? = some (n + segments.flatten.length) := by
  induction segments generalizing n with
  | nil => simp [ends]
  | cons crd segments ih =>
    rw [ends, List.getLast?_cons_cons, ih, List.flatten_cons, List.length_append, Nat.add_assoc]

/-- The arrays of sorted segments, one for each position, are well formed. -/
theorem segmented_of_holds {s : TensorStorage V} {all levels : List Level} {X : Packed V} {i positions : ℕ}
    (hs : Holds s all X) (hall : all.drop i = levels) (hX : CountsTo levels i positions X)
    (hsorted : ∀ l, ∀ crd ∈ X.segments l, crd.Pairwise (· < ·)) : s.Segmented levels i positions := by
  induction levels generalizing i positions with
  | nil => rwa [TensorStorage.Segmented, hs.values]
  | cons level levels ih =>
    have hlevel : all[i]? = some level := by
      rw [← List.head?_drop, hall]
      rfl
    have hnext : all.drop (i + 1) = levels := by
      rw [← List.tail_drop, hall]
      rfl
    unfold CountsTo at hX
    unfold TensorStorage.Segmented
    cases hmode : level.modeFormat with
    | dense =>
      simp only [hmode] at hX ⊢
      exact ih hnext hX
    | sparse =>
      simp only [hmode] at hX ⊢
      rw [hs.indices i level hlevel hmode]
      have hcast : ((0 : ℤ) :: (ends 0 (X.segments i)).map Nat.cast) = (0 :: ends 0 (X.segments i)).map Nat.cast := rfl
      refine ⟨by simp [length_ends, hX.1], rfl, ?_, ?_, fun p hp => ?_, ih hnext hX.2⟩
      · rw [hcast]
        exact List.pairwise_map.mpr ((ends_sorted 0 _).imp fun h => by exact_mod_cast h)
      · rw [hcast, List.getLast?_map, ends_getLast, Nat.zero_add]
        rfl
      · have hp' : p < (X.segments i).length := by omega
        have hsplit : X.segments i = (X.segments i).take p ++ (X.segments i)[p] :: (X.segments i).drop (p + 1) := by
          rw [← List.drop_eq_getElem_cons hp', List.take_append_drop]
        have hlength : ((X.segments i).take p).length = p := List.length_take_of_le hp'.le
        have hsegment := @segment_eq ((X.segments i).take p) ((X.segments i).drop (p + 1)) (X.segments i)[p]
        rw [← hsplit, hlength] at hsegment
        rw [hsegment]
        exact hsorted i _ (List.getElem_mem hp')

end Packing
end Taco
