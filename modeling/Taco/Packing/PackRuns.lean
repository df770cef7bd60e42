import Taco.Packing.Pack

/-! What packing makes of sorted coordinates: the segments of each level and the values, in order. -/

namespace Taco
namespace Packing

variable {V : Type}

/-! ### Segments and values -/

/-- The segments of each level, and the values. -/
structure Packed (V : Type) where
  segments : ℕ → List (List ℕ)
  values : List V

namespace Packed

def nil : Packed V := ⟨fun _ => [], []⟩

instance : Append (Packed V) := ⟨fun D E => ⟨fun i => D.segments i ++ E.segments i, D.values ++ E.values⟩⟩

def value (v : V) : Packed V := ⟨fun _ => [], [v]⟩

def segment (i : ℕ) (crd : List ℕ) : Packed V := ⟨fun l => if l = i then [crd] else [], []⟩

def join : List (Packed V) → Packed V
  | [] => nil
  | D :: Ds => D ++ join Ds

@[simp] theorem append_segments (D E : Packed V) (i : ℕ) : (D ++ E).segments i = D.segments i ++ E.segments i := rfl

@[simp] theorem append_values (D E : Packed V) : (D ++ E).values = D.values ++ E.values := rfl

theorem append_assoc (D E F : Packed V) : (D ++ E) ++ F = D ++ (E ++ F) := by
  show Packed.mk _ _ = Packed.mk _ _
  simp

@[simp] theorem append_nil (D : Packed V) : D ++ nil = D := by
  show Packed.mk _ _ = D
  simp [nil]

@[simp] theorem nil_append (D : Packed V) : nil ++ D = D := rfl

@[simp] theorem segment_self (i : ℕ) (crd : List ℕ) : (segment i crd : Packed V).segments i = [crd] := if_pos rfl

theorem segment_of_ne {i l : ℕ} (h : l ≠ i) (crd : List ℕ) : (segment i crd : Packed V).segments l = [] := if_neg h

/-- The sizes are in an `int`. -/
def InRange (numBytes : ℕ) (D : Packed V) : Prop :=
  D.values.length * numBytes < 2 ^ 31 ∧ ∀ i, (D.segments i).flatten.length < 2 ^ 31

theorem InRange.of_append {numBytes : ℕ} {D E : Packed V} (h : (D ++ E).InRange numBytes) : D.InRange numBytes := by
  obtain ⟨hvalues, hsegments⟩ := h
  constructor
  · refine lt_of_le_of_lt (Nat.mul_le_mul_right _ ?_) hvalues
    simp
  · intro i
    refine lt_of_le_of_lt ?_ (hsegments i)
    simp

end Packed

/-- The coordinates that are below a level, for coordinates at places of the vectors. -/
def keys (coords : ℕ → ℕ → ℕ) (level : Level) (i : ℕ) (ks : List ℕ) : List ℕ :=
  match level.modeFormat with
  | .dense => List.range level.dimension
  | .sparse => (ks.map (coords i)).dedup

/-- The places of a coordinate. -/
def placesOf (coords : ℕ → ℕ → ℕ) (i : ℕ) (ks : List ℕ) (j : ℕ) : List ℕ := ks.filter (coords i · = j)

/-- What the level itself stores of a segment. -/
def ownSegment (level : Level) (i : ℕ) (crd : List ℕ) : Packed V :=
  match level.modeFormat with
  | .dense => .nil
  | .sparse => .segment i crd

/-- What the components at places of the vectors are packed to. -/
def packed [Zero V] (coords : ℕ → ℕ → ℕ) (vals : ℕ → V) : List Level → ℕ → List ℕ → Packed V
  | [], _, ks => .value (ks.head?.elim 0 vals)
  | level :: levels, i, ks =>
    ownSegment level i (keys coords level i ks) ++
      .join ((keys coords level i ks).map fun j => packed coords vals levels (i + 1) (placesOf coords i ks j))

/-! ### Buffers -/

/-- The ends of segments behind the first `n` entries. -/
def ends : ℕ → List (List ℕ) → List ℕ
  | _, [] => []
  | n, crd :: segments => (n + crd.length) :: ends (n + crd.length) segments

theorem ends_append (n : ℕ) (segments segments' : List (List ℕ)) :
    ends n (segments ++ segments') = ends n segments ++ ends (n + segments.flatten.length) segments' := by
  induction segments generalizing n with
  | nil => simp [ends]
  | cons crd segments ih => simp [ends, ih, Nat.add_assoc]

/-- The arrays of a level with segments. -/
def levelIndex (level : Level) (segments : List (List ℕ)) : LevelIndex where
  pos := match level.modeFormat with
    | .dense => []
    | .sparse => 0 :: (ends 0 segments).map fun n : ℕ => level.coordinateTypePos.conv n
  crd := segments.flatten

def arrays (levels : List Level) (D : Packed V) (i : ℕ) : LevelIndex :=
  levels[i]?.elim ⟨[], (D.segments i).flatten⟩ fun level => levelIndex level (D.segments i)

/-- The buffers that hold what is packed. -/
def buffersOf (levels : List Level) (numBytes : ℕ) (D : Packed V) : Buffers V where
  indices := arrays levels D
  values := D.values
  valuesIndex := D.values.length * numBytes

theorem arrays_congr {levels : List Level} {D E : Packed V} {i : ℕ} (h : D.segments i = E.segments i) :
    arrays levels D i = arrays levels E i := by
  rw [arrays, arrays, h]

theorem buffersOf_nil (levels : List Level) (numBytes : ℕ) : buffersOf levels numBytes (.nil : Packed V) = .init levels := by
  have hindices : ∀ i, arrays levels (.nil : Packed V) i = (Buffers.init levels : Buffers V).indices i := by
    intro i
    show _ = if levels[i]?.any (·.modeFormat = .sparse) then (⟨[0], []⟩ : LevelIndex) else ⟨[], []⟩
    unfold arrays
    cases levels[i]? with
    | none => rfl
    | some level => cases hmode : level.modeFormat <;> simp [levelIndex, hmode, Packed.nil, ends]
  show Buffers.mk _ _ _ = Buffers.mk _ _ _
  rw [show arrays levels (.nil : Packed V) = _ from funext hindices]
  simp [Packed.nil, Buffers.init]

/-! ### Steps -/

theorem toInt_eq {n : ℕ} : toInt n = if n < 2 ^ 31 then some (n : ℤ) else none := by
  unfold toInt
  split_ifs <;> first | rfl | omega

theorem castInt_eq {n : ℕ} (h : n < 2 ^ 31) : castInt n = n := by
  unfold castInt
  rw [Int.bmod_def]
  split_ifs <;> omega

/-- The buffers come to hold what is packed, if its sizes are in range. -/
def Becomes (levels : List Level) (numBytes : ℕ) (o : Option (Buffers V)) (D : Packed V) : Prop :=
  (D.InRange numBytes → o = some (buffersOf levels numBytes D)) ∧ (¬ D.InRange numBytes → o = none)

section

variable {levels : List Level} {numBytes : ℕ} {D E : Packed V}

theorem Becomes.bind {o : Option (Buffers V)} {f : Buffers V → Option (Buffers V)} (h : Becomes levels numBytes o D)
    (hf : D.InRange numBytes → Becomes levels numBytes (f (buffersOf levels numBytes D)) (D ++ E)) :
    Becomes levels numBytes (o.bind f) (D ++ E) := by
  by_cases hD : D.InRange numBytes
  · rw [h.1 hD]
    exact hf hD
  · rw [h.2 hD]
    exact ⟨fun hE => absurd hE.of_append hD, fun _ => rfl⟩

theorem becomes_putValue (hD : D.InRange numBytes) (v : V) :
    Becomes levels numBytes (putValue numBytes v (buffersOf levels numBytes D)) (D ++ .value v) := by
  have hbytes : (buffersOf levels numBytes D).valuesIndex + numBytes = ((D.values.length + 1) * numBytes : ℕ) := by
    simp [buffersOf, add_mul]
  have hlength : (D ++ .value v).values.length = D.values.length + 1 := by simp [Packed.value]
  have hsegments : ∀ i, (D ++ .value v).segments i = D.segments i := fun i => by simp [Packed.value]
  unfold putValue
  rw [hbytes, toInt_eq]
  constructor
  · rintro ⟨hvalues, -⟩
    rw [hlength] at hvalues
    rw [if_pos hvalues, Option.map_some]
    have hindices : arrays levels D = arrays levels (D ++ .value v) := funext fun i => arrays_congr (hsegments i).symm
    simp only [buffersOf, hindices, hlength]
    rfl
  · intro hnot
    rw [if_neg, Option.map_none]
    refine fun hvalues => hnot ⟨by rwa [hlength], fun i => ?_⟩
    rw [hsegments]
    exact hD.2 i

theorem becomes_pushSegment {level : Level} {i : ℕ} {crd : List ℕ} (hD : D.InRange numBytes) (hlevel : levels[i]? = some level)
    (hmode : level.modeFormat = .sparse) (hcrd : crd.length < 2 ^ 31) :
    Becomes levels numBytes (pushSegment level.coordinateTypePos i crd (buffersOf levels numBytes D))
      (D ++ .segment i crd) := by
  have hindex : (buffersOf levels numBytes D).indices i = levelIndex level (D.segments i) := by
    simp [buffersOf, arrays, hlevel]
  have hsum : castInt (levelIndex level (D.segments i)).crd.length + castInt crd.length =
      ((D.segments i).flatten.length + crd.length : ℕ) := by
    rw [castInt_eq hcrd, show (levelIndex level (D.segments i)).crd = (D.segments i).flatten from rfl, castInt_eq (hD.2 i)]
    push_cast
    rfl
  have hlength : ((D ++ .segment i crd).segments i).flatten.length = (D.segments i).flatten.length + crd.length := by
    simp
  unfold pushSegment
  rw [hindex]
  dsimp only
  rw [hsum, toInt_eq]
  constructor
  · rintro ⟨-, hsegments⟩
    rw [if_pos (hlength ▸ hsegments i), Option.map_some]
    have hindices : Function.update (buffersOf levels numBytes D).indices i
        ⟨(levelIndex level (D.segments i)).pos ++
          [level.coordinateTypePos.conv ((D.segments i).flatten.length + crd.length : ℕ)],
          (levelIndex level (D.segments i)).crd ++ crd⟩ = arrays levels (D ++ .segment i crd) := by
      funext l
      by_cases hl : l = i
      · subst hl
        simp [arrays, hlevel, levelIndex, hmode, ends_append, ends]
      · rw [Function.update_of_ne hl]
        simp [buffersOf, arrays, Packed.segment_of_ne hl]
    rw [hindices]
    simp [buffersOf, Packed.segment]
  · intro hnot
    rw [if_neg, Option.map_none]
    refine fun hle => hnot ⟨by simpa [Packed.segment] using hD.1, fun l => ?_⟩
    by_cases hl : l = i
    · subst hl
      rwa [hlength]
    · simpa [Packed.segment_of_ne hl] using hD.2 l

end

/-! ### Segments of sorted coordinates -/

/-- The coordinates of a range are sorted from a level on. -/
def Ordered (coords : ℕ → ℕ → ℕ) (i begin stop : ℕ) : Prop :=
  ∀ k k', begin ≤ k → k ≤ k' → k' < stop → ∀ l ≥ i, (∀ l', i ≤ l' → l' < l → coords l' k = coords l' k') →
    coords l k ≤ coords l k'

theorem Ordered.mono {coords : ℕ → ℕ → ℕ} {i begin stop k k' : ℕ} (h : Ordered coords i begin stop) (hk : begin ≤ k)
    (hkk' : k ≤ k') (hk' : k' < stop) : coords i k ≤ coords i k' :=
  h k k' hk hkk' hk' i le_rfl fun _ hl hl' => absurd (hl.trans_lt hl') (lt_irrefl i)

/-- Where the coordinates of a level are the same, those of the next one are sorted. -/
theorem Ordered.next {coords : ℕ → ℕ → ℕ} {i begin stop begin' stop' j : ℕ} (h : Ordered coords i begin stop)
    (hbegin : begin ≤ begin') (hstop : stop' ≤ stop) (hj : ∀ k, begin' ≤ k → k < stop' → coords i k = j) :
    Ordered coords (i + 1) begin' stop' := by
  intro k k' hk hkk' hk' l hl heq
  refine h k k' (hbegin.trans hk) hkk' (hk'.trans_le hstop) l (by omega) fun l' hl' hlt => ?_
  rcases hl'.eq_or_lt with rfl | hgt
  · rw [hj k hk (hkk'.trans_lt hk'), hj k' (hk.trans hkk') hk']
  · exact heq l' hgt hlt

theorem segmentEnd_spec (v : ℕ → ℕ) (j stop cbegin : ℕ) (h : cbegin ≤ stop) :
    cbegin ≤ segmentEnd v j stop cbegin ∧ segmentEnd v j stop cbegin ≤ stop ∧
      (∀ k, cbegin ≤ k → k < segmentEnd v j stop cbegin → v k = j) ∧
      (segmentEnd v j stop cbegin < stop → v (segmentEnd v j stop cbegin) ≠ j) := by
  induction hn : stop - cbegin generalizing cbegin with
  | zero =>
    have heq : segmentEnd v j stop cbegin = cbegin := by
      rw [segmentEnd, if_neg (by omega)]
    rw [heq]
    exact ⟨le_rfl, h, fun k hk hk' => absurd (hk.trans_lt hk') (lt_irrefl _), fun hlt => by omega⟩
  | succ n ih =>
    by_cases hj : v cbegin = j
    · have heq : segmentEnd v j stop cbegin = segmentEnd v j stop (cbegin + 1) := by
        rw [segmentEnd, if_pos ⟨by omega, hj⟩]
      obtain ⟨hle, hstop, hall, hnext⟩ := ih (cbegin + 1) (by omega) (by omega)
      rw [heq]
      refine ⟨by omega, hstop, fun k hk hk' => ?_, hnext⟩
      rcases hk.eq_or_lt with rfl | hlt
      · exact hj
      · exact hall k hlt hk'
    · have heq : segmentEnd v j stop cbegin = cbegin := by
        rw [segmentEnd, if_neg fun h' => hj h'.2]
      rw [heq]
      exact ⟨le_rfl, h, fun k hk hk' => absurd (hk.trans_lt hk') (lt_irrefl _), fun _ => hj⟩

/-- The places of a range. -/
def places (begin stop : ℕ) : List ℕ := List.range' begin (stop - begin)

theorem mem_places {begin stop k : ℕ} : k ∈ places begin stop ↔ begin ≤ k ∧ k < stop := by
  unfold places
  rw [List.mem_range'_1]
  omega

theorem places_append {begin mid stop : ℕ} (h : begin ≤ mid) (h' : mid ≤ stop) :
    places begin mid ++ places mid stop = places begin stop := by
  unfold places
  rw [show stop - begin = (mid - begin) + (stop - mid) by omega, ← List.range'_append]
  congr 2
  omega

/-- The places of the first coordinate of a sorted range are before those of the others. -/
theorem placesOf_segment {coords : ℕ → ℕ → ℕ} {i j stop cbegin : ℕ} {js : List ℕ} (hsorted : (j :: js).Pairwise (· < ·))
    (hstop : cbegin ≤ stop) (hmono : ∀ k k', cbegin ≤ k → k ≤ k' → k' < stop → coords i k ≤ coords i k')
    (hmem : ∀ k ∈ places cbegin stop, coords i k ∈ j :: js) :
    placesOf coords i (places cbegin stop) j = places cbegin (segmentEnd (coords i) j stop cbegin) ∧
      (∀ j' ∈ js, placesOf coords i (places cbegin stop) j' =
        placesOf coords i (places (segmentEnd (coords i) j stop cbegin) stop) j') ∧
      ∀ k ∈ places (segmentEnd (coords i) j stop cbegin) stop, coords i k ∈ js := by
  obtain ⟨hle, hle', hall, hnext⟩ := segmentEnd_spec (coords i) j stop cbegin hstop
  have hlt : ∀ j' ∈ js, j < j' := fun j' hj' => List.rel_of_pairwise_cons hsorted hj'
  have hbefore : ∀ k ∈ places cbegin (segmentEnd (coords i) j stop cbegin), coords i k = j := fun k hk =>
    hall k (mem_places.mp hk).1 (mem_places.mp hk).2
  have hafter : ∀ k ∈ places (segmentEnd (coords i) j stop cbegin) stop, coords i k ∈ js := by
    intro k hk
    obtain ⟨hk, hk'⟩ := mem_places.mp hk
    have hfirst : coords i (segmentEnd (coords i) j stop cbegin) ∈ js :=
      (List.mem_cons.mp (hmem _ (mem_places.mpr ⟨hle, by omega⟩))).resolve_left (hnext (by omega))
    refine (List.mem_cons.mp (hmem k (mem_places.mpr ⟨hle.trans hk, hk'⟩))).resolve_left fun heq => ?_
    have := hmono _ k hle hk hk'
    have := hlt _ hfirst
    omega
  refine ⟨?_, fun j' hj' => ?_, hafter⟩
  · rw [← places_append hle hle', placesOf, List.filter_append, List.filter_eq_self.mpr (by simpa using hbefore),
      List.filter_eq_nil_iff.mpr, List.append_nil]
    intro k hk heq
    have := hlt _ (hafter k hk)
    simp only [decide_eq_true_eq] at heq
    omega
  · rw [← places_append hle hle', placesOf, List.filter_append, List.filter_eq_nil_iff.mpr, List.nil_append, placesOf]
    intro k hk heq
    have := hlt _ hj'
    simp only [decide_eq_true_eq, hbefore k hk] at heq
    omega

/-- The segments of a level are packed one after the other. -/
theorem becomes_packSegments {levels : List Level} {numBytes : ℕ} {coords : ℕ → ℕ → ℕ} {i stop cbegin : ℕ} {js : List ℕ}
    {D : Packed V} {packNext : ℕ → ℕ → Buffers V → Option (Buffers V)} {next : List ℕ → Packed V}
    (hsorted : js.Pairwise (· < ·)) (hstop : cbegin ≤ stop)
    (hmono : ∀ k k', cbegin ≤ k → k ≤ k' → k' < stop → coords i k ≤ coords i k')
    (hmem : ∀ k ∈ places cbegin stop, coords i k ∈ js) (hD : D.InRange numBytes)
    (hnext : ∀ begin' stop' j D, cbegin ≤ begin' → begin' ≤ stop' → stop' ≤ stop → (∀ k, begin' ≤ k → k < stop' → coords i k = j) →
      D.InRange numBytes →
      Becomes levels numBytes (packNext begin' stop' (buffersOf levels numBytes D)) (D ++ next (places begin' stop'))) :
    Becomes levels numBytes (packSegments packNext (coords i) stop js cbegin (buffersOf levels numBytes D))
      (D ++ .join (js.map fun j => next (placesOf coords i (places cbegin stop) j))) := by
  induction js generalizing cbegin D with
  | nil =>
    rw [List.map_nil, Packed.join, Packed.append_nil]
    exact ⟨fun _ => rfl, fun hnot => absurd hD hnot⟩
  | cons j js ih =>
    obtain ⟨hle, hle', hall, -⟩ := segmentEnd_spec (coords i) j stop cbegin hstop
    obtain ⟨hfirst, hrest, hmem'⟩ := placesOf_segment hsorted hstop hmono hmem
    have hmap : (js.map fun j' => next (placesOf coords i (places cbegin stop) j')) =
        js.map fun j' => next (placesOf coords i (places (segmentEnd (coords i) j stop cbegin) stop) j') :=
      List.map_congr_left fun j' hj' => by rw [hrest j' hj']
    rw [List.map_cons, Packed.join, ← Packed.append_assoc, hfirst, hmap]
    refine (hnext _ _ j D le_rfl hle hle' hall hD).bind fun hD' => ?_
    exact ih hsorted.of_cons hle' (fun k k' hk => hmono k k' (hle.trans hk)) hmem' hD'
      fun begin' stop' j' E hbegin => hnext begin' stop' j' E (hle.trans hbegin)

/-! ### Unique entries -/

/-- The entries up to a place, with the last of them. -/
theorem getUniqueEntries_fold {v : ℕ → ℕ} {begin n : ℕ} (hmono : ∀ k k', begin ≤ k → k ≤ k' → k' ≤ begin + n → v k ≤ v k') :
    ∃ entries, ((List.range' (begin + 1) n).foldl (fun (prev, uniqueEntries) j =>
        if v j > prev then (v j, uniqueEntries ++ [v j]) else (prev, uniqueEntries)) (v begin, [v begin])) =
      (v (begin + n), entries) ∧ entries.Pairwise (· < ·) ∧ (∀ x ∈ entries, x ≤ v (begin + n)) ∧
        ∀ x, x ∈ entries ↔ ∃ k, begin ≤ k ∧ k ≤ begin + n ∧ v k = x := by
  induction n with
  | zero =>
    refine ⟨[v begin], rfl, List.pairwise_singleton _ _, by simp, fun x => ?_⟩
    rw [List.mem_singleton]
    exact ⟨fun h => ⟨begin, le_rfl, le_rfl, h.symm⟩, fun ⟨k, hk, hk', h⟩ => by rw [← h, show k = begin by omega]⟩
  | succ n ih =>
    obtain ⟨entries, hfold, hsorted, hle, hmem⟩ := ih fun k k' hk hkk' hk' => hmono k k' hk hkk' (by omega)
    rw [List.range'_concat, List.foldl_append, hfold, List.foldl_cons, List.foldl_nil,
      show begin + 1 + 1 * n = begin + (n + 1) by omega]
    dsimp only
    have hlast := hmono (begin + n) (begin + (n + 1)) (by omega) (by omega) le_rfl
    have hsplit : ∀ x, (∃ k, begin ≤ k ∧ k ≤ begin + (n + 1) ∧ v k = x) ↔ x ∈ entries ∨ x = v (begin + (n + 1)) := by
      intro x
      rw [hmem]
      constructor
      · rintro ⟨k, hk, hk', rfl⟩
        rcases hk'.eq_or_lt with rfl | hlt
        · exact .inr rfl
        · exact .inl ⟨k, hk, by omega, rfl⟩
      · rintro (⟨k, hk, hk', rfl⟩ | rfl)
        · exact ⟨k, hk, by omega, rfl⟩
        · exact ⟨_, by omega, le_rfl, rfl⟩
    by_cases hgt : v (begin + (n + 1)) > v (begin + n)
    · rw [if_pos hgt]
      refine ⟨_, rfl, ?_, ?_, fun x => by rw [hsplit]; simp⟩
      · refine List.pairwise_append.mpr ⟨hsorted, List.pairwise_singleton _ _, fun x hx y hy => ?_⟩
        rw [List.mem_singleton.mp hy]
        exact (hle x hx).trans_lt hgt
      · intro x hx
        rcases List.mem_append.mp hx with hx | hx
        · exact (hle x hx).trans hlast
        · exact (List.mem_singleton.mp hx).le
    · rw [if_neg hgt]
      have heq : v (begin + n) = v (begin + (n + 1)) := by omega
      refine ⟨entries, by rw [heq], hsorted, fun x hx => (hle x hx).trans hlast, fun x => ?_⟩
      rw [hsplit]
      refine ⟨.inl, fun h => h.elim id fun hx => (hmem x).mpr ⟨begin + n, by omega, le_rfl, ?_⟩⟩
      rw [heq, hx]

theorem dedup_sorted {v : ℕ → ℕ} {ks : List ℕ} (h : (ks.map v).Pairwise (· ≤ ·)) : (ks.map v).dedup.Pairwise (· < ·) := by
  have hle := h.sublist (List.dedup_sublist _)
  have hne : (ks.map v).dedup.Pairwise (· ≠ ·) := List.nodup_dedup _
  exact (hle.and hne).imp fun h => lt_of_le_of_ne h.1 h.2

theorem places_sorted {v : ℕ → ℕ} {begin stop : ℕ} (hmono : ∀ k k', begin ≤ k → k ≤ k' → k' < stop → v k ≤ v k') :
    ((places begin stop).map v).Pairwise (· ≤ ·) := by
  refine List.pairwise_map.mpr (List.Pairwise.imp_of_mem ?_ (List.pairwise_lt_range' (s := begin)))
  exact fun {k k'} hk hk' hlt => hmono k k' (mem_places.mp hk).1 hlt.le (mem_places.mp hk').2

theorem getUniqueEntries_eq {v : ℕ → ℕ} {begin stop : ℕ} (hmono : ∀ k k', begin ≤ k → k ≤ k' → k' < stop → v k ≤ v k') :
    getUniqueEntries v begin stop = ((places begin stop).map v).dedup := by
  unfold getUniqueEntries
  by_cases hne : stop - begin > 0
  · rw [if_pos hne]
    obtain ⟨entries, hfold, hsorted, -, hmem⟩ := @getUniqueEntries_fold v begin (stop - (begin + 1))
      fun k k' hk hkk' hk' => hmono k k' hk hkk' (by omega)
    rw [hfold]
    refine List.Pairwise.eq_of_mem_iff hsorted (dedup_sorted (places_sorted hmono)) fun x => ?_
    rw [hmem, List.mem_dedup, List.mem_map]
    simp only [mem_places]
    exact ⟨fun ⟨k, hk, hk', hx⟩ => ⟨k, ⟨hk, by omega⟩, hx⟩, fun ⟨k, ⟨hk, hk'⟩, hx⟩ => ⟨k, hk, by omega, hx⟩⟩
  · rw [if_neg hne, places, show stop - begin = 0 by omega]
    rfl

theorem length_le_of_sorted {l : List ℕ} {n : ℕ} (h : l.Pairwise (· < ·)) (hl : ∀ x ∈ l, x < n) : l.length ≤ n := by
  have hnodup : l.Nodup := h.imp fun h => h.ne
  have hsub : l.toFinset ⊆ Finset.range n := fun x hx => Finset.mem_range.mpr (hl x (List.mem_toFinset.mp hx))
  rw [← List.toFinset_card_of_nodup hnodup]
  exact (Finset.card_le_card hsub).trans (Finset.card_range n).le

/-! ### The whole tensor -/

/-- The coordinates of each level are within its dimension. -/
def Within (coords : ℕ → ℕ → ℕ) (levels : List Level) (i : ℕ) (ks : List ℕ) : Prop :=
  ∀ l level, levels[l]? = some level → ∀ k ∈ ks, coords (i + l) k < level.dimension

theorem Within.next {coords : ℕ → ℕ → ℕ} {level : Level} {levels : List Level} {i : ℕ} {ks ks' : List ℕ}
    (h : Within coords (level :: levels) i ks) (hks : ∀ k ∈ ks', k ∈ ks) : Within coords levels (i + 1) ks' := by
  intro l level' hl k hk
  have := h (l + 1) level' (by simpa using hl) k (hks k hk)
  rwa [Nat.add_assoc, Nat.add_comm 1 l]

theorem Within.head {coords : ℕ → ℕ → ℕ} {level : Level} {levels : List Level} {i : ℕ} {ks : List ℕ}
    (h : Within coords (level :: levels) i ks) : ∀ k ∈ ks, coords i k < level.dimension := h 0 level rfl

/-- Sorted coordinates are packed to the segments of their levels. -/
theorem becomes_packTensor [Zero V] {coords : ℕ → ℕ → ℕ} {vals : ℕ → V} {numBytes : ℕ} {all levels : List Level}
    {i begin stop : ℕ} {D : Packed V} (hall : all.drop i = levels) (hstop : begin ≤ stop) (hordered : Ordered coords i begin stop)
    (hwithin : Within coords levels i (places begin stop)) (hD : D.InRange numBytes) :
    Becomes all numBytes (packTensor coords vals numBytes levels i begin stop (buffersOf all numBytes D))
      (D ++ packed coords vals levels i (places begin stop)) := by
  induction levels generalizing i begin stop D with
  | nil =>
    have hvalue : (places begin stop).head?.elim 0 vals = if begin < stop then vals begin else 0 := by
      unfold places
      split
      · rename_i hlt
        rw [show stop - begin = (stop - begin - 1) + 1 by omega]
        rfl
      · rename_i hge
        rw [show stop - begin = 0 by omega]
        rfl
    rw [packed, packTensor, hvalue]
    exact becomes_putValue hD _
  | cons level levels ih =>
    have hlevel : all[i]? = some level := by
      rw [← List.head?_drop, hall]
      rfl
    have hnext : all.drop (i + 1) = levels := by
      rw [← List.tail_drop, hall]
      rfl
    have hmono : ∀ k k', begin ≤ k → k ≤ k' → k' < stop → coords i k ≤ coords i k' := fun k k' => hordered.mono
    have hsub : ∀ begin' stop' j D, begin ≤ begin' → begin' ≤ stop' → stop' ≤ stop →
        (∀ k, begin' ≤ k → k < stop' → coords i k = j) → Packed.InRange numBytes D → Becomes all numBytes
          (packTensor coords vals numBytes levels (i + 1) begin' stop' (buffersOf all numBytes D))
          (D ++ packed coords vals levels (i + 1) (places begin' stop')) := by
      intro begin' stop' j D hbegin hle hstop' hj hD
      refine ih hnext hle (hordered.next hbegin hstop' hj) (hwithin.next fun k hk => ?_) hD
      obtain ⟨hk, hk'⟩ := mem_places.mp hk
      exact mem_places.mpr ⟨hbegin.trans hk, hk'.trans_le hstop'⟩
    have hsorted := places_sorted hmono
    rw [packed, packTensor]
    cases hmode : level.modeFormat with
    | dense =>
      simp only [ownSegment, keys, hmode]
      exact becomes_packSegments List.pairwise_lt_range hstop hmono (fun k hk => List.mem_range.mpr (hwithin.head k hk)) hD hsub
    | sparse =>
      have hlength : ((places begin stop).map (coords i)).dedup.length < 2 ^ 31 :=
        (length_le_of_sorted (dedup_sorted hsorted) fun x hx => by
          obtain ⟨k, hk, rfl⟩ := List.mem_map.mp (List.mem_dedup.mp hx)
          exact hwithin.head k hk).trans_lt level.dimension_lt
      simp only [ownSegment, keys, hmode]
      rw [getUniqueEntries_eq hmono, castInt_eq hlength, Int.toNat_natCast, List.take_length, ← Packed.append_assoc]
      refine (becomes_pushSegment hD hlevel hmode hlength).bind fun hD' => ?_
      refine becomes_packSegments (dedup_sorted hsorted) hstop hmono (fun k hk => ?_) hD' hsub
      exact List.mem_dedup.mpr (List.mem_map_of_mem hk)

end Packing
end Taco
