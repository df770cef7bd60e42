import Taco.Lower.AssembledResult

/-! Two kernels for a result, one that assembles it and one that computes its values: what both leave is what one kernel that does
both would. -/

namespace Taco
namespace Assembly

variable {V : Type} {result : Result}

/-! ### The kernel that computes the values -/

def Level.hasAppend : Level → Bool
  | dense _ _ => false
  | compressed _ => true

/-- `isLastAppender`, of a level that appends, by the levels below it. -/
def isLastAppender (below : List Level) : Bool := !below.any Level.hasAppend

def getSize (szPrev : ℕ) (a : LevelArrays) : ℕ := a.posArray.data szPrev

/-- The number of values of a result that is assembled. -/
def valuesSize : Size → (levels : List Level) → Arrays V levels → Size
  | parentSize, [], _ => parentSize
  | parentSize, .dense n isFixed :: levels, arrays => valuesSize (parentSize.mul (getWidth n isFixed)) levels arrays
  | parentSize, .compressed _ :: levels, (a, arrays) => valuesSize (.computed (getSize parentSize.value a)) levels arrays

def valuesOf : (levels : List Level) → Arrays V levels → Growable V
  | [], values => values
  | .dense _ _ :: levels, arrays => valuesOf levels arrays
  | .compressed _ :: levels, (_, arrays) => valuesOf levels arrays

def setValues : (levels : List Level) → Growable V → Arrays V levels → Arrays V levels
  | [], values, _ => values
  | .dense _ _ :: levels, values, arrays => setValues levels values arrays
  | .compressed _ :: levels, values, (a, arrays) => (a, setValues levels values arrays)

/-- What the values are below. -/
def lastParent : Parent → List Level → Parent
  | parent, [] => parent
  | _, .dense _ _ :: levels => lastParent .insert levels
  | _, .compressed _ :: levels => lastParent .append levels

section

variable [Zero V] [Add V] (result : Result)

/-- `resizeAndInitValues` where the values do not grow. -/
def initValue : (below : List Level) → ℕ → Growable V → Option (Growable V)
  | [], pos, values => if result.reduced then values.store pos 0 else some values
  | _ :: _, _, values => some values

/-- `lowerForallBody` of the last level that appends: only its position is counted. -/
def computeBody (levels : List Level) (lower : ℕ → result.Visits V levels → Growable V × ℕ → Option (Growable V × ℕ))
    (st : Growable V × ℕ) (visit : ℕ × result.Visits V levels) : Option (Growable V × ℕ) := do
  let values ← initValue result levels st.2 st.1
  let (values, posVar) ← lower st.2 visit.2 (values, st.2)
  return (values, posVar + 1)

/-- The loops over the levels, below a position of the parent where it has one, on the values and the position variable of the
    last level that appends. -/
def computeForall : Option ℕ → (levels : List Level) → result.Visits V levels → Growable V × ℕ → Option (Growable V × ℕ)
  | pos, [], assigned, st => do
    let pos ← pos
    let values ← assigned.val.foldlM (assign result pos) st.1
    return (values, st.2)
  | pos, .dense n _ :: levels, visits, st =>
    visits.val.foldlM (fun st visit => computeForall (pos.map fun pos => pos * n + visit.1) levels visit.2 st) st
  | _, .compressed _ :: levels, visits, st =>
    -- the position variables of the other levels that append are not declared
    if isLastAppender levels then
      visits.val.foldlM (computeBody result levels fun pos visits st => computeForall (some pos) levels visits st) st
    else visits.val.foldlM (fun st visit => computeForall none levels visit.2 st) st

/-- `initResultArrays` for a result that is assembled: its values are set to zero if some may not be assigned. -/
def zeroInitValues (above : Parent) (size : Size) (values : Growable V) : Option (Growable V) :=
  if above = .insert ∧ size ≠ .literal 0 ∧ result.zeroes then values.fill 0 0 size.value else some values

/-- The kernel that computes the values of an assembled result. -/
def compute (levels : List Level) (visits : result.Visits V levels) (arrays : Arrays V levels) : Option (Arrays V levels) := do
  let size := valuesSize (.literal 1) levels arrays
  let values ← zeroInitValues result (lastParent .root levels) size (valuesOf levels arrays)
  let (values, _) ← computeForall result (some 0) levels visits (values, 0)
  return setValues levels values arrays

end

/-! ### The values of slots -/

/-- What is assigned to the values below slots, in the order of the values. -/
def leaves : (levels : List Level) → List (Option (result.Visits V levels)) → List (Option (List V))
  | [], slots => slots.map (Option.map assignedOf)
  | .dense _ _ :: levels, slots => leaves levels (slots.flatMap expand)
  | .compressed _ :: levels, slots => leaves levels ((slots.map slice).flatten.map fun visit => some visit.2)

/-- The number of values below a position of the last level that appends. -/
def stride : List Level → ℕ
  | [] => 1
  | .dense n _ :: levels => if isLastAppender levels then n * stride levels else stride levels
  | .compressed _ :: levels => stride levels

section

variable {levels : List Level} {n : ℕ} {isFixed : Bool}

theorem leaves_dense (slots : List (Option (result.Visits V (.dense n isFixed :: levels)))) :
    leaves (.dense n isFixed :: levels) slots = leaves levels (slots.flatMap expand) := rfl

theorem leaves_compressed (slots : List (Option (result.Visits V (.compressed n :: levels)))) :
    leaves (.compressed n :: levels) slots = leaves levels ((slots.map slice).flatten.map fun visit => some visit.2) := rfl

theorem leaves_append (levels : List Level) (slots slots' : List (Option (result.Visits V levels))) :
    leaves levels (slots ++ slots') = leaves levels slots ++ leaves levels slots' := by
  induction levels with
  | nil => exact List.map_append
  | cons level levels ih =>
    cases level with
    | dense n isFixed => rw [leaves_dense, leaves_dense, leaves_dense, List.flatMap_append, ih]
    | compressed n =>
      rw [leaves_compressed, leaves_compressed, leaves_compressed, List.map_append, List.flatten_append, List.map_append, ih]

theorem leaves_nil (levels : List Level) : leaves levels ([] : List (Option (result.Visits V levels))) = [] := by
  induction levels with
  | nil => rfl
  | cons level levels ih =>
    cases level with
    | dense n isFixed => exact ih
    | compressed n => exact ih

theorem stride_dense (hlast : isLastAppender levels = true) : stride (.dense n isFixed :: levels) = n * stride levels := by
  rw [stride, if_pos hlast]

theorem leaves_unvisited (hlast : isLastAppender levels = true) (k : ℕ) :
    leaves levels (List.replicate k (none : Option (result.Visits V levels))) = List.replicate (k * stride levels) none := by
  induction levels generalizing k with
  | nil => rw [stride, Nat.mul_one]; exact List.map_replicate
  | cons level levels ih =>
    cases level with
    | dense n isFixed =>
      have hbelow : isLastAppender levels = true := hlast
      rw [leaves_dense, flatMap_expand_replicate, ih hbelow, stride_dense hbelow, Nat.mul_assoc]
    | compressed n => exact (Bool.false_ne_true hlast).elim

theorem length_leaves (hlast : isLastAppender levels = true) (slots : List (Option (result.Visits V levels))) :
    (leaves levels slots).length = slots.length * stride levels := by
  induction levels with
  | nil => rw [stride, Nat.mul_one]; exact List.length_map _
  | cons level levels ih =>
    cases level with
    | dense n isFixed =>
      have hbelow : isLastAppender levels = true := hlast
      rw [leaves_dense, ih hbelow, length_flatMap_expand, stride_dense hbelow, Nat.mul_assoc]
    | compressed n => exact (Bool.false_ne_true hlast).elim

/-- Above a level that appends there are no values without a visit. -/
theorem leaves_unvisited_append (hlast : isLastAppender levels = false) (k : ℕ) :
    leaves levels (List.replicate k (none : Option (result.Visits V levels))) = [] := by
  induction levels generalizing k with
  | nil => cases hlast
  | cons level levels ih =>
    cases level with
    | dense n isFixed => rw [leaves_dense, flatMap_expand_replicate, ih hlast]
    | compressed n => rw [leaves_compressed, map_slice_replicate, List.flatten_replicate_nil, List.map_nil, leaves_nil]

theorem leaves_of_not_kept {visits : result.Visits V levels} (h : kept levels visits = false) :
    leaves levels [some visits] = [] := by
  cases levels with
  | nil => cases h
  | cons level levels =>
    cases level with
    | dense n isFixed => cases h
    | compressed n =>
      have hslice : slice (some visits) = [] := keptVisits_eq_nil.mpr h
      rw [leaves_compressed, List.map_singleton, hslice, List.flatten_singleton, List.map_nil, leaves_nil]

theorem leaves_map (visits : List (ℕ × result.Visits V levels)) :
    leaves levels (visits.map fun visit => some visit.2) = visits.flatMap fun visit => leaves levels [some visit.2] := by
  induction visits with
  | nil => exact leaves_nil levels
  | cons visit visits ih => rw [List.map_cons, ← List.singleton_append, leaves_append, ih, List.flatMap_cons]

/-- The visits of a dense level above one that appends, after others. -/
theorem leaves_slotsOf (hlast : isLastAppender levels = false) (done visits : List (ℕ × result.Visits V levels))
    (hsorted : ((done ++ visits).map Prod.fst).Pairwise (· < ·)) (hlt : ∀ i ∈ visits.map Prod.fst, i < n) :
    leaves levels (slotsOf n (done ++ visits)) =
      leaves levels (slotsOf n done) ++ visits.flatMap fun visit => leaves levels [some visit.2] := by
  induction visits generalizing done with
  | nil => rw [List.append_nil, List.flatMap_nil, List.append_nil]
  | cons visit visits ih =>
    obtain ⟨i, w⟩ := visit
    have hi : i < n := hlt i List.mem_cons_self
    have hdone := lt_of_sorted hsorted
    have hnext := ih (done ++ [(i, w)]) (by simpa using hsorted) fun j hj => hlt j (List.mem_cons_of_mem _ hj)
    have hbefore : leaves levels (slotsOf n done) = leaves levels (slotsOf i done) := by
      rw [slotsOf_before hi hdone, ← List.replicate_succ, leaves_append, leaves_unvisited_append hlast, List.append_nil]
    have hafter : leaves levels (slotsOf n (done ++ [(i, w)])) = leaves levels (slotsOf i done) ++ leaves levels [some w] := by
      rw [slotsOf_after hi hdone, List.append_cons, leaves_append, leaves_append, leaves_unvisited_append hlast, List.append_nil]
    rw [hafter, List.append_assoc, List.append_assoc, List.singleton_append] at hnext
    rw [hnext, hbefore, List.flatMap_cons]

theorem leaves_dense_visits (hlast : isLastAppender levels = false) (visits : result.Visits V (.dense n isFixed :: levels)) :
    leaves (.dense n isFixed :: levels) [some visits] = visits.val.flatMap fun visit => leaves levels [some visit.2] := by
  have h := leaves_slotsOf hlast [] visits.val visits.property.1 visits.property.2
  rw [slotsOf_nil, leaves_unvisited_append hlast] at h
  rw [leaves_dense, List.flatMap_singleton]
  exact h

theorem leaves_compressed_visits (visits : result.Visits V (.compressed n :: levels)) :
    leaves (.compressed n :: levels) [some visits] = visits.val.flatMap fun visit => leaves levels [some visit.2] := by
  rw [leaves_compressed, List.map_singleton, List.flatten_singleton, leaves_map]
  exact flatMap_filter_eq visits.val fun visit _ hkept => leaves_of_not_kept hkept

end

/-! ### The values of an assembled result -/

section

variable [Zero V] [Add V] {computes : Bool} {parent : Parent}

theorem valuesSize_eq (parentSize : Size) (levels : List Level) {arrays : Arrays V levels}
    {slots : List (Option (result.Visits V levels))} (h : Represents computes .finalized parent levels arrays slots)
    (hsize : parentSize.value = slots.length) : (valuesSize parentSize levels arrays).value = (leaves levels slots).length := by
  induction levels generalizing parent parentSize with
  | nil => exact hsize.trans (List.length_map _).symm
  | cons level levels ih =>
    cases level with
    | dense n isFixed =>
      exact ih (parentSize.mul (getWidth n isFixed)) h (by rw [length_flatMap_expand]; simp [hsize])
    | compressed n =>
      obtain ⟨a, arrays⟩ := arrays
      obtain ⟨hhold, hbelow⟩ := represents_compressed.mp h
      refine ih (.computed (getSize parentSize.value a)) hbelow ?_
      have hend := hhold.begins (Nat.le_refl _)
      rw [List.take_length, List.length_map] at hend
      rw [Size.value_computed, getSize, hsize, hend, List.length_map]

theorem leaves_fit (levels : List Level) {arrays : Arrays V levels} {slots : List (Option (result.Visits V levels))}
    (h : Represents computes .finalized parent levels arrays slots) :
    (leaves levels slots).length ≤ (valuesOf levels arrays).capacity := by
  induction levels generalizing parent with
  | nil => exact (List.length_map _).trans_le ((represents_nil.mp h).2 rfl)
  | cons level levels ih =>
    cases level with
    | dense n isFixed => exact ih h
    | compressed n => exact ih (represents_compressed.mp h).2

/-- With the values of its slots an assembled result is computed. -/
theorem represents_setValues (levels : List Level) {arrays : Arrays V levels} {slots : List (Option (result.Visits V levels))}
    (h : Represents computes .finalized parent levels arrays slots) {values : Growable V}
    (hvalues : values.Holds result.IsValue (leaves levels slots)) :
    Represents true .finalized parent levels (setValues levels values arrays) slots := by
  induction levels generalizing parent with
  | nil =>
    have hfits := hvalues.fits
    refine ⟨fun _ => ⟨hvalues, fun h => by cases h⟩, fun _ => ?_⟩
    exact (List.length_map _).symm.trans_le hfits
  | cons level levels ih =>
    cases level with
    | dense n isFixed => exact ih h hvalues
    | compressed n =>
      obtain ⟨hhold, hbelow⟩ := represents_compressed.mp h
      exact ⟨hhold, ih hbelow hvalues⟩

end

/-! ### Loops over dense levels -/

section

variable [Zero V] [Add V] {levels : List Level} {n : ℕ} {isFixed : Bool}

/-- A visit of a position that no level below appends to: its values are next. -/
def ComputesAt (result : Result) (levels : List Level) : Prop :=
  ∀ (visits : result.Visits V levels) (values : Growable V) (l : List (Option (List V))) (k p q : ℕ),
    values.Holds result.IsValue (l ++ List.replicate (stride levels + k) none) → l.length = p * stride levels →
      ∃ values', computeForall result (some p) levels visits (values, q) = some (values', q) ∧
        values'.Holds result.IsValue (l ++ leaves levels [some visits] ++ List.replicate k none)

theorem computesAt_nil : ComputesAt (V := V) result [] := by
  intro visits values l k p q h hp
  rw [stride, Nat.mul_one] at hp
  rw [stride, Nat.add_comm, List.replicate_succ] at h
  have hstart : values.Holds result.IsValue (l ++ some [] :: List.replicate k none) :=
    h.change fun hnone hreduced => hnone (by rw [Result.zeroes, hreduced rfl, Bool.or_true])
  obtain ⟨values', hassign, hholds, -⟩ := foldlM_assign visits.val hstart
  rw [hp] at hassign
  refine ⟨values', ?_, ?_⟩
  · show (visits.val.foldlM (assign result p) values >>= fun values => some (values, q)) = some (values', q)
    rw [hassign]
    rfl
  · rw [List.append_assoc]
    exact hholds

/-- The positions below one of a dense level. -/
theorem computeForall_positions (hlast : isLastAppender levels = true) (hins : ComputesAt (V := V) result levels) {p q k : ℕ}
    {l : List (Option (List V))} (hp : l.length = p * (n * stride levels)) (done visits : List (ℕ × result.Visits V levels))
    {values : Growable V} (hsorted : ((done ++ visits).map Prod.fst).Pairwise (· < ·))
    (hlt : ∀ i ∈ visits.map Prod.fst, i < n)
    (h : values.Holds result.IsValue (l ++ leaves levels (slotsOf n done) ++ List.replicate k none)) :
    ∃ values', visits.foldlM (fun st visit => computeForall result (some (p * n + visit.1)) levels visit.2 st) (values, q) =
        some (values', q) ∧
      values'.Holds result.IsValue (l ++ leaves levels (slotsOf n (done ++ visits)) ++ List.replicate k none) := by
  induction visits generalizing done values with
  | nil => exact ⟨values, rfl, by rwa [List.append_nil]⟩
  | cons visit visits ih =>
    obtain ⟨i, w⟩ := visit
    have hi : i < n := hlt i List.mem_cons_self
    have hdone := lt_of_sorted hsorted
    rw [slotsOf_before hi hdone, ← List.replicate_succ, leaves_append, leaves_unvisited hlast, Nat.succ_mul, Nat.add_comm,
      ← List.append_assoc, List.append_assoc, ← List.replicate_add, Nat.add_assoc] at h
    -- the values before this position are those of the positions below `i`
    obtain ⟨values₁, hbody, hholds⟩ := hins w values (l ++ leaves levels (slotsOf i done)) ((n - i - 1) * stride levels + k)
      (p * n + i) q h (by rw [List.length_append, length_leaves hlast, length_slotsOf, hp, Nat.add_mul, Nat.mul_assoc])
    obtain ⟨values₂, hloop, hholds'⟩ := ih (done ++ [(i, w)]) (by simpa using hsorted)
      (fun j hj => hlt j (List.mem_cons_of_mem _ hj)) (by
        rw [slotsOf_after hi hdone, List.append_cons, leaves_append, leaves_append, leaves_unvisited hlast]
        rw [List.replicate_add] at hholds
        simpa only [List.append_assoc] using hholds)
    refine ⟨values₂, ?_, by simpa using hholds'⟩
    rw [List.foldlM_cons, hbody]
    exact hloop

theorem computesAt_dense (hlast : isLastAppender levels = true) (hins : ComputesAt (V := V) result levels) :
    ComputesAt (V := V) result (.dense n isFixed :: levels) := by
  intro visits values l k p q h hp
  rw [stride_dense hlast] at h hp
  obtain ⟨values', hloop, hholds⟩ := computeForall_positions hlast hins (q := q) hp [] visits.val visits.property.1
    visits.property.2 (by rwa [slotsOf_nil, leaves_unvisited hlast, List.append_assoc, ← List.replicate_add])
  refine ⟨values', hloop, ?_⟩
  rwa [leaves_dense, List.flatMap_singleton]

theorem computesAt (hlast : isLastAppender levels = true) : ComputesAt (V := V) result levels := by
  induction levels with
  | nil => exact computesAt_nil
  | cons level levels ih =>
    cases level with
    | dense n isFixed => exact computesAt_dense hlast (ih hlast)
    | compressed n => exact (Bool.false_ne_true hlast).elim

end

/-! ### Loops that append -/

theorem lastParent_insert {levels : List Level} (hlast : isLastAppender levels = true) : lastParent .insert levels = .insert := by
  induction levels with
  | nil => rfl
  | cons level levels ih =>
    cases level with
    | dense n isFixed => exact ih hlast
    | compressed n => exact (Bool.false_ne_true hlast).elim

section

variable [Zero V] [Add V] {levels : List Level} {n : ℕ} {isFixed : Bool} {above : Parent} {total : ℕ}

/-- The values are computed up to the position variable. Those behind are zero where they were set to it, and there is room for
    as many as the result has. -/
structure Ready (result : Result) (above : Parent) (total stride : ℕ) (st : Growable V × ℕ) (l : List (Option (List V))) :
    Prop where
  holds : st.1.Holds result.IsValue l
  unvisited : above = .insert → st.1.Holds result.IsValue (l ++ List.replicate (total - l.length) none)
  room : total ≤ st.1.capacity
  posVar : l.length = st.2 * stride

/-- What one visit computes is next. -/
def ComputesNext (result : Result) (above : Parent) (stride : ℕ) {X : Type} (body : Growable V × ℕ → X → Option (Growable V × ℕ))
    (values : X → List (Option (List V))) : Prop :=
  ∀ (x : X) (st : Growable V × ℕ) (l : List (Option (List V))) (total : ℕ), Ready result above total stride st l →
    l.length + (values x).length ≤ total → ∃ st', body st x = some st' ∧ Ready result above total stride st' (l ++ values x)

theorem ComputesNext.loop {stride : ℕ} {X : Type} {body : Growable V × ℕ → X → Option (Growable V × ℕ)}
    {values : X → List (Option (List V))} (hbody : ComputesNext result above stride body values) :
    ComputesNext result above stride (fun st (xs : List X) => xs.foldlM body st) fun xs => xs.flatMap values := by
  intro xs
  induction xs with
  | nil =>
    intro st l total h _
    refine ⟨st, rfl, ?_⟩
    dsimp only
    rwa [List.flatMap_nil, List.append_nil]
  | cons x xs ih =>
    intro st l total h hfits
    dsimp only at hfits ih ⊢
    rw [List.flatMap_cons, List.length_append] at hfits
    obtain ⟨st₁, hstep, hready⟩ := hbody x st l total h (by omega)
    obtain ⟨st₂, hrun, hready'⟩ := ih st₁ (l ++ values x) total hready (by rw [List.length_append]; omega)
    refine ⟨st₂, ?_, by rwa [List.flatMap_cons, ← List.append_assoc]⟩
    rw [List.foldlM_cons, hstep]
    exact hrun

theorem computeBody_leaf : ComputesNext result .append 1
    (computeBody (V := V) result [] fun pos visits st => computeForall result (some pos) [] visits st)
    fun visit => leaves [] [some visit.2] := by
  rintro ⟨i, w⟩ ⟨values, q⟩ l total h hfits
  have hq : l.length = q := by simpa using h.posVar
  have hlt : l.length < values.capacity := lt_of_lt_of_le (by simpa [leaves] using hfits) h.room
  obtain ⟨below, hinit, hstart, hcapacity⟩ : ∃ below, initValue result [] q values = some below ∧
      below.Holds result.IsValue (l ++ [some []]) ∧ below.capacity = values.capacity := by
    by_cases hreduced : result.reduced = true
    · obtain ⟨below, hstore, hstart, hcapacity⟩ := h.holds.push hlt (b := some []) (x := 0) fun _ => rfl
      rw [hq] at hstore
      exact ⟨below, by rwa [initValue, if_pos hreduced], hstart, hcapacity⟩
    · exact ⟨values, by rw [initValue, if_neg hreduced],
        h.holds.append_replicate (n := 1) hlt fun y h => absurd (h rfl) hreduced, rfl⟩
  obtain ⟨values', hassign, hholds, hcapacity'⟩ := foldlM_assign w.val hstart
  rw [hq] at hassign
  refine ⟨(values', q + 1), ?_, hholds, fun h => (by cases h), ?_, ?_⟩
  · simp [computeBody, computeForall, hinit, hassign]
  · exact h.room.trans_eq (hcapacity'.trans hcapacity).symm
  · simp [leaves, hq]

theorem computeBody_dense (hlast : isLastAppender levels = true) :
    ComputesNext result .insert (stride (.dense n isFixed :: levels))
      (computeBody (V := V) result (.dense n isFixed :: levels) fun pos visits st =>
        computeForall result (some pos) (.dense n isFixed :: levels) visits st)
      fun visit => leaves (.dense n isFixed :: levels) [some visit.2] := by
  rintro ⟨i, w⟩ ⟨values, q⟩ l total h hfits
  have hbelow : isLastAppender (.dense n isFixed :: levels) = true := hlast
  have hlength : (leaves (.dense n isFixed :: levels) [some w]).length = stride (.dense n isFixed :: levels) := by
    rw [length_leaves hbelow, List.length_singleton, Nat.one_mul]
  dsimp only at hfits
  rw [hlength] at hfits
  obtain ⟨k, hk⟩ : ∃ k, total - l.length = stride (.dense n isFixed :: levels) + k :=
    ⟨total - l.length - stride (.dense n isFixed :: levels), by omega⟩
  have hunvisited := h.unvisited rfl
  rw [hk] at hunvisited
  obtain ⟨values', hcompute, hholds⟩ := computesAt hbelow w values l k q q hunvisited h.posVar
  have hrest : total - (l ++ leaves (.dense n isFixed :: levels) [some w]).length = k := by
    rw [List.length_append, hlength]
    omega
  refine ⟨(values', q + 1), ?_, hholds.left, fun _ => ?_, ?_, ?_⟩
  · simp [computeBody, initValue, hcompute]
  · dsimp only
    rwa [hrest]
  · have hroom := hholds.fits
    rw [List.length_append, List.length_replicate, List.length_append, hlength] at hroom
    dsimp only
    omega
  · rw [List.length_append, hlength, h.posVar, Nat.succ_mul]

theorem computeBody_next (hlast : isLastAppender levels = true) : ComputesNext result (lastParent .append levels) (stride levels)
    (computeBody (V := V) result levels fun pos visits st => computeForall result (some pos) levels visits st)
    fun visit => leaves levels [some visit.2] := by
  cases levels with
  | nil => exact computeBody_leaf
  | cons level levels =>
    cases level with
    | dense n isFixed =>
      rw [show lastParent .append (.dense n isFixed :: levels) = .insert from lastParent_insert hlast]
      exact computeBody_dense hlast
    | compressed n => exact (Bool.false_ne_true hlast).elim

/-- The loops over the levels, of which one appends. -/
theorem computeForall_next (levels : List Level) (hlast : isLastAppender levels = false) (parent : Parent) (pos : Option ℕ) :
    ComputesNext (V := V) result (lastParent parent levels) (stride levels)
      (fun st visits => computeForall result pos levels visits st) fun visits => leaves levels [some visits] := by
  induction levels generalizing parent pos with
  | nil => cases hlast
  | cons level levels ih =>
    intro visits st l total h hfits
    cases level with
    | dense n isFixed =>
      have hbelow : isLastAppender levels = false := hlast
      have hstride : stride (.dense n isFixed :: levels) = stride levels := by
        rw [stride, if_neg (by rw [hbelow]; exact Bool.false_ne_true)]
      dsimp only at hfits ⊢
      rw [leaves_dense_visits hbelow] at hfits ⊢
      rw [hstride] at h ⊢
      have hstep : ComputesNext (V := V) result (lastParent .insert levels) (stride levels)
          (fun st visit => computeForall result (pos.map fun pos => pos * n + visit.1) levels visit.2 st)
          fun visit : ℕ × result.Visits V levels => leaves levels [some visit.2] :=
        fun visit => ih hbelow .insert (pos.map fun pos => pos * n + visit.1) visit.2
      exact hstep.loop visits.val st l total h hfits
    | compressed n =>
      dsimp only at hfits ⊢
      rw [leaves_compressed_visits] at hfits ⊢
      rw [computeForall]
      by_cases hbelow : isLastAppender levels = true
      · rw [if_pos hbelow]
        exact (computeBody_next hbelow).loop visits.val st l total h hfits
      · rw [if_neg hbelow]
        have hstep : ComputesNext (V := V) result (lastParent .append levels) (stride levels)
            (fun st visit => computeForall result none levels visit.2 st)
            fun visit : ℕ × result.Visits V levels => leaves levels [some visit.2] :=
          fun visit => ih (Bool.eq_false_iff.mpr hbelow) .append none visit.2
        exact hstep.loop visits.val st l total h hfits

end

/-! ### One run -/

section

variable [Zero V] [Add V] {computes : Bool} {levels : List Level}

/-- Nothing is computed yet. -/
theorem zeroInitValues_holds (result : Result) (above : Parent) (size : Size) {values : Growable V}
    (hfits : size.value ≤ values.capacity) :
    ∃ values', zeroInitValues result above size values = some values' ∧
      (above = .insert → values'.Holds result.IsValue (List.replicate size.value none)) ∧ values'.capacity = values.capacity := by
  have hnil := Growable.holds_nil result.IsValue values
  by_cases hzero : above = .insert ∧ size ≠ .literal 0 ∧ result.zeroes = true
  · obtain ⟨values', hfill, hholds, hcapacity⟩ := hnil.fill (n := size.value) (b := none) (x := 0) (by simpa using hfits)
      fun _ => rfl
    exact ⟨values', by rwa [zeroInitValues, if_pos hzero], fun _ => hholds, hcapacity⟩
  · refine ⟨values, if_neg hzero, fun habove => ?_, rfl⟩
    by_cases hsize : size = .literal 0
    · rw [hsize]
      exact hnil
    · exact hnil.append_replicate (n := size.value) (by simpa using hfits) fun y hzeroes =>
        absurd ⟨habove, hsize, hzeroes⟩ hzero

/-- The loops compute the values of what they visit. -/
theorem computeForall_values (hne : levels ≠ []) (visits : result.Visits V levels) {values : Growable V}
    (hunvisited : lastParent .root levels = .insert →
      values.Holds result.IsValue (List.replicate (leaves levels [some visits]).length none))
    (hfits : (leaves levels [some visits]).length ≤ values.capacity) :
    ∃ st, computeForall result (some 0) levels visits (values, 0) = some st ∧
      st.1.Holds result.IsValue (leaves levels [some visits]) := by
  by_cases hlast : isLastAppender levels = true
  · have habove : lastParent .root levels = .insert := by
      cases levels with
      | nil => exact absurd rfl hne
      | cons level levels =>
        cases level with
        | dense n isFixed =>
          have hbelow : isLastAppender levels = true := hlast
          exact lastParent_insert hbelow
        | compressed n => exact (Bool.false_ne_true hlast).elim
    have hstart := hunvisited habove
    rw [length_leaves hlast, List.length_singleton, Nat.one_mul] at hstart
    obtain ⟨values', hcompute, hholds⟩ := computesAt hlast visits values [] 0 0 0 hstart (Nat.zero_mul _).symm
    exact ⟨(values', 0), hcompute, hholds.left⟩
  · -- the result has a level that appends, and its position variable starts at zero
    obtain ⟨st, hcompute, hready⟩ := computeForall_next levels (Bool.eq_false_iff.mpr hlast) .root (some 0) visits (values, 0) []
      (leaves levels [some visits]).length ⟨Growable.holds_nil _ _, hunvisited, hfits, (Nat.zero_mul _).symm⟩
      (Nat.zero_add _).le
    exact ⟨st, hcompute, hready.holds⟩

/-- No store is out of bounds, and the arrays represent what was visited, with the values. -/
theorem compute_represents (hne : levels ≠ []) {visits : result.Visits V levels} {arrays : Arrays V levels}
    (h : Represents computes .finalized .root levels arrays [some visits]) :
    ∃ arrays', compute result levels visits arrays = some arrays' ∧
      Represents true .finalized .root levels arrays' [some visits] := by
  have hsize := valuesSize_eq (.literal 1) levels h rfl
  have hfits := leaves_fit levels h
  obtain ⟨values, hzero, hunvisited, hcapacity⟩ := zeroInitValues_holds result (lastParent .root levels)
    (valuesSize (.literal 1) levels arrays) (hsize.trans_le hfits)
  rw [hsize] at hunvisited
  obtain ⟨st, hcompute, hholds⟩ := computeForall_values hne visits hunvisited (hcapacity ▸ hfits)
  refine ⟨setValues levels st.1 arrays, ?_, represents_setValues levels h hholds⟩
  rw [compute]
  dsimp only
  rw [hzero, Option.bind_eq_bind, Option.bind_some, hcompute]
  rfl

end

/-! ### Other values at the same coordinates -/

section

variable {levels : List Level}

/-- The coordinates are the same; what is assigned may differ. -/
def SameCoordinates : (levels : List Level) → result.Visits V levels → result.Visits V levels → Prop
  | [], _, _ => True
  | .dense _ _ :: levels, visits, visits' | .compressed _ :: levels, visits, visits' =>
    List.Forall₂ (fun visit visit' => visit.1 = visit'.1 ∧ SameCoordinates levels visit.2 visit'.2) visits.val visits'.val

theorem sameCoordinates_dense {n : ℕ} {isFixed : Bool} {visits visits' : result.Visits V (.dense n isFixed :: levels)} :
    SameCoordinates (.dense n isFixed :: levels) visits visits' ↔
      List.Forall₂ (fun visit visit' => visit.1 = visit'.1 ∧ SameCoordinates levels visit.2 visit'.2) visits.val visits'.val :=
  Iff.rfl

theorem sameCoordinates_compressed {n : ℕ} {visits visits' : result.Visits V (.compressed n :: levels)} :
    SameCoordinates (.compressed n :: levels) visits visits' ↔
      List.Forall₂ (fun visit visit' => visit.1 = visit'.1 ∧ SameCoordinates levels visit.2 visit'.2) visits.val visits'.val :=
  Iff.rfl

theorem any_eq_of_forall₂ {X : Type} {R : X → X → Prop} {f : X → Bool} {l l' : List X} (h : List.Forall₂ R l l')
    (hf : ∀ x x', R x x' → f x = f x') : l.any f = l'.any f := by
  induction h with
  | nil => rfl
  | cons hx _ ih => rw [List.any_cons, List.any_cons, hf _ _ hx, ih]

theorem SameCoordinates.kept_eq {visits visits' : result.Visits V levels} (h : SameCoordinates levels visits visits') :
    kept levels visits = kept levels visits' := by
  induction levels with
  | nil => rfl
  | cons level levels ih =>
    cases level with
    | dense n isFixed => rfl
    | compressed n =>
      rw [kept, kept]
      exact any_eq_of_forall₂ (sameCoordinates_compressed.mp h) fun _ _ hvisit => ih hvisit.2

theorem SameCoordinates.symm {visits visits' : result.Visits V levels} (h : SameCoordinates levels visits visits') :
    SameCoordinates levels visits' visits := by
  induction levels with
  | nil => trivial
  | cons level levels ih =>
    cases level with
    | dense n isFixed =>
      exact .flip ((sameCoordinates_dense.mp h).imp fun _ _ hvisit => ⟨hvisit.1.symm, ih hvisit.2⟩)
    | compressed n =>
      exact .flip ((sameCoordinates_compressed.mp h).imp fun _ _ hvisit => ⟨hvisit.1.symm, ih hvisit.2⟩)

theorem rel_lookup {X : Type} {S : X → X → Prop} {visits visits' : List (ℕ × X)}
    (h : List.Forall₂ (fun visit visit' => visit.1 = visit'.1 ∧ S visit.2 visit'.2) visits visits') (i : ℕ) :
    Option.Rel S (List.lookup i visits) (List.lookup i visits') := by
  induction h with
  | nil => exact .none
  | @cons visit visit' visits visits' hvisit _ ih =>
    obtain ⟨j, x⟩ := visit
    obtain ⟨j', x'⟩ := visit'
    obtain ⟨rfl, hx⟩ : j = j' ∧ S x x' := hvisit
    rw [List.lookup_cons, List.lookup_cons]
    cases i == j
    · exact ih
    · exact .some hx

theorem rel_expand {n : ℕ} {isFixed : Bool} {slot slot' : Option (result.Visits V (.dense n isFixed :: levels))}
    (h : Option.Rel (SameCoordinates (.dense n isFixed :: levels)) slot slot') :
    List.Forall₂ (Option.Rel (SameCoordinates levels)) (expand slot) (expand slot') := by
  rw [expand, expand, slotsOf, slotsOf, List.forall₂_map_left_iff, List.forall₂_map_right_iff, List.forall₂_same]
  intro i _
  cases h with
  | none => exact .none
  | some h => exact rel_lookup (sameCoordinates_dense.mp h) i

theorem rel_slice {n : ℕ} {slot slot' : Option (result.Visits V (.compressed n :: levels))}
    (h : Option.Rel (SameCoordinates (.compressed n :: levels)) slot slot') :
    List.Forall₂ (fun visit visit' => visit.1 = visit'.1 ∧ SameCoordinates levels visit.2 visit'.2) (slice slot)
      (slice slot') := by
  cases h with
  | none => exact .nil
  | some h =>
    exact List.rel_filter (fun _ _ hvisit => Bool.eq_iff_iff.mp hvisit.2.kept_eq) (sameCoordinates_compressed.mp h)

/-- The arrays of a level say nothing of what is below the coordinates. -/
theorem LevelArrays.Hold.congr {a : LevelArrays} {edges : List ℕ → List ℕ} {X : Type} {slices slices' : List (List (ℕ × X))}
    (h : a.Hold edges slices) (hsame : slices.map (List.map Prod.fst) = slices'.map (List.map Prod.fst)) :
    a.Hold edges slices' := by
  have hlengths : slices.map List.length = slices'.map List.length := by
    have hmapped := congrArg (List.map List.length) hsame
    simpa [Function.comp_def] using hmapped
  have hcoords : slices.flatten.map Prod.fst = slices'.flatten.map Prod.fst := by
    rw [List.map_flatten, List.map_flatten, hsame]
  refine ⟨hlengths ▸ h.posArray, hcoords ▸ h.crdArray, ?_, h.room⟩
  rw [h.posVar, ← List.length_map (f := Prod.fst), hcoords, List.length_map]

theorem represents_of_sameCoordinates [Zero V] [Add V] {computes : Bool} {parent : Parent} (levels : List Level)
    {arrays : Arrays V levels} {slots slots' : List (Option (result.Visits V levels))}
    (h : Represents computes .finalized parent levels arrays slots)
    (hsame : List.Forall₂ (Option.Rel (SameCoordinates levels)) slots slots') :
    Represents false .finalized parent levels arrays slots' := by
  induction levels generalizing parent with
  | nil => exact ⟨Bool.false_ne_true.elim, fun hfinal => hsame.length_eq ▸ (represents_nil.mp h).2 hfinal⟩
  | cons level levels ih =>
    cases level with
    | dense n isFixed => exact ih h (List.rel_flatMap hsame fun _ _ => rel_expand)
    | compressed n =>
      obtain ⟨hhold, hbelow⟩ := represents_compressed.mp h
      have hslices : List.Forall₂ (List.Forall₂ fun visit visit' => visit.1 = visit'.1 ∧ SameCoordinates levels visit.2 visit'.2)
          (slots.map slice) (slots'.map slice) := by
        rw [List.forall₂_map_left_iff, List.forall₂_map_right_iff]
        exact hsame.imp fun _ _ => rel_slice
      refine ⟨hhold.congr ?_, ih hbelow ?_⟩
      · rw [← List.forall₂_eq_eq_eq, List.forall₂_map_left_iff, List.forall₂_map_right_iff]
        refine hslices.imp fun slice slice' hslice => ?_
        rw [← List.forall₂_eq_eq_eq, List.forall₂_map_left_iff, List.forall₂_map_right_iff]
        exact hslice.imp fun _ _ hvisit => hvisit.1
      · rw [List.forall₂_map_left_iff, List.forall₂_map_right_iff]
        exact (List.rel_flatten hslices).imp fun _ _ hvisit => .some hvisit.2

end

/-! ### Runs of both kernels -/

section

variable [Zero V] [Add V] {computes : Bool} {levels : List Level}

/-- One run of the kernel that computes, with values of its own. -/
theorem compute_again (hne : levels ≠ []) {visits run : result.Visits V levels} {arrays : Arrays V levels}
    (h : Represents computes .finalized .root levels arrays [some visits]) (hsame : SameCoordinates levels visits run) :
    ∃ arrays', compute result levels run arrays = some arrays' ∧ Represents true .finalized .root levels arrays' [some run] :=
  compute_represents hne (represents_of_sameCoordinates levels h (.cons (.some hsame) .nil))

/-- The values of an assembled result may be computed as often as one likes. -/
theorem computes_represent (hne : levels ≠ []) {visits : result.Visits V levels} {arrays : Arrays V levels}
    (h : Represents computes .finalized .root levels arrays [some visits]) (earlier : List (result.Visits V levels))
    {last : result.Visits V levels} (hearlier : ∀ run ∈ earlier, SameCoordinates levels visits run)
    (hlast : SameCoordinates levels visits last) :
    ∃ arrays', (earlier ++ [last]).foldlM (fun arrays run => compute result levels run arrays) arrays = some arrays' ∧
      Represents true .finalized .root levels arrays' [some last] := by
  induction earlier generalizing arrays computes with
  | nil =>
    obtain ⟨arrays', hcompute, hrep⟩ := compute_again hne h hlast
    refine ⟨arrays', ?_, hrep⟩
    rw [List.nil_append, List.foldlM_cons, hcompute]
    rfl
  | cons run earlier ih =>
    have hrun := hearlier run List.mem_cons_self
    obtain ⟨arrays₁, hcompute, hrep⟩ := compute_again hne h hrun
    -- the values of this run are forgotten, the coordinates are not
    have hagain : Represents false .finalized .root levels arrays₁ [some visits] :=
      represents_of_sameCoordinates levels hrep (.cons (.some hrun.symm) .nil)
    obtain ⟨arrays₂, hruns, hrep'⟩ := ih hagain fun run' hrun' => hearlier run' (List.mem_cons_of_mem _ hrun')
    refine ⟨arrays₂, ?_, hrep'⟩
    rw [List.cons_append, List.foldlM_cons, hcompute]
    exact hruns

/-- Other values for the visits of `rowVisits`. -/
def otherRowVisits : sumResult.Visits ℤ rowLevels :=
  ⟨[(1, ⟨[(0, ⟨[(1, added [4])], by decide⟩), (2, ⟨[(0, added [1, 1])], by decide⟩)], by decide⟩)], by decide⟩

end

end Assembly
end Taco
