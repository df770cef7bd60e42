import Taco.Tensor.Eager

/-! What the functions generated for an assignment do to the storage of its result. -/

namespace Taco.Tensor

variable {T Coord V E : Type} [DecidableEq Coord] [AddCommMonoid V]

/-! ### Generated functions -/

/-- What is generated for assignments. The assemble function stores the coordinates of a pattern, in order, and allocates
    their values. The compute function passes through the pattern and writes one value after the other. -/
structure Code (T Coord V E : Type) [DecidableEq Coord] [AddCommMonoid V] where
  operands : E → List T
  nodup_operands : ∀ e, (operands e).Nodup
  compound : E → Bool
  value : E → List (Coord → V) → Coord → V
  /-- The stored coordinates, in order; the values may tell a stored zero of an operand from one that is not stored. -/
  pattern : E → List (Coord → V) → List Coord
  nodup_pattern : ∀ e args, (pattern e args).Nodup
  value_eq_zero : ∀ e args c, c ∉ pattern e args → value e args c = 0
  /-- `initResultArrays` sets the values to zero before the loops, or the result is a scalar variable that starts at zero. -/
  zeroed : E → Bool
  /-- The loops add to the values; a plain assignment may be a reduction, and `scalarPromote` may leave a store only. -/
  accumulates : E → Bool
  zeroed_of_plain : ∀ e, compound e = false → accumulates e = true → zeroed e = true

namespace Code

variable (code : Code T Coord V E)

/-- What a value of the pattern becomes. -/
def written (e : E) (old value : V) : V :=
  if code.accumulates e then (if code.zeroed e then 0 else old) + value else value

/-- What a value after the pattern becomes. -/
def left (e : E) (old : V) : V := if code.zeroed e then 0 else old

/-- The stored components after the compute function has written the values of the pattern. -/
def store (e : E) (args : List (Coord → V)) (components : List (Coord × V)) : List (Coord × V) :=
  components.mapIdx fun n p =>
    (p.1, match (code.pattern e args)[n]? with
      | some c => code.written e p.2 (code.value e args c)
      | none => code.left e p.2)

variable {code} {e : E} {args : List (Coord → V)} {components : List (Coord × V)}

theorem map_fst_store : (code.store e args components).map Prod.fst = components.map Prod.fst := by
  refine List.ext_getElem? fun n => ?_
  simp [store, Function.comp_def]

/-- A component of the storage after the compute function. -/
theorem getElem?_store (n : ℕ) : (code.store e args components)[n]? = components[n]?.map fun p =>
    (p.1, match (code.pattern e args)[n]? with
      | some c => code.written e p.2 (code.value e args c)
      | none => code.left e p.2) := by
  simp [store]

/-- What is read from a stored component. -/
theorem read_of_getElem? {st : Storage Coord V} {n : ℕ} {c : Coord} {v : V} (h : st.components[n]? = some (c, v)) :
    st.read c = v := by
  have hmem : (c, v) ∈ st.components := List.mem_of_getElem? h
  rw [Storage.read]
  cases hfind : st.components.find? (fun p => p.1 = c) with
  | none => simpa using List.find?_eq_none.mp hfind (c, v) hmem
  | some p =>
    have hp : p.1 = c := by simpa using List.find?_some hfind
    have heq : p = (c, v) := List.inj_on_of_nodup_map st.nodup (List.mem_of_find?_eq_some hfind) hmem hp
    rw [heq]

theorem read_of_not_mem {st : Storage Coord V} {c : Coord} (h : c ∉ st.components.map Prod.fst) : st.read c = 0 := by
  rw [← Storage.sumAt_components, sumAt_eq_zero h]

variable (code)

/-- What the two functions compute, one after the other. -/
def direct (allocated : V) (e : E) (args : List (Coord → V)) (c : Coord) : V :=
  if c ∈ code.pattern e args then code.written e allocated (code.value e args c) else 0

def assemble (allocated : V) (e : E) (args : List (Coord → V)) : Storage Coord V where
  components := (code.pattern e args).map fun c => (c, allocated)
  nodup := by
    rw [List.map_map]
    exact (List.map_id _).symm ▸ code.nodup_pattern e _

/-- The compute function writes behind the end of the values if they are fewer than those of the pattern. -/
def compute (e : E) (st : Storage Coord V) (args : List (Coord → V)) : Option (Storage Coord V) :=
  if (code.pattern e args).length ≤ st.components.length then
    some ⟨code.store e args st.components, by rw [map_fst_store]; exact st.nodup⟩
  else
    none

variable {code}

theorem compute_assemble (allocated : V) (e : E) (args : List (Coord → V)) :
    ∃ st, code.compute e (code.assemble allocated e args) args = some st ∧ st.read = code.direct allocated e args := by
  refine ⟨_, if_pos (by simp [assemble]), ?_⟩
  funext c
  rw [direct]
  split_ifs with hc
  · obtain ⟨n, hn⟩ := List.mem_iff_getElem?.mp hc
    refine read_of_getElem? (n := n) ?_
    rw [getElem?_store]
    simp [assemble, hn]
  · refine read_of_not_mem ?_
    rw [map_fst_store]
    simpa [assemble] using hc

/-- The functions of a plain assignment compute its right-hand side. -/
theorem direct_of_plain (allocated : V) (hplain : code.compound e = false) :
    code.direct allocated e args = code.value e args := by
  have hzeroed := code.zeroed_of_plain e hplain
  funext c
  rw [direct]
  split_ifs with hc
  · rw [written]
    split_ifs with hadd hzero
    · exact zero_add _
    · exact absurd (hzeroed hadd) hzero
    · rfl
  · exact (code.value_eq_zero e args c hc).symm

variable (code)

/-- The functions, where newly allocated values are `allocated`. -/
def kernels (allocated : V) : Kernels T Coord V E where
  operands := code.operands
  nodup_operands := code.nodup_operands
  compound := code.compound
  value := code.value
  assemble e args := code.assemble allocated e (args.map Storage.read)
  compute e st args := code.compute e st (args.map Storage.read)
  computes e args hplain _ := by
    obtain ⟨st, hst, hread⟩ := compute_assemble allocated e (args.map Storage.read)
    exact ⟨st, hst, hread.trans (direct_of_plain allocated hplain)⟩

/-- The same functions, where each assignment means what they compute one after the other. -/
def directKernels (allocated : V) : Kernels T Coord V E where
  operands := code.operands
  nodup_operands := code.nodup_operands
  compound _ := false
  value := code.direct allocated
  assemble e args := code.assemble allocated e (args.map Storage.read)
  compute e st args := code.compute e st (args.map Storage.read)
  computes e args _ _ := compute_assemble allocated e (args.map Storage.read)

/-- What an assignment means over old contents. -/
def meaning (e : E) (old : Coord → V) (args : List (Coord → V)) (c : Coord) : V :=
  if code.compound e then old c + code.value e args c else code.value e args c

/-- A compound assignment computes what it means, in both ways: the old contents add nothing, the compute function writes its
    values whatever was allocated, and into the old storage it writes them in the places of the same values. -/
structure Fits (e : E) (st : Storage Coord V) (args : List (Coord → V)) : Prop where
  unchanged : ∀ c, st.read c + code.value e args c = code.value e args c
  writes : ∀ c ∈ code.pattern e args, ∀ allocated, code.written e allocated (code.value e args c) = code.value e args c
  room : (code.pattern e args).length ≤ st.components.length
  stored : ∀ (n : ℕ) (p : Coord × V) c, st.components[n]? = some p → (code.pattern e args)[n]? = some c →
    code.value e args p.1 = code.value e args c
  left : ∀ (n : ℕ) (p : Coord × V), st.components[n]? = some p → (code.pattern e args)[n]? = none → code.value e args p.1 = code.left e p.2
  missing : ∀ c, c ∉ st.components.map Prod.fst → code.value e args c = 0

variable {code} {st : Storage Coord V}

/-- Over a value that is zero, each write is the value. -/
theorem written_zero (e : E) (value : V) : code.written e 0 value = value := by
  rw [written]
  split_ifs
  · exact zero_add value
  · exact zero_add value
  · rfl

/-- What is read after the compute function has written into a storage. -/
theorem read_compute {st' : Storage Coord V} (h : code.compute e st args = some st') :
    (code.pattern e args).length ≤ st.components.length ∧
      (∀ (n : ℕ) (p : Coord × V) c, st.components[n]? = some p → (code.pattern e args)[n]? = some c →
        st'.read p.1 = code.written e p.2 (code.value e args c)) ∧
      (∀ (n : ℕ) (p : Coord × V), st.components[n]? = some p → (code.pattern e args)[n]? = none →
        st'.read p.1 = code.left e p.2) ∧
      ∀ c, c ∉ st.components.map Prod.fst → st'.read c = 0 := by
  rw [compute] at h
  split_ifs at h with hroom
  cases h
  refine ⟨hroom, fun n p c hp hc => ?_, fun n p hp hc => ?_, fun c hc => ?_⟩
  · refine read_of_getElem? (n := n) ?_
    rw [getElem?_store, hp, Option.map_some, hc]
  · refine read_of_getElem? (n := n) ?_
    rw [getElem?_store, hp, Option.map_some, hc]
  · refine read_of_not_mem ?_
    rwa [map_fst_store]

/-- When a compound assignment computes what it means, whether its storage is assembled anew or not. -/
theorem fits_iff (hcompound : code.compound e = true) : code.Fits e st args ↔
    (∀ allocated, code.direct allocated e args = code.meaning e st.read args) ∧
      ∃ st', code.compute e st args = some st' ∧ st'.read = code.meaning e st.read args := by
  have hmeaning : ∀ c, code.meaning e st.read args c = st.read c + code.value e args c := fun c => if_pos hcompound
  constructor
  · intro h
    refine ⟨fun allocated => ?_, _, if_pos h.room, ?_⟩
    · funext c
      rw [hmeaning, h.unchanged, direct]
      split_ifs with hc
      · exact h.writes c hc allocated
      · exact (code.value_eq_zero e args c hc).symm
    · have hcompute : code.compute e st args = some ⟨code.store e args st.components, _⟩ := if_pos h.room
      obtain ⟨-, hstored, hleft, hmissing⟩ := read_compute hcompute
      funext c
      rw [hmeaning, h.unchanged]
      by_cases hc : c ∈ st.components.map Prod.fst
      · obtain ⟨p, hp, rfl⟩ := List.mem_map.mp hc
        obtain ⟨n, hn⟩ := List.mem_iff_getElem?.mp hp
        cases hpattern : (code.pattern e args)[n]? with
        | none => rw [hleft n p hn hpattern, h.left n p hn hpattern]
        | some d =>
          have hd : d ∈ code.pattern e args := List.mem_of_getElem? hpattern
          rw [hstored n p d hn hpattern, h.writes d hd, h.stored n p d hn hpattern]
      · rw [hmissing c hc, h.missing c hc]
  · rintro ⟨hdirect, st', hst', hread⟩
    obtain ⟨hroom, hstored, hleft, hmissing⟩ := read_compute hst'
    have hwritten : ∀ c ∈ code.pattern e args, ∀ allocated,
        code.written e allocated (code.value e args c) = st.read c + code.value e args c := by
      intro c hc allocated
      rw [← hmeaning, ← hdirect allocated, direct, if_pos hc]
    have hunchanged : ∀ c, st.read c + code.value e args c = code.value e args c := by
      intro c
      by_cases hc : c ∈ code.pattern e args
      · rw [← hwritten c hc 0, written_zero]
      · rw [← hmeaning, ← hdirect 0, direct, if_neg hc, code.value_eq_zero e args c hc]
    have hwrites : ∀ c ∈ code.pattern e args, ∀ allocated,
        code.written e allocated (code.value e args c) = code.value e args c := fun c hc allocated =>
      (hwritten c hc allocated).trans (hunchanged c)
    have hresult : ∀ c, st'.read c = code.value e args c := fun c => by rw [hread, hmeaning, hunchanged]
    refine ⟨hunchanged, hwrites, hroom, fun n p c hp hc => ?_, fun n p hp hc => ?_, fun c hc => ?_⟩
    · rw [← hresult, hstored n p c hp hc, hwrites c (List.mem_of_getElem? hc)]
    · rw [← hresult, hleft n p hp hc]
    · rw [← hresult, hmissing c hc]

end Code

end Taco.Tensor
