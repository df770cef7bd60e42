import Mathlib.Tactic

/-! The stored components of a tensor, and how a buffer of inserted components is packed. -/

namespace Taco.Tensor

variable {Coord V : Type}

/-- Which coordinates a format stores when components at the given ones are packed. -/
structure Layout (Coord : Type) where
  slots : List Coord → List Coord
  nodup : ∀ coords, (slots coords).Nodup
  subset : ∀ coords, coords ⊆ slots coords

/-- A tensor's storage as its iterator shows it: each stored coordinate once, with its value. -/
structure Storage (Coord V : Type) where
  components : List (Coord × V)
  nodup : (components.map Prod.fst).Nodup

namespace Storage

/-- The storage of a tensor that was never packed. -/
def empty : Storage Coord V := ⟨[], List.nodup_nil⟩

variable [DecidableEq Coord] [AddCommMonoid V]

/-- `TensorBase::at` looks for the coordinate among the stored ones. -/
def read (st : Storage Coord V) (c : Coord) : V :=
  match st.components.find? (fun p => p.1 = c) with
  | some p => p.2
  | none => 0

end Storage

variable [DecidableEq Coord] [AddCommMonoid V]

/-- The sum of the components at a coordinate. -/
def sumAt (components : List (Coord × V)) (c : Coord) : V := ((components.filter (fun p => p.1 = c)).map Prod.snd).sum

@[simp] theorem sumAt_nil (c : Coord) : sumAt ([] : List (Coord × V)) c = 0 := rfl

@[simp] theorem sumAt_append (l m : List (Coord × V)) (c : Coord) : sumAt (l ++ m) c = sumAt l c + sumAt m c := by
  simp [sumAt]

theorem sumAt_cons (p : Coord × V) (l : List (Coord × V)) (c : Coord) :
    sumAt (p :: l) c = (if p.1 = c then p.2 else 0) + sumAt l c := by
  by_cases h : p.1 = c <;> simp [sumAt, h]

@[simp] theorem sumAt_singleton (d : Coord) (v : V) (c : Coord) : sumAt [(d, v)] c = if d = c then v else 0 := by
  rw [sumAt_cons, sumAt_nil, add_zero]

theorem sumAt_eq_zero {l : List (Coord × V)} {c : Coord} (h : c ∉ l.map Prod.fst) : sumAt l c = 0 := by
  have hnil : l.filter (fun p => p.1 = c) = [] := by
    rw [List.filter_eq_nil_iff]
    intro p hp hpc
    exact h (List.mem_map.mpr ⟨p, hp, of_decide_eq_true hpc⟩)
  rw [sumAt, hnil, List.map_nil, List.sum_nil]

/-- The packing function that is generated for a format: components at one coordinate are added. -/
def packed (format : Layout Coord) (components : List (Coord × V)) : Storage Coord V where
  components := (format.slots (components.map Prod.fst)).map fun c => (c, sumAt components c)
  nodup := by
    rw [List.map_map]
    exact (List.map_id _).symm ▸ format.nodup _

namespace Storage

/-- Where the stored coordinates are distinct, the first component at a coordinate is the only one. -/
theorem sumAt_components (st : Storage Coord V) (c : Coord) : sumAt st.components c = st.read c := by
  have hfind : ∀ l : List (Coord × V), (l.map Prod.fst).Nodup →
      sumAt l c = match l.find? (fun p => p.1 = c) with | some p => p.2 | none => 0 := by
    intro l hl
    induction l with
    | nil => rfl
    | cons p rest ih =>
      rw [List.map_cons, List.nodup_cons] at hl
      rw [sumAt_cons]
      by_cases hpc : p.1 = c
      · simp [hpc, sumAt_eq_zero (l := rest) (hpc ▸ hl.1)]
      · simp [hpc, ih hl.2]
  exact hfind st.components st.nodup

@[simp] theorem read_empty (c : Coord) : (empty : Storage Coord V).read c = 0 := rfl

/-- What is read from the packed storage is what was inserted. -/
@[simp] theorem read_packed (format : Layout Coord) (components : List (Coord × V)) (c : Coord) :
    (packed format components).read c = sumAt components c := by
  have hfind : ∀ slots : List Coord, (slots.map fun c => (c, sumAt components c)).find? (fun p => p.1 = c) =
      if c ∈ slots then some (c, sumAt components c) else none := by
    intro slots
    induction slots with
    | nil => rfl
    | cons d slots ih =>
      rw [List.map_cons, List.find?_cons]
      by_cases hdc : d = c
      · simp [hdc]
      · simp [hdc, ih, Ne.symm hdc]
  simp only [read, packed, hfind]
  split_ifs with hc
  · rfl
  · exact (sumAt_eq_zero fun hmem => hc (format.subset _ hmem)).symm

end Storage

end Taco.Tensor
