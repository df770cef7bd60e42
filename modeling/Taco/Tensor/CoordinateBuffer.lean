import Taco.Tensor.Content

/-! The bytes of a tensor's coordinate buffer: when the count of the used ones stays consistent with the buffer. -/

namespace Taco.Tensor

/-- How the buffer is used: an insertion writes behind its end, or its growth throws an exception. -/
inductive BufferFault where
  | outOfBounds
  | lengthError
  deriving DecidableEq

/-- The limit of the size of a `vector<char>`. -/
def maxSize : ℕ := 2 ^ 63 - 1

/-- The order of a tensor and the number of bytes of its component type. -/
structure Shape where
  order : ℕ
  numBytes : ℕ
  numBytes_pos : 0 < numBytes
  fits : order * 4 + numBytes ≤ maxSize

namespace Shape

def coordinateSize (shape : Shape) : ℕ := shape.order * 4 + shape.numBytes

theorem coordinateSize_pos (shape : Shape) : 0 < shape.coordinateSize :=
  Nat.add_pos_right _ shape.numBytes_pos

end Shape

/-- What a tensor keeps about its buffer. The pending components are those inserted since the buffer was cleared last,
    the stored ones those that its iterator yields. -/
structure CoordinateBuffer where
  size : ℕ
  used : ℕ
  pending : ℕ
  stored : ℕ
  neverPacked : Bool
  needsPack : Bool
  needsCompute : Bool
  size_le : size ≤ maxSize

namespace CoordinateBuffer

/-- The constructor of a tensor. -/
def new : CoordinateBuffer where
  size := 0
  used := 0
  pending := 0
  stored := 0
  neverPacked := true
  needsPack := true
  needsCompute := false
  size_le := Nat.zero_le _

def resize (b : CoordinateBuffer) (newSize : ℕ) : Except BufferFault CoordinateBuffer :=
  if h : newSize ≤ maxSize then .ok { b with size := newSize, size_le := h } else .error .lengthError

variable (shape : Shape)

/-- `TensorBase::reserve`; the size is computed with `size_t`s. -/
def reserve (b : CoordinateBuffer) (numCoordinates : ℕ) : Except BufferFault CoordinateBuffer :=
  b.resize ((b.size + numCoordinates * shape.coordinateSize) % UInt64.size)

/-- The buffer grows unless enough of it is free; this is found out with `size_t`s. -/
def grow (b : CoordinateBuffer) : Except BufferFault CoordinateBuffer :=
  if (b.size + UInt64.size - b.used) % UInt64.size < shape.coordinateSize then b.resize (b.size + shape.coordinateSize)
  else .ok b

/-- `TensorBase::insertUnsynced`: coordinates and value are written behind the used bytes. -/
def insertUnsynced (b : CoordinateBuffer) : Except BufferFault CoordinateBuffer := do
  let b ← b.grow shape
  if b.used + shape.coordinateSize ≤ b.size then
    .ok { b with used := b.used + shape.coordinateSize, pending := b.pending + 1 }
  else
    .error .outOfBounds

def insert (b : CoordinateBuffer) : Except BufferFault CoordinateBuffer := do
  let b ← b.insertUnsynced shape
  .ok { b with needsPack := true }

def reinsertPackedComponents (b : CoordinateBuffer) : Except BufferFault CoordinateBuffer :=
  (List.range b.stored).foldlM (fun b _ => b.insertUnsynced shape) b

/-- The end of `TensorBase::pack`. The buffer of a scalar is cleared, but not the count of the used bytes. -/
def packBuffer (b : CoordinateBuffer) (stored : ℕ) : Except BufferFault CoordinateBuffer :=
  if b.size < b.used / shape.coordinateSize * shape.coordinateSize then .error .outOfBounds
  else if shape.order = 0 then .ok { b with size := 0, size_le := Nat.zero_le _, pending := 0, stored := 1 }
  else .ok { b with size := 0, size_le := Nat.zero_le _, used := 0, pending := 0, stored := stored }

def unpack (b : CoordinateBuffer) : Except BufferFault CoordinateBuffer :=
  if b.neverPacked then .ok { b with neverPacked := false } else b.reinsertPackedComponents shape

/-- `TensorBase::pack`; the packing function stores as many components as the format needs. -/
def pack (b : CoordinateBuffer) (stored : ℕ) : Except BufferFault CoordinateBuffer :=
  if b.needsPack then { b with needsPack := false }.unpack shape >>= (packBuffer shape · stored) else .ok b

/-- `TensorBase::syncValues`. -/
def syncValues (b : CoordinateBuffer) (stored : ℕ) : Except BufferFault CoordinateBuffer :=
  if b.needsPack then b.pack shape stored
  else if b.needsCompute then .ok { b with needsCompute := false, stored := stored }
  else .ok b

/-- What users do to a tensor; the synchronisation of a tensor that depends on itself is a read. -/
inductive Op where
  | reserve (numCoordinates : ℕ)
  | insert
  | insertUnchecked
  | assign
  | pack (stored : ℕ)
  | read (stored : ℕ)

def step (op : Op) (b : CoordinateBuffer) : Except BufferFault CoordinateBuffer :=
  match op with
  | .reserve numCoordinates => b.reserve shape numCoordinates
  | .insert => b.insert shape
  | .insertUnchecked => b.insertUnsynced shape
  | .assign => .ok { b with needsPack := false, needsCompute := true }
  | .pack stored => b.pack shape stored
  | .read stored => b.syncValues shape stored

/-- The operation is a pack, or a read that packs. -/
def Op.packs (b : CoordinateBuffer) : Op → Prop
  | .pack _ => True
  | .read _ => b.needsPack = true
  | _ => False

/-! ### Consistent buffers -/

/-- The used bytes are those of the pending components, and inside of the buffer. -/
structure Consistent (b : CoordinateBuffer) : Prop where
  inside : b.used ≤ b.size
  used_eq : b.used = b.pending * shape.coordinateSize

/-- Every state of a run is consistent and every write inside of the buffer, and nothing is used after a pack. A run may
    end because the memory does. -/
def Sound : List Op → CoordinateBuffer → Prop
  | [], b => b.Consistent shape
  | op :: ops, b =>
    b.Consistent shape ∧
      Outcome (fun b' => (op.packs b → b'.used = 0) ∧ Sound ops b') (· = .lengthError) (b.step shape op)

/-- A pack clears the count of the used bytes with the buffer, or there are none. -/
def Clears (b : CoordinateBuffer) : Prop :=
  if b.needsPack then shape.order = 0 → b.pending = 0 ∧ (b.neverPacked = true ∨ b.stored = 0) else b.pending = 0

/-- When an operation on a consistent buffer is sound. -/
def Meets (b : CoordinateBuffer) : Op → Prop
  | .reserve numCoordinates => b.used ≤ (b.size + numCoordinates * shape.coordinateSize) % UInt64.size
  | .pack _ => b.Clears shape
  | .read _ => b.needsPack = true → b.Clears shape
  | .insert | .insertUnchecked | .assign => True

/-- Every operation of a run that ends meets its condition. -/
def MeetsAll : List Op → CoordinateBuffer → Prop
  | [], _ => True
  | op :: ops, b => Outcome (fun b' => b.Meets shape op ∧ MeetsAll ops b') (fun _ => True) (b.step shape op)

variable {shape} {b : CoordinateBuffer}

/-! ### Insertions -/

theorem resize_outcome {newSize : ℕ} :
    Outcome (fun b' => ∃ hsize, b' = { b with size := newSize, size_le := hsize }) (· = .lengthError)
      (b.resize newSize) := by
  rw [resize]
  split_ifs with h
  · exact ⟨h, rfl⟩
  · rfl

/-- A consistent buffer grows as soon as less than a component is free. -/
theorem grow_outcome (h : b.used ≤ b.size) :
    Outcome (fun b' => ∃ size hsize, b' = { b with size := size, size_le := hsize } ∧
      b.used + shape.coordinateSize ≤ size) (· = .lengthError) (b.grow shape) := by
  have hfree : (b.size + UInt64.size - b.used) % UInt64.size = b.size - b.used := by
    have hlimit : b.size - b.used < UInt64.size := by
      have hsize := b.size_le
      have hmax : maxSize < UInt64.size := by decide
      omega
    rw [Nat.sub_add_comm h, Nat.add_mod_right, Nat.mod_eq_of_lt hlimit]
  rw [grow, hfree]
  split_ifs with hgrow
  · refine resize_outcome.mono (fun b' hb' => ?_) fun _ he => he
    obtain ⟨hsize, rfl⟩ := hb'
    exact ⟨_, hsize, rfl, Nat.add_le_add_right h _⟩
  · exact ⟨b.size, b.size_le, rfl, by omega⟩

/-- An insertion writes inside of a consistent buffer, which stays consistent. -/
theorem insertUnsynced_outcome (h : b.Consistent shape) :
    Outcome (fun b' => b'.Consistent shape ∧ b'.pending = b.pending + 1 ∧ b'.neverPacked = b.neverPacked ∧
      b'.needsPack = b.needsPack) (· = .lengthError) (b.insertUnsynced shape) := by
  refine (grow_outcome h.inside).bind fun b' hb' => ?_
  obtain ⟨size, hsize, rfl, hroom⟩ := hb'
  rw [if_pos hroom]
  refine ⟨⟨hroom, ?_⟩, rfl, rfl, rfl⟩
  rw [Nat.add_one_mul, ← h.used_eq]

theorem reinsertPackedComponents_outcome (h : b.Consistent shape) :
    Outcome (fun b' => b'.Consistent shape ∧ b'.pending = b.pending + b.stored ∧ b'.needsPack = b.needsPack)
      (· = .lengthError) (b.reinsertPackedComponents shape) := by
  have hfold : ∀ (l : List ℕ) (b : CoordinateBuffer), b.Consistent shape →
      Outcome (fun b' => b'.Consistent shape ∧ b'.pending = b.pending + l.length ∧ b'.needsPack = b.needsPack)
        (· = .lengthError) (l.foldlM (fun b _ => b.insertUnsynced shape) b) := by
    intro l
    induction l with
    | nil => exact fun b hb => ⟨hb, rfl, rfl⟩
    | cons x l ih =>
      intro b hb
      rw [List.foldlM_cons]
      refine (insertUnsynced_outcome hb).bind fun b₁ hb₁ => ?_
      obtain ⟨hconsistent, hpending, -, hneeds⟩ := hb₁
      refine (ih b₁ hconsistent).mono (fun b' hb' => ⟨hb'.1, ?_, hb'.2.2.trans hneeds⟩) fun _ he => he
      rw [hb'.2.1, hpending, List.length_cons]
      omega
  have hall := hfold (List.range b.stored) b h
  rwa [List.length_range] at hall

/-! ### Packs -/

theorem Consistent.used_eq_zero_iff (h : b.Consistent shape) : b.used = 0 ↔ b.pending = 0 := by
  rw [h.used_eq, Nat.mul_eq_zero, or_iff_left shape.coordinateSize_pos.ne']

/-- A buffer is empty after its components are packed, but those of a scalar are still counted. -/
theorem packBuffer_outcome {stored : ℕ} (h : b.Consistent shape) :
    Outcome (fun b' => b'.size = 0 ∧ b'.pending = 0 ∧ b'.used = if shape.order = 0 then b.used else 0)
      (· = .lengthError) (b.packBuffer shape stored) := by
  have hread : b.used / shape.coordinateSize * shape.coordinateSize ≤ b.size :=
    (Nat.div_mul_le_self b.used _).trans h.inside
  rw [packBuffer, if_neg (not_lt.mpr hread)]
  split_ifs <;> exact ⟨rfl, rfl, rfl⟩

/-- The components to pack are the pending ones and, unless the tensor was never packed, the stored ones. -/
theorem unpack_outcome (h : b.Consistent shape) :
    Outcome (fun b' => b'.Consistent shape ∧ b'.pending = b.pending + if b.neverPacked then 0 else b.stored)
      (· = .lengthError) (b.unpack shape) := by
  rw [unpack]
  cases b.neverPacked with
  | true => exact ⟨⟨h.inside, h.used_eq⟩, rfl⟩
  | false => exact (reinsertPackedComponents_outcome h).mono (fun b' hb' => ⟨hb'.1, hb'.2.1⟩) fun _ he => he

theorem pack_outcome (h : b.Consistent shape) (stored : ℕ) :
    Outcome (fun b' => (b'.used = 0 ↔ b.Clears shape) ∧ (b'.used = 0 → b'.Consistent shape)) (· = .lengthError)
      (b.pack shape stored) := by
  rw [pack, Clears]
  cases hneeds : b.needsPack with
  | false =>
    rw [if_neg (by simp)]
    exact ⟨h.used_eq_zero_iff, fun _ => h⟩
  | true =>
    have hflag : Consistent shape { b with needsPack := false } := ⟨h.inside, h.used_eq⟩
    simp only [if_true]
    refine (unpack_outcome hflag).bind fun b₁ hb₁ => ?_
    refine (packBuffer_outcome hb₁.1).mono (fun b' hb' => ?_) fun _ he => he
    obtain ⟨hsize, hpending, hused⟩ := hb'
    refine ⟨?_, fun hzero => ⟨by rw [hzero, hsize], by rw [hzero, hpending, Nat.zero_mul]⟩⟩
    rw [hused]
    split_ifs with horder
    · rw [hb₁.1.used_eq_zero_iff, hb₁.2, Nat.add_eq_zero_iff]
      cases hnever : b.neverPacked with
      | true => simp [horder]
      | false => simp [horder]
    · exact iff_of_true rfl fun hzero => absurd hzero horder

/-! ### Runs -/

/-- What one operation on a consistent buffer does; none writes outside of it. -/
theorem step_outcome (h : b.Consistent shape) (op : Op) :
    Outcome (fun b' => (op.packs b → b'.used = 0) ∧ b'.Consistent shape ↔ b.Meets shape op) (· = .lengthError)
      (b.step shape op) := by
  have hkeeps : ∀ b' : CoordinateBuffer, b'.Consistent shape → ¬op.packs b →
      ((op.packs b → b'.used = 0) ∧ b'.Consistent shape ↔ True) := fun b' hb' hpacks =>
    iff_of_true ⟨fun hop => absurd hop hpacks, hb'⟩ trivial
  cases op with
  | reserve numCoordinates =>
    refine resize_outcome.mono (fun b' hb' => ?_) fun _ he => he
    obtain ⟨hsize, rfl⟩ := hb'
    exact ⟨fun hsound => hsound.2.inside, fun hmeets => ⟨fun hop => hop.elim, hmeets, h.used_eq⟩⟩
  | insert =>
    refine (insertUnsynced_outcome h).bind fun b₁ hb₁ => ?_
    exact hkeeps _ ⟨hb₁.1.inside, hb₁.1.used_eq⟩ id
  | insertUnchecked => exact (insertUnsynced_outcome h).mono (fun b' hb' => hkeeps b' hb'.1 id) fun _ he => he
  | assign => exact hkeeps _ ⟨h.inside, h.used_eq⟩ id
  | pack stored =>
    refine (pack_outcome h stored).mono (fun b' hb' => ?_) fun _ he => he
    exact ⟨fun hsound => hb'.1.mp (hsound.1 trivial), fun hmeets => ⟨fun _ => hb'.1.mpr hmeets, hb'.2 (hb'.1.mpr hmeets)⟩⟩
  | read stored =>
    rw [step, syncValues]
    split_ifs with hneeds hcompute
    · refine (pack_outcome h stored).mono (fun b' hb' => ?_) fun _ he => he
      refine ⟨fun hsound _ => hb'.1.mp (hsound.1 hneeds), fun hmeets => ?_⟩
      exact ⟨fun _ => hb'.1.mpr (hmeets hneeds), hb'.2 (hb'.1.mpr (hmeets hneeds))⟩
    · exact iff_of_true ⟨fun hop => absurd hop hneeds, h.inside, h.used_eq⟩ fun hop => absurd hop hneeds
    · exact iff_of_true ⟨fun hop => absurd hop hneeds, h⟩ fun hop => absurd hop hneeds

theorem Sound.consistent {ops : List Op} (h : Sound shape ops b) : b.Consistent shape := by
  cases ops with
  | nil => exact h
  | cons op ops => exact h.1

theorem sound_iff_of_consistent {ops : List Op} (h : b.Consistent shape) : Sound shape ops b ↔ MeetsAll shape ops b := by
  induction ops generalizing b with
  | nil => exact iff_of_true h trivial
  | cons op ops ih =>
    have hstep := step_outcome h op
    rw [Sound, MeetsAll, and_iff_right h]
    cases hb' : b.step shape op with
    | error e => exact iff_of_true (by rwa [hb'] at hstep) trivial
    | ok b' =>
      rw [hb', outcome_ok] at hstep
      rw [outcome_ok, outcome_ok]
      constructor
      · rintro ⟨hpacks, hsound⟩
        exact ⟨hstep.mp ⟨hpacks, hsound.consistent⟩, (ih hsound.consistent).mp hsound⟩
      · rintro ⟨hmeets, hall⟩
        obtain ⟨hpacks, hconsistent⟩ := hstep.mpr hmeets
        exact ⟨hpacks, (ih hconsistent).mpr hall⟩

theorem consistent_new : Consistent shape new := ⟨Nat.le_refl 0, (Nat.zero_mul _).symm⟩

/-- The buffer of a tensor stays consistent in exactly the runs that reserve without losing used bytes, that do not pack
    components of scalars, and that only pack what needs to be packed. -/
theorem sound_iff_meetsAll (shape : Shape) (ops : List Op) : Sound shape ops new ↔ MeetsAll shape ops new :=
  sound_iff_of_consistent consistent_new

/-- The bytes of a component are still counted when a scalar is packed. -/
theorem not_sound_scalar : ¬∀ (shape : Shape) (ops : List Op), Sound shape ops new := by
  intro h
  have hgrow : grow ⟨0, 8, by decide, by decide⟩ new = .ok ⟨8, 0, 0, 0, true, true, false, by decide⟩ := by
    rw [grow, if_pos (by decide), resize, dif_pos (by decide)]
    rfl
  have hinsert : step ⟨0, 8, by decide, by decide⟩ .insert new = .ok ⟨8, 8, 1, 0, true, true, false, by decide⟩ := by
    rw [step, insert, insertUnsynced, hgrow]
    rfl
  have hpack : step ⟨0, 8, by decide, by decide⟩ (.pack 1) ⟨8, 8, 1, 0, true, true, false, by decide⟩ =
      .ok ⟨0, 8, 0, 1, false, false, false, by decide⟩ := rfl
  obtain ⟨-, hsound⟩ := h ⟨0, 8, by decide, by decide⟩ [.insert, .pack 1]
  rw [hinsert] at hsound
  obtain ⟨-, -, hsound⟩ := hsound
  rw [hpack] at hsound
  exact absurd (hsound.1 trivial) (by decide)

/-! ### Buffers of components -/

section

variable {T Coord V E : Type} {k k' : Content T Coord V E}

/-- The buffer of a content, whose sizes are counted in components. -/
structure Represents (shape : Shape) (b : CoordinateBuffer) (k : Content T Coord V E) : Prop where
  size : b.size = k.coordinateBuffer.length * shape.coordinateSize
  used : b.used = k.coordinateBufferUsed * shape.coordinateSize
  stored : b.stored = k.storage.components.length

/-- The components that an insertion writes are at the bytes it writes. -/
theorem insertUnsynced_represents {component : Coord × V} (h : Represents shape b k)
    (hused : k.coordinateBufferUsed ≤ k.coordinateBuffer.length) (hinsert : k.insertUnsynced component = .ok k') :
    Outcome (Represents shape · k') (· = .lengthError) (b.insertUnsynced shape) := by
  have hpos := shape.coordinateSize_pos
  have hlength : k.coordinateBuffer.length < UInt64.size := by
    have hle : k.coordinateBuffer.length ≤ maxSize := (Nat.le_mul_of_pos_right _ hpos).trans (h.size ▸ b.size_le)
    exact hle.trans_lt (by decide)
  have hfree : (k.coordinateBuffer.length + UInt64.size - k.coordinateBufferUsed) % UInt64.size =
      k.coordinateBuffer.length - k.coordinateBufferUsed := by
    rw [Nat.sub_add_comm hused, Nat.add_mod_right, Nat.mod_eq_of_lt (by omega)]
  have hbytes : (b.size + UInt64.size - b.used) % UInt64.size =
      (k.coordinateBuffer.length - k.coordinateBufferUsed) * shape.coordinateSize := by
    have hle : b.used ≤ b.size := by rw [h.size, h.used]; exact Nat.mul_le_mul_right _ hused
    have hlimit : b.size - b.used < UInt64.size := (Nat.sub_le b.size b.used).trans_lt (b.size_le.trans_lt (by decide))
    rw [Nat.sub_add_comm hle, Nat.add_mod_right, Nat.mod_eq_of_lt hlimit, h.size, h.used, Nat.sub_mul]
  rw [Content.insertUnsynced, hfree] at hinsert
  rw [insertUnsynced, grow, hbytes]
  by_cases hfull : k.coordinateBuffer.length - k.coordinateBufferUsed < 1
  · have heq : k.coordinateBufferUsed = k.coordinateBuffer.length := by omega
    rw [if_pos hfull, if_pos (by omega)] at hinsert
    cases hinsert
    rw [if_pos (by rw [Nat.lt_one_iff.mp hfull, Nat.zero_mul]; exact hpos)]
    refine resize_outcome.bind fun b' hb' => ?_
    obtain ⟨hsize, rfl⟩ := hb'
    have hfits : b.used + shape.coordinateSize ≤ b.size + shape.coordinateSize := by rw [h.used, h.size, heq]
    rw [if_pos hfits]
    refine ⟨?_, ?_, h.stored⟩
    · simp [h.size, heq, Nat.add_one_mul]
    · simp [h.used, Nat.add_one_mul]
  · have hroom : (k.coordinateBufferUsed + 1) * shape.coordinateSize ≤
        k.coordinateBuffer.length * shape.coordinateSize := Nat.mul_le_mul_right _ (by omega)
    rw [if_neg hfull, if_pos (by omega)] at hinsert
    cases hinsert
    rw [if_neg (not_lt.mpr (Nat.le_mul_of_pos_left _ (by omega))), ok_bind]
    rw [if_pos (by rw [h.used, h.size, ← Nat.add_one_mul]; exact hroom)]
    refine ⟨?_, ?_, h.stored⟩
    · rw [h.size, List.length_append, List.length_take, List.length_cons, List.length_drop]
      congr 1
      omega
    · simp [h.used, Nat.add_one_mul]

end

end CoordinateBuffer

end Taco.Tensor
