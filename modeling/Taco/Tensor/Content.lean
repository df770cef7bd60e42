import Taco.Library.Fuel
import Taco.Tensor.Storage

/-! A tensor's content: its storage, its coordinate buffer and the flags that say what is still to do for it. -/

namespace Taco.Tensor

variable {T Coord V E : Type}

/-- How an operation on tensors ends early. -/
inductive Fault where
  | outOfBounds
  | nullDereference
  | compileWithoutExpr
  | assembleWithoutCompile
  | computeWithoutCompile
  | scalarExpected
  | noFunction
  | kernelFault
  | outOfDepth
  deriving DecidableEq

/-- `TensorBase::Content`. An assignment is a value of `E`: its left-hand side, its expression and its operator. -/
structure Content (T Coord V E : Type) where
  order : ℕ
  format : Layout Coord
  storage : Storage Coord V
  assignment : Option E
  /-- The left-hand side of the assignment is an `AccessTensorNode`, which refers to this tensor. -/
  refersToSelf : Bool
  /-- The assignment the functions of the module were compiled for. -/
  module : Option E
  coordinateBuffer : List (Coord × V)
  /-- Counted in components of `coordinateSize` bytes. -/
  coordinateBufferUsed : ℕ
  neverPacked : Bool
  needsPack : Bool
  needsCompile : Bool
  needsAssemble : Bool
  needsCompute : Bool
  dependentTensors : List T

namespace Content

/-- The constructor of a tensor. -/
def new (order : ℕ) (format : Layout Coord) : Content T Coord V E where
  order := order
  format := format
  storage := Storage.empty
  assignment := none
  refersToSelf := false
  module := none
  coordinateBuffer := []
  coordinateBufferUsed := 0
  neverPacked := true
  needsPack := true
  needsCompile := false
  needsAssemble := false
  needsCompute := false
  dependentTensors := []

/-- `TensorBase::insertUnsynced`: the buffer grows by one component if none is free, and the component is written after
    the used ones. The difference is one of `size_t`s. -/
def insertUnsynced (k : Content T Coord V E) (component : Coord × V) : Except Fault (Content T Coord V E) :=
  let free := (k.coordinateBuffer.length + UInt64.size - k.coordinateBufferUsed) % UInt64.size
  let size := if free < 1 then k.coordinateBuffer.length + 1 else k.coordinateBuffer.length
  if k.coordinateBufferUsed < size then
    .ok { k with
      coordinateBuffer := k.coordinateBuffer.take k.coordinateBufferUsed ++
        component :: k.coordinateBuffer.drop (k.coordinateBufferUsed + 1)
      coordinateBufferUsed := k.coordinateBufferUsed + 1 }
  else
    .error .outOfBounds

/-- `TensorBase::reinsertPackedComponents`. -/
def reinsertPackedComponents (k : Content T Coord V E) : Except Fault (Content T Coord V E) :=
  k.storage.components.foldlM insertUnsynced k

variable [DecidableEq Coord] [AddCommMonoid V]

/-- The end of `TensorBase::pack`: the used components of the buffer become the storage. The buffer of a scalar is
    cleared as well, but not the count of its used components. -/
def packBuffer (k : Content T Coord V E) : Except Fault (Content T Coord V E) :=
  if k.coordinateBuffer.length < k.coordinateBufferUsed then
    .error .outOfBounds
  else
    .ok { k with
      storage := packed k.format (k.coordinateBuffer.take k.coordinateBufferUsed)
      coordinateBuffer := []
      coordinateBufferUsed := if k.order = 0 then k.coordinateBufferUsed else 0 }

/-- The beginning of `TensorBase::pack`: the packed components go back to the buffer, unless there never were any. -/
def unpack (k : Content T Coord V E) : Except Fault (Content T Coord V E) :=
  if k.neverPacked then .ok { k with neverPacked := false } else k.reinsertPackedComponents

/-- `TensorBase::pack`. -/
def pack (k : Content T Coord V E) : Except Fault (Content T Coord V E) :=
  if k.needsPack then { k with needsPack := false }.unpack >>= packBuffer else .ok k

/-! ### What packing does -/

omit [DecidableEq Coord] [AddCommMonoid V] in
/-- Only the buffer changes when a component is inserted. -/
theorem insertUnsynced_frame {k k' : Content T Coord V E} {component : Coord × V}
    (h : k.insertUnsynced component = .ok k') :
    k' = { k with coordinateBuffer := k'.coordinateBuffer, coordinateBufferUsed := k'.coordinateBufferUsed } := by
  simp only [insertUnsynced] at h
  split_ifs at h <;> cases h <;> rfl

omit [DecidableEq Coord] [AddCommMonoid V] in
theorem reinsertPackedComponents_frame {k k' : Content T Coord V E} (h : k.reinsertPackedComponents = .ok k') :
    k' = { k with coordinateBuffer := k'.coordinateBuffer, coordinateBufferUsed := k'.coordinateBufferUsed } := by
  have hfold : ∀ (l : List (Coord × V)) (k : Content T Coord V E), l.foldlM insertUnsynced k = .ok k' →
      k' = { k with coordinateBuffer := k'.coordinateBuffer, coordinateBufferUsed := k'.coordinateBufferUsed } := by
    intro l
    induction l with
    | nil =>
      intro k hk
      cases hk
      rfl
    | cons p l ih =>
      intro k hk
      rw [List.foldlM_cons] at hk
      cases hp : k.insertUnsynced p with
      | error e => rw [hp] at hk; cases hk
      | ok k₁ =>
        rw [hp] at hk
        have h₁ := ih k₁ hk
        rw [insertUnsynced_frame hp] at h₁
        exact h₁
  exact hfold _ k h

theorem packBuffer_frame {k k' : Content T Coord V E} (h : k.packBuffer = .ok k') :
    k' = { k with
      storage := k'.storage
      coordinateBuffer := k'.coordinateBuffer
      coordinateBufferUsed := k'.coordinateBufferUsed
      neverPacked := k'.neverPacked } := by
  simp only [packBuffer] at h
  split at h
  · cases h
  · cases h
    rfl

omit [DecidableEq Coord] [AddCommMonoid V] in
theorem unpack_frame {k k' : Content T Coord V E} (h : k.unpack = .ok k') :
    k' = { k with
      coordinateBuffer := k'.coordinateBuffer
      coordinateBufferUsed := k'.coordinateBufferUsed
      neverPacked := k'.neverPacked } := by
  rw [unpack] at h
  split_ifs at h
  · cases h
    rfl
  · rw [reinsertPackedComponents_frame h]

/-- Packing changes the storage and the buffer, and nothing of the assignment. -/
theorem pack_frame {k k' : Content T Coord V E} (h : k.pack = .ok k') :
    k' = { k with
      storage := k'.storage
      coordinateBuffer := k'.coordinateBuffer
      coordinateBufferUsed := k'.coordinateBufferUsed
      neverPacked := k'.neverPacked
      needsPack := false } := by
  rw [pack] at h
  split_ifs at h with hneeds
  · obtain ⟨k₁, hk₁, h⟩ := ok_of_bind h
    have hframe := packBuffer_frame h
    rw [unpack_frame hk₁] at hframe
    exact hframe
  · cases h
    rw [Bool.not_eq_true] at hneeds
    rw [← hneeds]

omit [DecidableEq Coord] [AddCommMonoid V] in
/-- An insertion fails outside of the buffer only. -/
theorem insertUnsynced_outcome (k : Content T Coord V E) (component : Coord × V) :
    Outcome (fun _ => True) (· = .outOfBounds) (k.insertUnsynced component) := by
  simp only [insertUnsynced]
  split_ifs <;> simp

/-- Packing fails outside of the buffer only. -/
theorem pack_outcome (k : Content T Coord V E) : Outcome (fun _ => True) (· = .outOfBounds) k.pack := by
  rw [pack]
  split_ifs
  · refine Outcome.bind (Q := fun _ => True) ?_ fun k' _ => ?_
    · rw [unpack]
      split_ifs
      · trivial
      · exact Outcome.foldlM_of_forall (fun component _ k _ => insertUnsynced_outcome k component) trivial
    · simp only [packBuffer]
      split_ifs <;> simp
  · trivial

/-! ### What is packed -/

/-- Every component of the buffer is a used one. -/
def Full (k : Content T Coord V E) : Prop := k.coordinateBufferUsed = k.coordinateBuffer.length

/-- The components a packing would store. -/
def unpacked (k : Content T Coord V E) : List (Coord × V) :=
  k.coordinateBuffer ++ if k.neverPacked then [] else k.storage.components

omit [DecidableEq Coord] [AddCommMonoid V] in
theorem insertUnsynced_of_full {k : Content T Coord V E} (h : k.Full) (component : Coord × V) :
    k.insertUnsynced component = .ok { k with
      coordinateBuffer := k.coordinateBuffer ++ [component]
      coordinateBufferUsed := k.coordinateBufferUsed + 1 } := by
  have hfree : (k.coordinateBuffer.length + UInt64.size - k.coordinateBufferUsed) % UInt64.size = 0 := by
    rw [h, Nat.add_sub_cancel_left, Nat.mod_self]
  have hdrop : k.coordinateBuffer.drop (k.coordinateBuffer.length + 1) = [] := List.drop_eq_nil_of_le (Nat.le_succ _)
  simp only [insertUnsynced, hfree, Nat.zero_lt_one, if_true]
  rw [h, if_pos (Nat.lt_succ_self _), List.take_length, hdrop]

omit [DecidableEq Coord] [AddCommMonoid V] in
theorem reinsertPackedComponents_of_full {k : Content T Coord V E} (h : k.Full) :
    k.reinsertPackedComponents = .ok { k with
      coordinateBuffer := k.coordinateBuffer ++ k.storage.components
      coordinateBufferUsed := k.coordinateBufferUsed + k.storage.components.length } := by
  have hfold : ∀ (l : List (Coord × V)) (k : Content T Coord V E), k.Full → l.foldlM insertUnsynced k = .ok { k with
      coordinateBuffer := k.coordinateBuffer ++ l
      coordinateBufferUsed := k.coordinateBufferUsed + l.length } := by
    intro l
    induction l with
    | nil =>
      intro k _
      simp
      rfl
    | cons p l ih =>
      intro k hk
      rw [List.foldlM_cons, insertUnsynced_of_full hk, ok_bind, ih _ (by simpa [Full] using hk)]
      simp [Nat.add_assoc, Nat.add_comm 1]
  exact hfold _ k h

omit [DecidableEq Coord] [AddCommMonoid V] in
theorem unpack_of_full {k : Content T Coord V E} (h : k.Full) : k.unpack = .ok { k with
    coordinateBuffer := k.unpacked
    coordinateBufferUsed := k.unpacked.length
    neverPacked := false } := by
  rw [unpack]
  split_ifs with hnever
  · rw [Full] at h
    simp [unpacked, hnever, h]
  · rw [reinsertPackedComponents_of_full h, h]
    rw [Bool.not_eq_true] at hnever
    simp [unpacked, hnever]

theorem packBuffer_of_full {k : Content T Coord V E} (h : k.Full) : k.packBuffer = .ok { k with
    storage := packed k.format k.coordinateBuffer
    coordinateBuffer := []
    coordinateBufferUsed := if k.order = 0 then k.coordinateBuffer.length else 0 } := by
  rw [packBuffer, h, if_neg (Nat.lt_irrefl _), List.take_length]

/-- What packing a tensor leaves: all of its components in the storage, and for a scalar the count of the components. -/
theorem pack_of_full {k : Content T Coord V E} (h : k.Full) (hneeds : k.needsPack = true) : k.pack = .ok { k with
    storage := packed k.format k.unpacked
    coordinateBuffer := []
    coordinateBufferUsed := if k.order = 0 then k.unpacked.length else 0
    neverPacked := false
    needsPack := false } := by
  have hunpack := unpack_of_full (k := { k with needsPack := false }) h
  rw [pack, if_pos hneeds, hunpack, ok_bind]
  exact packBuffer_of_full (show _ = _ from rfl)

theorem pack_of_not {k : Content T Coord V E} (h : k.needsPack = false) : k.pack = .ok k := by
  rw [pack, if_neg (by simp [h])]

/-- The values a tensor without a pending computation stands for. -/
def contents (k : Content T Coord V E) : Coord → V :=
  if k.needsPack then sumAt k.unpacked else k.storage.read

/-- An inserted component is added, if packing is due or nothing but the storage counts. -/
theorem contents_insert {k : Content T Coord V E} (component : Coord × V) (used : ℕ)
    (h : k.needsPack = false → k.coordinateBuffer = [] ∧ (k.neverPacked = true → ∀ c, k.storage.read c = 0)) (c : Coord) :
    contents { k with
      coordinateBuffer := k.coordinateBuffer ++ [component]
      coordinateBufferUsed := used
      needsPack := true } c = k.contents c + sumAt [component] c := by
  simp only [contents, unpacked, if_true, sumAt_append]
  by_cases hpack : k.needsPack = true
  · rw [if_pos hpack, sumAt_append]
    exact add_right_comm _ _ _
  · obtain ⟨hbuffer, hnever⟩ := h (by simpa using hpack)
    rw [if_neg hpack, hbuffer, sumAt_nil, zero_add, add_comm]
    split_ifs with hn
    · rw [sumAt_nil, hnever hn]
    · rw [Storage.sumAt_components]

/-- Packing does not change what the tensor stands for. -/
theorem exists_pack {k : Content T Coord V E} (h : k.needsPack = true → k.Full)
    (hbuffer : k.coordinateBuffer.length ≤ k.coordinateBufferUsed) : ∃ k', k.pack = .ok k' ∧
      k'.storage.read = k.contents ∧ k'.coordinateBuffer.length ≤ k'.coordinateBufferUsed := by
  by_cases hneeds : k.needsPack = true
  · refine ⟨_, pack_of_full (h hneeds) hneeds, ?_, Nat.zero_le _⟩
    funext c
    rw [contents, if_pos hneeds, Storage.read_packed]
  · rw [Bool.not_eq_true] at hneeds
    exact ⟨k, pack_of_not hneeds, by simp [contents, hneeds], hbuffer⟩

end Content

end Taco.Tensor
