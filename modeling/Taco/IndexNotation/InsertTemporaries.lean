import Taco.IndexNotation.Concrete
import Taco.Library.Monomials
import Taco.Workspace.Acceleration

/-! The workspace that is inserted into a product of matrices whose result is compressed. -/

namespace Taco
namespace Concrete

open Workspace (Format ModeFormat)

variable {V : Type}

/-! ### The pass -/

/-- The levels are named dense and compressed and are stored in the order of the modes. -/
def isDenseCompressed (format : Format) : Bool :=
  match format.modeFormats with
  | [.dense _ _ _, .compressed _ _] => format.modeOrdering = [0, 1]
  | _ => false

/-- Both levels are ordered and are stored in the order of the modes. -/
def isOrderedRowMajor (format : Format) : Bool :=
  match format.modeFormats with
  | [level, level'] => level.isOrdered && level'.isOrdered && format.modeOrdering = [0, 1]
  | _ => false

namespace IndexStmt

/-- The loops of a product of matrices. -/
def product (i k j : IndexVar) (lhs b c : Access) (compound : Bool) : IndexStmt V :=
  .forall i (.forall k (.forall j (.assignment lhs (.mul (.access b) (.access c)) compound)))

/-- A row of the product is accumulated in a workspace. -/
def workspaceProduct (i k j : IndexVar) (A B C w : TensorVar) : IndexStmt V :=
  .forall i
    (.where (.forall j (.assignment (.make A [i, j]) (.access (.make w [j])) false))
      (.forall k (.forall j
        (.assignment (.make w [j]) (.mul (.access (.make B [i, k])) (.access (.make C [k, j]))) true))))

/-- The accesses and formats that are looked for. -/
def isSpMM (format : TensorVar → Format) (i k j : IndexVar) (lhs b c : Access) : Bool :=
  lhs.indexVars = [i, j] && b.indexVars = [i, k] && c.indexVars = [k, j] &&
    isDenseCompressed (format lhs.tensorVar) && isOrderedRowMajor (format b.tensorVar) &&
    isOrderedRowMajor (format c.tensorVar)

/-- `optimizeSpMM`; `w` is the new workspace. -/
def optimizeSpMM (format : TensorVar → Format) (w : TensorVar) : IndexStmt V → IndexStmt V
  | .forall i (.forall k (.forall j (.assignment lhs (.mul (.access b) (.access c)) compound))) =>
    if isSpMM format i k j lhs b c then workspaceProduct i k j lhs.tensorVar b.tensorVar c.tensorVar w
    else product i k j lhs b c compound
  | s => s

/-- `insertTemporaries`. -/
def insertTemporaries (format : TensorVar → Format) (w : TensorVar) (s : IndexStmt V) : IndexStmt V :=
  optimizeSpMM format w s

/-- The tensors of a statement. -/
def tensorVars (s : IndexStmt V) : List TensorVar := s.accesses.map Access.tensorVar

/-- The pass leaves a statement as it is, or it replaces a product. -/
theorem insertTemporaries_cases (format : TensorVar → Format) (w : TensorVar) (s : IndexStmt V) :
    s.insertTemporaries format w = s ∨ ∃ i k j lhs b c compound, s = product i k j lhs b c compound ∧
      isSpMM format i k j lhs b c = true ∧
      s.insertTemporaries format w = workspaceProduct i k j lhs.tensorVar b.tensorVar c.tensorVar w := by
  rw [insertTemporaries]
  unfold optimizeSpMM
  split
  · rename_i i k j lhs b c compound
    by_cases h : isSpMM format i k j lhs b c = true
    · exact Or.inr ⟨i, k, j, lhs, b, c, compound, rfl, h, if_pos h⟩
    · exact Or.inl (if_neg h)
  · exact Or.inl rfl

end IndexStmt

/-! ### Accumulating loops -/

/-- Loops that add to components of a tensor what does not depend on it. -/
theorem foldl_accumulate [Ring V] {α : Type} (A : TensorVar) (place : α → List ℕ) (val : Store V → α → V)
    (hval : ∀ σ σ' : Store V, (∀ t, t ≠ A → σ t = σ' t) → val σ = val σ') (l : List α) (σ : Store V) :
    l.foldl (fun σ a => σ.write A (place a) (σ A (place a) + val σ a)) σ =
      fun t q => if t = A then σ A q + (l.map fun a => if place a = q then val σ a else 0).sum else σ t q := by
  induction l generalizing σ with
  | nil =>
    funext t q
    by_cases ht : t = A <;> simp [ht]
  | cons a l ih =>
    have hsame : val (σ.write A (place a) (σ A (place a) + val σ a)) = val σ :=
      hval _ _ fun t ht => Store.write_of_ne ht
    rw [List.foldl_cons, ih, hsame]
    funext t q
    by_cases ht : t = A
    · subst ht
      rw [if_pos rfl, if_pos rfl, List.map_cons, List.sum_cons, ← add_assoc]
      by_cases hq : place a = q
      · subst hq
        rw [Store.write_self, if_pos rfl]
      · rw [Store.write_of_coords_ne (Ne.symm hq), if_neg hq, add_zero]
    · rw [if_neg ht, if_neg ht, Store.write_of_ne ht]

end Concrete
end Taco
