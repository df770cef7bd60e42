import Taco.IR.SimplifySound

/-! The simplifier preserves datatype and value exactly where every rule it applies does. -/

namespace Taco
namespace IR
open Expr

/-- `simplify` returns an expression of the same datatype that has the value of `e` wherever `e` has one. -/
def Preserves (e : Expr) : Prop :=
  ∃ k, simplify e = some k ∧ k.type = e.type ∧ ∀ m v, e.eval m = some v → k.eval m = some v

/-- The expression has a value in some memory. -/
def Evaluates (e : Expr) : Prop := ∃ m v, e.eval m = some v

theorem simplify_eq_some {e k : Expr} : simplify e = some k ↔ ∃ b, simplifyWith (fun _ => none) e = some ⟨k, b⟩ := by
  rw [simplify, Option.map_eq_some_iff]
  constructor
  · rintro ⟨⟨k', b⟩, h, rfl⟩
    exact ⟨b, h⟩
  · rintro ⟨b, h⟩
    exact ⟨_, h, rfl⟩

theorem simplifyWith_operands {e : Expr} (he : ∀ v, e ≠ var v) :
    ∃ simp, simplifyWith (fun _ => none) e =
      (e.operands.mapM (simplifyWith fun _ => none)).bind (finish simp e) := by
  obtain ⟨fuel, hfuel⟩ : ∃ fuel, e.size = fuel + 1 := Nat.exists_eq_add_one.mpr e.size_pos
  refine ⟨rewrite fuel fun _ => none, ?_⟩
  rw [simplifyWith, hfuel, rewrite_operands he]
  congr 1
  exact mapM_congr fun c hc => (simplifyWith_eq (by have := size_lt_of_mem hc; omega)).symm

/-- An operation that has a value has values of its operands. -/
theorem fold_of_preserves {op : BinaryOp} {a₀ b₀ : Expr} {la lb l : Literal}
    (ha : ∀ m v, a₀.eval m = some v → la.val = v) (hb : ∀ m v, b₀.eval m = some v → lb.val = v)
    (hta : la.type = a₀.type) (htb : lb.type = b₀.type) (hev : Evaluates (binary op a₀ b₀))
    (hval : ∀ m v, (binary op a₀ b₀).eval m = some v → l.val = v) :
    FoldOK (binary op a₀ b₀) [literal la, literal lb] l := by
  obtain ⟨m, v, hv⟩ := hev
  obtain ⟨x, y, hx, hy, h⟩ := eval_binary hv
  rw [FoldOK, hta, htb, ha m x hx, hb m y hy, h, hval m v hv]

/-- A node that is preserved, over operands that are, is sound. -/
theorem nodeOK_of_preserves {e : Expr} (hops : ∀ c ∈ e.operands, Preserves c) (he : Preserves e) (hev : Evaluates e) :
    NodeOK (fun _ => none) e := by
  intro rs hrs
  obtain ⟨k, hk, htype, hval⟩ := he
  obtain ⟨b, hb⟩ := simplify_eq_some.mp hk
  by_cases hvar : ∃ v, e = var v
  · obtain ⟨v, rfl⟩ := hvar
    obtain rfl : [] = rs := Option.some.inj hrs
    exact ⟨.rebuild, rfl, fun h => by cases h⟩
  · obtain ⟨simp, hsimp⟩ := simplifyWith_operands fun v hv => hvar ⟨v, hv⟩
    rw [hrs, Option.bind_some, hb] at hsimp
    obtain ⟨rule, hrule, hres⟩ := finish_some hsimp.symm
    refine ⟨rule, hrule, ?_⟩
    have hall := mapM_eq_some.mp hrs
    have hspec := rule_spec hrule
    have hoperand : List.Forall₂ (fun c r : Expr => r.type = c.type ∧ ∀ m v, c.eval m = some v → r.eval m = some v)
        e.operands (rs.map Rewritten.expr) := by
      rw [List.forall₂_map_right_iff]
      refine forall₂_imp_mem hall fun c r hc hr => ?_
      obtain ⟨k', hk', htype', hval'⟩ := hops c hc
      obtain ⟨b', hb'⟩ := simplify_eq_some.mp hk'
      obtain rfl := Option.some.inj (hb'.symm.trans hr)
      exact ⟨htype', hval'⟩
    cases rule with
    | fold l =>
      obtain rfl : k = literal l := congrArg Rewritten.expr hres
      show FoldOK e (rs.map Rewritten.expr) l
      generalize rs.map Rewritten.expr = es at *
      cases hspec with
      | @foldBinary op a₀ b₀ la lb _ _ =>
        obtain ⟨ha, hrest⟩ := List.forall₂_cons.mp hoperand
        obtain ⟨hb', -⟩ := List.forall₂_cons.mp hrest
        exact fold_of_preserves (fun m v hv => Option.some.inj (ha.2 m v hv)) (fun m v hv => Option.some.inj (hb'.2 m v hv))
          ha.1 hb'.1 hev fun m v hv => Option.some.inj (hval m v hv)
      | foldCast => trivial
    | keep k' =>
      obtain rfl : k = k' := congrArg Rewritten.expr hres
      exact htype
    | negate k' =>
      obtain rfl : k = neg k' := congrArg Rewritten.expr hres
      exact htype
    | reassociate k' => trivial
    | rebuild =>
      intro hany
      rcases hres with ⟨-, h⟩ | ⟨hnot, -⟩
      · obtain rfl : k = e.make (rs.map Rewritten.expr) := congrArg Rewritten.expr h
        exact htype
      · rw [hany] at hnot
        cases hnot

theorem subexpr_operand {c e : Expr} (h : c ∈ e.operands) : Subexpr c e := .operand h .refl

theorem Sound.preserves {e : Expr} (h : Sound (fun _ => none) e) : Preserves e := by
  obtain ⟨r, hr, ht, hv⟩ := rewrite_sound (Nat.le_refl _) h fun _ _ _ h => by cases h
  exact ⟨r.expr, simplify_eq_some.mpr ⟨r.isNew, hr⟩, ht, fun m => hv m fun _ _ _ h => by cases h⟩

/-- The 64-bit literal 1. -/
def one64 : Literal := .make (.int .w64) 1

/-- The 32-bit literal 0. -/
def zero32 : Literal := .make (.int .w32) 0

/-- A 32-bit variable. -/
def x32 : Var := ⟨0, .int .w32⟩

end IR
end Taco
