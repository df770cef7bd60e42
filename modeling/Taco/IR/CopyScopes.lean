import Taco.IR.CopyPropagation
import Taco.IR.Runs
import Taco.IR.SimplifySound

/-! Well-scoped statements, the condition under which the copies that the simplifier propagates hold, and what
    the simplifier knows of them along a statement. -/

namespace Taco
namespace IR
open Expr

/-! ### Scoping -/

namespace Stmt

variable (free : List Var)

mutual

/-- A statement that reads and assigns only the variables in `free` and those declared around it, `Γ`, and declares
    only other ones. The bodies of loops and branches are scopes. -/
def Scoped : Stmt → List Var → Prop
  | block contents, Γ => ScopedAll contents Γ
  | scope s, Γ => s.Scoped Γ
  | varDecl v rhs, Γ => v ∉ free ∧ v ∉ Γ ∧ rhs.vars ⊆ free ++ Γ
  | assign lhs rhs, Γ => lhs ∈ free ++ Γ ∧ rhs.vars ⊆ free ++ Γ
  | store _ loc data, Γ => loc.vars ⊆ free ++ Γ ∧ data.vars ⊆ free ++ Γ
  | yield coords val, Γ => coords ⊆ free ++ Γ ∧ val.vars ⊆ free ++ Γ
  | ifThenElse cond s none, Γ => cond.vars ⊆ free ++ Γ ∧ s.declared = [] ∧ s.Scoped Γ
  | ifThenElse cond s (some t), Γ =>
    cond.vars ⊆ free ++ Γ ∧ (s.declared = [] ∧ s.Scoped Γ) ∧ t.declared = [] ∧ t.Scoped Γ
  | case clauses _, Γ => ScopedClauses clauses Γ
  | switch cases controlExpr, Γ => controlExpr.vars ⊆ free ++ Γ ∧ ScopedClauses cases Γ
  | .for v start e increment s, Γ =>
    (v ∉ free ∧ v ∉ Γ) ∧ start.vars ⊆ free ++ Γ ∧ e ∈ free ++ Γ ∧ increment.vars ⊆ free ++ Γ ∧ s.declared = [] ∧
      s.Scoped (v :: Γ)
  | .while cond s, Γ => cond.vars ⊆ free ++ Γ ∧ s.declared = [] ∧ s.Scoped Γ

def ScopedAll : List Stmt → List Var → Prop
  | [], _ => True
  | s :: ss, Γ => s.Scoped Γ ∧ ScopedAll ss (s.declared ++ Γ)

def ScopedClauses : List (Expr × Stmt) → List Var → Prop
  | [], _ => True
  | (c, s) :: clauses, Γ => c.vars ⊆ free ++ Γ ∧ s.declared = [] ∧ s.Scoped Γ ∧ ScopedClauses clauses Γ

end

end Stmt

/-! ### The condition -/

namespace Simplifier

variable (loopDependentVars : List Var)

/-- The state of the simplifier after a statement. -/
def after (s : Stmt) (P : Simplifier) : Simplifier := ((visit loopDependentVars s P).map Prod.snd).getD P

/-- A use of `b` in the expression is replaced. -/
def replacesIn (P : Simplifier) (b : Var) (e : Expr) : Prop := b ∈ e.vars ∧ (P.copyOf b).isSome

variable (b : Var)

mutual

/-- A use of `b` in the statement is replaced. -/
def Replaces : Stmt → Simplifier → Prop
  | .block contents, P => ReplacesAll contents P
  | .scope s, P => Replaces s P.scope
  | .varDecl _ rhs, P | .assign _ rhs, P => P.replacesIn b rhs
  | .store _ loc data, P => P.replacesIn b loc ∨ P.replacesIn b data
  | .yield _ val, P => P.replacesIn b val
  | .ifThenElse cond s none, P => P.replacesIn b cond ∨ Replaces s (P.visitVars cond.vars)
  | .ifThenElse cond s (some t), P =>
    P.replacesIn b cond ∨ Replaces s (P.visitVars cond.vars) ∨
      Replaces t (after loopDependentVars s (P.visitVars cond.vars))
  | .case clauses _, P => ReplacesClauses clauses P
  | .switch cases controlExpr, P =>
    P.replacesIn b controlExpr ∨ ReplacesClauses cases (P.visitVars controlExpr.vars)
  | .for v start e increment s, P =>
    P.replacesIn b start ∨ P.replacesIn b (var e) ∨ P.replacesIn b increment ∨
      Replaces s (P.visitVars (v :: start.vars ++ e :: increment.vars))
  | .while cond s, P => P.replacesIn b cond ∨ Replaces s (P.visitVars cond.vars)

def ReplacesAll : List Stmt → Simplifier → Prop
  | [], _ => False
  | s :: ss, P => Replaces s P ∨ ReplacesAll ss (after loopDependentVars s P)

def ReplacesClauses : List (Expr × Stmt) → Simplifier → Prop
  | [], _ => False
  | (c, s) :: clauses, P =>
    P.replacesIn b c ∨ Replaces s (P.visitVars c.vars) ∨
      ReplacesClauses clauses (after loopDependentVars s (P.visitVars c.vars))

end

/-- The loop body assigns neither side of a copy that the loop uses and that was made before it. -/
def LoopKeeps (P : Simplifier) (uses : Var → Prop) (body : Stmt) : Prop :=
  ∀ b a, P.copyOf b = some a → uses b → b ∉ body.assigned ∧ a ∉ body.assigned

mutual

/-- The copies hold: each has the type of its source, no loop changes a copy that it uses or the source of one, no
    copy is a yielded coordinate, and the expressions are simplified soundly. -/
def CopiesHold : Stmt → Simplifier → Prop
  | .block contents, P => CopiesHoldAll contents P
  | .scope s, P => CopiesHold s P.scope
  | .varDecl v rhs, P =>
    Sound P.copyOf rhs ∧
      ∀ r a, simplifyWith P.copyOf rhs = some r → r.expr = var a → v.type.isInt = true → a.type = v.type
  | .assign _ rhs, P => Sound P.copyOf rhs
  | .store _ loc data, P => Sound P.copyOf loc ∧ Sound P.copyOf data
  | .yield coords val, P => (∀ c ∈ coords, P.copyOf c = none) ∧ Sound P.copyOf val
  | .ifThenElse cond s none, P => Sound P.copyOf cond ∧ CopiesHold s (P.visitVars cond.vars)
  | .ifThenElse cond s (some t), P =>
    Sound P.copyOf cond ∧ CopiesHold s (P.visitVars cond.vars) ∧
      CopiesHold t (after loopDependentVars s (P.visitVars cond.vars))
  | .case clauses _, P => CopiesHoldClauses clauses P
  | .switch cases controlExpr, P =>
    Sound P.copyOf controlExpr ∧ CopiesHoldClauses cases (P.visitVars controlExpr.vars)
  | .for v start e increment s, P =>
    Sound P.copyOf start ∧ Sound P.copyOf increment ∧
      LoopKeeps P (fun b => P.replacesIn b (var e) ∨ P.replacesIn b increment ∨
        Replaces loopDependentVars b s (P.visitVars (v :: start.vars ++ e :: increment.vars))) s ∧
      CopiesHold s (P.visitVars (v :: start.vars ++ e :: increment.vars))
  | .while cond s, P =>
    Sound P.copyOf cond ∧
      LoopKeeps P (fun b => P.replacesIn b cond ∨ Replaces loopDependentVars b s (P.visitVars cond.vars)) s ∧
      CopiesHold s (P.visitVars cond.vars)

def CopiesHoldAll : List Stmt → Simplifier → Prop
  | [], _ => True
  | s :: ss, P => CopiesHold s P ∧ CopiesHoldAll ss (after loopDependentVars s P)

def CopiesHoldClauses : List (Expr × Stmt) → Simplifier → Prop
  | [], _ => True
  | (c, s) :: clauses, P =>
    Sound P.copyOf c ∧ CopiesHold s (P.visitVars c.vars) ∧
      CopiesHoldClauses clauses (after loopDependentVars s (P.visitVars c.vars))

end

end Simplifier

/-! ### Variables of rewritten expressions -/

theorem subexpr_var_iff {v w : Var} : Subexpr (var v) (var w) ↔ v = w := by
  constructor
  · intro h
    cases h with
    | refl => rfl
    | operand hc _ => cases hc
  · rintro rfl
    exact .refl

theorem not_subexpr_literal {v : Var} {l : Literal} : ¬ Subexpr (var v) (literal l) := fun h => by
  cases h with
  | operand hc _ => cases hc

/-- A variable occurs in a node if it occurs in an operand. -/
theorem subexpr_iff_operand {v : Var} {e : Expr} (he : ∀ w, e ≠ var w) :
    Subexpr (var v) e ↔ ∃ c ∈ e.operands, Subexpr (var v) c := by
  constructor
  · intro h
    cases h with
    | refl => exact absurd rfl (he v)
    | operand hc h => exact ⟨_, hc, h⟩
  · rintro ⟨c, hc, h⟩
    exact .operand hc h

mutual

theorem mem_vars_iff {v : Var} : ∀ {e : Expr}, v ∈ e.vars ↔ Subexpr (var v) e
  | literal l => by simp [vars, not_subexpr_literal]
  | var w => by rw [vars, List.mem_singleton, subexpr_var_iff]
  | neg a | .cast a _ | load _ a => by
    refine Iff.trans ?_ (subexpr_iff_operand fun w h => by cases h).symm
    rw [vars, mem_vars_iff]
    simp [operands]
  | binary _ a b | .compare _ a b | .and a b | .or a b => by
    refine Iff.trans ?_ (subexpr_iff_operand fun w h => by cases h).symm
    rw [vars, List.mem_append, mem_vars_iff, mem_vars_iff]
    simp [operands]
  | .min es _ | .max es _ => by
    refine Iff.trans ?_ (subexpr_iff_operand fun w h => by cases h).symm
    rw [vars, mem_varsAll_iff]
    rfl

theorem mem_varsAll_iff {v : Var} : ∀ {es : List Expr}, v ∈ varsAll es ↔ ∃ c ∈ es, Subexpr (var v) c
  | [] => by simp [varsAll]
  | e :: es => by rw [varsAll, List.mem_append, mem_vars_iff, mem_varsAll_iff, List.exists_mem_cons_iff]

end

theorem Reassociated.subexpr {op : BinaryOp} {a b k : Expr} {v : Var} (h : Reassociated op a b k)
    (hv : Subexpr (var v) k) : Subexpr (var v) a := by
  have hleft : ∀ {o o' : BinaryOp} {c : Expr} {l l' : Literal}, Subexpr (var v) (binary o c (literal l)) →
      Subexpr (var v) (binary o' c (literal l')) := by
    intro o o' c l l' hv
    obtain ⟨x, hx, hvx⟩ := (subexpr_iff_operand fun w h => by cases h).mp hv
    rcases List.mem_cons.mp hx with rfl | hx
    · exact .operand List.mem_cons_self hvx
    · rw [List.mem_singleton.mp hx] at hvx
      exact absurd hvx not_subexpr_literal
  cases h <;> exact hleft hv

theorem make_ne_var {e : Expr} {es : List Expr} (he : ∀ w, e ≠ var w) (w : Var) : e.make es ≠ var w := by
  intro h
  unfold make at h
  split at h <;> first | exact he w h | cases h

/-- The variables of a rewritten expression replace variables of the original one. -/
theorem rewrite_vars : ∀ {fuel : ℕ} {sub : Var → Option Var} {e : Expr} {r : Rewritten} {v : Var},
    rewrite fuel sub e = some r → Subexpr (var v) r.expr → ∃ x, Subexpr (var x) e ∧ v = (sub x).getD x
  | 0, _, _, _, _, h, _ => by cases h
  | fuel + 1, sub, e, r, v, h, hv => by
    by_cases he : ∃ w, e = var w
    · obtain ⟨w, rfl⟩ := he
      rw [rewrite] at h
      obtain rfl := Option.some.inj h
      refine ⟨w, .refl, ?_⟩
      cases hs : sub w with
      | none =>
        rw [hs] at hv
        exact subexpr_var_iff.mp hv
      | some a =>
        rw [hs] at hv
        exact subexpr_var_iff.mp hv
    · have he' : ∀ w, e ≠ var w := fun w hw => he ⟨w, hw⟩
      rw [rewrite_operands he'] at h
      obtain ⟨rs, hrs, hfin⟩ := Option.bind_eq_some_iff.mp h
      have hall := mapM_eq_some.mp hrs
      have hlen : (rs.map Rewritten.expr).length = e.operands.length := by rw [List.length_map, hall.length_eq]
      have hoperand : ∀ k ∈ rs.map Rewritten.expr, Subexpr (var v) k → ∃ x, Subexpr (var x) e ∧ v = (sub x).getD x := by
        intro k hk hvk
        obtain ⟨r', hr', rfl⟩ := List.mem_map.mp hk
        obtain ⟨c, hc, hrewrite⟩ := exists_of_mem_right hall hr'
        obtain ⟨x, hx, hvx⟩ := rewrite_vars hrewrite hvk
        exact ⟨x, .operand hc hx, hvx⟩
      obtain ⟨rule, hrule, hres⟩ := finish_some hfin
      have hspec := rule_spec hrule
      cases rule with
      | fold l =>
        rw [hres] at hv
        exact absurd hv not_subexpr_literal
      | keep k =>
        rw [hres] at hv
        generalize rs.map Rewritten.expr = es at *
        cases hspec with
        | keep hk => exact hoperand k hk.mem hv
      | negate k =>
        rw [hres] at hv
        obtain ⟨c, hc, hvc⟩ := (subexpr_iff_operand fun w h => by cases h).mp hv
        rw [List.mem_singleton.mp hc] at hvc
        generalize rs.map Rewritten.expr = es at *
        cases hspec with
        | negate _ => exact hoperand k (by simp) hvc
      | reassociate k =>
        obtain ⟨r', hr', rfl⟩ := hres
        obtain ⟨x, hx, rfl⟩ := rewrite_vars hr' hv
        generalize rs.map Rewritten.expr = es at *
        cases hspec with
        | reassociate hk => exact hoperand _ List.mem_cons_self (hk.subexpr hx)
      | rebuild =>
        rcases hres with ⟨-, rfl⟩ | ⟨hany, rfl⟩
        · obtain ⟨c, hc, hvc⟩ := (subexpr_iff_operand (make_ne_var he')).mp hv
          rw [operands_make hlen] at hc
          exact hoperand c hc hvc
        · obtain ⟨c, hc, hvc⟩ := (subexpr_iff_operand he').mp hv
          exact hoperand c (map_expr_eq hall hany ▸ hc) hvc

end IR
end Taco
