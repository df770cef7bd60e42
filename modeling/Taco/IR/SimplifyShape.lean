import Taco.IR.Simplify

/-! The shape of the simplifier's results: they are no larger than the original, they do not depend on the
    fuel, and no rule applies in them any more. -/

namespace Taco
namespace IR
open Expr

/-! ### Rules -/

theorem isScalarLiteral_eq_true {k : Val} {e : Expr} (h : isScalarLiteral k e = some true) :
    ∃ l : Literal, e = literal l ∧ l.val = k := by
  cases e with
  | literal l =>
    rw [isScalarLiteral, Literal.equalsScalar] at h
    split at h
    · cases h
    · exact ⟨l, rfl, by simpa using h⟩
  | _ => cases h

/-- The operand that an identity of the node keeps. -/
inductive Kept : Expr → List Expr → Expr → Prop where
  | zeroAdd {a₀ b₀ b : Expr} {l : Literal} : l.val = 0 → Kept (binary .add a₀ b₀) [literal l, b] b
  | addZero {a₀ b₀ a : Expr} {l : Literal} : l.val = 0 → Kept (binary .add a₀ b₀) [a, literal l] a
  | subZero {a₀ b₀ a : Expr} {l : Literal} : l.val = 0 → Kept (binary .sub a₀ b₀) [a, literal l] a
  | zeroMul {a₀ b₀ b : Expr} {l : Literal} : l.val = 0 → Kept (binary .mul a₀ b₀) [literal l, b] (literal l)
  | oneMul {a₀ b₀ b : Expr} {l : Literal} : l.val = 1 → Kept (binary .mul a₀ b₀) [literal l, b] b
  | mulZero {a₀ b₀ a : Expr} {l : Literal} : l.val = 0 → Kept (binary .mul a₀ b₀) [a, literal l] (literal l)
  | mulOne {a₀ b₀ a : Expr} {l : Literal} : l.val = 1 → Kept (binary .mul a₀ b₀) [a, literal l] a
  | divOne {a₀ b₀ a : Expr} {l : Literal} : l.val = 1 → Kept (binary .div a₀ b₀) [a, literal l] a
  | trueAnd {a₀ b₀ b : Expr} {l : Literal} : l.val ≠ 0 → Kept (and a₀ b₀) [literal l, b] b
  | falseAnd {a₀ b₀ b : Expr} {l : Literal} : l.val = 0 → Kept (and a₀ b₀) [literal l, b] (literal l)
  | andTrue {a₀ b₀ a : Expr} {l : Literal} : l.val ≠ 0 → Kept (and a₀ b₀) [a, literal l] a
  | andFalse {a₀ b₀ a : Expr} {l : Literal} : l.val = 0 → Kept (and a₀ b₀) [a, literal l] (literal l)
  | trueOr {a₀ b₀ b : Expr} {l : Literal} : l.val ≠ 0 → Kept (or a₀ b₀) [literal l, b] (literal l)
  | falseOr {a₀ b₀ b : Expr} {l : Literal} : l.val = 0 → Kept (or a₀ b₀) [literal l, b] b
  | orTrue {a₀ b₀ a : Expr} {l : Literal} : l.val ≠ 0 → Kept (or a₀ b₀) [a, literal l] (literal l)
  | orFalse {a₀ b₀ a : Expr} {l : Literal} : l.val = 0 → Kept (or a₀ b₀) [a, literal l] a

theorem Kept.mem {e k : Expr} {es : List Expr} (h : Kept e es k) : k ∈ es := by
  cases h <;> simp

/-- What an identity decides: a test of one operand, or of the other. -/
theorem identityAdd_cases {a b : Expr} {r : Rule} (h : identityAdd a b = some r) :
    (isScalarLiteral 0 a = some true ∧ r = .keep b) ∨ (isScalarLiteral 0 b = some true ∧ r = .keep a) ∨
      (isScalarLiteral 0 a = some false ∧ isScalarLiteral 0 b = some false ∧ r = .rebuild) := by
  unfold identityAdd at h
  cases ha : isScalarLiteral 0 a with
  | none => simp [ha] at h
  | some p =>
    cases hb : isScalarLiteral 0 b with
    | none => cases p <;> simp_all
    | some q => cases p <;> cases q <;> simp_all

theorem identitySub_cases {a b : Expr} {r : Rule} (h : identitySub a b = some r) :
    (isScalarLiteral 0 a = some true ∧ r = .negate b) ∨ (isScalarLiteral 0 b = some true ∧ r = .keep a) ∨
      (isScalarLiteral 0 a = some false ∧ isScalarLiteral 0 b = some false ∧ r = .rebuild) := by
  unfold identitySub at h
  cases ha : isScalarLiteral 0 a with
  | none => simp [ha] at h
  | some p =>
    cases hb : isScalarLiteral 0 b with
    | none => cases p <;> simp_all
    | some q => cases p <;> cases q <;> simp_all

theorem identityMul_cases {a b : Expr} {r : Rule} (h : identityMul a b = some r) :
    (isScalarLiteral 0 a = some true ∧ r = .keep a) ∨ (isScalarLiteral 1 a = some true ∧ r = .keep b) ∨
      (isScalarLiteral 0 b = some true ∧ r = .keep b) ∨ (isScalarLiteral 1 b = some true ∧ r = .keep a) ∨
      (isScalarLiteral 0 b = some false ∧ r = .rebuild) := by
  unfold identityMul at h
  cases ha : isScalarLiteral 0 a with
  | none => simp [ha] at h
  | some p =>
    cases hb : isScalarLiteral 0 b with
    | none => cases p <;> cases ha1 : isScalarLiteral 1 a <;> simp_all
    | some q =>
      cases ha1 : isScalarLiteral 1 a with
      | none => cases p <;> simp_all
      | some p1 =>
        cases hb1 : isScalarLiteral 1 b with
        | none => cases p <;> cases q <;> cases p1 <;> simp_all
        | some q1 => cases p <;> cases q <;> cases p1 <;> cases q1 <;> simp_all

theorem identityDiv_cases {a b : Expr} {r : Rule} (h : identityDiv a b = some r) :
    (isScalarLiteral 1 b = some true ∧ r = .keep a) ∨ (isScalarLiteral 1 b = some false ∧ r = .rebuild) := by
  unfold identityDiv at h
  cases hb : isScalarLiteral 1 b with
  | none => simp [hb] at h
  | some q => cases q <;> simp_all

/-- The expressions that the sum or product of an operation with a constant and a constant becomes. -/
inductive Reassociated : BinaryOp → Expr → Expr → Expr → Prop where
  | addAdd {c : Expr} {d b : Literal} : c.type = b.type → d.type = b.type → b.type.isInteger = true →
      Reassociated .add (binary .add c (literal d)) (literal b) (binary .add c (literal (.make b.type (d.val + b.val))))
  | addSub {c : Expr} {d b : Literal} : c.type = b.type → d.type = b.type → b.type.isInteger = true →
      Reassociated .add (binary .sub c (literal d)) (literal b) (binary .add c (literal (.make b.type (b.val - d.val))))
  | mulMul {c : Expr} {d b : Literal} : c.type = b.type → d.type = b.type → b.type.isInteger = true →
      Reassociated .mul (binary .mul c (literal d)) (literal b) (binary .mul c (literal (.make b.type (d.val * b.val))))

theorem sameInteger_iff {c d b : Datatype} :
    sameInteger c d b = true ↔ c = b ∧ d = b ∧ b.isInteger = true := by
  simp only [sameInteger, Bool.and_eq_true, decide_eq_true_eq]
  constructor
  · rintro ⟨⟨rfl, rfl⟩, h⟩
    exact ⟨rfl, rfl, h⟩
  · rintro ⟨rfl, rfl, h⟩
    exact ⟨⟨rfl, rfl⟩, h⟩

theorem reassociateAdd_some {a b k : Expr} (h : reassociateAdd a b = some k) : Reassociated .add a b k := by
  unfold reassociateAdd at h
  split at h
  · split at h
    · obtain ⟨hc, hd, hb⟩ := sameInteger_iff.mp ‹_›
      obtain rfl := Option.some.inj h
      exact .addAdd hc hd hb
    · cases h
  · split at h
    · obtain ⟨hc, hd, hb⟩ := sameInteger_iff.mp ‹_›
      obtain rfl := Option.some.inj h
      exact .addSub hc hd hb
    · cases h
  · cases h

theorem reassociateMul_some {a b k : Expr} (h : reassociateMul a b = some k) : Reassociated .mul a b k := by
  unfold reassociateMul at h
  split at h
  · split at h
    · obtain ⟨hc, hd, hb⟩ := sameInteger_iff.mp ‹_›
      obtain rfl := Option.some.inj h
      exact .mulMul hc hd hb
    · cases h
  · cases h

/-- What a rule of a node can be. -/
inductive RuleSpec : Expr → List Expr → Rule → Prop where
  | foldBinary {op : BinaryOp} {a₀ b₀ : Expr} {la lb l : Literal} : l.type = Datatype.maxType la.type lb.type →
      RuleSpec (binary op a₀ b₀) [literal la, literal lb] (.fold l)
  | foldCast {a₀ : Expr} {t : Datatype} {l : Literal} : l.type = .bool →
      RuleSpec (cast a₀ t) [literal l] (.fold (.make t l.val))
  | keep {e k : Expr} {es : List Expr} : Kept e es k → RuleSpec e es (.keep k)
  | negate {a₀ b₀ b : Expr} {l : Literal} : l.val = 0 → RuleSpec (binary .sub a₀ b₀) [literal l, b] (.negate b)
  | reassociate {op : BinaryOp} {a₀ b₀ a b k : Expr} : Reassociated op a b k →
      RuleSpec (binary op a₀ b₀) [a, b] (.reassociate k)
  | rebuild {e : Expr} {es : List Expr} : RuleSpec e es .rebuild

theorem foldRule_some {f : Val → Val → Val} {a b : Expr} {l : Literal} (h : foldRule f a b = some l) :
    ∃ la lb, a = literal la ∧ b = literal lb ∧ l.type = Datatype.maxType la.type lb.type := by
  unfold foldRule at h
  split at h
  · rename_i la lb
    rw [foldLiterals] at h
    split at h
    · obtain rfl := Option.some.inj h
      exact ⟨la, lb, rfl, rfl, rfl⟩
    · cases h
  · cases h

section
variable {a₀ b₀ a b : Expr} {r : Rule}

theorem addRule_spec (h : addRule a b = some r) : RuleSpec (binary .add a₀ b₀) [a, b] r := by
  unfold addRule at h
  cases hf : foldRule (· + ·) a b with
  | some l =>
    obtain ⟨la, lb, rfl, rfl, hl⟩ := foldRule_some hf
    rw [hf] at h
    obtain rfl := Option.some.inj h
    exact .foldBinary hl
  | none =>
    cases hr : reassociateAdd a b with
    | some k =>
      simp only [hf, hr, Option.some.injEq] at h
      exact h ▸ .reassociate (reassociateAdd_some hr)
    | none =>
      simp only [hf, hr] at h
      rcases identityAdd_cases h with ⟨ha, rfl⟩ | ⟨hb, rfl⟩ | ⟨-, -, rfl⟩
      · obtain ⟨l, rfl, hl⟩ := isScalarLiteral_eq_true ha
        exact .keep (.zeroAdd hl)
      · obtain ⟨l, rfl, hl⟩ := isScalarLiteral_eq_true hb
        exact .keep (.addZero hl)
      · exact .rebuild

theorem subRule_spec (h : subRule a b = some r) : RuleSpec (binary .sub a₀ b₀) [a, b] r := by
  unfold subRule at h
  cases hf : foldRule (· - ·) a b with
  | some l =>
    obtain ⟨la, lb, rfl, rfl, hl⟩ := foldRule_some hf
    rw [hf] at h
    obtain rfl := Option.some.inj h
    exact .foldBinary hl
  | none =>
    simp only [hf] at h
    rcases identitySub_cases h with ⟨ha, rfl⟩ | ⟨hb, rfl⟩ | ⟨-, -, rfl⟩
    · obtain ⟨l, rfl, hl⟩ := isScalarLiteral_eq_true ha
      exact .negate hl
    · obtain ⟨l, rfl, hl⟩ := isScalarLiteral_eq_true hb
      exact .keep (.subZero hl)
    · exact .rebuild

theorem mulRule_spec (h : mulRule a b = some r) : RuleSpec (binary .mul a₀ b₀) [a, b] r := by
  unfold mulRule at h
  cases hf : foldRule (· * ·) a b with
  | some l =>
    obtain ⟨la, lb, rfl, rfl, hl⟩ := foldRule_some hf
    rw [hf] at h
    obtain rfl := Option.some.inj h
    exact .foldBinary hl
  | none =>
    cases hr : reassociateMul a b with
    | some k =>
      simp only [hf, hr, Option.some.injEq] at h
      exact h ▸ .reassociate (reassociateMul_some hr)
    | none =>
      simp only [hf, hr] at h
      rcases identityMul_cases h with ⟨ha, rfl⟩ | ⟨ha, rfl⟩ | ⟨hb, rfl⟩ | ⟨hb, rfl⟩ | ⟨-, rfl⟩
      · obtain ⟨l, rfl, hl⟩ := isScalarLiteral_eq_true ha
        exact .keep (.zeroMul hl)
      · obtain ⟨l, rfl, hl⟩ := isScalarLiteral_eq_true ha
        exact .keep (.oneMul hl)
      · obtain ⟨l, rfl, hl⟩ := isScalarLiteral_eq_true hb
        exact .keep (.mulZero hl)
      · obtain ⟨l, rfl, hl⟩ := isScalarLiteral_eq_true hb
        exact .keep (.mulOne hl)
      · exact .rebuild

theorem identityDiv_spec (h : identityDiv a b = some r) : RuleSpec (binary .div a₀ b₀) [a, b] r := by
  rcases identityDiv_cases h with ⟨hb, rfl⟩ | ⟨-, rfl⟩
  · obtain ⟨l, rfl, hl⟩ := isScalarLiteral_eq_true hb
    exact .keep (.divOne hl)
  · exact .rebuild

theorem divRule_spec (h : divRule a b = some r) : RuleSpec (binary .div a₀ b₀) [a, b] r := by
  unfold divRule at h
  split at h
  · rename_i la lb
    split at h
    · rename_i hc
      rw [foldDiv] at h
      split at h
      · cases h
      · simp only [Bool.and_eq_true, decide_eq_true_eq] at hc
        obtain rfl := Option.some.inj h
        refine .foldBinary ?_
        rw [← hc.1, Datatype.maxType_self]
        rfl
    · exact identityDiv_spec h
  · exact identityDiv_spec h

theorem getBool_some {l : Literal} {v : Bool} (h : l.getBool = some v) : l.type = .bool ∧ (v = true ↔ l.val ≠ 0) := by
  rw [Literal.getBool] at h
  split at h
  · rename_i hb
    obtain rfl := Option.some.inj h
    refine ⟨?_, bne_iff_ne⟩
    cases ht : l.type <;> rw [ht] at hb <;> first | rfl | cases hb
  · cases h

theorem andRule_spec (h : andRule a b = some r) : RuleSpec (and a₀ b₀) [a, b] r := by
  unfold andRule at h
  split at h
  · rename_i l
    cases hv : l.getBool with
    | none => simp [hv] at h
    | some v =>
      simp only [hv, Option.bind_eq_bind, Option.bind_some, Option.some.injEq] at h
      have hl := (getBool_some hv).2
      cases v
      · exact h ▸ .keep (.falseAnd (by simpa using hl))
      · exact h ▸ .keep (.trueAnd (hl.mp rfl))
  · rename_i a l _
    cases hv : l.getBool with
    | none => simp [hv] at h
    | some v =>
      simp only [hv, Option.bind_eq_bind, Option.bind_some, Option.some.injEq] at h
      have hl := (getBool_some hv).2
      cases v
      · exact h ▸ .keep (.andFalse (by simpa using hl))
      · exact h ▸ .keep (.andTrue (hl.mp rfl))
  · obtain rfl := Option.some.inj h
    exact .rebuild

theorem orRule_spec (h : orRule a b = some r) : RuleSpec (or a₀ b₀) [a, b] r := by
  unfold orRule at h
  split at h
  · rename_i l
    cases hv : l.getBool with
    | none => simp [hv] at h
    | some v =>
      simp only [hv, Option.bind_eq_bind, Option.bind_some, Option.some.injEq] at h
      have hl := (getBool_some hv).2
      cases v
      · exact h ▸ .keep (.falseOr (by simpa using hl))
      · exact h ▸ .keep (.trueOr (hl.mp rfl))
  · rename_i a l _
    cases hv : l.getBool with
    | none => simp [hv] at h
    | some v =>
      simp only [hv, Option.bind_eq_bind, Option.bind_some, Option.some.injEq] at h
      have hl := (getBool_some hv).2
      cases v
      · exact h ▸ .keep (.orFalse (by simpa using hl))
      · exact h ▸ .keep (.orTrue (hl.mp rfl))
  · obtain rfl := Option.some.inj h
    exact .rebuild

theorem castRule_spec (t : Datatype) (a : Expr) : RuleSpec (cast a₀ t) [a] (castRule t a) := by
  unfold castRule
  split
  · split
    · rename_i l hl
      refine .foldCast ?_
      cases ht : l.type <;> rw [ht] at hl <;> first | rfl | cases hl
    · exact .rebuild
  · exact .rebuild

end

theorem rule_spec {e : Expr} {es : List Expr} {r : Rule} (h : e.rule es = some r) : RuleSpec e es r := by
  unfold Expr.rule at h
  split at h
  · exact addRule_spec h
  · exact subRule_spec h
  · exact mulRule_spec h
  · exact divRule_spec h
  · exact andRule_spec h
  · exact orRule_spec h
  · obtain rfl := Option.some.inj h
    exact castRule_spec _ _
  · obtain rfl := Option.some.inj h
    exact .rebuild

/-! ### Rewriting -/

theorem mapM_eq_some {α β : Type} {f : α → Option β} : ∀ {l : List α} {rs : List β},
    l.mapM f = some rs ↔ List.Forall₂ (fun a r => f a = some r) l rs
  | [], rs => by
    simp only [List.mapM_nil, List.forall₂_nil_left_iff]
    exact ⟨fun h => (Option.some.inj h).symm, fun h => h ▸ rfl⟩
  | a :: l, rs => by
    rw [List.mapM_cons, List.forall₂_cons_left_iff]
    cases hf : f a with
    | none => simp
    | some b =>
      cases hl : l.mapM f with
      | none =>
        have : ∀ rs, ¬List.Forall₂ (fun a r => f a = some r) l rs := fun rs h => by
          rw [mapM_eq_some.mpr h] at hl
          cases hl
        simp [this]
      | some bs =>
        have := mapM_eq_some.mp hl
        constructor
        · intro h
          obtain rfl := Option.some.inj h
          exact ⟨b, bs, rfl, this, rfl⟩
        · rintro ⟨c, cs, hc, hcs, rfl⟩
          obtain rfl := Option.some.inj hc
          rw [mapM_eq_some.mpr hcs] at hl
          obtain rfl := Option.some.inj hl
          rfl

theorem rewrite_operands {e : Expr} (he : ∀ v, e ≠ var v) (fuel : ℕ) (sub : Var → Option Var) :
    rewrite (fuel + 1) sub e =
      (e.operands.mapM (rewrite fuel sub)).bind (finish (rewrite fuel fun _ => none) e) := by
  cases e <;> first | rfl | exact absurd rfl (he _)

/-- The result of a visit, by the rule that applied. -/
theorem finish_some {simp : Expr → Option Rewritten} {e : Expr} {rs : List Rewritten} {r : Rewritten}
    (h : finish simp e rs = some r) :
    ∃ rule, e.rule (rs.map Rewritten.expr) = some rule ∧
      match rule with
      | .fold l => r = ⟨literal l, true⟩
      | .keep k => r = ⟨k, true⟩
      | .negate k => r = ⟨neg k, true⟩
      | .reassociate k => ∃ r', simp k = some r' ∧ r = ⟨r'.expr, true⟩
      | .rebuild => (rs.any Rewritten.isNew = true ∧ r = ⟨e.make (rs.map Rewritten.expr), true⟩) ∨
          (rs.any Rewritten.isNew = false ∧ r = ⟨e, false⟩) := by
  unfold finish at h
  cases hr : e.rule (rs.map Rewritten.expr) with
  | none => simp [hr] at h
  | some rule =>
    refine ⟨rule, rfl, ?_⟩
    simp only [hr, Option.bind_eq_bind, Option.bind_some] at h
    cases rule with
    | reassociate k =>
      obtain ⟨r', hr', hrr⟩ := Option.map_eq_some_iff.mp h
      exact ⟨r', hr', hrr.symm⟩
    | rebuild =>
      dsimp only at h ⊢
      split at h
      · exact Or.inl ⟨‹_›, (Option.some.inj h).symm⟩
      · exact Or.inr ⟨Bool.eq_false_iff.mpr ‹_›, (Option.some.inj h).symm⟩
    | _ => exact (Option.some.inj h).symm

theorem sum_map_le_of_forall₂ {es : List Expr} {rs : List Rewritten}
    (h : List.Forall₂ (fun e r => r.expr.size ≤ e.size) es rs) :
    ((rs.map Rewritten.expr).map size).sum ≤ (es.map size).sum := by
  induction h with
  | nil => exact Nat.le_refl _
  | cons h _ ih =>
    simp only [List.map_cons, List.sum_cons]
    omega

/-- A node has as many operands as its rewritten ones are. -/
theorem operands_make {e : Expr} {es : List Expr} (h : es.length = e.operands.length) : (e.make es).operands = es := by
  cases e with
  | literal | var =>
    obtain rfl := List.length_eq_zero_iff.mp h
    rfl
  | neg | cast | load =>
    obtain ⟨a, rfl⟩ := List.length_eq_one_iff.mp h
    rfl
  | binary | compare | and | or =>
    obtain ⟨a, b, rfl⟩ := List.length_eq_two.mp h
    rfl
  | min | max =>
    cases es with
    | nil => exact List.length_eq_zero_iff.mp h.symm
    | cons a es => rfl

theorem Reassociated.size {op : BinaryOp} {a b k : Expr} (h : Reassociated op a b k) : k.size = a.size := by
  cases h <;> rfl

/-- Rewriting does not make an expression larger. -/
theorem rewrite_size : ∀ {fuel : ℕ} {sub : Var → Option Var} {e : Expr} {r : Rewritten},
    rewrite fuel sub e = some r → r.expr.size ≤ e.size
  | 0, _, _, _, h => by cases h
  | fuel + 1, sub, e, r, h => by
    by_cases he : ∃ v, e = var v
    · obtain ⟨v, rfl⟩ := he
      rw [rewrite] at h
      obtain rfl := Option.some.inj h
      split <;> exact Nat.le_refl _
    · rw [rewrite_operands (fun v hv => he ⟨v, hv⟩)] at h
      obtain ⟨rs, hrs, hfin⟩ := Option.bind_eq_some_iff.mp h
      have hsizes := (mapM_eq_some.mp hrs).imp fun _ _ h => rewrite_size h
      have hsum := sum_map_le_of_forall₂ hsizes
      have hlen : (rs.map Rewritten.expr).length = e.operands.length := by
        rw [List.length_map, hsizes.length_eq]
      have hmem : ∀ k ∈ rs.map Rewritten.expr, k.size ≤ (e.operands.map size).sum := fun k hk =>
        (List.single_le_sum (fun _ _ => Nat.zero_le _) _ (List.mem_map_of_mem hk)).trans hsum
      rw [size_eq e]
      obtain ⟨rule, hrule, hres⟩ := finish_some hfin
      have hspec := rule_spec hrule
      cases rule with
      | fold l =>
        rw [hres]
        exact Nat.le_add_left 1 _
      | keep k =>
        rw [hres]
        generalize rs.map Rewritten.expr = es at *
        cases hspec with
        | keep hk => exact (hmem k hk.mem).trans (Nat.le_succ _)
      | negate k =>
        rw [hres]
        generalize rs.map Rewritten.expr = es at *
        cases hspec with
        | negate _ => exact Nat.succ_le_succ (hmem k (by simp))
      | reassociate k =>
        obtain ⟨r', hr', rfl⟩ := hres
        have hle := rewrite_size hr'
        generalize rs.map Rewritten.expr = es at *
        cases hspec with
        | reassociate hk =>
          have := hmem _ List.mem_cons_self
          rw [← hk.size] at this
          exact (hle.trans this).trans (Nat.le_succ _)
      | rebuild =>
        rcases hres with ⟨-, rfl⟩ | ⟨-, rfl⟩
        · rw [size_eq, operands_make hlen]
          exact Nat.succ_le_succ hsum
        · exact (size_eq e).le

/-- A node that is not new is the original one. -/
theorem rewrite_same {fuel : ℕ} {sub : Var → Option Var} {e : Expr} {r : Rewritten} (h : rewrite fuel sub e = some r)
    (hr : r.isNew = false) : r.expr = e := by
  cases fuel with
  | zero => cases h
  | succ fuel =>
    by_cases he : ∃ v, e = var v
    · obtain ⟨v, rfl⟩ := he
      rw [rewrite] at h
      cases hs : sub v with
      | none =>
        rw [hs] at h
        exact (congrArg Rewritten.expr (Option.some.inj h)).symm
      | some a =>
        rw [hs] at h
        rw [← Option.some.inj h] at hr
        cases hr
    · rw [rewrite_operands (fun v hv => he ⟨v, hv⟩)] at h
      obtain ⟨rs, -, hfin⟩ := Option.bind_eq_some_iff.mp h
      obtain ⟨rule, -, hres⟩ := finish_some hfin
      cases rule with
      | rebuild =>
        rcases hres with ⟨-, rfl⟩ | ⟨-, rfl⟩
        · cases hr
        · rfl
      | reassociate k =>
        obtain ⟨r', -, rfl⟩ := hres
        cases hr
      | _ =>
        rw [hres] at hr
        cases hr

theorem finish_congr {s₁ s₂ : Expr → Option Rewritten} {e : Expr} {rs : List Rewritten}
    (h : ∀ k, e.rule (rs.map Rewritten.expr) = some (.reassociate k) → s₁ k = s₂ k) :
    finish s₁ e rs = finish s₂ e rs := by
  unfold finish
  cases hr : e.rule (rs.map Rewritten.expr) with
  | none => simp [hr]
  | some rule =>
    simp only [hr, Option.bind_eq_bind, Option.bind_some]
    cases rule with
    | reassociate k => dsimp only; rw [h k hr]
    | _ => rfl

theorem size_lt_of_mem {e c : Expr} (h : c ∈ e.operands) : c.size < e.size := by
  rw [size_eq e]
  exact Nat.lt_succ_of_le (List.single_le_sum (fun _ _ => Nat.zero_le _) _ (List.mem_map_of_mem h))

theorem mapM_congr {α β : Type} {f g : α → Option β} {l : List α} (h : ∀ a ∈ l, f a = g a) : l.mapM f = l.mapM g := by
  induction l with
  | nil => rfl
  | cons a l ih =>
    rw [List.mapM_cons, List.mapM_cons, h a List.mem_cons_self, ih fun b hb => h b (List.mem_cons_of_mem _ hb)]

/-- Enough fuel gives the result: more of it changes nothing. -/
theorem rewrite_fuel : ∀ {fuel fuel' : ℕ} {sub : Var → Option Var} {e : Expr}, e.size ≤ fuel → e.size ≤ fuel' →
    rewrite fuel sub e = rewrite fuel' sub e
  | 0, _, _, e, h, _ => absurd h (not_le.mpr e.size_pos)
  | _ + 1, 0, _, e, _, h => absurd h (not_le.mpr e.size_pos)
  | fuel + 1, fuel' + 1, sub, e, h, h' => by
    by_cases he : ∃ v, e = var v
    · obtain ⟨v, rfl⟩ := he
      rfl
    · rw [rewrite_operands (fun v hv => he ⟨v, hv⟩), rewrite_operands (fun v hv => he ⟨v, hv⟩)]
      have hop : e.operands.mapM (rewrite fuel sub) = e.operands.mapM (rewrite fuel' sub) := mapM_congr fun a ha => by
        have := size_lt_of_mem ha
        exact rewrite_fuel (by omega) (by omega)
      rw [hop]
      cases hrs : e.operands.mapM (rewrite fuel' sub) with
      | none => rfl
      | some rs =>
        refine finish_congr fun k hk => ?_
        have hsizes := (mapM_eq_some.mp hrs).imp fun _ _ h => rewrite_size h
        have hsum := sum_map_le_of_forall₂ hsizes
        have hspec := rule_spec hk
        have he' := size_eq e
        generalize rs.map Rewritten.expr = es at *
        cases hspec with
        | reassociate hk =>
          have := hk.size
          simp only [List.map_cons, List.sum_cons] at hsum
          exact rewrite_fuel (by omega) (by omega)

theorem simplifyWith_eq {fuel : ℕ} {sub : Var → Option Var} {e : Expr} (h : e.size ≤ fuel) :
    simplifyWith sub e = rewrite fuel sub e :=
  rewrite_fuel (Nat.le_refl _) h

theorem exists_of_mem_right {α β : Type} {R : α → β → Prop} {l : List α} {rs : List β} (h : List.Forall₂ R l rs) :
    ∀ {r}, r ∈ rs → ∃ a ∈ l, R a r := by
  induction h with
  | nil => exact fun hr => absurd hr List.not_mem_nil
  | cons hab _ ih =>
    intro r hr
    rcases List.mem_cons.mp hr with rfl | hr
    · exact ⟨_, List.mem_cons_self, hab⟩
    · obtain ⟨a, ha, har⟩ := ih hr
      exact ⟨a, List.mem_cons_of_mem _ ha, har⟩

/-- Without a new operand, the rewritten operands are the original ones. -/
theorem map_expr_eq {fuel : ℕ} {sub : Var → Option Var} {es : List Expr} {rs : List Rewritten}
    (h : List.Forall₂ (fun e r => rewrite fuel sub e = some r) es rs) (hnew : rs.any Rewritten.isNew = false) :
    rs.map Rewritten.expr = es := by
  induction h with
  | nil => rfl
  | cons hr _ ih =>
    rw [List.any_cons, Bool.or_eq_false_iff] at hnew
    rw [List.map_cons, rewrite_same hr hnew.1, ih hnew.2]

/-! ### Reduced expressions -/

/-- No rule applies to a node of `e`. -/
def Reduced (e : Expr) : Prop := ∀ s, Subexpr s e → s.rule s.operands = some .rebuild

theorem reduced_iff {e : Expr} :
    Reduced e ↔ e.rule e.operands = some .rebuild ∧ ∀ c ∈ e.operands, Reduced c := by
  constructor
  · intro h
    exact ⟨h e .refl, fun c hc s hs => h s (.operand hc hs)⟩
  · rintro ⟨he, hc⟩ s hs
    cases hs with
    | refl => exact he
    | operand hmem hs => exact hc _ hmem s hs

theorem reduced_var (v : Var) : Reduced (var v) := reduced_iff.mpr ⟨rfl, fun _ hc => absurd hc List.not_mem_nil⟩

theorem reduced_literal (l : Literal) : Reduced (literal l) :=
  reduced_iff.mpr ⟨rfl, fun _ hc => absurd hc List.not_mem_nil⟩

/-- The rules look at the kind of a node only. -/
theorem rule_make {e : Expr} {es : List Expr} (h : es.length = e.operands.length) (es' : List Expr) :
    (e.make es).rule es' = e.rule es' := by
  cases e with
  | literal | var => rfl
  | neg | cast | load =>
    obtain ⟨a, rfl⟩ := List.length_eq_one_iff.mp h
    rcases es' with _ | ⟨a, _ | _⟩ <;> rfl
  | binary op =>
    obtain ⟨a, b, rfl⟩ := List.length_eq_two.mp h
    cases op <;> cases es' with
    | nil => rfl
    | cons a es' => rcases es' with _ | ⟨b, _ | _⟩ <;> rfl
  | compare | and | or =>
    obtain ⟨a, b, rfl⟩ := List.length_eq_two.mp h
    rcases es' with _ | ⟨a, _ | ⟨b, _ | _⟩⟩ <;> rfl
  | min | max => cases es <;> rfl

/-- Rewriting leaves nothing to rewrite. -/
theorem rewrite_reduced : ∀ {fuel : ℕ} {sub : Var → Option Var} {e : Expr} {r : Rewritten},
    rewrite fuel sub e = some r → Reduced r.expr
  | 0, _, _, _, h => by cases h
  | fuel + 1, sub, e, r, h => by
    by_cases he : ∃ v, e = var v
    · obtain ⟨v, rfl⟩ := he
      rw [rewrite] at h
      obtain rfl := Option.some.inj h
      split <;> exact reduced_var _
    · rw [rewrite_operands (fun v hv => he ⟨v, hv⟩)] at h
      obtain ⟨rs, hrs, hfin⟩ := Option.bind_eq_some_iff.mp h
      have hall := mapM_eq_some.mp hrs
      have hlen : (rs.map Rewritten.expr).length = e.operands.length := by rw [List.length_map, hall.length_eq]
      have hred : ∀ k ∈ rs.map Rewritten.expr, Reduced k := by
        intro k hk
        obtain ⟨r', hr', rfl⟩ := List.mem_map.mp hk
        obtain ⟨c, -, hc⟩ := exists_of_mem_right hall hr'
        exact rewrite_reduced hc
      obtain ⟨rule, hrule, hres⟩ := finish_some hfin
      have hspec := rule_spec hrule
      cases rule with
      | fold l =>
        rw [hres]
        exact reduced_literal l
      | keep k =>
        rw [hres]
        generalize rs.map Rewritten.expr = es at *
        cases hspec with
        | keep hk => exact hred k hk.mem
      | negate k =>
        rw [hres]
        generalize rs.map Rewritten.expr = es at *
        cases hspec with
        | negate _ => exact reduced_iff.mpr ⟨rfl, fun c hc => hred c (by simpa [operands] using Or.inr hc)⟩
      | reassociate k =>
        obtain ⟨r', hr', rfl⟩ := hres
        show Reduced r'.expr
        exact rewrite_reduced hr'
      | rebuild =>
        rcases hres with ⟨-, rfl⟩ | ⟨hnew, rfl⟩
        · refine reduced_iff.mpr ⟨?_, ?_⟩
          · rw [operands_make hlen, rule_make hlen, hrule]
          · rw [operands_make hlen]
            exact hred
        · have heq : rs.map Rewritten.expr = e.operands := map_expr_eq hall hnew
          rw [heq] at hrule hred
          exact reduced_iff.mpr ⟨hrule, hred⟩

theorem mapM_keep {es : List Expr} {f : Expr → Option Rewritten} (h : ∀ e ∈ es, f e = some ⟨e, false⟩) :
    es.mapM f = some (es.map fun e => ⟨e, false⟩) := by
  induction es with
  | nil => rfl
  | cons e es ih =>
    rw [List.mapM_cons, h e List.mem_cons_self, ih fun c hc => h c (List.mem_cons_of_mem _ hc)]
    rfl

/-- A reduced expression is rewritten to itself. -/
theorem rewrite_of_reduced : ∀ {fuel : ℕ} {e : Expr}, Reduced e → e.size ≤ fuel →
    rewrite fuel (fun _ => none) e = some ⟨e, false⟩
  | 0, e, _, h => absurd h (not_le.mpr e.size_pos)
  | fuel + 1, e, hred, h => by
    by_cases he : ∃ v, e = var v
    · obtain ⟨v, rfl⟩ := he
      rfl
    · obtain ⟨hrule, hc⟩ := reduced_iff.mp hred
      have hop : e.operands.mapM (rewrite fuel fun _ => none) = some (e.operands.map fun e => ⟨e, false⟩) :=
        mapM_keep fun c hmem => by
          have := size_lt_of_mem hmem
          exact rewrite_of_reduced (hc c hmem) (by omega)
      have hmap : (e.operands.map fun e => (⟨e, false⟩ : Rewritten)).map Rewritten.expr = e.operands := by
        rw [List.map_map]
        exact List.map_id _
      have hany : (e.operands.map fun e => (⟨e, false⟩ : Rewritten)).any Rewritten.isNew = false := by
        rw [List.any_map, List.any_eq_false]
        exact fun _ _ => Bool.false_ne_true
      rw [rewrite_operands (fun v hv => he ⟨v, hv⟩), hop, Option.bind_some, finish, hmap, hrule]
      simp only [Option.bind_eq_bind, Option.bind_some, hany, Bool.false_eq_true, if_false]

end IR
end Taco
