import Taco.IR.SimplifyShape

/-! When the rules of the simplifier preserve the datatype and the value of an expression. -/

namespace Taco
namespace IR
open Expr

/-! ### Values -/

theorem BinaryOp.conv_apply {op : BinaryOp} {t : Datatype} {x y v : Val} (h : op.apply t x y = some v) : t.conv v = v := by
  cases op with
  | add | sub | mul =>
    obtain rfl := Option.some.inj h
    exact t.conv_conv _
  | div | rem =>
    simp only [apply] at h
    split at h
    · cases h
    · obtain rfl := Option.some.inj h
      exact t.conv_conv _

theorem conv_pick {choose : Val → Val → Val} (hc : ∀ x y, choose x y = x ∨ choose x y = y) {t : Datatype} {v : Val} :
    ∀ {vs : List Val}, pick choose t vs = some v → t.conv v = v
  | x :: vs, h => by
    obtain rfl := Option.some.inj h
    have : ∀ (vs : List Val) (a : Val), t.conv a = a →
        t.conv (vs.foldl (fun m x => choose m (t.conv x)) a) = vs.foldl (fun m x => choose m (t.conv x)) a := by
      intro vs
      induction vs with
      | nil => exact fun a ha => ha
      | cons y vs ih =>
        intro a ha
        refine ih _ ?_
        show t.conv (choose a (t.conv y)) = choose a (t.conv y)
        rcases hc a (t.conv y) with hy | hy <;> rw [hy]
        · exact ha
        · exact t.conv_conv y
    exact this vs _ (t.conv_conv x)

/-- The value of an expression is a value of its type. -/
theorem eval_conv {m : Memory} {e : Expr} {v : Val} (h : e.eval m = some v) : e.type.conv v = v := by
  cases e with
  | literal l =>
    obtain rfl := Option.some.inj h
    exact l.conv_val
  | var x =>
    obtain rfl := Option.some.inj h
    exact x.type.conv_conv _
  | neg a =>
    obtain ⟨x, -, rfl⟩ := Option.map_eq_some_iff.mp h
    exact a.type.conv_conv _
  | binary op a b =>
    simp only [eval, Option.bind_eq_bind, Option.bind_eq_some_iff] at h
    obtain ⟨x, -, y, -, h⟩ := h
    exact BinaryOp.conv_apply h
  | min es t =>
    simp only [eval, Option.bind_eq_bind, Option.bind_eq_some_iff] at h
    obtain ⟨vs, -, h⟩ := h
    exact conv_pick (fun x y => min_choice x y) h
  | max es t =>
    simp only [eval, Option.bind_eq_bind, Option.bind_eq_some_iff] at h
    obtain ⟨vs, -, h⟩ := h
    exact conv_pick (fun x y => max_choice x y) h
  | compare op a b =>
    simp only [eval, Option.bind_eq_bind, Option.bind_eq_some_iff] at h
    obtain ⟨x, -, y, -, h⟩ := h
    obtain rfl := Option.some.inj h
    exact conv_ofBool _
  | and a b =>
    simp only [eval, Option.bind_eq_bind, Option.bind_eq_some_iff] at h
    obtain ⟨x, -, h⟩ := h
    split at h
    · obtain rfl := Option.some.inj h
      exact Datatype.conv_zero _
    · obtain ⟨y, -, h⟩ := Option.bind_eq_some_iff.mp h
      obtain rfl := Option.some.inj h
      exact conv_ofBool _
  | or a b =>
    simp only [eval, Option.bind_eq_bind, Option.bind_eq_some_iff] at h
    obtain ⟨x, -, h⟩ := h
    split at h
    · obtain ⟨y, -, h⟩ := Option.bind_eq_some_iff.mp h
      obtain rfl := Option.some.inj h
      exact conv_ofBool _
    · obtain rfl := Option.some.inj h
      exact conv_ofBool true
  | cast a t =>
    obtain ⟨x, -, rfl⟩ := Option.map_eq_some_iff.mp h
    exact t.conv_conv _
  | load arr loc =>
    obtain ⟨x, -, rfl⟩ := Option.map_eq_some_iff.mp h
    exact arr.type.conv_conv _
where
  conv_ofBool (b : Bool) : Datatype.bool.conv (ofBool b) = ofBool b := by
    cases b <;> simp [ofBool, Datatype.conv]

/-- A value of type `bool` is its own truth value. -/
theorem ofBool_ne_zero {y : Val} (h : Datatype.bool.conv y = y) : ofBool (y ≠ 0) = y := by
  rw [← h]
  simp only [Datatype.conv, ofBool]
  by_cases hy : y = 0 <;> simp [hy]

theorem Datatype.conv_one (t : Datatype) : t.conv 1 = 1 := by
  cases t with
  | bool => simp [conv]
  | uint w => cases w <;> simp [conv, wrapBits, Width.bits]
  | int w => cases w <;> simp [conv, wrapBits, Width.bits]
  | float32 | float64 => rfl

theorem eval_binary {m : Memory} {op : BinaryOp} {a b : Expr} {v : Val} (h : (binary op a b).eval m = some v) :
    ∃ x y, a.eval m = some x ∧ b.eval m = some y ∧
      op.apply (Datatype.maxType a.type b.type) ((Datatype.maxType a.type b.type).conv x)
        ((Datatype.maxType a.type b.type).conv y) = some v := by
  simp only [eval, Option.bind_eq_bind, Option.bind_eq_some_iff] at h
  obtain ⟨x, hx, y, hy, h⟩ := h
  exact ⟨x, y, hx, hy, h⟩

/-! ### Identities -/

/-- An operand that is kept under its node's type has the node's value. -/
theorem Kept.eval {m : Memory} {e k : Expr} {es : List Expr} {v : Val} (h : Kept e es k)
    (ht : k.type = (e.make es).type) (hv : (e.make es).eval m = some v) : k.eval m = some v := by
  cases h with
  | @zeroAdd _ _ _ l hl =>
    obtain ⟨x, y, hx, hy, h⟩ := eval_binary hv
    obtain rfl : l.val = x := Option.some.inj hx
    have ht : k.type = Datatype.maxType (literal l).type k.type := ht
    rw [← ht, hl] at h
    simp only [BinaryOp.apply, Datatype.conv_zero, zero_add, eval_conv hy] at h
    rw [hy, h]
  | @addZero _ _ _ l hl =>
    obtain ⟨x, y, hx, hy, h⟩ := eval_binary hv
    obtain rfl : l.val = y := Option.some.inj hy
    have ht : k.type = Datatype.maxType k.type (literal l).type := ht
    rw [← ht, hl] at h
    simp only [BinaryOp.apply, Datatype.conv_zero, add_zero, eval_conv hx] at h
    rw [hx, h]
  | @subZero _ _ _ l hl =>
    obtain ⟨x, y, hx, hy, h⟩ := eval_binary hv
    obtain rfl : l.val = y := Option.some.inj hy
    have ht : k.type = Datatype.maxType k.type (literal l).type := ht
    rw [← ht, hl] at h
    simp only [BinaryOp.apply, Datatype.conv_zero, sub_zero, eval_conv hx] at h
    rw [hx, h]
  | @zeroMul _ _ _ l hl =>
    obtain ⟨x, y, hx, hy, h⟩ := eval_binary hv
    obtain rfl : l.val = x := Option.some.inj hx
    rw [hl] at h
    simp only [BinaryOp.apply, Datatype.conv_zero, zero_mul, Option.some.injEq] at h
    rw [← h, Expr.eval, hl]
  | @oneMul _ _ _ l hl =>
    obtain ⟨x, y, hx, hy, h⟩ := eval_binary hv
    obtain rfl : l.val = x := Option.some.inj hx
    have ht : k.type = Datatype.maxType (literal l).type k.type := ht
    rw [← ht, hl] at h
    simp only [BinaryOp.apply, Datatype.conv_one, one_mul, eval_conv hy] at h
    rw [hy, h]
  | @mulZero _ _ _ l hl =>
    obtain ⟨x, y, hx, hy, h⟩ := eval_binary hv
    obtain rfl : l.val = y := Option.some.inj hy
    rw [hl] at h
    simp only [BinaryOp.apply, Datatype.conv_zero, mul_zero, Option.some.injEq] at h
    rw [← h, Expr.eval, hl]
  | @mulOne _ _ _ l hl =>
    obtain ⟨x, y, hx, hy, h⟩ := eval_binary hv
    obtain rfl : l.val = y := Option.some.inj hy
    have ht : k.type = Datatype.maxType k.type (literal l).type := ht
    rw [← ht, hl] at h
    simp only [BinaryOp.apply, Datatype.conv_one, mul_one, eval_conv hx] at h
    rw [hx, h]
  | @divOne _ _ _ l hl =>
    obtain ⟨x, y, hx, hy, h⟩ := eval_binary hv
    obtain rfl : l.val = y := Option.some.inj hy
    have ht : k.type = Datatype.maxType k.type (literal l).type := ht
    rw [← ht, hl] at h
    simp only [BinaryOp.apply, Datatype.conv_one, one_ne_zero, if_false, Option.some.injEq] at h
    rw [Datatype.quot_one (k.type.conv_conv x), eval_conv hx] at h
    rw [hx, h]
  | @trueAnd _ _ _ l hl =>
    simp only [make, Expr.eval, Option.bind_eq_bind, Option.bind_some, if_neg hl, Option.bind_eq_some_iff] at hv
    obtain ⟨y, hy, hv⟩ := hv
    have hb := eval_conv hy
    rw [ht] at hb
    rw [hy, ← Option.some.inj hv, ofBool_ne_zero hb]
  | @falseAnd _ _ _ l hl =>
    simp only [make, Expr.eval, Option.bind_eq_bind, Option.bind_some, if_pos hl] at hv
    rw [Expr.eval, hl, hv]
  | @andTrue _ _ _ l hl =>
    simp only [make, Expr.eval, Option.bind_eq_bind, Option.bind_some, Option.bind_eq_some_iff] at hv
    obtain ⟨x, hx, hv⟩ := hv
    have hb := eval_conv hx
    rw [ht] at hb
    rw [hx]
    split at hv
    · rw [‹x = 0›, hv]
    · rw [← hv, decide_eq_true hl, ← ofBool_ne_zero hb, decide_eq_true ‹x ≠ 0›]
  | @andFalse _ _ _ l hl =>
    simp only [make, Expr.eval, Option.bind_eq_bind, Option.bind_some, Option.bind_eq_some_iff] at hv
    obtain ⟨x, hx, hv⟩ := hv
    split at hv
    · rw [Expr.eval, hl, hv]
    · rw [Expr.eval, hl, ← hv, decide_eq_false (not_not.mpr hl)]
      rfl
  | @trueOr _ _ _ l hl =>
    have hb := l.conv_val
    rw [show l.type = .bool from ht] at hb
    simp only [make, Expr.eval, Option.bind_eq_bind, Option.bind_some, if_neg hl] at hv
    rw [Expr.eval, ← hb, ← hv, Datatype.conv, if_neg hl]
  | @falseOr _ _ _ l hl =>
    simp only [make, Expr.eval, Option.bind_eq_bind, Option.bind_some, if_pos hl, Option.bind_eq_some_iff] at hv
    obtain ⟨y, hy, hv⟩ := hv
    have hb := eval_conv hy
    rw [ht] at hb
    rw [hy, ← Option.some.inj hv, ofBool_ne_zero hb]
  | @orTrue _ _ _ l hl =>
    have hb := l.conv_val
    rw [show l.type = .bool from ht] at hb
    simp only [make, Expr.eval, Option.bind_eq_bind, Option.bind_some, Option.bind_eq_some_iff] at hv
    obtain ⟨x, -, hv⟩ := hv
    rw [Expr.eval, ← hb, Datatype.conv, if_neg hl]
    split at hv
    · rw [← hv, decide_eq_true hl]
      rfl
    · exact hv
  | @orFalse _ _ _ l hl =>
    simp only [make, Expr.eval, Option.bind_eq_bind, Option.bind_some, Option.bind_eq_some_iff] at hv
    obtain ⟨x, hx, hv⟩ := hv
    have hb := eval_conv hx
    rw [ht] at hb
    rw [hx]
    split at hv
    · rw [‹x = 0›, ← hv, decide_eq_false (not_not.mpr hl)]
      rfl
    · rw [← hv, ← ofBool_ne_zero hb, decide_eq_true ‹x ≠ 0›]
      rfl

theorem eval_negate {m : Memory} {a₀ b₀ b : Expr} {l : Literal} {v : Val} (hl : l.val = 0)
    (ht : b.type = ((binary .sub a₀ b₀).make [literal l, b]).type)
    (hv : ((binary .sub a₀ b₀).make [literal l, b]).eval m = some v) : (neg b).eval m = some v := by
  obtain ⟨x, y, hx, hy, h⟩ := eval_binary hv
  obtain rfl : l.val = x := Option.some.inj hx
  have ht : b.type = Datatype.maxType (literal l).type b.type := ht
  rw [← ht, hl] at h
  simp only [BinaryOp.apply, Datatype.conv_zero, zero_sub, eval_conv hy] at h
  rw [Expr.eval, hy, Option.map_some, h]

/-! ### Reassociation -/

/-- The residue of an integer in an integer type. -/
def Datatype.wrap (t : Datatype) (n : ℤ) : ℤ := Datatype.wrapBits t.isInt t.getNumBits n

theorem Datatype.conv_intCast {t : Datatype} (ht : t.isInteger = true) (n : ℤ) : t.conv (n : Val) = (t.wrap n : ℤ) := by
  rw [conv_integer ht, trunc_intCast, wrap]

theorem Datatype.wrap_eq_iff {t : Datatype} {a b : ℤ} : t.wrap a = t.wrap b ↔ a ≡ b [ZMOD 2 ^ t.getNumBits] :=
  wrapBits_eq_iff

theorem Datatype.wrap_modEq (t : Datatype) (n : ℤ) : t.wrap n ≡ n [ZMOD 2 ^ t.getNumBits] := wrapBits_modEq _ _ n

/-- A literal of the type, as an integer. -/
theorem exists_val_eq {l : Literal} {t : Datatype} (h : l.type = t) (ht : t.isInteger = true) : ∃ n : ℤ, l.val = n := by
  subst h
  exact ⟨_, Datatype.eq_trunc_of_conv ht l.conv_val⟩

/-- Storing an integer in a literal of at most 64 bits wraps it. -/
theorem val_make {t : Datatype} (ht : t.isInteger = true) (h128 : t.is128 = false) (n : ℤ) :
    (Literal.make t (n : Val)).val = (t.wrap n : ℤ) := by
  show t.store (n : Val) = _
  rw [Datatype.store_eq_conv h128, Datatype.conv_intCast ht]

/-- Addition, subtraction and multiplication of integers have the residue of the integer result. -/
inductive IntegerOp : BinaryOp → (ℤ → ℤ → ℤ) → Prop where
  | add : IntegerOp .add (· + ·)
  | sub : IntegerOp .sub (· - ·)
  | mul : IntegerOp .mul (· * ·)

theorem IntegerOp.apply {op : BinaryOp} {f : ℤ → ℤ → ℤ} (h : IntegerOp op f) {t : Datatype} (ht : t.isInteger = true)
    (n k : ℤ) : op.apply t (t.conv n) (t.conv k) = some ((t.wrap (f n k) : ℤ) : Val) := by
  rw [Datatype.conv_intCast ht, Datatype.conv_intCast ht]
  have hn := t.wrap_modEq n
  have hk := t.wrap_modEq k
  cases h with
  | add =>
    rw [BinaryOp.apply, ← Int.cast_add, Datatype.conv_intCast ht, Datatype.wrap_eq_iff.mpr (hn.add hk)]
  | sub =>
    rw [BinaryOp.apply, ← Int.cast_sub, Datatype.conv_intCast ht, Datatype.wrap_eq_iff.mpr (hn.sub hk)]
  | mul =>
    rw [BinaryOp.apply, ← Int.cast_mul, Datatype.conv_intCast ht, Datatype.wrap_eq_iff.mpr (hn.mul hk)]

theorem eval_binary_of_int {m : Memory} {op : BinaryOp} {f : ℤ → ℤ → ℤ} (hop : IntegerOp op f) {t : Datatype}
    (ht : t.isInteger = true) {a b : Expr} (ha : a.type = t) (hb : b.type = t) {n k : ℤ} (hn : a.eval m = some (n : Val))
    (hk : b.eval m = some (k : Val)) : (binary op a b).eval m = some ((t.wrap (f n k) : ℤ) : Val) := by
  rw [Expr.eval, hn, hk, ha, hb, Datatype.maxType_self]
  exact hop.apply ht n k

theorem Reassociated.type {op : BinaryOp} {a b k : Expr} (h : Reassociated op a b k) :
    k.type = (binary op a b).type := by
  cases h with
  | addAdd hc hd _ | addSub hc hd _ | mulMul hc hd _ =>
    simp only [Expr.type, hc, hd, Datatype.maxType_self, Literal.make]

/-- Regrouping constants `d` and `b` around `c`: the residues of both sides agree when the integers do. -/
theorem eval_regroup {m : Memory} {op₁ op₂ op₃ : BinaryOp} {f₁ f₂ f₃ g : ℤ → ℤ → ℤ} (h₁ : IntegerOp op₁ f₁)
    (h₂ : IntegerOp op₂ f₂) (h₃ : IntegerOp op₃ f₃) {c : Expr} {d b : Literal} {v w : Val} (hc : c.type = b.type)
    (hd : d.type = b.type) (ht : b.type.isInteger = true) (h128 : b.type.is128 = false)
    (hw : ∀ p q : ℤ, d.val = p → b.val = q → w = (g p q : ℤ))
    (hfg : ∀ n p q : ℤ, f₂ (b.type.wrap (f₁ n p)) q ≡ f₃ n (b.type.wrap (g p q)) [ZMOD 2 ^ b.type.getNumBits])
    (hv : (binary op₂ (binary op₁ c (literal d)) (literal b)).eval m = some v) :
    (binary op₃ c (literal (.make b.type w))).eval m = some v := by
  obtain ⟨x, y, hx, hy, -⟩ := eval_binary hv
  obtain ⟨x', y', hx', hy', -⟩ := eval_binary hx
  have hn := Datatype.eq_trunc_of_conv ht (hc ▸ eval_conv hx')
  obtain ⟨p, hp⟩ := exists_val_eq hd ht
  obtain ⟨q, hq⟩ := exists_val_eq (l := b) rfl ht
  have hdv : (literal d).eval m = some (p : Val) := by rw [Expr.eval, hp]
  have hbv : (literal b).eval m = some (q : Val) := by rw [Expr.eval, hq]
  rw [hn] at hx'
  have hd' : (literal d).type = b.type := hd
  have hinner := eval_binary_of_int h₁ ht hc hd' hx' hdv
  have hinnert : (binary op₁ c (literal d)).type = b.type := by
    simp only [Expr.type, hc, hd, Datatype.maxType_self]
  rw [eval_binary_of_int h₂ ht hinnert (show (literal b).type = b.type from rfl) hinner hbv] at hv
  have hmade : (literal (.make b.type w)).eval m = some ((b.type.wrap (g p q) : ℤ) : Val) := by
    rw [Expr.eval, hw p q hp hq, val_make ht h128]
  have hmadet : (literal (.make b.type w)).type = b.type := rfl
  rw [eval_binary_of_int h₃ ht hc hmadet hx' hmade, ← hv, Datatype.wrap_eq_iff.mpr (hfg _ p q)]

/-- Sums and products of one integer type can be regrouped. -/
theorem Reassociated.eval {m : Memory} {op : BinaryOp} {a b k : Expr} {v : Val} (h : Reassociated op a b k)
    (h128 : b.type.is128 = false) (hv : (binary op a b).eval m = some v) : k.eval m = some v := by
  cases h with
  | @addAdd c d b hc hd ht =>
    refine eval_regroup (g := (· + ·)) .add .add .add hc hd ht h128 ?_ ?_ hv
    · intro p q hp hq
      rw [hp, hq, Int.cast_add]
    · intro n p q
      have h₁ := (b.type.wrap_modEq (n + p)).add_right q
      have h₂ := (b.type.wrap_modEq (p + q)).add_left n
      rw [add_assoc] at h₁
      exact h₁.trans h₂.symm
  | @addSub c d b hc hd ht =>
    refine eval_regroup (g := fun p q => q - p) .sub .add .add hc hd ht h128 ?_ ?_ hv
    · intro p q hp hq
      rw [hp, hq, Int.cast_sub]
    · intro n p q
      have h₁ := (b.type.wrap_modEq (n - p)).add_right q
      have h₂ := (b.type.wrap_modEq (q - p)).add_left n
      rw [show n - p + q = n + (q - p) by omega] at h₁
      exact h₁.trans h₂.symm
  | @mulMul c d b hc hd ht =>
    refine eval_regroup (g := (· * ·)) .mul .mul .mul hc hd ht h128 ?_ ?_ hv
    · intro p q hp hq
      rw [hp, hq, Int.cast_mul]
    · intro n p q
      have h₁ := (b.type.wrap_modEq (n * p)).mul_right q
      have h₂ := (b.type.wrap_modEq (p * q)).mul_left n
      rw [mul_assoc] at h₁
      exact h₁.trans h₂.symm

/-! ### Rebuilding -/

/-- `k` has the type of `e`, and its value wherever `e` has one. -/
def Refines (m : Memory) (e k : Expr) : Prop := k.type = e.type ∧ ∀ v, e.eval m = some v → k.eval m = some v

theorem evalList_refines {m : Memory} {es ks : List Expr} (h : List.Forall₂ (Refines m) es ks) :
    ∀ {vs : List Val}, evalList m es = some vs → evalList m ks = some vs := by
  induction h with
  | nil => exact id
  | cons h _ ih =>
    intro vs hvs
    simp only [evalList, Option.bind_eq_bind, Option.bind_eq_some_iff] at hvs ⊢
    obtain ⟨v, hv, vs', hvs', hvs⟩ := hvs
    exact ⟨v, h.2 v hv, vs', ih hvs', hvs⟩

/-- Rebuilding a node over refined operands keeps its value, as long as it keeps its type. -/
theorem eval_make {m : Memory} {e : Expr} {es : List Expr} {v : Val} (h : List.Forall₂ (Refines m) e.operands es)
    (ht : (e.make es).type = e.type) (hv : e.eval m = some v) : (e.make es).eval m = some v := by
  cases e with
  | literal | var =>
    obtain rfl := List.forall₂_nil_left_iff.mp h
    exact hv
  | neg a | cast a t | load arr a =>
    obtain ⟨k, ks, hk, hks, rfl⟩ := List.forall₂_cons_left_iff.mp h
    obtain rfl := List.forall₂_nil_left_iff.mp hks
    obtain ⟨x, hx, rfl⟩ := Option.map_eq_some_iff.mp hv
    simp only [make, Expr.eval, hk.2 x hx, hk.1, Option.map_some]
  | binary op a b | compare op a b =>
    obtain ⟨k, ks, hk, hks, rfl⟩ := List.forall₂_cons_left_iff.mp h
    obtain ⟨k', ks', hk', hks', rfl⟩ := List.forall₂_cons_left_iff.mp hks
    obtain rfl := List.forall₂_nil_left_iff.mp hks'
    simp only [Expr.eval, Option.bind_eq_bind, Option.bind_eq_some_iff] at hv
    obtain ⟨x, hx, y, hy, hv⟩ := hv
    simp only [make, Expr.eval, hk.2 x hx, hk'.2 y hy, hk.1, hk'.1, Option.bind_eq_bind, Option.bind_some]
    exact hv
  | and a b | or a b =>
    obtain ⟨k, ks, hk, hks, rfl⟩ := List.forall₂_cons_left_iff.mp h
    obtain ⟨k', ks', hk', hks', rfl⟩ := List.forall₂_cons_left_iff.mp hks
    obtain rfl := List.forall₂_nil_left_iff.mp hks'
    simp only [Expr.eval, Option.bind_eq_bind, Option.bind_eq_some_iff] at hv
    obtain ⟨x, hx, hv⟩ := hv
    simp only [make, Expr.eval, hk.2 x hx, Option.bind_eq_bind, Option.bind_some]
    split at hv
    · rw [if_pos ‹x = 0›]
      first
        | exact hv
        | obtain ⟨y, hy, hv⟩ := Option.bind_eq_some_iff.mp hv
          rw [hk'.2 y hy]
          exact hv
    · rw [if_neg ‹¬x = 0›]
      first
        | exact hv
        | obtain ⟨y, hy, hv⟩ := Option.bind_eq_some_iff.mp hv
          rw [hk'.2 y hy]
          exact hv
  | min as t | max as t =>
    simp only [Expr.eval, Option.bind_eq_bind, Option.bind_eq_some_iff] at hv
    obtain ⟨vs, hvs, hv⟩ := hv
    cases h with
    | nil => cases hvs; cases hv
    | @cons a k as ks hk hks =>
      have hvs' := evalList_refines (List.Forall₂.cons hk hks) hvs
      have ht : k.type = t := ht
      simp only [make, Expr.eval, hvs', ht, Option.bind_eq_bind, Option.bind_some]
      exact hv

/-! ### Sound nodes -/

/-- Two folded literals have the value of the operation on them. -/
def FoldOK : Expr → List Expr → Literal → Prop
  | binary op _ _, [literal la, literal lb], l =>
    op.apply (Datatype.maxType la.type lb.type) ((Datatype.maxType la.type lb.type).conv la.val)
      ((Datatype.maxType la.type lb.type).conv lb.val) = some l.val
  | _, _, _ => True

/-- The rule keeps the type of the node `e`, and folds literals to their value. -/
def RuleOK (e : Expr) (rs : List Rewritten) : Rule → Prop
  | .fold l => FoldOK e (rs.map Rewritten.expr) l
  | .keep k | .negate k => k.type = e.type
  | .reassociate _ => True
  | .rebuild => rs.any Rewritten.isNew = true → (e.make (rs.map Rewritten.expr)).type = e.type

/-- A rule is found for the rewritten operands of the node, and it is sound. -/
def NodeOK (sub : Var → Option Var) (e : Expr) : Prop :=
  ∀ rs, e.operands.mapM (simplifyWith sub) = some rs →
    ∃ rule, e.rule (rs.map Rewritten.expr) = some rule ∧ RuleOK e rs rule

/-- Every node of `e` is sound. -/
def Sound (sub : Var → Option Var) (e : Expr) : Prop := ∀ s, Subexpr s e → NodeOK sub s

theorem sound_iff {sub : Var → Option Var} {e : Expr} :
    Sound sub e ↔ NodeOK sub e ∧ ∀ c ∈ e.operands, Sound sub c := by
  constructor
  · intro h
    exact ⟨h e .refl, fun c hc s hs => h s (.operand hc hs)⟩
  · rintro ⟨he, hc⟩ s hs
    cases hs with
    | refl => exact he
    | operand hmem hs => exact hc _ hmem s hs

theorem any_isNew_map (es : List Expr) : (es.map fun e => (⟨e, false⟩ : Rewritten)).any Rewritten.isNew = false := by
  rw [List.any_map, List.any_eq_false]
  exact fun _ _ => Bool.false_ne_true

theorem map_expr_map (es : List Expr) : (es.map fun e => (⟨e, false⟩ : Rewritten)).map Rewritten.expr = es := by
  rw [List.map_map]
  exact List.map_id _

theorem mapM_of_reduced {es : List Expr} (h : ∀ c ∈ es, Reduced c) :
    es.mapM (simplifyWith fun _ => none) = some (es.map fun e => ⟨e, false⟩) :=
  mapM_keep fun c hc => rewrite_of_reduced (h c hc) (Nat.le_refl _)

/-- A node over reduced operands is sound when its rule on them is. -/
theorem nodeOK_of_reduced {e : Expr} (rule : Rule) (h : ∀ c ∈ e.operands, Reduced c)
    (hrule : e.rule e.operands = some rule) (hok : RuleOK e (e.operands.map fun e => ⟨e, false⟩) rule) :
    NodeOK (fun _ => none) e := by
  intro rs hrs
  rw [mapM_of_reduced h] at hrs
  obtain rfl := Option.some.inj hrs
  rw [map_expr_map]
  exact ⟨rule, hrule, hok⟩

theorem subexpr_trans {s t u : Expr} (h₁ : Subexpr s t) (h₂ : Subexpr t u) : Subexpr s u := by
  induction h₂ with
  | refl => exact h₁
  | operand hc _ ih => exact .operand hc ih

theorem Reduced.sound {e : Expr} (h : Reduced e) : Sound (fun _ => none) e := fun s hs => by
  have hs' : Reduced s := fun u hu => h u (subexpr_trans hu hs)
  obtain ⟨hrule, hc⟩ := reduced_iff.mp hs'
  refine nodeOK_of_reduced .rebuild hc hrule fun hany => ?_
  rw [any_isNew_map] at hany
  cases hany

/-! ### Regrouped expressions -/

/-- A reduced sum or product with a literal of its type has a non-literal first operand and no 128-bit type,
    for which no identity can be tested. -/
theorem reduced_operand {op : BinaryOp} {f : ℤ → ℤ → ℤ} (hop : IntegerOp op f) {c : Expr} {d : Literal}
    (h : Reduced (binary op c (literal d))) (hc : c.type = d.type) (ht : d.type.isInteger = true) :
    (∀ l, c ≠ literal l) ∧ d.type.is128 = false := by
  have hrule := (reduced_iff.mp h).1
  have hlit : ∀ (f : Val → Val → Val), foldRule f c (literal d) = none → ∀ l, c ≠ literal l := by
    rintro f hf l rfl
    have hl : l.type = d.type := hc
    simp only [foldRule, foldLiterals, hl, Datatype.maxType_self, ht, if_true, reduceCtorEq] at hf
  have h128 : isScalarLiteral 0 (literal d) = some false → d.type.is128 = false := fun hs => by
    rw [isScalarLiteral, Literal.equalsScalar] at hs
    split at hs
    · cases hs
    · exact Bool.eq_false_iff.mpr ‹_›
  cases hop with
  | add =>
    have hrule : addRule c (literal d) = some .rebuild := hrule
    unfold addRule at hrule
    split at hrule
    · cases hrule
    · split at hrule
      · cases hrule
      · refine ⟨hlit _ ‹foldRule _ c (literal d) = none›, h128 ?_⟩
        rcases identityAdd_cases hrule with ⟨-, h⟩ | ⟨-, h⟩ | ⟨-, h, -⟩
        · cases h
        · cases h
        · exact h
  | sub =>
    have hrule : subRule c (literal d) = some .rebuild := hrule
    unfold subRule at hrule
    split at hrule
    · cases hrule
    · refine ⟨hlit _ ‹foldRule _ c (literal d) = none›, h128 ?_⟩
      rcases identitySub_cases hrule with ⟨-, h⟩ | ⟨-, h⟩ | ⟨-, h, -⟩
      · cases h
      · cases h
      · exact h
  | mul =>
    have hrule : mulRule c (literal d) = some .rebuild := hrule
    unfold mulRule at hrule
    split at hrule
    · cases hrule
    · split at hrule
      · cases hrule
      · refine ⟨hlit _ ‹foldRule _ c (literal d) = none›, h128 ?_⟩
        rcases identityMul_cases hrule with ⟨-, h⟩ | ⟨-, h⟩ | ⟨-, h⟩ | ⟨-, h⟩ | ⟨h, -⟩
        · cases h
        · cases h
        · cases h
        · cases h
        · exact h

theorem isScalarLiteral_of_ne {k : Val} {c : Expr} (h : ∀ l, c ≠ literal l) : isScalarLiteral k c = some false := by
  cases c with
  | literal l => exact absurd rfl (h l)
  | _ => rfl

theorem isScalarLiteral_of_width {k : Val} {l : Literal} (h : l.type.is128 = false) :
    isScalarLiteral k (literal l) = some (l.val == k) := by
  simp only [isScalarLiteral, Literal.equalsScalar, h, Bool.false_eq_true, if_false]

theorem foldRule_of_ne {f : Val → Val → Val} {a b : Expr} (h : ∀ l, a ≠ literal l) : foldRule f a b = none := by
  cases a with
  | literal l => exact absurd rfl (h l)
  | _ => rfl

/-- A reduced non-literal plus or times a literal of its type is sound. -/
theorem sound_add_literal {c : Expr} {l : Literal} (hred : Reduced c) (hne : ∀ l, c ≠ literal l) (ht : c.type = l.type)
    (h128 : l.type.is128 = false) : Sound (fun _ => none) (binary .add c (literal l)) := by
  have hops : ∀ k ∈ (binary .add c (literal l)).operands, Reduced k := fun k hk => by
    rcases List.mem_cons.mp hk with rfl | hk
    · exact hred
    · rw [List.mem_singleton.mp hk]
      exact reduced_literal l
  refine sound_iff.mpr ⟨?_, fun k hk => (hops k hk).sound⟩
  have hid : ∃ rule, identityAdd c (literal l) = some rule ∧ (rule = .keep c ∨ rule = .rebuild) := by
    simp only [identityAdd, isScalarLiteral_of_ne hne, isScalarLiteral_of_width h128, Option.bind_eq_bind,
      Option.bind_some, Bool.false_eq_true, if_false]
    split
    · exact ⟨_, rfl, Or.inl rfl⟩
    · exact ⟨_, rfl, Or.inr rfl⟩
  cases hr : reassociateAdd c (literal l) with
  | some k =>
    refine nodeOK_of_reduced (.reassociate k) hops ?_ trivial
    show addRule c (literal l) = _
    simp only [addRule, foldRule_of_ne hne, hr]
  | none =>
    obtain ⟨rule, hrule, hcase⟩ := hid
    refine nodeOK_of_reduced rule hops ?_ ?_
    · show addRule c (literal l) = _
      simp only [addRule, foldRule_of_ne hne, hr, hrule]
    · rcases hcase with rfl | rfl
      · show c.type = Datatype.maxType c.type l.type
        rw [ht, Datatype.maxType_self]
      · intro hany
        rw [any_isNew_map] at hany
        cases hany

theorem sound_mul_literal {c : Expr} {l : Literal} (hred : Reduced c) (hne : ∀ l, c ≠ literal l) (ht : c.type = l.type)
    (h128 : l.type.is128 = false) : Sound (fun _ => none) (binary .mul c (literal l)) := by
  have hops : ∀ k ∈ (binary .mul c (literal l)).operands, Reduced k := fun k hk => by
    rcases List.mem_cons.mp hk with rfl | hk
    · exact hred
    · rw [List.mem_singleton.mp hk]
      exact reduced_literal l
  refine sound_iff.mpr ⟨?_, fun k hk => (hops k hk).sound⟩
  have hid : ∃ rule, identityMul c (literal l) = some rule ∧
      (rule = .keep c ∨ rule = .keep (literal l) ∨ rule = .rebuild) := by
    simp only [identityMul, isScalarLiteral_of_ne hne, isScalarLiteral_of_width h128, Option.bind_eq_bind,
      Option.bind_some, Bool.false_eq_true, if_false]
    split
    · exact ⟨_, rfl, Or.inr (Or.inl rfl)⟩
    · split
      · exact ⟨_, rfl, Or.inl rfl⟩
      · exact ⟨_, rfl, Or.inr (Or.inr rfl)⟩
  have htype : (binary .mul c (literal l)).type = l.type := by
    show Datatype.maxType c.type l.type = l.type
    rw [ht, Datatype.maxType_self]
  cases hr : reassociateMul c (literal l) with
  | some k =>
    refine nodeOK_of_reduced (.reassociate k) hops ?_ trivial
    show mulRule c (literal l) = _
    simp only [mulRule, foldRule_of_ne hne, hr]
  | none =>
    obtain ⟨rule, hrule, hcase⟩ := hid
    refine nodeOK_of_reduced rule hops ?_ ?_
    · show mulRule c (literal l) = _
      simp only [mulRule, foldRule_of_ne hne, hr, hrule]
    · rcases hcase with rfl | rfl | rfl
      · exact ht.trans htype.symm
      · exact htype.symm
      · intro hany
        rw [any_isNew_map] at hany
        cases hany

/-- The expression that a regrouping simplifies again is sound. -/
theorem Reassociated.sound {op : BinaryOp} {a b k : Expr} (h : Reassociated op a b k) (ha : Reduced a) :
    Sound (fun _ => none) k ∧ b.type.is128 = false := by
  cases h with
  | @addAdd c d b hc hd ht =>
    have hcd : c.type = d.type := hc.trans hd.symm
    obtain ⟨hne, h128⟩ := reduced_operand .add ha hcd (hd ▸ ht)
    rw [hd] at h128
    exact ⟨sound_add_literal (reduced_iff.mp ha |>.2 c List.mem_cons_self) hne hc h128, h128⟩
  | @addSub c d b hc hd ht =>
    have hcd : c.type = d.type := hc.trans hd.symm
    obtain ⟨hne, h128⟩ := reduced_operand .sub ha hcd (hd ▸ ht)
    rw [hd] at h128
    exact ⟨sound_add_literal (reduced_iff.mp ha |>.2 c List.mem_cons_self) hne hc h128, h128⟩
  | @mulMul c d b hc hd ht =>
    have hcd : c.type = d.type := hc.trans hd.symm
    obtain ⟨hne, h128⟩ := reduced_operand .mul ha hcd (hd ▸ ht)
    rw [hd] at h128
    exact ⟨sound_mul_literal (reduced_iff.mp ha |>.2 c List.mem_cons_self) hne hc h128, h128⟩

/-! ### Soundness -/

/-- The replacements of the variables of `e` keep their types. -/
def TypesAgree (sub : Var → Option Var) (e : Expr) : Prop :=
  ∀ v a, Subexpr (var v) e → sub v = some a → a.type = v.type

/-- The replacements of the variables of `e` hold the same values. -/
def ValuesAgree (sub : Var → Option Var) (m : Memory) (e : Expr) : Prop :=
  ∀ v a, Subexpr (var v) e → sub v = some a → a.type.conv (m.vars a) = v.type.conv (m.vars v)

theorem forall₂_of_forall {α β : Type} {R : α → β → Prop} {f : α → Option β} {l : List α}
    (h : ∀ a ∈ l, ∃ r, f a = some r ∧ R a r) :
    ∃ rs, List.Forall₂ (fun a r => f a = some r) l rs ∧ List.Forall₂ R l rs := by
  induction l with
  | nil => exact ⟨[], .nil, .nil⟩
  | cons a l ih =>
    obtain ⟨r, hr, hR⟩ := h a List.mem_cons_self
    obtain ⟨rs, hrs, hRs⟩ := ih fun b hb => h b (List.mem_cons_of_mem _ hb)
    exact ⟨r :: rs, .cons hr hrs, .cons hR hRs⟩

theorem forall₂_imp_mem {α β : Type} {R S : α → β → Prop} {l : List α} {rs : List β} (h : List.Forall₂ R l rs)
    (himp : ∀ a r, a ∈ l → R a r → S a r) : List.Forall₂ S l rs := by
  induction h with
  | nil => exact .nil
  | cons hr _ ih =>
    exact .cons (himp _ _ List.mem_cons_self hr) (ih fun a r ha => himp a r (List.mem_cons_of_mem _ ha))

/-- A truth value is stored in every type. -/
theorem Datatype.store_of_bool (t : Datatype) {v : Val} (h : Datatype.bool.conv v = v) : t.store v = t.conv v := by
  have h01 : v = 0 ∨ v = 1 := by
    rw [← h]
    simp only [conv]
    by_cases hv : v = 0 <;> simp [hv]
  rcases h01 with rfl | rfl
  · cases t <;> simp [store, conv, wrapBits_zero]
  · cases t with
    | bool | float32 | float64 => rfl
    | uint w | int w => cases w <;> simp [store, conv, wrapBits, Width.bits, storedBits]

/-- Rules other than `rebuild` are those of nodes whose type follows from their operands. -/
theorem RuleSpec.type_make {e : Expr} {es : List Expr} {rule : Rule} (h : RuleSpec e es rule)
    (ht : List.Forall₂ (fun c k => k.type = c.type) e.operands es) (hr : rule ≠ .rebuild) :
    (e.make es).type = e.type := by
  have binary : ∀ {op : BinaryOp} {a₀ b₀ a b : Expr}, List.Forall₂ (fun c k : Expr => k.type = c.type) [a₀, b₀] [a, b] →
      (binary op a b).type = (binary op a₀ b₀).type := fun h => by
    rw [List.forall₂_cons, List.forall₂_cons] at h
    simp only [Expr.type, h.1, h.2.1]
  cases h with
  | foldBinary | negate | reassociate => exact binary ht
  | foldCast => rfl
  | rebuild => exact absurd rfl hr
  | keep hk => cases hk <;> first | rfl | exact binary ht

/-- Rewriting a sound expression succeeds and preserves its type and its values. -/
theorem rewrite_sound : ∀ {fuel : ℕ} {sub : Var → Option Var} {e : Expr}, e.size ≤ fuel → Sound sub e →
    TypesAgree sub e →
    ∃ r, rewrite fuel sub e = some r ∧ r.expr.type = e.type ∧
      ∀ m, ValuesAgree sub m e → ∀ v, e.eval m = some v → r.expr.eval m = some v
  | 0, _, e, h, _, _ => absurd h (not_le.mpr e.size_pos)
  | fuel + 1, sub, e, hsize, hsound, htypes => by
    by_cases he : ∃ v, e = var v
    · obtain ⟨x, rfl⟩ := he
      cases hs : sub x with
      | none => exact ⟨⟨var x, false⟩, by rw [rewrite, hs], rfl, fun m _ v hv => hv⟩
      | some a =>
        refine ⟨⟨var a, true⟩, by rw [rewrite, hs], htypes x a .refl hs, fun m hm v hv => ?_⟩
        rw [← hv]
        exact congrArg some (hm x a .refl hs)
    · obtain ⟨hnode, hops⟩ := sound_iff.mp hsound
      obtain ⟨rs, hrs, hpres⟩ := forall₂_of_forall fun c hc =>
        @rewrite_sound fuel sub c (by have := size_lt_of_mem hc; omega) (hops c hc)
          fun v a hv => htypes v a (.operand hc hv)
      have hmap : List.Forall₂ (fun c k => k.type = c.type) e.operands (rs.map Rewritten.expr) :=
        List.forall₂_map_right_iff.mpr (hpres.imp fun _ _ h => h.1)
      have hrefines : ∀ m, ValuesAgree sub m e → List.Forall₂ (Refines m) e.operands (rs.map Rewritten.expr) := by
        intro m hm
        rw [List.forall₂_map_right_iff]
        exact forall₂_imp_mem hpres fun c r hc h => ⟨h.1, h.2 m fun v a hv => hm v a (.operand hc hv)⟩
      have hsimp : e.operands.mapM (simplifyWith sub) = some rs := by
        rw [mapM_congr fun c hc => simplifyWith_eq (by have := size_lt_of_mem hc; omega : c.size ≤ fuel)]
        exact mapM_eq_some.mpr hrs
      obtain ⟨rule, hrule, hok⟩ := hnode rs hsimp
      have hspec := rule_spec hrule
      rw [rewrite_operands (fun v hv => he ⟨v, hv⟩), mapM_eq_some.mpr hrs, Option.bind_some]
      cases rule with
      | rebuild =>
        cases hany : rs.any Rewritten.isNew with
        | true =>
          refine ⟨⟨e.make (rs.map Rewritten.expr), true⟩, ?_, hok hany, fun m hm v hv => ?_⟩
          · simp only [finish, hrule, hany, Option.bind_eq_bind, Option.bind_some, if_true]
          · exact eval_make (hrefines m hm) (hok hany) hv
        | false =>
          refine ⟨⟨e, false⟩, ?_, rfl, fun m _ v hv => hv⟩
          simp only [finish, hrule, hany, Option.bind_eq_bind, Option.bind_some, Bool.false_eq_true, if_false]
      | fold l =>
        have htype := hspec.type_make hmap (by rintro ⟨⟩)
        have hval : ∀ m, ValuesAgree sub m e → ∀ v, e.eval m = some v → (e.make (rs.map Rewritten.expr)).eval m = some v :=
          fun m hm v hv => eval_make (hrefines m hm) htype hv
        refine ⟨⟨literal l, true⟩, by simp only [finish, hrule, Option.bind_eq_bind, Option.bind_some], ?_⟩
        have hok : FoldOK e (rs.map Rewritten.expr) l := hok
        generalize rs.map Rewritten.expr = es at *
        cases hspec with
        | foldBinary hl =>
          refine ⟨hl.trans htype, fun m hm v hv => ?_⟩
          obtain ⟨x, y, hx, hy, h⟩ := eval_binary (hval m hm v hv)
          obtain rfl := Option.some.inj hx
          obtain rfl := Option.some.inj hy
          exact hok.symm.trans h
        | @foldCast a₀ t l hl =>
          refine ⟨rfl, fun m hm v hv => ?_⟩
          have hbool : Datatype.bool.conv l.val = l.val := hl ▸ l.conv_val
          rw [← hval m hm v hv]
          exact congrArg some (t.store_of_bool hbool)
      | keep k =>
        have htype := hspec.type_make hmap (by rintro ⟨⟩)
        refine ⟨⟨k, true⟩, ?_, hok, fun m hm v hv => ?_⟩
        · simp only [finish, hrule, Option.bind_eq_bind, Option.bind_some]
        · have hv' := eval_make (hrefines m hm) htype hv
          have hok : k.type = e.type := hok
          generalize rs.map Rewritten.expr = es at *
          cases hspec with
          | keep hk => exact hk.eval (hok.trans htype.symm) hv'
      | negate k =>
        have htype := hspec.type_make hmap (by rintro ⟨⟩)
        refine ⟨⟨neg k, true⟩, ?_, hok, fun m hm v hv => ?_⟩
        · simp only [finish, hrule, Option.bind_eq_bind, Option.bind_some]
        · have hv' := eval_make (hrefines m hm) htype hv
          have hok : k.type = e.type := hok
          generalize rs.map Rewritten.expr = es at *
          cases hspec with
          | negate hl => exact eval_negate hl (hok.trans htype.symm) hv'
      | reassociate k =>
        have htype := hspec.type_make hmap (by rintro ⟨⟩)
        have hred : ∀ k ∈ rs.map Rewritten.expr, Reduced k := fun k hk => by
          obtain ⟨r, hr, rfl⟩ := List.mem_map.mp hk
          obtain ⟨c, -, hc⟩ := exists_of_mem_right hrs hr
          exact rewrite_reduced hc
        have hsum := sum_map_le_of_forall₂ (hrs.imp fun _ _ h => rewrite_size h)
        have hval : ∀ m, ValuesAgree sub m e → ∀ v, e.eval m = some v → (e.make (rs.map Rewritten.expr)).eval m = some v :=
          fun m hm v hv => eval_make (hrefines m hm) htype hv
        have hfin : finish (rewrite fuel fun _ => none) e rs =
            (rewrite fuel (fun _ => none) k).map fun r => ⟨r.expr, true⟩ := by
          simp only [finish, hrule, Option.bind_eq_bind, Option.bind_some]
        rw [hfin]
        rw [size_eq e] at hsize
        generalize rs.map Rewritten.expr = es at *
        cases hspec with
        | reassociate hk =>
          obtain ⟨hksound, h128⟩ := hk.sound (hred _ List.mem_cons_self)
          simp only [List.map_cons, List.sum_cons] at hsum
          have hksize : k.size ≤ fuel := by
            rw [hk.size]
            omega
          obtain ⟨r', hr', htr', hvr'⟩ := rewrite_sound hksize hksound fun _ _ _ h => by cases h
          rw [hr']
          refine ⟨_, rfl, htr'.trans (hk.type.trans htype), fun m hm v hv => ?_⟩
          exact hvr' m (fun _ _ _ h => by cases h) v (hk.eval h128 (hval m hm v hv))

end IR
end Taco
