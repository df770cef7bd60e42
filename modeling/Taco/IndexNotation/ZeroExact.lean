import Taco.IndexNotation.DeclaredSets
import Taco.IndexNotation.TypedExpr

/-! Where zeroing accesses is sound. -/

namespace Taco
namespace IndexNotation

/-! ### Soundness -/

/-- The environment in which the zeroed accesses are zero. -/
noncomputable def Env.zeroed (env : Env) (zeroed : List ℕ) : Env :=
  { env with value := fun node coords => if zeroed.contains node then 0 else env.value node coords }

namespace Expr

/-- The value and the type of what is left of an expression of type `t`; nothing is read as zero. -/
noncomputable def read (env : Env) (coords : ℕ → ℕ) (t : Datatype) : Option Expr → Option (Datatype × ℂ)
  | none => some (t, 0)
  | some e => (e.eval env coords).map (e.type, ·)

/-- Zeroing is sound for the expression: wherever it has a value with the accesses of the set equal to zero,
    what is left of it has the same value, of the same type. -/
def Sound (zeroed : List ℕ) (e : Expr) : Prop :=
  ∀ env coords v, e.eval (env.zeroed zeroed) coords = some v →
    ∃ r, e.zero zeroed = .ok r ∧ read env coords e.type r = some (e.type, v)

/-! ### The condition -/

/-- An argument of which nothing is left. -/
def zeroArg (t : Datatype) : Arg := ⟨t, (Literal.zero t).toOption⟩

/-- What is left of an operation. -/
def leftOf (op : BinaryOp) : Option Arg → Option Arg → Option Arg
  | some p, some q => some ⟨p.type.maxType q.type, none⟩
  | none, none => none
  | none, some q =>
    match op with
    | .add => some q
    | .sub => some ⟨q.type, none⟩
    | .mul | .div => none
  | some p, none =>
    match op with
    | .add | .sub => some p
    | .mul | .div => none

/-- What is left of a call whose arguments have the types and are left as given. -/
def leftCall (f : Intrinsic) (args : List (Option Arg × Arg)) : Option Arg :=
  match f.zeroPreservingArgs (args.map Prod.snd) with
  | .ok sets =>
    if includesAny sets (zeroArgs (args.map Prod.fst)) then none
    else some ⟨(f.inferReturnType (args.map (·.2.type))).toOption.getD (.real .bool), none⟩
  | .error _ => none

mutual

/-- The type, and the literal, that is left of an expression when the accesses of the set vanish. -/
def left (zeroed : List ℕ) : Expr → Option Arg
  | access a => if a.node ∈ zeroed then none else some ⟨a.type, none⟩
  | literal l => some ⟨l.type, some l⟩
  | neg a | sqrt a | reduction _ _ a => (a.left zeroed).map fun p => ⟨p.type, none⟩
  | cast a t => (a.left zeroed).map fun _ => ⟨t, none⟩
  | binary op a b => leftOf op (a.left zeroed) (b.left zeroed)
  | call f args => leftCall f (leftList zeroed args)

def leftList (zeroed : List ℕ) : List Expr → List (Option Arg × Arg)
  | [] => []
  | a :: as => (a.left zeroed, (a.left zeroed).getD (zeroArg a.type)) :: leftList zeroed as

end

/-- A sum or difference that loses one term leaves the type as it is. -/
def KeepsType (zeroed : List ℕ) (a b : Expr) : Prop :=
  ∀ p, (a.left zeroed = some p ∧ b.left zeroed = none) ∨ (a.left zeroed = none ∧ b.left zeroed = some p) →
    p.type = a.type.maxType b.type

/-- The call's declared sets can be determined, no power of a vanished base has a zero exponent, and nothing
    negative is compared with a vanished unsigned number. -/
structure CallFits (zeroed : List ℕ) (env : Env) (coords : ℕ → ℕ) (f : Intrinsic) (args : List Expr) : Prop where
  literals : ∀ a ∈ args, a.left zeroed = none → ∃ l, Literal.zero a.type = .ok l
  sets : ∃ sets, f.zeroPreservingArgs ((leftList zeroed args).map Prod.snd) = .ok sets
  power : ∀ a b, f = .pow → args = [a, b] → a.left zeroed = none → b.eval (env.zeroed zeroed) coords ≠ some 0
  order : ∀ a b s w x, f = .lt → args = [a, b] → a.type = .real s → b.type = .real (.uint w) → b.left zeroed = none →
    a.eval (env.zeroed zeroed) coords = some x → 0 ≤ convReal (common s (.uint w)) x.re

/-- What zeroing needs of a node, wherever the node has a value. -/
def Fits (zeroed : List ℕ) (e : Expr) : Prop :=
  ∀ env coords v, e.eval (env.zeroed zeroed) coords = some v →
    match e with
    | binary .add a b | binary .sub a b => KeepsType zeroed a b
    | call f args => CallFits zeroed env coords f args
    | _ => True

/-! ### Basic facts -/

@[simp] theorem arg_type (e : Expr) : e.arg.type = e.type := by
  cases e <;> rfl

@[simp] theorem arg_neg (a : Expr) : (neg a).arg = ⟨a.type, none⟩ := rfl

@[simp] theorem arg_binary (op : BinaryOp) (a b : Expr) : (binary op a b).arg = ⟨a.type.maxType b.type, none⟩ := rfl

theorem map_arg_type (es : List Expr) : es.map (·.arg.type) = typeList es := by
  induction es with
  | nil => rfl
  | cons e es ih => rw [List.map_cons, ih, arg_type, typeList]

end Expr

theorem BinaryOp.conv_of_apply {op : BinaryOp} {t : Datatype} {x y v : ℂ} (h : op.apply t x y = some v) :
    t.conv v = v := by
  cases op with
  | add | sub | mul =>
    cases h
    exact t.conv_conv _
  | div =>
    rw [apply] at h
    split at h
    · cases h
    · cases h
      exact t.conv_conv _

namespace Expr

/-- A reduction is a value of the type of its operands. -/
theorem conv_of_foldlM {op : BinaryOp} {t : Datatype} {f : ℕ → Option ℂ} {is : List ℕ} {x v : ℂ}
    (hx : t.conv x = x) (h : is.foldlM (fun acc i => do op.apply t acc (← f i)) x = some v) : t.conv v = v := by
  induction is generalizing x with
  | nil =>
    cases h
    exact hx
  | cons i is ih =>
    obtain ⟨y, hy, h⟩ := Option.bind_eq_some_iff.mp h
    obtain ⟨z, -, hy⟩ := Option.bind_eq_some_iff.mp hy
    exact ih (BinaryOp.conv_of_apply hy) h

theorem conv_of_eval {env : Env} {coords : ℕ → ℕ} {e : Expr} {v : ℂ} (h : e.eval env coords = some v) :
    e.type.conv v = v := by
  cases e with
  | access a =>
    cases h
    exact a.type.conv_conv _
  | literal l =>
    cases h
    exact l.conv_val
  | neg a | cast a t =>
    obtain ⟨x, -, rfl⟩ := Option.map_eq_some_iff.mp h
    exact Datatype.conv_conv _ _
  | sqrt a =>
    obtain ⟨x, -, h⟩ := Option.bind_eq_some_iff.mp h
    obtain ⟨y, -, h⟩ := Option.bind_eq_some_iff.mp h
    cases h
    exact Datatype.conv_conv _ _
  | binary op a b =>
    obtain ⟨x, -, h⟩ := Option.bind_eq_some_iff.mp h
    obtain ⟨y, -, h⟩ := Option.bind_eq_some_iff.mp h
    exact BinaryOp.conv_of_apply h
  | call f args =>
    obtain ⟨t, ht, h⟩ := Option.bind_eq_some_iff.mp h
    obtain ⟨x, -, h⟩ := Option.bind_eq_some_iff.mp h
    obtain ⟨y, -, h⟩ := Option.bind_eq_some_iff.mp h
    cases h
    rw [type, ht]
    exact Datatype.conv_conv _ _
  | reduction op var a => exact conv_of_foldlM (Datatype.conv_zero _) h

/-! ### What is left -/

theorem zeroArgs_map {α β : Type*} (g : α → β) (rs : List (Option α)) :
    zeroArgs (rs.map (Option.map g)) = zeroArgs rs := by
  simp only [zeroArgs, List.length_map, List.getElem?_map]
  congr 1
  funext i
  cases rs[i]? with
  | none => rfl
  | some r => cases r <;> rfl

theorem arg_of_rewrittenArg {a a' : Expr} {r : Option Expr} (h : rewrittenArg a r = .ok a') :
    a'.arg = (r.map arg).getD (zeroArg a.type) := by
  cases r with
  | some e =>
    cases h
    rfl
  | none =>
    obtain ⟨l, hl, h⟩ := ok_of_bind h
    cases h
    rw [Option.map_none, Option.getD_none, zeroArg, hl, arg, (Literal.zero_spec hl).1]
    rfl

theorem left_of_visitBinary {op : BinaryOp} {ra rb : Option Expr} :
    (visitBinary op ra rb).map arg = leftOf op (ra.map arg) (rb.map arg) := by
  cases op <;> cases ra <;> cases rb <;>
    simp [visitBinary, visitDisjunctionOp, visitConjunctionOp, visitSub, leftOf]

theorem left_of_visitCall {f : Intrinsic} {args : List (Option Expr × Expr)} {r : Option Expr}
    (h : visitCall f args = .ok r) :
    leftCall f (args.map fun p => (p.1.map arg, p.2.arg)) = r.map arg := by
  obtain ⟨sets, hsets, h⟩ := ok_of_bind h
  have hargs : (args.map fun p => (p.1.map arg, p.2.arg)).map Prod.snd = args.map (·.2.arg) := by simp
  have hzero : zeroArgs ((args.map fun p => (p.1.map arg, p.2.arg)).map Prod.fst) = zeroArgs (args.map Prod.fst) := by
    rw [← zeroArgs_map arg (args.map Prod.fst), List.map_map, List.map_map]
    rfl
  rw [leftCall, hargs, hsets, hzero]
  split at h
  · next hinc =>
    cases h
    exact if_pos hinc
  · next hinc =>
    obtain ⟨t, ht, h⟩ := ok_of_bind h
    cases h
    have htypes : (args.map fun p => (p.1.map arg, p.2.arg)).map (·.2.type) = typeList (args.map Prod.snd) := by
      rw [← map_arg_type]
      simp
    simp only [hinc, htypes]
    rfl

mutual

/-- `left` describes what the rewriter leaves. -/
theorem left_of_zero {zeroed : List ℕ} : ∀ {e : Expr} {r : Option Expr},
    e.zero zeroed = .ok r → e.left zeroed = r.map arg
  | access a, r, h => by
    cases h
    by_cases ha : a.node ∈ zeroed <;> simp [left, ha, arg, type]
  | literal l, r, h => by
    cases h
    rfl
  | neg a, r, h | sqrt a, r, h | reduction op var a, r, h => by
    obtain ⟨ra, ha, h⟩ := ok_of_bind h
    cases h
    rw [left, left_of_zero ha]
    cases ra with
    | none => rfl
    | some a' => exact congrArg (fun t => some (Arg.mk t none)) a'.arg_type
  | cast a t, r, h => by
    obtain ⟨ra, ha, h⟩ := ok_of_bind h
    cases h
    rw [left, left_of_zero ha]
    cases ra <;> rfl
  | binary op a b, r, h => by
    obtain ⟨ra, ha, h⟩ := ok_of_bind h
    obtain ⟨rb, hb, h⟩ := ok_of_bind h
    cases h
    rw [left, left_of_zero ha, left_of_zero hb, left_of_visitBinary]
  | call f args, r, h => by
    obtain ⟨rs, hrs, h⟩ := ok_of_bind h
    rw [left, leftList_of_zeroList hrs, left_of_visitCall h]

theorem leftList_of_zeroList {zeroed : List ℕ} : ∀ {es : List Expr} {rs : List (Option Expr × Expr)},
    zeroList zeroed es = .ok rs → leftList zeroed es = rs.map fun p => (p.1.map arg, p.2.arg)
  | [], rs, h => by
    cases h
    rfl
  | a :: as, rs, h => by
    obtain ⟨r, hr, h⟩ := ok_of_bind h
    obtain ⟨a', ha', h⟩ := ok_of_bind h
    obtain ⟨rs', hrs', h⟩ := ok_of_bind h
    cases h
    rw [leftList, left_of_zero hr, leftList_of_zeroList hrs', ← arg_of_rewrittenArg ha']
    rfl

end

end Expr

namespace Expr

variable {zeroed : List ℕ} {env : Env} {coords : ℕ → ℕ} {e a b : Expr} {x v : ℂ}

/-! ### Operators -/

/-- What is left of a sound operand that has a value. -/
theorem Sound.left (h : Sound zeroed e) (hv : e.eval (env.zeroed zeroed) coords = some v) :
    ∃ r, e.zero zeroed = .ok r ∧ ((r = none ∧ v = 0) ∨ ∃ e', r = some e' ∧ e'.type = e.type ∧ e'.eval env coords = some v) := by
  obtain ⟨r, hr, hread⟩ := h env coords v hv
  refine ⟨r, hr, ?_⟩
  cases r with
  | none => exact Or.inl ⟨rfl, (congrArg Prod.snd (Option.some.inj hread)).symm⟩
  | some e' =>
    obtain ⟨w, hw, heq⟩ := Option.map_eq_some_iff.mp hread
    obtain ⟨htype, rfl⟩ := Prod.mk.inj heq
    exact Or.inr ⟨e', rfl, htype, hw⟩

/-- An operator of one operand that keeps zero is sound where its operand is. -/
theorem sound_unary {g : Expr → Expr} {f : Datatype → ℂ → Option ℂ} {t : Datatype → Datatype}
    (hzero : (g a).zero zeroed = do return visitUnaryOp g (← a.zero zeroed))
    (htype : ∀ c, (g c).type = t c.type)
    (heval : ∀ c env coords, (g c).eval env coords = do f c.type (← c.eval env coords))
    (hf : ∀ t v, f t 0 = some v → v = 0) (ha : Sound zeroed a) : Sound zeroed (g a) := by
  intro env coords v hv
  rw [heval] at hv
  obtain ⟨x, hx, hv⟩ := Option.bind_eq_some_iff.mp hv
  obtain ⟨r, hr, ⟨rfl, rfl⟩ | ⟨a', rfl, hta, hxa⟩⟩ := ha.left hx
  · refine ⟨none, by rw [hzero, hr]; rfl, ?_⟩
    rw [hf _ _ hv]
    rfl
  · refine ⟨some (g a'), by rw [hzero, hr]; rfl, ?_⟩
    rw [read, heval, hxa, htype, htype, hta]
    exact congrArg (Option.map _) hv

theorem sound_neg (ha : Sound zeroed a) : Sound zeroed (neg a) :=
  sound_unary (f := fun t x => some (t.conv (-x))) (t := id) rfl (fun _ => rfl) (fun c env coords => by
    rw [eval]
    cases c.eval env coords <;> rfl) (fun t v h => by simpa using h.symm) ha

theorem sound_cast {t : Datatype} (ha : Sound zeroed a) : Sound zeroed (cast a t) :=
  sound_unary (g := (cast · t)) (f := fun _ x => some (t.conv x)) (t := fun _ => t) rfl (fun _ => rfl) (fun c env coords => by
    rw [eval]
    cases c.eval env coords <;> rfl) (fun _ v h => by simpa using h.symm) ha

theorem sound_sqrt (ha : Sound zeroed a) : Sound zeroed (sqrt a) := by
  refine sound_unary (f := fun t x => do return t.conv (← squareRoot t x)) (t := id) rfl (fun _ => rfl) (fun c env coords => ?_)
    (fun t v h => ?_) ha
  · rw [eval]
  · cases t with
    | real t => simpa [squareRoot] using h.symm
    | complex64 | complex128 => simpa [squareRoot, Intrinsic.onComplex] using h.symm

/-- Where the operand is zero all along, so is the reduction. -/
theorem foldlM_zero {op : BinaryOp} {t : Datatype} {f : ℕ → Option ℂ} {is : List ℕ} (hf : ∀ i x, f i = some x → x = 0)
    (h : is.foldlM (fun acc i => do op.apply t acc (← f i)) 0 = some v) : v = 0 := by
  induction is with
  | nil => exact (Option.some.inj h).symm
  | cons i is ih =>
    obtain ⟨y, hy, h⟩ := Option.bind_eq_some_iff.mp h
    obtain ⟨z, hz, hy⟩ := Option.bind_eq_some_iff.mp hy
    cases hf i z hz
    have hzero : y = 0 := by
      cases op with
      | add | sub | mul => simpa [BinaryOp.apply] using hy.symm
      | div => simp [BinaryOp.apply] at hy
    exact ih (hzero ▸ h)

theorem foldlM_mono {op : BinaryOp} {t : Datatype} {f g : ℕ → Option ℂ} {is : List ℕ} (hfg : ∀ i x, f i = some x → g i = some x)
    (h : is.foldlM (fun acc i => do op.apply t acc (← f i)) x = some v) :
    is.foldlM (fun acc i => do op.apply t acc (← g i)) x = some v := by
  induction is generalizing x with
  | nil => exact h
  | cons i is ih =>
    obtain ⟨y, hy, h⟩ := Option.bind_eq_some_iff.mp h
    obtain ⟨z, hz, hy⟩ := Option.bind_eq_some_iff.mp hy
    rw [List.foldlM_cons, hfg i z hz]
    exact Option.bind_eq_some_iff.mpr ⟨y, hy, ih h⟩

theorem exists_of_foldlM {op : BinaryOp} {t : Datatype} {f : ℕ → Option ℂ} {n : ℕ} (hn : 0 < n)
    (h : (List.range n).foldlM (fun acc i => do op.apply t acc (← f i)) x = some v) : ∃ y, f 0 = some y := by
  obtain ⟨m, rfl⟩ := Nat.exists_eq_add_one.mpr hn
  rw [List.range_succ_eq_map, List.foldlM_cons] at h
  obtain ⟨y, hy, -⟩ := Option.bind_eq_some_iff.mp h
  obtain ⟨z, hz, -⟩ := Option.bind_eq_some_iff.mp hy
  exact ⟨z, hz⟩

/-- A reduction is sound where its operand is: its dimension is not empty, so that the operand has a value. -/
theorem sound_reduction {op : BinaryOp} {var : ℕ} (ha : Sound zeroed a) : Sound zeroed (reduction op var a) := by
  intro env coords v hv
  obtain ⟨y, hy⟩ := exists_of_foldlM (env.dimension_pos var) hv
  obtain ⟨r, hr, hleft⟩ := ha.left hy
  have hzero : (reduction op var a).zero zeroed = .ok (visitUnaryOp (reduction op var) r) := by
    rw [zero, hr]
    rfl
  refine ⟨_, hzero, ?_⟩
  cases r with
  | none =>
    have hv0 : v = 0 := by
      refine foldlM_zero (fun i x hx => ?_) hv
      obtain ⟨r', hr', ⟨-, hx0⟩ | ⟨a', rfl, -⟩⟩ := ha.left hx
      · exact hx0
      · cases hr.symm.trans hr'
    rw [hv0]
    rfl
  | some a' =>
    obtain ⟨h, -⟩ | ⟨a'', heq, hta, -⟩ := hleft
    · cases h
    · cases heq
      have hval : (reduction op var a').eval env coords = some v := by
        rw [eval, hta]
        refine foldlM_mono (fun i x hx => ?_) hv
        obtain ⟨r', hr', ⟨rfl, -⟩ | ⟨a'', rfl, -, hxa⟩⟩ := ha.left hx
        · cases hr.symm.trans hr'
        · cases hr.symm.trans hr'
          exact hxa
      rw [visitUnaryOp, Option.map_some, read, hval, type, hta]
      rfl

/-! ### Operations -/

/-- An operation both of whose operands are left is evaluated as before. -/
theorem eval_binary {op : BinaryOp} {a' b' : Expr} {y : ℂ} (hta : a'.type = a.type) (hxa : a'.eval env coords = some x)
    (htb : b'.type = b.type) (hyb : b'.eval env coords = some y) :
    (binary op a' b').eval env coords =
      op.apply (a.type.maxType b.type) ((a.type.maxType b.type).conv x) ((a.type.maxType b.type).conv y) := by
  rw [eval, hxa, hyb, hta, htb]
  rfl

theorem read_some {t : Datatype} (ht : e.type = t) (hv : e.eval env coords = some v) : read env coords t (some e) = some (t, v) := by
  rw [read, hv, ht]
  rfl

/-- A product or quotient of which one factor has vanished is zero. -/
theorem sound_conjunction {op : BinaryOp} (hop : op = .mul ∨ op = .div) (ha : Sound zeroed a) (hb : Sound zeroed b) :
    Sound zeroed (binary op a b) := by
  intro env coords v hv
  obtain ⟨x, hx, hv⟩ := Option.bind_eq_some_iff.mp hv
  obtain ⟨y, hy, hv⟩ := Option.bind_eq_some_iff.mp hv
  obtain ⟨ra, hra, hleft⟩ := ha.left hx
  obtain ⟨rb, hrb, hright⟩ := hb.left hy
  have hzero : (binary op a b).zero zeroed = .ok (visitConjunctionOp op ra rb) := by
    rw [zero, hra, hrb]
    rcases hop with rfl | rfl <;> rfl
  refine ⟨_, hzero, ?_⟩
  obtain ⟨rfl, rfl⟩ | ⟨a', rfl, hta, hxa⟩ := hleft
  · have hv0 : v = 0 := by
      rcases hop with rfl | rfl
      · simpa [BinaryOp.apply] using hv.symm
      · simp only [BinaryOp.apply, Datatype.conv_zero, Datatype.quot_zero] at hv
        split at hv
        · cases hv
        · exact (Option.some.inj hv).symm
    rw [hv0]
    rfl
  · obtain ⟨rfl, rfl⟩ | ⟨b', rfl, htb, hyb⟩ := hright
    · have hv0 : v = 0 := by
        rcases hop with rfl | rfl
        · simpa [BinaryOp.apply] using hv.symm
        · simp [BinaryOp.apply] at hv
      rw [hv0]
      rfl
    · exact read_some (by rw [type, type, hta, htb]) ((eval_binary hta hxa htb hyb).trans hv)

/-- A sum or difference is sound where the term that is left has its type. -/
theorem sound_disjunction {op : BinaryOp} (hop : op = .add ∨ op = .sub) (ha : Sound zeroed a) (hb : Sound zeroed b)
    (hkeeps : (∃ env coords v, (binary op a b).eval (Env.zeroed env zeroed) coords = some v) → KeepsType zeroed a b) :
    Sound zeroed (binary op a b) := by
  intro env coords v hv
  have hkeeps := hkeeps ⟨env, coords, v, hv⟩
  obtain ⟨x, hx, hv⟩ := Option.bind_eq_some_iff.mp hv
  obtain ⟨y, hy, hv⟩ := Option.bind_eq_some_iff.mp hv
  obtain ⟨ra, hra, hleft⟩ := ha.left hx
  obtain ⟨rb, hrb, hright⟩ := hb.left hy
  have hzero : (binary op a b).zero zeroed = .ok (visitBinary op ra rb) := by
    rw [zero, hra, hrb]
    rfl
  refine ⟨_, hzero, ?_⟩
  have hla := left_of_zero hra
  have hlb := left_of_zero hrb
  obtain ⟨rfl, rfl⟩ | ⟨a', rfl, hta, hxa⟩ := hleft
  · obtain ⟨rfl, rfl⟩ | ⟨b', rfl, htb, hyb⟩ := hright
    · have hv0 : v = 0 := by
        rcases hop with rfl | rfl <;> simpa [BinaryOp.apply] using hv.symm
      rw [hv0]
      rcases hop with rfl | rfl <;> rfl
    · have ht : b'.type = a.type.maxType b.type := b'.arg_type ▸ hkeeps b'.arg (Or.inr ⟨hla, hlb⟩)
      have hconv : (a.type.maxType b.type).conv y = y := ht ▸ conv_of_eval hyb
      rcases hop with rfl | rfl
      · have hvy : v = y := by simpa [BinaryOp.apply, hconv] using hv.symm
        exact read_some ht (hvy ▸ hyb)
      · have hvy : v = (a.type.maxType b.type).conv (-y) := by simpa [BinaryOp.apply, hconv] using hv.symm
        refine read_some ht ?_
        rw [eval, hyb, hvy, ht]
        rfl
  · obtain ⟨rfl, rfl⟩ | ⟨b', rfl, htb, hyb⟩ := hright
    · have ht : a'.type = a.type.maxType b.type := a'.arg_type ▸ hkeeps a'.arg (Or.inl ⟨hla, hlb⟩)
      have hconv : (a.type.maxType b.type).conv x = x := ht ▸ conv_of_eval hxa
      have hvx : v = x := by
        rcases hop with rfl | rfl <;> simpa [BinaryOp.apply, hconv] using hv.symm
      rcases hop with rfl | rfl <;> exact read_some ht (hvx ▸ hxa)
    · have hread : read env coords (binary op a b).type (some (binary op a' b')) = some ((binary op a b).type, v) :=
        read_some (by rw [type, type, hta, htb]) ((eval_binary hta hxa htb hyb).trans hv)
      rcases hop with rfl | rfl <;> exact hread

/-- A sum or difference that is sound keeps its type. -/
theorem keepsType_of_sound {op : BinaryOp} (hop : op = .add ∨ op = .sub) (ha : Sound zeroed a) (hb : Sound zeroed b)
    (h : Sound zeroed (binary op a b)) (hv : (binary op a b).eval (env.zeroed zeroed) coords = some v) :
    KeepsType zeroed a b := by
  intro p hp
  obtain ⟨r, hr, hleft⟩ := h.left hv
  obtain ⟨x, hx, hv⟩ := Option.bind_eq_some_iff.mp hv
  obtain ⟨y, hy, hv⟩ := Option.bind_eq_some_iff.mp hv
  obtain ⟨ra, hra, -⟩ := ha.left hx
  obtain ⟨rb, hrb, -⟩ := hb.left hy
  have hzero : r = visitBinary op ra rb := by
    rw [zero, hra, hrb] at hr
    cases hr
    rfl
  rw [left_of_zero hra, left_of_zero hrb] at hp
  have hgone : ∀ {r : Option Expr}, r.map arg = none → r = none := fun h => Option.map_eq_none_iff.mp h
  have htype : ∀ {e' : Expr}, r = some e' → e'.type = a.type.maxType b.type := by
    rintro e' rfl
    obtain ⟨hnone, -⟩ | ⟨e'', heq, ht, -⟩ := hleft
    · cases hnone
    · cases heq
      exact ht
  rcases hp with ⟨hpa, hpb⟩ | ⟨hpa, hpb⟩
  · obtain ⟨a', rfl, rfl⟩ := Option.map_eq_some_iff.mp hpa
    rw [hgone hpb] at hzero
    rw [arg_type]
    rcases hop with rfl | rfl <;> exact htype hzero
  · obtain ⟨b', rfl, rfl⟩ := Option.map_eq_some_iff.mp hpb
    rw [hgone hpa] at hzero
    rw [arg_type]
    rcases hop with rfl | rfl
    · exact htype hzero
    · exact (htype hzero : (neg b').type = _)

/-! ### Calls -/

/-- A rewritten argument: it has the type and the value of the argument, and is a zero literal where nothing of
    the argument is left. -/
structure Rewritten (env : Env) (coords : ℕ → ℕ) (r : Option Expr × Expr) (p : Datatype × ℂ) : Prop where
  type : r.2.type = p.1
  eval : r.2.eval env coords = some p.2
  has : r.2.arg.Has p.2
  gone : r.1 = none → p.2 = 0 ∧ r.2.arg.literal ≠ none

theorem has_arg (hv : e.eval env coords = some v) : e.arg.Has v where
  conv := (arg_type e).symm ▸ conv_of_eval hv
  literal l hl := by
    cases e with
    | literal l' =>
      cases hl
      cases hv
      exact ⟨rfl, rfl⟩
    | _ => cases hl

theorem rewritten_of_sound (h : Sound zeroed a) (hx : a.eval (env.zeroed zeroed) coords = some x)
    (hlit : a.left zeroed = none → ∃ l, Literal.zero a.type = .ok l) :
    ∃ r a', a.zero zeroed = .ok r ∧ rewrittenArg a r = .ok a' ∧ Rewritten env coords (r, a') (a.type, x) := by
  obtain ⟨r, hr, ⟨rfl, rfl⟩ | ⟨a', rfl, hta, hxa⟩⟩ := h.left hx
  · obtain ⟨l, hl⟩ := hlit (left_of_zero hr)
    obtain ⟨htype, hval⟩ := Literal.zero_spec hl
    have heval : (Expr.literal l).eval env coords = some 0 := by rw [eval, hval]
    exact ⟨none, .literal l, hr, by rw [rewrittenArg, hl]; rfl, htype, heval, has_arg heval, fun _ => ⟨rfl, by simp [arg]⟩⟩
  · exact ⟨some a', a', hr, rfl, hta, hxa, has_arg hxa, fun h => by cases h⟩

theorem rewrittenList_of_sound : ∀ {args : List Expr} {ps : List (Datatype × ℂ)}, (∀ a ∈ args, Sound zeroed a) →
    evalList (env.zeroed zeroed) coords args = some ps →
    (∀ a ∈ args, a.left zeroed = none → ∃ l, Literal.zero a.type = .ok l) →
    ∃ rs, zeroList zeroed args = .ok rs ∧ List.Forall₂ (Rewritten env coords) rs ps
  | [], ps, _, hps, _ => by
    cases hps
    exact ⟨[], rfl, .nil⟩
  | a :: as, ps, hs, hps, hlits => by
    obtain ⟨x, hx, hps⟩ := Option.bind_eq_some_iff.mp hps
    obtain ⟨ps', hps', hps⟩ := Option.bind_eq_some_iff.mp hps
    cases hps
    obtain ⟨r, a', hr, ha', hrewritten⟩ := rewritten_of_sound (hs a List.mem_cons_self) hx (hlits a List.mem_cons_self)
    obtain ⟨rs, hrs, hall⟩ := rewrittenList_of_sound (fun b hb => hs b (List.mem_cons_of_mem a hb)) hps'
      fun b hb => hlits b (List.mem_cons_of_mem a hb)
    refine ⟨(r, a') :: rs, ?_, .cons hrewritten hall⟩
    rw [zeroList, hr, ok_bind, ha', ok_bind, hrs]
    rfl

/-- The types of the arguments are those with which they are evaluated. -/
theorem typeList_of_evalList : ∀ {args : List Expr} {ps : List (Datatype × ℂ)},
    evalList env coords args = some ps → typeList args = ps.map Prod.fst
  | [], ps, h => by
    cases h
    rfl
  | a :: as, ps, h => by
    obtain ⟨x, -, h⟩ := Option.bind_eq_some_iff.mp h
    obtain ⟨ps', hps', h⟩ := Option.bind_eq_some_iff.mp h
    cases h
    rw [typeList, typeList_of_evalList hps']
    rfl

theorem evalList_of_rewritten : ∀ {rs : List (Option Expr × Expr)} {ps : List (Datatype × ℂ)},
    List.Forall₂ (Rewritten env coords) rs ps → evalList env coords (rs.map Prod.snd) = some ps
  | [], _, .nil => rfl
  | r :: rs, p :: ps, .cons h hs => by
    rw [List.map_cons, evalList, h.eval, h.type, evalList_of_rewritten hs]
    rfl

theorem mem_zeroArgs {α : Type*} {rs : List (Option α)} {i : ℕ} : i ∈ zeroArgs rs ↔ rs[i]? = some none := by
  rw [zeroArgs, List.mem_filter, List.mem_range]
  constructor
  · rintro ⟨hi, hnone⟩
    rw [List.getElem?_eq_getElem hi] at hnone ⊢
    cases h : rs[i] with
    | none => rfl
    | some r => simp [h] at hnone
  · intro h
    exact ⟨(List.getElem?_eq_some_iff.mp h).1, by rw [h]; rfl⟩

theorem includesAny_singleton {α : Type*} {rs : List (Option α)} {i : ℕ} (h : rs[i]? = some none) :
    includesAny [[i]] (zeroArgs rs) = true := by
  have hmem : (zeroArgs rs).contains i = true := List.elem_iff.mpr (mem_zeroArgs.mpr h)
  rw [includesAny, List.any_cons, List.all_cons, hmem]
  rfl

/-- A call that vanishes is zero. -/
theorem apply_of_includesAny {f : Intrinsic} {rs : List (Option Expr × Expr)} {ps : List (Datatype × ℂ)}
    {sets : List (List ℕ)} (hall : List.Forall₂ (Rewritten env coords) rs ps)
    (hsets : f.zeroPreservingArgs (rs.map (·.2.arg)) = .ok sets) (hinc : includesAny sets (zeroArgs (rs.map Prod.fst)) = true)
    (hpow : ∀ r s p q, f = .pow → rs = [r, s] → ps = [p, q] → r.1 = none → q.2 ≠ 0)
    (hlt : ∀ r s p q t w, f = .lt → rs = [r, s] → ps = [p, q] → p.1 = .real t → q.1 = .real (.uint w) → s.1 = none →
      0 ≤ convReal (common t (.uint w)) p.2.re)
    (hv : f.apply ps = some v) : v = 0 := by
  obtain ⟨set, hset, hset'⟩ := List.any_eq_true.mp hinc
  have hgone : ∀ i ∈ set, (rs.map Prod.fst)[i]? = some none := fun i hi =>
    mem_zeroArgs.mp (List.elem_iff.mp (List.all_eq_true.mp hset' i hi))
  match rs, ps, hall with
  | [r], [p], .cons h .nil =>
    rw [Intrinsic.apply, ← h.type, ← arg_type] at hv
    refine Intrinsic.unary_eq_zero hsets hset (fun h0 => ?_) hv
    exact (h.gone (Option.some.inj (hgone 0 h0))).1
  | [r, s], [p, q], .cons h (.cons h' .nil) =>
    rw [Intrinsic.apply, ← h.type, ← h'.type, ← arg_type, ← arg_type] at hv
    refine Intrinsic.binary_eq_zero h.has h'.has hsets hset (fun h0 => h.gone (Option.some.inj (hgone 0 h0)))
      (fun h1 => (h'.gone (Option.some.inj (hgone 1 h1))).1) (fun hf h0 => ?_) (fun hf t w ht hw h1 => ?_) hv
    · exact hpow r s p q hf rfl rfl (Option.some.inj (hgone 0 h0))
    · rw [arg_type, h.type] at ht
      rw [arg_type, h'.type] at hw
      exact hlt r s p q t w hf rfl rfl ht hw (Option.some.inj (hgone 1 h1))
  | [], [], .nil => cases hv
  | _ :: _ :: _ :: _, _ :: _ :: _ :: _, _ => cases hv

theorem map_snd_leftList {args : List Expr} {rs : List (Option Expr × Expr)} (hrs : zeroList zeroed args = .ok rs) :
    (leftList zeroed args).map Prod.snd = rs.map (·.2.arg) := by
  rw [leftList_of_zeroList hrs, List.map_map]
  rfl

/-- The two arguments of a call: their types and values, and what is left of them. -/
theorem args_of_two {args : List Expr} {r s : Option Expr × Expr} {p q : Datatype × ℂ}
    (hps : evalList env coords args = some [p, q]) (hrs : zeroList zeroed args = .ok [r, s]) :
    ∃ a b, args = [a, b] ∧ a.type = p.1 ∧ b.type = q.1 ∧ a.eval env coords = some p.2 ∧ b.eval env coords = some q.2 ∧
      a.left zeroed = r.1.map arg ∧ b.left zeroed = s.1.map arg := by
  match args with
  | [] => cases hps
  | a :: as =>
    obtain ⟨x, hx, hps⟩ := Option.bind_eq_some_iff.mp hps
    obtain ⟨ps, hps', hps⟩ := Option.bind_eq_some_iff.mp hps
    cases hps
    match as with
    | [] => cases hps'
    | b :: bs =>
      obtain ⟨y, hy, hps'⟩ := Option.bind_eq_some_iff.mp hps'
      obtain ⟨ps', hps'', hps'⟩ := Option.bind_eq_some_iff.mp hps'
      cases hps'
      match bs with
      | [] =>
        have hleft := leftList_of_zeroList hrs
        simp only [leftList, List.map_cons, List.map_nil, List.cons.injEq, Prod.mk.injEq] at hleft
        exact ⟨a, b, rfl, rfl, rfl, hx, hy, hleft.1.1, hleft.2.1.1⟩
      | c :: cs =>
        obtain ⟨z, -, h⟩ := Option.bind_eq_some_iff.mp hps''
        obtain ⟨zs, -, h⟩ := Option.bind_eq_some_iff.mp h
        cases h

theorem sound_call {f : Intrinsic} {args : List Expr} (hargs : ∀ a ∈ args, Sound zeroed a)
    (hfits : ∀ env coords v, (call f args).eval (Env.zeroed env zeroed) coords = some v →
      CallFits zeroed env coords f args) : Sound zeroed (call f args) := by
  intro env coords v hv
  obtain ⟨hlits, ⟨sets, hsets⟩, hpow, horder⟩ := hfits env coords v hv
  obtain ⟨t, ht, hv⟩ := Option.bind_eq_some_iff.mp hv
  obtain ⟨ps, hps, hv⟩ := Option.bind_eq_some_iff.mp hv
  obtain ⟨w, hw, hv⟩ := Option.bind_eq_some_iff.mp hv
  cases hv
  obtain ⟨rs, hrs, hall⟩ := rewrittenList_of_sound hargs hps hlits
  have hevals : evalList env coords (rs.map Prod.snd) = some ps := evalList_of_rewritten hall
  have htypes : typeList (rs.map Prod.snd) = typeList args :=
    (typeList_of_evalList hevals).trans (typeList_of_evalList hps).symm
  rw [map_snd_leftList hrs] at hsets
  have hvisit : (call f args).zero zeroed = visitCall f rs := by
    rw [zero, hrs]
    rfl
  rw [hvisit, visitCall, hsets, ok_bind]
  by_cases hinc : includesAny sets (zeroArgs (rs.map Prod.fst)) = true
  · have hw0 : w = 0 := by
      refine apply_of_includesAny hall hsets hinc ?_ ?_ hw
      · rintro r s p q hf rfl rfl hgone hzero
        obtain ⟨a, b, rfl, -, -, -, hb, hleft, -⟩ := args_of_two hps hrs
        exact hpow a b hf rfl (by rw [hleft, hgone]; rfl) (hzero ▸ hb)
      · rintro r s p q t' w' hf rfl rfl ht' hw' hgone
        obtain ⟨a, b, rfl, hta, htb, ha, -, -, hleft⟩ := args_of_two hps hrs
        exact horder a b t' w' p.2 hf rfl (hta.trans ht') (htb.trans hw') (by rw [hleft, hgone]; rfl) ha
    refine ⟨none, if_pos hinc, ?_⟩
    rw [hw0, Datatype.conv_zero]
    rfl
  · obtain ⟨t', ht'⟩ : ∃ t', f.inferReturnType (typeList args) = .ok t' := by
      cases h : f.inferReturnType (typeList args) with
      | ok t' => exact ⟨t', rfl⟩
      | error e =>
        rw [h] at ht
        cases ht
    refine ⟨some (call f (rs.map Prod.snd)), ?_, ?_⟩
    · rw [if_neg hinc, htypes, ht']
      rfl
    · refine read_some (by rw [type, type, htypes]) ?_
      rw [eval, htypes, hevals]
      exact Option.bind_eq_some_iff.mpr ⟨t, ht, Option.bind_eq_some_iff.mpr ⟨ps, rfl,
        Option.bind_eq_some_iff.mpr ⟨w, hw, rfl⟩⟩⟩

/-- The zero of the type of a vanished argument exists where the arguments are rewritten. -/
theorem exists_literal_of_zeroList : ∀ {args : List Expr} {rs : List (Option Expr × Expr)}, zeroList zeroed args = .ok rs →
    ∀ a ∈ args, a.left zeroed = none → ∃ l, Literal.zero a.type = .ok l
  | [], _, _, a, ha, _ => by cases ha
  | b :: bs, rs, hrs, a, ha, hleft => by
    obtain ⟨r, hr, h⟩ := ok_of_bind hrs
    obtain ⟨b', hb', h⟩ := ok_of_bind h
    obtain ⟨rs', hrs', -⟩ := ok_of_bind h
    rcases List.mem_cons.mp ha with rfl | ha
    · rw [left_of_zero hr, Option.map_eq_none_iff] at hleft
      subst hleft
      obtain ⟨l, hl, -⟩ := ok_of_bind hb'
      exact ⟨l, hl⟩
    · exact exists_literal_of_zeroList hrs' a ha hleft

/-- A sound call of two arguments vanishes, and is zero, where a declared set of them vanishes. -/
theorem eq_zero_of_vanished {f : Intrinsic} {sets : List (List ℕ)} (h : Sound zeroed (call f [a, b]))
    (hv : (call f [a, b]).eval (env.zeroed zeroed) coords = some v)
    (hsets : f.zeroPreservingArgs ((leftList zeroed [a, b]).map Prod.snd) = .ok sets)
    (hinc : includesAny sets (zeroArgs [a.left zeroed, b.left zeroed]) = true) : v = 0 := by
  obtain ⟨r, hr, hleft⟩ := h.left hv
  obtain ⟨rs, hrs, hr⟩ := ok_of_bind hr
  have hnone : r.map arg = none := by
    rw [← left_of_visitCall hr, ← leftList_of_zeroList hrs, leftCall, hsets]
    exact if_pos hinc
  obtain ⟨-, hv0⟩ | ⟨e', rfl, -⟩ := hleft
  · exact hv0
  · cases hnone

theorem args_of_eval {f : Intrinsic} (hv : (call f [a, b]).eval env coords = some v) :
    ∃ x y, a.eval env coords = some x ∧ b.eval env coords = some y := by
  obtain ⟨t, -, hv⟩ := Option.bind_eq_some_iff.mp hv
  obtain ⟨ps, hps, -⟩ := Option.bind_eq_some_iff.mp hv
  obtain ⟨x, hx, hps⟩ := Option.bind_eq_some_iff.mp hps
  obtain ⟨ps', hps', -⟩ := Option.bind_eq_some_iff.mp hps
  obtain ⟨y, hy, -⟩ := Option.bind_eq_some_iff.mp hps'
  exact ⟨x, y, hx, hy⟩

/-- The value of a call of two arguments. -/
theorem apply_of_eval {f : Intrinsic} {y : ℂ} (ha : a.eval env coords = some x) (hb : b.eval env coords = some y)
    (hv : (call f [a, b]).eval env coords = some v) :
    ∃ t w, f.inferReturnType [a.type, b.type] = .ok t ∧ f.binary a.type b.type x y = some w ∧ v = t.conv w := by
  obtain ⟨t, ht, hv⟩ := Option.bind_eq_some_iff.mp hv
  obtain ⟨ps, hps, hv⟩ := Option.bind_eq_some_iff.mp hv
  obtain ⟨w, hw, hv⟩ := Option.bind_eq_some_iff.mp hv
  cases hv
  rw [evalList, evalList, evalList, ha, hb] at hps
  cases hps
  refine ⟨t, w, ?_, hw, rfl⟩
  rw [typeList, typeList, typeList] at ht
  cases hinfer : f.inferReturnType [a.type, b.type] with
  | ok t' =>
    rw [hinfer] at ht
    cases ht
    rfl
  | error e =>
    rw [hinfer] at ht
    cases ht

/-- A power of a vanished base with exponent zero is one, not zero. -/
theorem power_of_sound (h : Sound zeroed (call .pow [a, b]))
    (hv : (call .pow [a, b]).eval (env.zeroed zeroed) coords = some v) (hleft : a.left zeroed = none) :
    b.eval (env.zeroed zeroed) coords ≠ some 0 := by
  intro hb
  have hv0 : v = 0 := eq_zero_of_vanished h hv rfl (includesAny_singleton (by rw [hleft]; rfl))
  obtain ⟨x, -, hx, -⟩ := args_of_eval hv
  obtain ⟨t, w, ht, hw, hvw⟩ := apply_of_eval hx hb hv
  have hta : t = a.type := by
    rw [Intrinsic.inferReturnType, Intrinsic.sameType] at ht
    split at ht
    · exact (Except.ok.inj ht).symm
    · cases ht
  have hw1 : w = 1 := Intrinsic.pow_zero_eq_one (p := ⟨a.type, none⟩) (q := ⟨b.type, none⟩) hw
  have hconv : a.type.conv 1 = 1 := Intrinsic.conv_one_of_pow (p := ⟨a.type, none⟩) (q := ⟨b.type, none⟩) hw
  rw [hvw, hta, hw1, hconv] at hv0
  exact one_ne_zero hv0

/-- Nothing negative is less than a vanished unsigned number, in a comparison that is sound. -/
theorem order_of_sound {s : IR.Datatype} {w : IR.Width} {sets : List (List ℕ)} (hb : Sound zeroed b)
    (h : Sound zeroed (call .lt [a, b]))
    (hv : (call .lt [a, b]).eval (env.zeroed zeroed) coords = some v)
    (hsets : Intrinsic.zeroPreservingArgs .lt ((leftList zeroed [a, b]).map Prod.snd) = .ok sets)
    (hs : a.type = .real s) (hw : b.type = .real (.uint w)) (hleft : b.left zeroed = none)
    (hx : a.eval (env.zeroed zeroed) coords = some x) : 0 ≤ convReal (common s (.uint w)) x.re := by
  have harg : (b.left zeroed).getD (zeroArg b.type) = zeroArg (.real (.uint w)) := by rw [hleft, hw, Option.getD_none]
  have hsets' : sets = [[1]] := by
    simp only [leftList, List.map_cons, List.map_nil, harg] at hsets
    cases w <;> cases hsets <;> rfl
  have hv0 : v = 0 := eq_zero_of_vanished h hv hsets (hsets' ▸ includesAny_singleton (by rw [hleft]; rfl))
  obtain ⟨-, y, -, hy⟩ := args_of_eval hv
  have hy0 : y = 0 := by
    obtain ⟨r, hr, ⟨-, hy0⟩ | ⟨b', rfl, -⟩⟩ := hb.left hy
    · exact hy0
    · cases hleft.symm.trans (left_of_zero hr)
  obtain ⟨t, u, ht, hu, hvu⟩ := apply_of_eval hx (hy0 ▸ hy) hv
  cases ht
  rw [hs, hw] at hu
  simp only [Intrinsic.binary, Intrinsic.compare, Complex.zero_re, convReal_zero] at hu
  by_contra hneg
  rw [if_pos (not_le.mp hneg), Option.some.injEq] at hu
  rw [hvu, ← hu] at hv0
  simp [Datatype.conv] at hv0

theorem callFits_of_sound {f : Intrinsic} {args : List Expr} (hargs : ∀ a ∈ args, Sound zeroed a)
    (h : Sound zeroed (call f args))
    (hv : (call f args).eval (env.zeroed zeroed) coords = some v) : CallFits zeroed env coords f args := by
  obtain ⟨r, hr, -⟩ := h.left hv
  obtain ⟨rs, hrs, hr⟩ := ok_of_bind hr
  obtain ⟨sets, hsets, -⟩ := ok_of_bind hr
  rw [← map_snd_leftList hrs] at hsets
  refine ⟨exists_literal_of_zeroList hrs, ⟨sets, hsets⟩, ?_, ?_⟩
  · rintro a b rfl rfl hleft
    exact power_of_sound h hv hleft
  · rintro a b s w x rfl rfl hs hw hleft hx
    exact order_of_sound (hargs b (by simp)) h hv hsets hs hw hleft hx

/-! ### Nodes -/

/-- Over sound operands a node is sound exactly where it fits. -/
theorem sound_iff_fits (hops : ∀ c ∈ e.operands, Sound zeroed c) : Sound zeroed e ↔ Fits zeroed e := by
  cases e with
  | access a =>
    refine ⟨fun _ _ _ _ _ => trivial, fun _ env coords v hv => ?_⟩
    by_cases ha : a.node ∈ zeroed
    · refine ⟨none, by simp [zero, ha], ?_⟩
      cases hv
      simp [Env.zeroed, ha, read]
    · refine ⟨some (access a), by simp [zero, ha], read_some rfl ?_⟩
      cases hv
      simp [eval, Env.zeroed, ha]
  | literal l => exact ⟨fun _ _ _ _ _ => trivial, fun _ env coords v hv => ⟨_, rfl, read_some rfl hv⟩⟩
  | neg a => exact ⟨fun _ _ _ _ _ => trivial, fun _ => sound_neg (hops a (by simp [operands]))⟩
  | sqrt a => exact ⟨fun _ _ _ _ _ => trivial, fun _ => sound_sqrt (hops a (by simp [operands]))⟩
  | cast a t => exact ⟨fun _ _ _ _ _ => trivial, fun _ => sound_cast (hops a (by simp [operands]))⟩
  | reduction op var a => exact ⟨fun _ _ _ _ _ => trivial, fun _ => sound_reduction (hops a (by simp [operands]))⟩
  | binary op a b =>
    have ha := hops a (by simp [operands])
    have hb := hops b (by simp [operands])
    cases op with
    | add =>
      exact ⟨fun h _ _ _ hv => keepsType_of_sound (Or.inl rfl) ha hb h hv,
        fun h => sound_disjunction (Or.inl rfl) ha hb fun ⟨env, coords, v, hv⟩ => h env coords v hv⟩
    | sub =>
      exact ⟨fun h _ _ _ hv => keepsType_of_sound (Or.inr rfl) ha hb h hv,
        fun h => sound_disjunction (Or.inr rfl) ha hb fun ⟨env, coords, v, hv⟩ => h env coords v hv⟩
    | mul => exact ⟨fun _ _ _ _ _ => trivial, fun _ => sound_conjunction (Or.inl rfl) ha hb⟩
    | div => exact ⟨fun _ _ _ _ _ => trivial, fun _ => sound_conjunction (Or.inr rfl) ha hb⟩
  | call f args => exact ⟨fun h _ _ _ hv => callFits_of_sound hops h hv, fun h => sound_call hops h⟩

theorem sizeOf_lt_of_mem_operands {c : Expr} (h : c ∈ e.operands) : sizeOf c < sizeOf e := by
  cases e with
  | access a | literal l => cases h
  | neg a | sqrt a | reduction op var a =>
    cases List.mem_singleton.mp h
    simp
  | cast a t =>
    cases List.mem_singleton.mp h
    simp only [cast.sizeOf_spec]
    omega
  | binary op a b =>
    rcases List.mem_cons.mp h with rfl | h
    · simp
      omega
    · cases List.mem_singleton.mp h
      simp
  | call f args =>
    have hlt : sizeOf c < sizeOf args := List.sizeOf_lt_of_mem h
    simp only [call.sizeOf_spec]
    omega

theorem Subexpr.trans {s c : Expr} (h : Subexpr s c) (h' : Subexpr c e) : Subexpr s e := by
  induction h' with
  | refl => exact h
  | operand hc _ ih => exact .operand hc ih

theorem sound_of_fits (e : Expr) (h : ∀ s, Subexpr s e → Fits zeroed s) : Sound zeroed e :=
  (sound_iff_fits fun c hc => sound_of_fits c fun s hs => h s (.operand hc hs)).mpr (h e .refl)
termination_by sizeOf e
decreasing_by exact sizeOf_lt_of_mem_operands hc

/-- Zeroing is sound for an expression and all its sub-expressions exactly where they fit. -/
theorem zero_sound_iff (zeroed : List ℕ) (e : Expr) :
    (∀ s, Subexpr s e → Sound zeroed s) ↔ ∀ s, Subexpr s e → Fits zeroed s := by
  constructor
  · intro h s hs
    exact (sound_iff_fits fun c hc => h c ((Subexpr.operand hc .refl).trans hs)).mp (h s hs)
  · intro h s hs
    exact sound_of_fits s fun s' hs' => h s' (hs'.trans hs)

/-! ### A power of zero -/

/-- The power of an access with an access as its exponent. -/
def zeroPower : Expr := call .pow [access ⟨0, .real .float64⟩, access ⟨1, .real .float64⟩]

/-- Where the base is zeroed nothing is left of the power, but at zero it is one. -/
theorem zeroPower_not_sound : ¬Sound [0] zeroPower := by
  intro h
  obtain ⟨r, hr, hread⟩ := h ⟨fun _ => 1, fun _ => one_pos, fun _ _ => 0⟩ (fun _ => 0) 1 (by
    simp [zeroPower, eval, evalList, typeList, type, Env.zeroed, Intrinsic.inferReturnType, Intrinsic.sameType,
      Intrinsic.apply, Intrinsic.binary, Intrinsic.paired, Intrinsic.power, Datatype.conv, convReal, IR.Datatype.isFloat,
      Except.toOption])
  cases hr
  simp [read] at hread

end Expr
end IndexNotation
end Taco
