import Taco.IndexNotation.Intrinsic
import Taco.Library.Fuel

/-! The declared sets of arguments make the result zero, but for a power and for an order. -/

namespace Taco
namespace IndexNotation

/-! ### Arguments -/

/-- An argument with a value: the value is one of its type, and of the literal that it is. -/
structure Arg.Has (p : Arg) (x : ℂ) : Prop where
  conv : p.type.conv x = x
  literal : ∀ l, p.literal = some l → l.type = p.type ∧ l.val = x

namespace Arg

/-- A test that succeeds is one of the value, which then is real and of the type in question. -/
theorem Has.of_test {p : Arg} {x : ℂ} (hp : p.Has x) {t : IR.Datatype} {q : ℚ → Bool} {b : Bool}
    (h : p.test t q = .ok b) : (∃ v : ℚ, p.type = .real t ∧ x = ((v : ℝ) : ℂ) ∧ q v = b) ∨ p.literal = none ∧ b = false := by
  rw [test] at h
  split at h
  · next hnone =>
    cases h
    exact Or.inr ⟨hnone, rfl⟩
  · next l hl =>
    split at h
    · next ht =>
      cases h
      obtain ⟨htype, hval⟩ := hp.literal _ hl
      exact Or.inl ⟨l.val, by rw [← htype, ← ht]; rfl, hval.symm, rfl⟩
    · cases h
  · cases h

theorem Has.of_equalsZero {p : Arg} {x : ℂ} (hp : p.Has x) (h : p.equalsZero = .ok true) : x = 0 := by
  obtain ⟨z, -, h⟩ := ok_of_bind h
  obtain ⟨l, hl, hzero⟩ := (Option.any_eq_true _ _).mp (Except.ok.inj h)
  rw [← (hp.literal l hl).2]
  exact l.isZero_iff.mp hzero

end Arg

namespace Intrinsic

/-! ### Tables -/

/-- The outcome of two tests in a row. -/
theorem tests_cases {x y : Except Failure Bool} {A B C sets : List (List ℕ)}
    (h : (do if ← x then return A else if ← y then return B else return C) = Except.ok sets) :
    (x = .ok true ∧ sets = A) ∨ (x = .ok false ∧ y = .ok true ∧ sets = B) ∨ sets = C := by
  obtain ⟨b, hb, h⟩ := ok_of_bind h
  cases b with
  | true =>
    cases h
    exact Or.inl ⟨hb, rfl⟩
  | false =>
    obtain ⟨c, hc, h⟩ := ok_of_bind h
    cases c with
    | true =>
      cases h
      exact Or.inr (Or.inl ⟨hb, hc, rfl⟩)
    | false =>
      cases h
      exact Or.inr (Or.inr rfl)

theorem test_cases {x : Except Failure Bool} {A B sets : List (List ℕ)}
    (h : (do if ← x then return A else return B) = Except.ok sets) : (x = .ok true ∧ sets = A) ∨ sets = B := by
  obtain ⟨b, hb, h⟩ := ok_of_bind h
  cases b with
  | true =>
    cases h
    exact Or.inl ⟨hb, rfl⟩
  | false =>
    cases h
    exact Or.inr rfl

variable {p q : Arg} {x y v : ℂ} {sets : List (List ℕ)}

/-- The functions that declare a set when they are called with one argument. -/
def declaring : List Intrinsic :=
  [mod, pow, abs, square, cube, sqrt, cbrt, sin, tan, asin, atan, sinh, tanh, asinh, atanh]

theorem mem_declaring {f : Intrinsic} {set : List ℕ} (hsets : f.zeroPreservingArgs [p] = .ok sets) (hset : set ∈ sets) :
    f ∈ declaring := by
  cases f <;> cases hsets <;> first
    | decide
    | cases hset

theorem onFloat_zero {f : Intrinsic} {v : ℝ} (hf : f ∈ declaring) (hv : f.onFloat 0 = some v) : v = 0 := by
  cases f <;> first
    | exact absurd hf (by decide)
    | (simp [onFloat] at hv; exact hv.symm)
    | simp [onFloat] at hv

theorem onComplex_zero {f : Intrinsic} (hf : f ∈ declaring) (hv : f.onComplex 0 = some v) : v = 0 := by
  cases f <;> first
    | exact absurd hf (by decide)
    | (simp [onComplex] at hv; exact hv.symm)
    | (simp [onComplex, Complex.arctan] at hv; exact hv.symm)
    | simp [onComplex] at hv

/-- A function of one argument that declares a set has the value zero at zero. -/
theorem unary_eq_zero {f : Intrinsic} {set : List ℕ} (hsets : f.zeroPreservingArgs [p] = .ok sets) (hset : set ∈ sets)
    (hx : 0 ∈ set → x = 0) (hv : f.unary p.type x = some v) : v = 0 := by
  have hf := mem_declaring hsets hset
  have hmem : 0 ∈ set := by
    by_cases hmod : f = .mod
    · subst hmod
      rcases p with ⟨t | _ | _, l⟩ <;> simp [unary, onFloat, onComplex] at hv
    · cases f <;> cases hsets <;> first
        | exact absurd rfl hmod
        | exact List.mem_singleton.mp hset ▸ List.mem_singleton_self 0
        | cases hset
  rw [hx hmem] at hv
  by_cases hf' : f ∈ [abs, square, cube]
  · rcases p with ⟨t | _ | _, l⟩ <;> fin_cases hf' <;> simp [unary] at hv <;> first | exact hv.symm | exact hv.2.symm
  · cases ht : p.type with
    | real t =>
      have hunary : f.unary (.real t) 0 = if t.isFloat then (f.onFloat (0 : ℂ).re).map Complex.ofReal else none := by
        cases f <;> first | rfl | exact absurd (by decide) hf' | exact absurd hf (by decide)
      rw [ht, hunary] at hv
      split at hv
      · obtain ⟨w, hw, rfl⟩ := Option.map_eq_some_iff.mp hv
        rw [onFloat_zero hf hw, Complex.ofReal_zero]
      · cases hv
    | complex64 | complex128 =>
      have hunary : f.unary p.type 0 = f.onComplex 0 := by
        rw [ht]
        cases f <;> first | rfl | exact absurd (by decide) hf' | exact absurd hf (by decide)
      exact onComplex_zero hf (hunary.symm.trans hv)

/-! ### Functions of two arguments -/

theorem binary_eq_paired {f : Intrinsic} (hf : f ∈ [mod, atan2, max, min, heaviside]) (s t : Datatype) :
    f.binary s t x y =
      match s, t with
      | .real s, .real t => if s = t then (f.paired s x.re y.re).map Complex.ofReal else none
      | _, _ => none := by
  fin_cases hf <;> cases s <;> cases t <;> rfl

/-- The value of a function of two arguments of one real type. -/
theorem paired_of_binary {f : Intrinsic} (hf : f ∈ [mod, atan2, max, min, heaviside])
    (hv : f.binary p.type q.type x y = some v) :
    ∃ t w, p.type = .real t ∧ q.type = .real t ∧ f.paired t x.re y.re = some w ∧ v = (w : ℝ) := by
  rw [binary_eq_paired hf] at hv
  split at hv
  · next s t hs ht =>
    split_ifs at hv with hst
    obtain ⟨w, hw, rfl⟩ := Option.map_eq_some_iff.mp hv
    exact ⟨s, w, hs, hst ▸ ht, hw, rfl⟩
  · cases hv

theorem mod_eq_zero {set : List ℕ} (hset : set ∈ [[0], [1]]) (hx : 0 ∈ set → x = 0) (hy : 1 ∈ set → y = 0)
    (hv : mod.binary p.type q.type x y = some v) : v = 0 := by
  obtain ⟨t, w, -, -, hw, rfl⟩ := paired_of_binary (by decide) hv
  simp only [paired] at hw
  split at hw
  · cases hw
  · next hcond =>
    cases hw
    fin_cases hset
    · simp [hx (by decide)]
    · exact absurd (by simp [hy (by decide)]) hcond

theorem atan2_eq_zero (hq : q.Has y) (hsets : atan2Args q = .ok sets) {set : List ℕ} (hset : set ∈ sets)
    (hx : 0 ∈ set → x = 0) (hy : 1 ∈ set → y = 0) (hv : atan2.binary p.type q.type x y = some v) : v = 0 := by
  obtain ⟨t, w, -, hqt, hw, rfl⟩ := paired_of_binary (by decide) hv
  simp only [paired] at hw
  split at hw
  · cases hw
    have hcases : (q.test t (0 < ·) = .ok true ∧ sets = [[0]]) ∨ sets = [[0, 1]] := by
      rw [atan2Args, hqt] at hsets
      cases t <;> first | exact test_cases hsets | cases hsets
    rcases hcases with ⟨htest, rfl⟩ | rfl
    · obtain ⟨r, -, rfl, hr⟩ | ⟨-, h⟩ := hq.of_test htest
      · have hpos : (0 : ℝ) ≤ r := by exact_mod_cast (of_decide_eq_true hr).le
        rw [hx (List.mem_singleton.mp hset ▸ by decide)]
        exact congrArg Complex.ofReal (Complex.arg_ofReal_of_nonneg hpos)
      · cases h
    · rw [hx (List.mem_singleton.mp hset ▸ by decide), hy (List.mem_singleton.mp hset ▸ by decide)]
      exact congrArg Complex.ofReal Complex.arg_zero
  · cases hw

/-- Both arguments of `neq`, `max` and `min` are zero where a declared set is. -/
theorem extreme_zero (hp : p.Has x) (hq : q.Has y) (hsets : extremeArgs p q = .ok sets) {set : List ℕ} (hset : set ∈ sets)
    (hx : 0 ∈ set → x = 0) (hy : 1 ∈ set → y = 0) : x = 0 ∧ y = 0 := by
  rcases tests_cases hsets with ⟨hzero, rfl⟩ | ⟨-, hzero, rfl⟩ | rfl <;> cases List.mem_singleton.mp hset
  · exact ⟨hp.of_equalsZero hzero, hy (by decide)⟩
  · exact ⟨hx (by decide), hq.of_equalsZero hzero⟩
  · exact ⟨hx (by decide), hy (by decide)⟩

theorem heaviside_eq_zero (hq : q.Has y) (hsets : heavisideArgs q = .ok sets) {set : List ℕ} (hset : set ∈ sets)
    (hx : 0 ∈ set → x = 0) (hv : heaviside.binary p.type q.type x y = some v) : v = 0 := by
  obtain ⟨t, w, -, -, hw, rfl⟩ := paired_of_binary (by decide) hv
  rcases test_cases hsets with ⟨hzero, rfl⟩ | rfl
  · cases List.mem_singleton.mp hset
    simp only [paired, hx (by decide), hq.of_equalsZero hzero, Complex.zero_re, if_true, Option.some.injEq] at hw
    rw [← hw, Complex.ofReal_zero]
  · cases hset

/-! ### Comparisons -/

theorem compare_of_binary {f : Intrinsic} (hf : f ∈ [gt, lt, gte, lte]) (hv : f.binary p.type q.type x y = some v) :
    ∃ s t, p.type = .real s ∧ q.type = .real t ∧ f.compare s t x.re y.re = some v := by
  rcases p with ⟨s | _ | _, l⟩ <;> rcases q with ⟨t | _ | _, m⟩ <;> fin_cases hf <;>
    first | exact ⟨s, t, rfl, rfl, hv⟩ | simp [binary] at hv

variable {s t : IR.Datatype}

/-- A declared set of `gt`. -/
theorem gtArgs_cases (ht : q.type = .real t) (h : gtArgs p q = .ok sets) :
    ((∃ w, t = .uint w) ∧ sets = [[0]]) ∨ (q.test t (0 ≤ ·) = .ok true ∧ sets = [[0]]) ∨
      (q.test t (0 ≤ ·) = .ok false ∧ p.test t (· ≤ 0) = .ok true ∧ sets = [[1]]) ∨ sets = [[0, 1]] := by
  rw [gtArgs, ht] at h
  cases t with
  | bool => cases h
  | uint w => cases w <;> cases h <;> exact Or.inl ⟨⟨_, rfl⟩, rfl⟩
  | int w => cases w <;> first | exact Or.inr (tests_cases h) | cases h
  | float32 | float64 => exact Or.inr (tests_cases h)

/-- A declared set of `lt`. -/
theorem ltArgs_cases (ht : q.type = .real t) (h : ltArgs p q = .ok sets) :
    ((∃ w, t = .uint w) ∧ sets = [[1]]) ∨ (p.test t (0 ≤ ·) = .ok true ∧ sets = [[1]]) ∨
      (p.test t (0 ≤ ·) = .ok false ∧ q.test t (· ≤ 0) = .ok true ∧ sets = [[0]]) ∨ sets = [[0, 1]] := by
  rw [ltArgs, ht] at h
  cases t with
  | bool => cases h
  | uint w => cases w <;> cases h <;> exact Or.inl ⟨⟨_, rfl⟩, rfl⟩
  | int w => cases w <;> first | exact Or.inr (tests_cases h) | cases h
  | float32 | float64 => exact Or.inr (tests_cases h)

/-- A declared set of `gte`. -/
theorem gteArgs_cases (ht : q.type = .real t) (h : gteArgs p q = .ok sets) :
    (q.test t (0 < ·) = .ok true ∧ sets = [[0]]) ∨
      (q.test t (0 < ·) = .ok false ∧ p.test t (· < 0) = .ok true ∧ sets = [[1]]) ∨ sets = [] := by
  rw [gteArgs, ht] at h
  cases t with
  | bool => cases h
  | uint w => cases w <;> first | exact (test_cases h).imp_right Or.inr | cases h
  | int w => cases w <;> first | exact tests_cases h | cases h
  | float32 | float64 => exact tests_cases h

/-- A declared set of `lte`. -/
theorem lteArgs_cases (ht : q.type = .real t) (h : lteArgs p q = .ok sets) :
    (p.test t (0 < ·) = .ok true ∧ sets = [[1]]) ∨
      (p.test t (0 < ·) = .ok false ∧ q.test t (· < 0) = .ok true ∧ sets = [[0]]) ∨ sets = [] := by
  rw [lteArgs, ht] at h
  cases t with
  | bool => cases h
  | uint w => cases w <;> first | exact (test_cases h).imp_right Or.inr | cases h
  | int w => cases w <;> first | exact tests_cases h | cases h
  | float32 | float64 => exact tests_cases h

/-- The value of an argument that is not negative is kept by the common type. -/
theorem common_of_nonneg (hq : q.Has y) (ht : q.type = .real t) (hy : 0 ≤ y.re) (s : IR.Datatype) :
    convReal (common s t) y.re = y.re :=
  convReal_common_of_nonneg s hy (Datatype.convReal_of_conv (ht ▸ hq.conv))

/-- The value of an argument is kept by the common type of two arguments of its type. -/
theorem common_of_self (hp : p.Has x) (hs : p.type = .real s) : convReal (common s s) x.re = x.re :=
  convReal_common_self (Datatype.convReal_of_conv (hs ▸ hp.conv))

/-- A test that succeeds of an argument of type `s` compares a value of that type. -/
theorem value_of_test (hp : p.Has x) (hs : p.type = .real s) {r : ℚ → Bool} (h : p.test t r = .ok true) :
    s = t ∧ ∃ c : ℚ, x.re = c ∧ r c = true := by
  obtain ⟨c, htype, rfl, hr⟩ | ⟨-, h⟩ := hp.of_test h
  · exact ⟨Datatype.real.inj (hs.symm.trans htype), c, Complex.ofReal_re _, hr⟩
  · cases h

theorem gt_eq_zero (hp : p.Has x) (hq : q.Has y) (hsets : gtArgs p q = .ok sets) {set : List ℕ} (hset : set ∈ sets)
    (hx : 0 ∈ set → x = 0) (hy : 1 ∈ set → y = 0) (hv : gt.binary p.type q.type x y = some v) : v = 0 := by
  obtain ⟨s, t, hs, ht, hv⟩ := compare_of_binary (by decide) hv
  suffices hle : convReal (common s t) x.re ≤ convReal (common s t) y.re by
    simp only [compare, gt_iff_lt, not_lt.mpr hle, if_false, Option.some.injEq] at hv
    exact hv.symm
  rcases gtArgs_cases ht hsets with ⟨⟨w, rfl⟩, rfl⟩ | ⟨htest, rfl⟩ | ⟨-, htest, rfl⟩ | rfl <;>
    cases List.mem_singleton.mp hset
  · have hnonneg : 0 ≤ y.re := nonneg_of_uint (Datatype.convReal_of_conv (ht ▸ hq.conv))
    rw [hx (by decide), Complex.zero_re, convReal_zero, common_of_nonneg hq ht hnonneg]
    exact hnonneg
  · obtain ⟨-, c, hc, hr⟩ := value_of_test hq ht htest
    have hnonneg : 0 ≤ y.re := by
      rw [hc]
      exact_mod_cast of_decide_eq_true hr
    rw [hx (by decide), Complex.zero_re, convReal_zero, common_of_nonneg hq ht hnonneg]
    exact hnonneg
  · obtain ⟨rfl, c, hc, hr⟩ := value_of_test hp hs htest
    rw [hy (by decide), Complex.zero_re, convReal_zero, common_of_self hp hs, hc]
    exact_mod_cast of_decide_eq_true hr
  · rw [hx (by decide), hy (by decide)]

/-- A vanished argument is the zero of its type, which passes the tests that zero passes. -/
theorem type_of_test (hp : p.Has x) (hs : p.type = .real s) (hlit : p.literal ≠ none) (hx : x = 0) {r : ℚ → Bool} {b : Bool}
    (h : p.test t r = .ok b) : s = t ∧ r 0 = b := by
  obtain ⟨c, htype, hc, hr⟩ | ⟨hnone, -⟩ := hp.of_test h
  · have hzero : c = 0 := by
      rw [hx] at hc
      exact_mod_cast hc.symm
    exact ⟨Datatype.real.inj (hs.symm.trans htype), hzero ▸ hr⟩
  · exact absurd hnone hlit

theorem lt_eq_zero (hp : p.Has x) (hsets : ltArgs p q = .ok sets) {set : List ℕ} (hset : set ∈ sets)
    (hx : 0 ∈ set → x = 0 ∧ p.literal ≠ none) (hy : 1 ∈ set → y = 0)
    (hnonneg : ∀ s w, p.type = .real s → q.type = .real (.uint w) → 1 ∈ set → 0 ≤ convReal (common s (.uint w)) x.re)
    (hv : lt.binary p.type q.type x y = some v) : v = 0 := by
  obtain ⟨s, t, hs, ht, hv⟩ := compare_of_binary (by decide) hv
  suffices hle : convReal (common s t) y.re ≤ convReal (common s t) x.re by
    simp only [compare, not_lt.mpr hle, if_false, Option.some.injEq] at hv
    exact hv.symm
  rcases ltArgs_cases ht hsets with ⟨⟨w, rfl⟩, rfl⟩ | ⟨htest, rfl⟩ | ⟨htest, -, rfl⟩ | rfl <;>
    cases List.mem_singleton.mp hset
  · have hle := hnonneg s w hs ht (by decide)
    rwa [hy (by decide), Complex.zero_re, convReal_zero]
  · obtain ⟨rfl, c, hc, hr⟩ := value_of_test hp hs htest
    rw [hy (by decide), Complex.zero_re, convReal_zero, common_of_self hp hs, hc]
    exact_mod_cast of_decide_eq_true hr
  · obtain ⟨hzero, hlit⟩ := hx (by decide)
    exact absurd (type_of_test hp hs hlit hzero htest).2 (by decide)
  · rw [(hx (by decide)).1, hy (by decide)]

theorem gte_eq_zero (hp : p.Has x) (hq : q.Has y) (hsets : gteArgs p q = .ok sets) {set : List ℕ} (hset : set ∈ sets)
    (hx : 0 ∈ set → x = 0) (hy : 1 ∈ set → y = 0) (hv : gte.binary p.type q.type x y = some v) : v = 0 := by
  obtain ⟨s, t, hs, ht, hv⟩ := compare_of_binary (by decide) hv
  suffices hlt : convReal (common s t) x.re < convReal (common s t) y.re by
    simp only [compare, ge_iff_le, not_le.mpr hlt, if_false, Option.some.injEq] at hv
    exact hv.symm
  rcases gteArgs_cases ht hsets with ⟨htest, rfl⟩ | ⟨-, htest, rfl⟩ | rfl
  · cases List.mem_singleton.mp hset
    obtain ⟨-, c, hc, hr⟩ := value_of_test hq ht htest
    have hpos : 0 < y.re := by
      rw [hc]
      exact_mod_cast of_decide_eq_true hr
    rwa [hx (by decide), Complex.zero_re, convReal_zero, common_of_nonneg hq ht hpos.le]
  · cases List.mem_singleton.mp hset
    obtain ⟨rfl, c, hc, hr⟩ := value_of_test hp hs htest
    rw [hy (by decide), Complex.zero_re, convReal_zero, common_of_self hp hs, hc]
    exact_mod_cast of_decide_eq_true hr
  · cases hset

theorem lte_eq_zero (hp : p.Has x) (hq : q.Has y) (hsets : lteArgs p q = .ok sets) {set : List ℕ} (hset : set ∈ sets)
    (hx : 0 ∈ set → x = 0 ∧ p.literal ≠ none) (hy : 1 ∈ set → y = 0) (hv : lte.binary p.type q.type x y = some v) :
    v = 0 := by
  obtain ⟨s, t, hs, ht, hv⟩ := compare_of_binary (by decide) hv
  suffices hlt : convReal (common s t) y.re < convReal (common s t) x.re by
    simp only [compare, not_le.mpr hlt, if_false, Option.some.injEq] at hv
    exact hv.symm
  rcases lteArgs_cases ht hsets with ⟨htest, rfl⟩ | ⟨hfalse, htest, rfl⟩ | rfl
  · cases List.mem_singleton.mp hset
    obtain ⟨rfl, c, hc, hr⟩ := value_of_test hp hs htest
    rw [hy (by decide), Complex.zero_re, convReal_zero, common_of_self hp hs, hc]
    exact_mod_cast of_decide_eq_true hr
  · cases List.mem_singleton.mp hset
    obtain ⟨hzero, hlit⟩ := hx (by decide)
    obtain ⟨rfl, -⟩ := type_of_test hp hs hlit hzero hfalse
    obtain ⟨-, c, hc, hr⟩ := value_of_test hq ht htest
    rw [hzero, Complex.zero_re, convReal_zero, common_of_self hq ht, hc]
    exact_mod_cast of_decide_eq_true hr
  · cases hset

theorem neq_eq_zero (hxy : x = 0 ∧ y = 0) (hv : neq.binary p.type q.type x y = some v) : v = 0 := by
  obtain ⟨rfl, rfl⟩ := hxy
  rcases p with ⟨s | _ | _, l⟩ <;> rcases q with ⟨t | _ | _, m⟩ <;> simp [binary, compare] at hv <;> exact hv.symm

theorem max_eq_zero (hxy : x = 0 ∧ y = 0) (hv : max.binary p.type q.type x y = some v) : v = 0 := by
  obtain ⟨t, w, -, -, hw, rfl⟩ := paired_of_binary (by decide) hv
  simp only [paired, hxy, Complex.zero_re, max_self, Option.some.injEq] at hw
  rw [← hw, Complex.ofReal_zero]

theorem min_eq_zero (hxy : x = 0 ∧ y = 0) (hv : min.binary p.type q.type x y = some v) : v = 0 := by
  obtain ⟨t, w, -, -, hw, rfl⟩ := paired_of_binary (by decide) hv
  simp only [paired, hxy, Complex.zero_re, min_self, Option.some.injEq] at hw
  rw [← hw, Complex.ofReal_zero]

/-! ### Powers -/

theorem power_zero {y w : ℝ} (hy : y ≠ 0) (h : power 0 y = some w) : w = 0 := by
  rw [power] at h
  split at h
  · cases h
  · cases h
    exact Real.zero_rpow hy

/-- A power of zero is zero, unless the exponent is. -/
theorem pow_eq_zero (hq : q.Has y) (hy : y ≠ 0) (hv : pow.binary p.type q.type 0 y = some v) : v = 0 := by
  cases ht : q.type with
  | real t =>
    cases hs : p.type with
    | real s =>
      rw [hs, ht] at hv
      simp only [binary] at hv
      split at hv
      · obtain ⟨w, hw, rfl⟩ := Option.map_eq_some_iff.mp hv
        simp only [paired] at hw
        split at hw
        · have hreal : (y.re : ℂ) = y := Datatype.re_of_conv (ht ▸ hq.conv)
          have hre : y.re ≠ 0 := fun hre => hy (by rw [← hreal, hre, Complex.ofReal_zero])
          rw [power_zero hre hw, Complex.ofReal_zero]
        · cases hw
      · cases hv
    | complex64 | complex128 =>
      rw [hs, ht] at hv
      simp [binary] at hv
  | complex64 | complex128 =>
    cases hs : p.type <;> rw [hs, ht] at hv <;> simp [binary] at hv
    exact hv.2 ▸ Complex.zero_cpow hy

/-- A power with exponent zero is one, whatever its base. -/
theorem pow_zero_eq_one (hv : pow.binary p.type q.type x 0 = some v) : v = 1 := by
  cases hs : p.type <;> cases ht : q.type <;> rw [hs, ht] at hv <;> simp [binary, paired, power] at hv
  · exact hv.2.2.symm
  all_goals exact hv.symm

theorem conv_one_of_pow (hv : pow.binary p.type q.type x y = some v) : p.type.conv 1 = 1 := by
  cases hs : p.type with
  | real s =>
    cases ht : q.type with
    | real t =>
      rw [hs, ht] at hv
      simp only [binary] at hv
      split at hv
      · obtain ⟨w, hw, -⟩ := Option.map_eq_some_iff.mp hv
        simp only [paired] at hw
        split at hw
        · cases s <;> first | rfl | contradiction
        · cases hw
      · cases hv
    | complex64 | complex128 =>
      rw [hs, ht] at hv
      simp [binary] at hv
  | complex64 | complex128 => rfl

/-! ### Calls -/

/-- The call has the value zero where a declared set of its arguments is zero: unless it is a power with
    exponent zero, or compares something negative with an unsigned number. -/
theorem binary_eq_zero {f : Intrinsic} (hp : p.Has x) (hq : q.Has y) (hsets : f.zeroPreservingArgs [p, q] = .ok sets)
    {set : List ℕ} (hset : set ∈ sets) (hx : 0 ∈ set → x = 0 ∧ p.literal ≠ none) (hy : 1 ∈ set → y = 0)
    (hpow : f = .pow → 0 ∈ set → y ≠ 0)
    (hlt : f = .lt → ∀ s w, p.type = .real s → q.type = .real (.uint w) → 1 ∈ set →
      0 ≤ convReal (common s (.uint w)) x.re)
    (hv : f.binary p.type q.type x y = some v) : v = 0 := by
  have hx' : 0 ∈ set → x = 0 := fun h => (hx h).1
  cases f with
  | mod =>
    cases hsets
    exact mod_eq_zero hset hx' hy hv
  | pow =>
    cases hsets
    cases List.mem_singleton.mp hset
    rw [hx' (by decide)] at hv
    exact pow_eq_zero hq (hpow rfl (by decide)) hv
  | atan2 => exact atan2_eq_zero hq hsets hset hx' hy hv
  | gt => exact gt_eq_zero hp hq hsets hset hx' hy hv
  | lt => exact lt_eq_zero hp hsets hset hx hy (hlt rfl) hv
  | gte => exact gte_eq_zero hp hq hsets hset hx' hy hv
  | lte => exact lte_eq_zero hp hq hsets hset hx hy hv
  | neq => exact neq_eq_zero (extreme_zero hp hq hsets hset hx' hy) hv
  | max => exact max_eq_zero (extreme_zero hp hq hsets hset hx' hy) hv
  | min => exact min_eq_zero (extreme_zero hp hq hsets hset hx' hy) hv
  | heaviside => exact heaviside_eq_zero hq hsets hset hx' hv
  | exp | log | log10 | cos | acos | cosh | acosh | eq | not =>
    cases hsets
    cases hset
  | abs | square | cube | sqrt | cbrt | sin | tan | asin | atan | sinh | tanh | asinh | atanh =>
    rcases p with ⟨s | _ | _, l⟩ <;> rcases q with ⟨t | _ | _, m⟩ <;> simp [binary, paired] at hv

end Intrinsic
end IndexNotation
end Taco
