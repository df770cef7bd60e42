import Taco.IR.LoopUpdates

/-! When the closed form of a redundant loop leaves the memory that the loop leaves. -/

namespace Taco
namespace IR
open Expr Updates

/-! ### Trips -/

/-- The counter of `for (i = s; ...; i += c)` after `t` trips. -/
def counter (t : Datatype) (s c : Val) (n : ℕ) : Val := (fun i => t.conv (i + c))^[n] s

/-- `for (i = s; i < e; i += c)` makes exactly `T` trips. -/
structure TripCount (t : Datatype) (s e c : Val) (T : ℕ) : Prop where
  below : ∀ n < T, counter t s c n < e
  stop : ¬ counter t s c T < e

/-- `(e - s) / c` in the type of the counter. -/
def loopCount (t : Datatype) (s e c : Val) : Val := t.conv (t.quot (t.conv (e - s)) c)

/-- For every variable, the scaled increments after the last set add up to what the repeated increments do. -/
def Balanced (t : Datatype) (L : Val) (T : ℕ) (us : List Update) : Prop :=
  ∀ x : Var, x.type.conv (total (opsOn (scaled t L) x us)) =
    x.type.conv (weight (opsOn plain x us) T • total (opsOn plain x us))

theorem TripCount.unique {t : Datatype} {s e c : Val} {T T' : ℕ} (h : TripCount t s e c T)
    (h' : TripCount t s e c T') : T = T' := by
  rcases lt_trichotomy T T' with hlt | heq | hlt
  · exact absurd (h'.below T hlt) h.stop
  · exact heq
  · exact absurd (h.below T' hlt) h'.stop

theorem counter_succ (t : Datatype) (s c : Val) (n : ℕ) : counter t s c (n + 1) = t.conv (counter t s c n + c) :=
  Function.iterate_succ_apply' _ n s

theorem conv_counter {t : Datatype} {s : Val} (hs : t.conv s = s) (c : Val) (n : ℕ) :
    t.conv (counter t s c n) = counter t s c n := by
  cases n with
  | zero => exact hs
  | succ n => rw [counter_succ, Datatype.conv_conv]

/-- Below another value of its type, a value has a successor. -/
theorem conv_add_one {t : Datatype} (ht : t.isInteger = true) {a b : Val} (ha : t.conv a = a) (hb : t.conv b = b)
    (h : a < b) : t.conv (a + 1) = a + 1 := by
  obtain ⟨n, rfl⟩ : ∃ n : ℤ, a = n := ⟨_, Datatype.eq_trunc_of_conv ht ha⟩
  obtain ⟨k, rfl⟩ : ∃ k : ℤ, b = k := ⟨_, Datatype.eq_trunc_of_conv ht hb⟩
  rw [Datatype.conv_intCast ht, Int.cast_inj] at ha hb
  have hnk : n < k := by exact_mod_cast h
  rw [← Int.cast_one, ← Int.cast_add, Datatype.conv_intCast ht, Int.cast_inj]
  have hpos : 0 < 2 ^ t.getNumBits := by positivity
  have hcast : ((2 ^ t.getNumBits : ℕ) : ℤ) = 2 ^ t.getNumBits := by push_cast; rfl
  unfold Datatype.wrap Datatype.wrapBits at ha hb ⊢
  split_ifs at ha hb ⊢
  · have hlo := Int.le_bmod (x := n) hpos
    have hhi := Int.bmod_lt (x := k) hpos
    rw [ha] at hlo
    rw [hb] at hhi
    apply Int.bmod_eq_of_le_mul_two <;> omega
  · have hlo := Int.emod_nonneg n (b := 2 ^ t.getNumBits) (by positivity)
    have hhi := Int.emod_lt_of_pos k (b := 2 ^ t.getNumBits) (by positivity)
    exact Int.emod_eq_of_lt (by omega) (by omega)

/-- A counter that goes up by one ends at the bound. -/
theorem TripCount.counter_one {t : Datatype} (ht : t.isInteger = true) {s e : Val} (hs : t.conv s = s)
    (he : t.conv e = e) {T : ℕ} (hT : 0 < T) (h : TripCount t s e 1 T) : counter t s 1 T = e := by
  obtain ⟨n, rfl⟩ := Nat.exists_eq_succ_of_ne_zero hT.ne'
  have hlt := h.below n (Nat.lt_succ_self n)
  have hn := conv_counter hs 1 n
  have hsucc : counter t s 1 (n + 1) = counter t s 1 n + 1 := by
    rw [counter_succ, conv_add_one ht hn he hlt]
  refine le_antisymm ?_ (not_lt.mp h.stop)
  rw [Nat.succ_eq_add_one, hsucc]
  obtain ⟨p, hp⟩ : ∃ p : ℤ, counter t s 1 n = p := ⟨_, Datatype.eq_trunc_of_conv ht hn⟩
  obtain ⟨q, rfl⟩ : ∃ q : ℤ, e = q := ⟨_, Datatype.eq_trunc_of_conv ht he⟩
  rw [hp] at hlt ⊢
  exact_mod_cast Int.add_one_le_iff.mpr (by exact_mod_cast hlt)

theorem tripCount_zero {t : Datatype} {s e c : Val} : TripCount t s e c 0 ↔ ¬ s < e :=
  ⟨fun h => h.stop, fun h => ⟨fun _ hn => absurd hn (Nat.not_lt_zero _), h⟩⟩

theorem tripCount_succ {t : Datatype} {s e c : Val} {T : ℕ} :
    TripCount t s e c (T + 1) ↔ s < e ∧ TripCount t (t.conv (s + c)) e c T := by
  constructor
  · intro h
    exact ⟨h.below 0 (Nat.succ_pos T), fun n hn => h.below (n + 1) (Nat.succ_lt_succ hn), h.stop⟩
  · rintro ⟨hs, hbelow, hstop⟩
    refine ⟨fun n hn => ?_, hstop⟩
    cases n with
    | zero => exact hs
    | succ n => exact hbelow n (Nat.lt_of_succ_lt_succ hn)

/-! ### Loops -/

/-- One trip: the updates of the body, then the increment of the counter. -/
def tripStep (i : Var) (c : Val) (us : List Update) (σ : State) : State :=
  (runUpdates plain us σ).set i (σ.read i + c)

theorem read_tripStep {i : Var} {us : List Update} (c : Val) (σ : State) :
    (tripStep i c us σ).read i = i.type.conv (σ.read i + c) := read_set_self _ _ _

theorem eval_lt {t : Datatype} {m : Memory} {a b : Expr} {x y : Val} (ha : a.eval m = some x) (hb : b.eval m = some y)
    (hta : a.type = t) (htb : b.type = t) : (Expr.compare .lt a b).eval m = some (ofBool (x < y)) := by
  have hx := eval_conv ha
  have hy := eval_conv hb
  rw [hta] at hx
  rw [htb] at hy
  simp only [Expr.eval, ha, hb, hta, htb, Datatype.maxType_self, Option.bind_eq_bind, Option.bind_some, hx, hy,
    CompareOp.apply]

theorem ofBool_ne_zero_iff {p : Prop} [Decidable p] : ofBool p ≠ 0 ↔ p := by
  by_cases h : p <;> simp [ofBool, h]

/-- A counting loop, whose body makes a trip, runs as long as its counter is below the bound. -/
theorem runs_while_trips {t : Datatype} {i e : Var} (hi : i.type = t) (he : e.type = t) {c v : Val} {us : List Update}
    {body : Stmt} {H : State → Prop} (hbody : ∀ σ, H σ → Runs body σ (tripStep i c us σ) ∧ H (tripStep i c us σ))
    (hbound : ∀ σ, H σ → σ.read e = v) {σ σ' : State} (hσ : H σ) :
    Runs (.while (.compare .lt (var i) (var e)) body) σ σ' ↔
      ∃ T, TripCount t (σ.read i) v c T ∧ σ' = (tripStep i c us)^[T] σ := by
  have hcond : ∀ τ, H τ → (Expr.compare .lt (var i) (var e)).eval τ.mem = some (ofBool (τ.read i < v)) := by
    intro τ hτ
    rw [← hbound τ hτ]
    exact eval_lt rfl rfl hi he
  have hnext : ∀ (τ : State) (T : ℕ), TripCount t (τ.read i) v c (T + 1) ↔
      τ.read i < v ∧ TripCount t ((tripStep i c us τ).read i) v c T := by
    intro τ T
    rw [tripCount_succ, read_tripStep, hi]
  constructor
  · rintro ⟨fuel, h⟩
    induction fuel generalizing σ with
    | zero => cases h
    | succ fuel ih =>
      simp only [run_while, hcond σ hσ, Option.bind_some, ofBool_ne_zero_iff] at h
      split_ifs at h with hlt
      · obtain ⟨τ, hτ, h⟩ := Option.bind_eq_some_iff.mp h
        obtain ⟨hrun, hH⟩ := hbody σ hσ
        obtain rfl := Runs.det ⟨fuel, hτ⟩ hrun
        obtain ⟨T, hT, hσ'⟩ := ih hH h
        exact ⟨T + 1, (hnext σ T).mpr ⟨hlt, hT⟩, hσ'⟩
      · exact ⟨0, tripCount_zero.mpr hlt, (Option.some.inj h).symm⟩
  · rintro ⟨T, hT, rfl⟩
    induction T generalizing σ with
    | zero =>
      refine runs_while.mpr ⟨_, hcond σ hσ, ?_⟩
      rw [if_neg (ofBool_ne_zero_iff.not.mpr (tripCount_zero.mp hT))]
      rfl
    | succ T ih =>
      obtain ⟨hlt, hT⟩ := (hnext σ T).mp hT
      obtain ⟨hrun, hH⟩ := hbody σ hσ
      refine runs_while.mpr ⟨_, hcond σ hσ, ?_⟩
      rw [if_pos (ofBool_ne_zero_iff.mpr hlt)]
      exact ⟨_, hrun, ih hH hT⟩

/-- What trips do to the memory. -/
theorem iterate_tripStep {i : Var} {us : List Update} (hadds : Adds plain us) (hi : i ∉ us.map Update.target) (c : Val)
    (σ : State) (T : ℕ) :
    ((tripStep i c us)^[T] σ).mem.arrays = σ.mem.arrays ∧ ((tripStep i c us)^[T] σ).output = σ.output ∧
      ((tripStep i c us)^[T] σ).read i = counter i.type (σ.read i) c T ∧
      ∀ x, x ≠ i →
        (x ∉ us.map Update.target → ((tripStep i c us)^[T] σ).mem.vars x = σ.mem.vars x) ∧
        ((tripStep i c us)^[T] σ).read x = x.type.conv ((applyAll (opsOn plain x us))^[T] (σ.read x)) := by
  induction T with
  | zero => exact ⟨rfl, rfl, rfl, fun x _ => ⟨fun _ => rfl, (Datatype.conv_conv _ _).symm⟩⟩
  | succ T ih =>
    obtain ⟨harr, hout, hread, hvars⟩ := ih
    simp only [Function.iterate_succ_apply']
    generalize (tripStep i c us)^[T] σ = τ at harr hout hread hvars
    obtain ⟨harr', hout', hframe, -⟩ := runUpdates_frame plain us τ
    refine ⟨harr'.trans harr, hout'.trans hout, ?_, fun x hx => ⟨fun hmem => ?_, ?_⟩⟩
    · rw [read_tripStep, hread, counter_succ]
    · exact (Function.update_of_ne hx _ _).trans ((hframe x hmem).trans ((hvars x hx).1 hmem))
    · have hint : x.type.Integral ((applyAll (opsOn plain x us))^[T] (σ.read x)) := by
        clear hvars hread
        induction T with
        | zero => exact Datatype.integral_conv _ _
        | succ T ih =>
          rw [Function.iterate_succ_apply']
          exact applyAll_integral (hadds.fits x) ih
      rw [tripStep, read_set_ne hx, read_runUpdates hadds, (hvars x hx).2, conv_applyAll (hadds.fits x) hint]

theorem vars_iterate_tripStep {i : Var} (c : Val) {us : List Update} (σ : State) {T : ℕ} (hT : 0 < T) {x : Var}
    (hx : x ∈ i :: us.map Update.target) :
    ((tripStep i c us)^[T] σ).mem.vars x = ((tripStep i c us)^[T] σ).read x := by
  obtain ⟨n, rfl⟩ := Nat.exists_eq_succ_of_ne_zero hT.ne'
  rw [Function.iterate_succ_apply']
  generalize (tripStep i c us)^[n] σ = τ
  by_cases hxi : x = i
  · subst hxi
    rw [read_tripStep]
    exact Function.update_self _ _ _
  · have hmem := (List.mem_cons.mp hx).resolve_left hxi
    rw [tripStep, read_set_ne hxi, ← (runUpdates_frame plain us τ).2.2.2 x hmem]
    exact Function.update_of_ne hxi _ _

/-! ### Scaled copies -/

theorem lastSet_opsOn (g g' : Literal → Increment) (x : Var) (us : List Update) :
    lastSet (opsOn g x us) = lastSet (opsOn g' x us) := by
  induction us with
  | nil => rfl
  | cons u us ih =>
    cases u with
    | set y l =>
      by_cases hy : y = x
      · simp only [opsOn, Update.on, List.filterMap_cons, hy, if_true, lastSet] at ih ⊢
        rw [ih]
      · simpa only [opsOn, Update.on, List.filterMap_cons, hy, if_false] using ih
    | increment y k =>
      by_cases hy : y = x
      · simpa only [opsOn, Update.on, List.filterMap_cons, hy, if_true, lastSet] using ih
      · simpa only [opsOn, Update.on, List.filterMap_cons, hy, if_false] using ih

/-- On one variable, the scaled copy does what the trips do exactly if its scaled increments are balanced. -/
theorem read_scaled_iff {t : Datatype} (ht : t.isInteger = true) {us : List Update} (hus : Additive us) (L : Val)
    {T : ℕ} (hT : 0 < T) (σ : State) (x : Var) :
    (runUpdates (scaled t L) us σ).read x = x.type.conv ((applyAll (opsOn plain x us))^[T] (σ.read x)) ↔
      x.type.conv (total (opsOn (scaled t L) x us)) =
        x.type.conv (weight (opsOn plain x us) T • total (opsOn plain x us)) := by
  have hscaled := (hus.scaled ht L).fits x
  have hplain := hus.plain.fits x
  rw [read_runUpdates (hus.scaled ht L), applyAll_eq, iterate_applyAll _ _ hT, lastSet_opsOn _ plain]
  cases hb : x.type.isBool with
  | true => rw [hscaled.total.2 hb, hplain.total.2 hb, smul_zero, iff_true_intro rfl, iff_true_intro rfl]
  | false =>
    exact Datatype.conv_add_cancel hb (hplain.lastSet (Datatype.integral_conv _ _)) hscaled.total.1
      (hplain.total.1.nsmul _)

/-- The simplifier preserves the loop count, and its products with the increments. -/
def CountPreserved (count : Expr) (us : List Update) : Prop :=
  Preserves count ∧ ∀ count', simplify count = some count' →
    ∀ x k, .increment x k ∈ us → Preserves (binary .mul count' (literal k))

theorem CountPreserved.copyOK {count count' : Expr} {us : List Update} (h : CountPreserved count us)
    (hcount : simplify count = some count') {L : Val} {H : State → Prop}
    (hval : ∀ σ, H σ → count.eval σ.mem = some L) (hkeep : ∀ u ∈ us, ∀ g σ, H σ → H (u.run g σ)) :
    CopyOK count' (scaled count.type L) H us := by
  obtain ⟨⟨k₀, hk₀, htype, hpres⟩, hmul⟩ := h
  obtain rfl := Option.some.inj (hk₀.symm.trans hcount)
  refine ⟨fun x k hk e he => ?_, fun u hu σ hσ => hkeep u hu _ σ hσ⟩
  obtain ⟨e', he', htype', hpres'⟩ := hmul k₀ hk₀ x k hk
  obtain rfl := Option.some.inj (he'.symm.trans he)
  refine ⟨htype'.trans ?_, fun σ hσ => hpres' _ _ ?_⟩
  · rw [Expr.type, htype]
    rfl
  · rw [Expr.eval, hpres _ _ (hval σ hσ), htype]
    rfl

/-! ### Headers -/

/-- The header of a counting loop: one integer type, and a bound and an increment that the body leaves alone. -/
structure Header (t : Datatype) (i : Var) (start : Expr) (e : Var) (inc : Expr) (us : List Update) : Prop where
  integer : t.isInteger = true
  iterType : i.type = t
  startType : start.type = t
  boundType : e.type = t
  incType : inc.type.isInteger = true
  additive : Additive us
  ne : e ≠ i
  fixed : ¬ Subexpr (var i) inc
  unassigned : ∀ x ∈ us.map Update.target, x ≠ i ∧ x ≠ e ∧ ¬ Subexpr (var x) start ∧ ¬ Subexpr (var x) inc

/-- The states agree on the arrays and on the variables of `P`. -/
def Agree (P : Var → Prop) (σ τ : State) : Prop :=
  τ.mem.arrays = σ.mem.arrays ∧ ∀ v, P v → τ.mem.vars v = σ.mem.vars v

theorem Agree.set {P : Var → Prop} {σ τ : State} (h : Agree P σ τ) {x : Var} (hx : ¬ P x) (a : Val) :
    Agree P σ (τ.set x a) :=
  ⟨h.1, fun v hv => (Function.update_of_ne (fun hvx : v = x => hx (hvx ▸ hv)) _ _).trans (h.2 v hv)⟩

theorem Agree.update {P : Var → Prop} {σ τ : State} (h : Agree P σ τ) {u : Update} (hu : ¬ P u.target)
    (g : Literal → Increment) : Agree P σ (u.run g τ) := by
  cases u <;> exact h.set hu _

theorem Agree.eval {P : Var → Prop} {σ τ : State} (h : Agree P σ τ) {e : Expr} (he : ∀ v, Subexpr (var v) e → P v) :
    e.eval τ.mem = e.eval σ.mem := eval_congr h.1 fun v hv => h.2 v (he v hv)

theorem Agree.refl (P : Var → Prop) (σ : State) : Agree P σ σ := ⟨rfl, fun _ _ => rfl⟩

theorem Agree.runUpdates {P : Var → Prop} {σ τ : State} (h : Agree P σ τ) {us : List Update}
    (hus : ∀ x ∈ us.map Update.target, ¬ P x) (g : Literal → Increment) : Agree P σ (runUpdates g us τ) := by
  obtain ⟨harr, -, hframe, -⟩ := runUpdates_frame g us τ
  exact ⟨harr.trans h.1, fun v hv => (hframe v fun hmem => hus v hmem hv).trans (h.2 v hv)⟩

theorem set_congr {σ : State} {x : Var} {a b : Val} (h : x.type.conv a = x.type.conv b) : σ.set x a = σ.set x b := by
  rw [State.set, State.set, h]

section Header

variable {t : Datatype} {i e : Var} {start inc : Expr} {us : List Update}

/-- The bound and the variables of the increment. -/
def inHeader (e : Var) (inc : Expr) (v : Var) : Prop := v = e ∨ Subexpr (var v) inc

theorem Header.not_target (h : Header t i start e inc us) : i ∉ us.map Update.target :=
  fun hi => (h.unassigned i hi).1 rfl

theorem Header.counter_not_in (h : Header t i start e inc us) : ¬ inHeader e inc i := by
  rintro (hi | hi)
  · exact h.ne hi.symm
  · exact h.fixed hi

theorem Header.targets_not_in (h : Header t i start e inc us) : ∀ x ∈ us.map Update.target, ¬ inHeader e inc x := by
  rintro x hx (hxe | hxi)
  · exact (h.unassigned x hx).2.1 hxe
  · exact (h.unassigned x hx).2.2.2 hxi

/-- The increment of the counter, after the updates of the body, completes a trip. -/
theorem Header.runs_increment (h : Header t i start e inc us) {σ τ : State} {c : Val} (hc : inc.eval σ.mem = some c)
    (hτ : Agree (inHeader e inc) σ τ) :
    Runs (.assign i (binary .add (var i) inc)) (runUpdates plain us τ) (tripStep i c us τ) := by
  have hagree := hτ.runUpdates h.targets_not_in plain
  have hinc : inc.eval (runUpdates plain us τ).mem = some c := (hagree.eval fun v hv => .inr hv).trans hc
  have hread : (runUpdates plain us τ).read i = τ.read i :=
    congrArg i.type.conv ((runUpdates_frame plain us τ).2.2.1 i h.not_target)
  have hint : i.type.isInteger = true := h.iterType ▸ h.integer
  have hbool : i.type.isBool = false := by
    cases hi : i.type <;> first | rfl | (rw [hi] at hint; cases hint)
  have hci : i.type.Integral c := fun _ => ⟨_, Datatype.eq_trunc_of_conv h.incType (eval_conv hc)⟩
  refine runs_assign.mpr ⟨_, by rw [Expr.eval, hinc]; rfl, ?_⟩
  refine set_congr ?_
  rw [← hread]
  exact (Datatype.conv_promoted hbool (fun _ => h.incType) (Datatype.integral_conv _ _) hci).symm

theorem Header.agree_trip (h : Header t i start e inc us) {σ τ : State} (c : Val) (hτ : Agree (inHeader e inc) σ τ) :
    Agree (inHeader e inc) σ (tripStep i c us τ) :=
  (hτ.runUpdates h.targets_not_in plain).set h.counter_not_in _

theorem Header.read_bound {σ τ : State} (hτ : Agree (inHeader e inc) σ τ) : τ.read e = σ.read e :=
  congrArg e.type.conv (hτ.2 e (.inl rfl))

end Header

/-! ### Counting loops -/

/-- The loops that the pass looks at, with the start, the bound and the increment of their counter and the updates
    of their body. -/
inductive Counting (t : Datatype) : Stmt → Expr → Var → Expr → List Update → Prop
  | forLoop {v e : Var} {start inc : Expr} {contents : Stmt} :
    Header t v start e inc contents.updates → inc.type = t →
    CountPreserved (binary .div (binary .sub (var e) start) inc) contents.updates →
    Counting t (.for v start e inc contents) start e inc contents.updates
  | whileLoop {i e : Var} {k : Literal} {stmts : List Stmt} :
    Header t i (var i) e (literal k) (Stmt.updatesAll stmts) →
    CountPreserved (binary .sub (var e) (var i)) (Stmt.updatesAll stmts) →
    Counting t (.while (.compare .lt (var i) (var e))
      (.scope (.block (stmts ++ [.assign i (binary .add (var i) (literal k))])))) (var i) e (literal k)
      (Stmt.updatesAll stmts)

theorem updatesAll_filter (ss : List Stmt) :
    Stmt.updatesAll (ss.filter fun s => !s.isNop) = Stmt.updatesAll ss := by
  induction ss with
  | nil => rfl
  | cons s ss ih =>
    rw [List.filter_cons]
    split_ifs with hs
    · rw [Stmt.updatesAll, Stmt.updatesAll, ih]
    · obtain rfl := Stmt.eq_of_isNop (by simpa using hs)
      rw [Stmt.updatesAll, ih]
      rfl

/-- The memory after the trips of a loop whose counter `i` is dropped, and that after the scaled copy. -/
theorem trips_eq_scaled_iff {t : Datatype} {i e : Var} {start inc : Expr} {us : List Update}
    (h : Header t i start e inc us) (σ σ₁ : State) (hσ₁ : ∀ x, x ≠ i → σ₁.mem.vars x = σ.mem.vars x) (c L : Val) {T : ℕ}
    (hT : 0 < T) :
    (∀ x, x ≠ i → ((tripStep i c us)^[T] σ₁).mem.vars x = (runUpdates (scaled t L) us σ).mem.vars x) ↔
      Balanced t L T us := by
  obtain ⟨-, -, -, hvars⟩ := iterate_tripStep h.additive.plain h.not_target c σ₁ T
  obtain ⟨-, -, hframe', hread'⟩ := runUpdates_frame (scaled t L) us σ
  have hread₁ : ∀ x, x ≠ i → σ₁.read x = σ.read x := fun x hx => congrArg x.type.conv (hσ₁ x hx)
  constructor
  · intro heq x
    by_cases hx : x ∈ us.map Update.target
    · have hxi : x ≠ i := (h.unassigned x hx).1
      refine (read_scaled_iff h.integer h.additive L hT σ x).mp ?_
      rw [← hread₁ x hxi, ← (hvars x hxi).2]
      exact (congrArg x.type.conv (heq x hxi)).symm
    · have hnil : ∀ g, opsOn g x us = [] := by
        intro g
        refine List.filterMap_eq_nil_iff.mpr fun u hu => ?_
        have hne : u.target ≠ x := fun hux => hx (List.mem_map.mpr ⟨u, hu, hux⟩)
        cases u <;> exact if_neg hne
      rw [hnil, hnil, total, smul_zero]
  · intro hbal x hxi
    by_cases hx : x ∈ us.map Update.target
    · rw [vars_iterate_tripStep c σ₁ hT (List.mem_cons_of_mem i hx), hread' x hx, (hvars x hxi).2, hread₁ x hxi]
      exact ((read_scaled_iff h.integer h.additive L hT σ x).mpr (hbal x)).symm
    · rw [(hvars x hxi).1 hx, hframe' x hx, hσ₁ x hxi]

theorem State.ext_iff' {σ τ : State} :
    σ = τ ↔ (∀ x, σ.mem.vars x = τ.mem.vars x) ∧ σ.mem.arrays = τ.mem.arrays ∧ σ.output = τ.output := by
  obtain ⟨⟨vars, arrays⟩, output⟩ := σ
  obtain ⟨⟨vars', arrays'⟩, output'⟩ := τ
  constructor
  · intro h
    rw [h]
    exact ⟨fun _ => rfl, rfl, rfl⟩
  · rintro ⟨hvars, harr, hout⟩
    obtain rfl : vars = vars' := funext hvars
    obtain rfl : arrays = arrays' := harr
    obtain rfl : output = output' := hout
    rfl

/-- A copy runs as the scaled updates where the body leaves the loop count alone. -/
theorem Duplicates.runs_copy {count count' : Expr} {b b' : Stmt} (h : Duplicates count' b b')
    (hcount : CountPreserved count b.updates) (hsimp : simplify count = some count') {P : Var → Prop}
    (hP : ∀ x ∈ b.updates.map Update.target, ¬ P x) {σ : State} {L : Val}
    (hval : ∀ τ, Agree P σ τ → count.eval τ.mem = some L) :
    Runs b' σ (runUpdates (scaled count.type L) b.updates σ) := by
  refine h.copy (hcount.copyOK hsimp hval fun u hu g τ hτ => ?_) σ (Agree.refl P σ)
  exact hτ.update (hP _ (List.mem_map_of_mem hu)) g

/-- A loop whose increment is 0 makes no trip, or does not end. -/
theorem TripCount.ne_zero {t : Datatype} {s e c : Val} {T : ℕ} (hs : t.conv s = s) (hT : 0 < T)
    (h : TripCount t s e c T) : c ≠ 0 := by
  rintro rfl
  have hconst : ∀ n, counter t s 0 n = s := by
    intro n
    induction n with
    | zero => rfl
    | succ n ih => rw [counter_succ, ih, add_zero, hs]
  have hlt := h.below 0 hT
  have hstop := h.stop
  rw [hconst] at hlt hstop
  exact hstop hlt

theorem eval_loopCount {t : Datatype} {m : Memory} {start inc : Expr} {e : Var} {a c : Val} (hstart : start.type = t)
    (he : e.type = t) (hinc : inc.type = t) (ha : start.eval m = some a) (hc : inc.eval m = some c) (hne : c ≠ 0) :
    (binary .div (binary .sub (var e) start) inc).eval m = some (loopCount t a (t.conv (m.vars e)) c) := by
  have hconva := eval_conv ha
  have hconvc := eval_conv hc
  rw [hstart] at hconva
  rw [hinc] at hconvc
  simp only [Expr.eval, Expr.type, ha, hc, hstart, he, hinc, Datatype.maxType_self, Option.bind_eq_bind, Option.bind_some,
    BinaryOp.apply, Datatype.conv_conv, hconva, hconvc, if_neg hne, loopCount]

theorem leave_singleton {v : Var} {σ τ : State} {x : Var} (hx : x ≠ v) :
    (State.leave [v] σ τ).mem.vars x = τ.mem.vars x := by
  simp [State.leave, hx]

theorem leave_singleton_self {v : Var} {σ τ : State} : (State.leave [v] σ τ).mem.vars v = σ.mem.vars v := by
  simp [State.leave]

section Header

variable {t : Datatype} {i e : Var} {start inc : Expr} {us : List Update} {σ σ' : State} {a c : Val}

theorem Header.conv_start (h : Header t i start e inc us) (ha : start.eval σ.mem = some a) : t.conv a = a :=
  h.startType ▸ eval_conv ha

theorem Header.eval_cond (h : Header t i start e inc us) (ha : start.eval σ.mem = some a) :
    (Expr.compare .lt start (var e)).eval σ.mem = some (ofBool (a < σ.read e)) :=
  eval_lt ha rfl h.startType h.boundType

/-- A `for` loop drops its counter after the trips. -/
theorem Header.runs_for {contents : Stmt} (h : Header t i start e inc us)
    (hbody : ∀ τ, Runs contents τ (runUpdates plain us τ)) (ha : start.eval σ.mem = some a)
    (hc : inc.eval σ.mem = some c) :
    Runs (.for i start e inc contents) σ σ' ↔ ∃ T, TripCount t a (σ.read e) c T ∧
      σ' = .leave [i] σ ((tripStep i c us)^[T] (σ.set i a)) := by
  have hreada : (σ.set i a).read i = a := by rw [read_set_self, h.iterType, h.conv_start ha]
  have hreade : (σ.set i a).read e = σ.read e := read_set_ne h.ne a
  have hc₁ : inc.eval (σ.set i a).mem = some c :=
    (((Agree.refl (inHeader e inc) σ).set h.counter_not_in a).eval fun w hw => .inr hw).trans hc
  have htrip : ∀ ρ, Agree (inHeader e inc) (σ.set i a) ρ →
      Runs (.block [contents, .assign i (binary .add (var i) inc)]) ρ (tripStep i c us ρ) := fun ρ hρ =>
    runs_block_cons.mpr ⟨_, hbody ρ, runs_block_singleton.mpr (h.runs_increment hc₁ hρ)⟩
  have hwhile : ∀ {τ}, Runs (forLoop i e inc contents) (σ.set i a) τ ↔ ∃ T, TripCount t a (σ.read e) c T ∧
      τ = (tripStep i c us)^[T] (σ.set i a) := by
    intro τ
    have htrips : Runs (forLoop i e inc contents) (σ.set i a) τ ↔ ∃ T,
        TripCount t ((σ.set i a).read i) ((σ.set i a).read e) c T ∧ τ = (tripStep i c us)^[T] (σ.set i a) :=
      runs_while_trips h.iterType h.boundType (fun ρ hρ => ⟨htrip ρ hρ, h.agree_trip c hρ⟩)
        (fun ρ hρ => Header.read_bound hρ) (Agree.refl _ _)
    rwa [hreada, hreade] at htrips
  rw [IR.runs_for]
  constructor
  · rintro ⟨x, τ, hx, hτ, rfl⟩
    obtain rfl := Option.some.inj (hx.symm.trans ha)
    obtain ⟨T, hT, rfl⟩ := hwhile.mp hτ
    exact ⟨T, hT, rfl⟩
  · rintro ⟨T, hT, rfl⟩
    exact ⟨a, _, ha, hwhile.mpr ⟨T, hT, rfl⟩, rfl⟩

/-- After the trips of a `for` loop the memory is that of the scaled copy exactly if the increments are balanced. -/
theorem Header.leave_trips_iff (h : Header t i start e inc us) (σ : State) (a c L : Val) {T : ℕ} (hT : 0 < T) :
    .leave [i] σ ((tripStep i c us)^[T] (σ.set i a)) = runUpdates (scaled t L) us σ ↔ Balanced t L T us := by
  obtain ⟨harr, hout, -⟩ := iterate_tripStep h.additive.plain h.not_target c (σ.set i a) T
  obtain ⟨harr', hout', hframe', -⟩ := runUpdates_frame (scaled t L) us σ
  rw [← trips_eq_scaled_iff h σ (σ.set i a) (fun x hx => Function.update_of_ne hx _ _) c L hT]
  constructor
  · intro heq x hx
    rw [← leave_singleton hx, heq]
  · intro hvars
    refine State.ext_iff'.mpr ⟨fun x => ?_, harr.trans harr'.symm, hout.trans hout'.symm⟩
    by_cases hx : x = i
    · rw [hx, leave_singleton_self, hframe' i h.not_target]
    · rw [leave_singleton hx]
      exact hvars x hx

theorem leave_set (v : Var) (a : Val) : State.leave [v] σ (σ.set v a) = σ := by
  refine State.ext_iff'.mpr ⟨fun x => ?_, rfl, rfl⟩
  by_cases hx : x = v
  · rw [hx, leave_singleton_self]
  · rw [leave_singleton hx]
    exact Function.update_of_ne hx _ _

/-- The closed form of a loop runs its body if the loop makes a trip. -/
theorem Header.runs_closed (h : Header t i start e inc us) (ha : start.eval σ.mem = some a) {T : ℕ}
    (hT : TripCount t a (σ.read e) c T) {b : Stmt} :
    Runs (.makeIf (.compare .lt start (var e)) b) σ σ' ↔ if 0 < T then Runs (.scope b) σ σ' else σ' = σ := by
  have hlt : a < σ.read e ↔ 0 < T := by
    constructor
    · intro hlt
      refine Nat.pos_of_ne_zero fun hzero => ?_
      exact tripCount_zero.mp (hzero ▸ hT) hlt
    · exact fun hpos => hT.below 0 hpos
  rw [runs_makeIf]
  constructor
  · rintro ⟨x, hx, hrun⟩
    obtain rfl := Option.some.inj ((h.eval_cond ha).symm.trans hx)
    simpa only [ofBool_ne_zero_iff, hlt] using hrun
  · intro hrun
    exact ⟨_, h.eval_cond ha, by simpa only [ofBool_ne_zero_iff, hlt] using hrun⟩

end Header

theorem redundantFor_iff {t : Datatype} {v e : Var} {start inc : Expr} {contents s : Stmt}
    (h : Header t v start e inc contents.updates) (hinc : inc.type = t)
    (hcount : CountPreserved (binary .div (binary .sub (var e) start) inc) contents.updates)
    (hpass : redundantFor start e inc contents = some (some s)) {σ : State} {a c : Val}
    (ha : start.eval σ.mem = some a) (hc : inc.eval σ.mem = some c) :
    (∀ σ', Runs (.for v start e inc contents) σ σ' → Runs s σ σ') ↔
      ∀ T, 0 < T → TripCount t a (σ.read e) c T → Balanced t (loopCount t a (σ.read e) c) T contents.updates := by
  obtain ⟨count', hsimp, hpass⟩ := Option.bind_eq_some_iff.mp hpass
  obtain ⟨o, hdup, hpass⟩ := Option.bind_eq_some_iff.mp hpass
  obtain ⟨b', rfl, rfl⟩ := Option.map_eq_some_iff.mp (Option.some.inj hpass)
  have hspec := duplicateBody_spec hdup
  have hloop := fun σ' => @Header.runs_for t v e start inc contents.updates σ σ' a c contents h hspec.body ha hc
  have hcopy : ∀ T, 0 < T → TripCount t a (σ.read e) c T →
      Runs (.scope b') σ (runUpdates (scaled t (loopCount t a (σ.read e) c)) contents.updates σ) := by
    intro T hT htrips
    have htype : (binary .div (binary .sub (var e) start) inc).type = t := by
      simp only [Expr.type, h.startType, h.boundType, hinc, Datatype.maxType_self]
    have hfree : ∀ x ∈ contents.updates.map Update.target,
        ¬ (x = e ∨ Subexpr (var x) start ∨ Subexpr (var x) inc) := by
      rintro x hx (hxe | hxs | hxi)
      · exact (h.unassigned x hx).2.1 hxe
      · exact (h.unassigned x hx).2.2.1 hxs
      · exact (h.unassigned x hx).2.2.2 hxi
    rw [runs_scope_of_declared_nil hspec.declared.2, ← htype]
    refine hspec.runs_copy hcount hsimp hfree fun τ hτ => ?_
    have hea : start.eval τ.mem = some a := (hτ.eval fun w hw => .inr (.inl hw)).trans ha
    have hec : inc.eval τ.mem = some c := (hτ.eval fun w hw => .inr (.inr hw)).trans hc
    have hee : t.conv (τ.mem.vars e) = σ.read e := by rw [hτ.2 e (.inl rfl), State.read, h.boundType]
    rw [eval_loopCount h.startType h.boundType hinc hea hec (htrips.ne_zero (h.conv_start ha) hT), hee, htype]
  constructor
  · intro hpres T hT htrips
    have hrun := (h.runs_closed ha htrips).mp (hpres _ ((hloop _).mpr ⟨T, htrips, rfl⟩))
    rw [if_pos hT] at hrun
    exact (h.leave_trips_iff σ a c _ hT).mp (hrun.det (hcopy T hT htrips))
  · intro hbal σ' hrun
    obtain ⟨T, htrips, rfl⟩ := (hloop σ').mp hrun
    refine (h.runs_closed ha htrips).mpr ?_
    split_ifs with hT
    · rw [(h.leave_trips_iff σ a c _ hT).mpr (hbal T hT htrips)]
      exact hcopy T hT htrips
    · obtain rfl : T = 0 := Nat.eq_zero_of_not_pos hT
      exact leave_set v a

/-- A counting loop that is replaced ends in an increment by one. -/
theorem redundantWhile_some {i e : Var} {k : Literal} {stmts : List Stmt} {s : Stmt}
    (h : redundantWhile (.compare .lt (var i) (var e))
      (.scope (.block (stmts ++ [.assign i (binary .add (var i) (literal k))]))) = some (some s)) :
    k.val = 1 ∧ redundantCount i e stmts = some (some s) := by
  simp only [redundantWhile, List.getLast?_append, List.getLast?_singleton, Option.some_or, List.dropLast_concat] at h
  split_ifs at h with hmem hself
  · cases Option.some.inj h
  · obtain ⟨one, hone, h⟩ := Option.bind_eq_some_iff.mp h
    cases one with
    | false => cases Option.some.inj h
    | true =>
      refine ⟨?_, h⟩
      unfold isOne Literal.equalsScalar at hone
      split_ifs at hone with hint h128
      · simpa using Option.some.inj hone
      · cases Option.some.inj hone
  · simp at hself

theorem eval_distance {t : Datatype} {m : Memory} {i e : Var} (hi : i.type = t) (he : e.type = t) :
    (binary .sub (var e) (var i)).eval m = some (loopCount t (t.conv (m.vars i)) (t.conv (m.vars e)) 1) := by
  simp only [Expr.eval, Expr.type, hi, he, Datatype.maxType_self, Option.bind_eq_bind, Option.bind_some, BinaryOp.apply,
    Datatype.conv_conv, loopCount, Datatype.quot_one (Datatype.conv_conv t _)]

/-- The last entry of the closed form of a `while` loop sets the counter to the bound. -/
theorem runs_closed_count {b : Stmt} (hb : b.declared = []) {i e : Var} {σ σ' : State} :
    Runs (.scope (.makeBlock [b, .assign i (var e)])) σ σ' ↔ ∃ τ, Runs b σ τ ∧ σ' = τ.set i (τ.read e) := by
  have hdecl : (Stmt.makeBlock [b, .assign i (var e)]).declared = [] := by
    rw [Stmt.makeBlock, Stmt.declared, declaredAll_filter, Stmt.declaredAll, hb]
    rfl
  rw [runs_scope_of_declared_nil hdecl, runs_makeBlock, runs_block_cons]
  refine exists_congr fun τ => and_congr_right fun _ => ?_
  rw [runs_block_singleton, runs_assign]
  constructor
  · rintro ⟨x, hx, rfl⟩
    rw [← Option.some.inj hx]
    rfl
  · rintro rfl
    exact ⟨_, rfl, rfl⟩

theorem Header.trips_iff_set {t : Datatype} {i e : Var} {k : Literal} {us : List Update}
    (h : Header t i (var i) e (literal k) us) (σ : State) (L : Val) {T : ℕ} (hT : 0 < T)
    (htrips : TripCount t (σ.read i) (σ.read e) 1 T) :
    (tripStep i 1 us)^[T] σ = (runUpdates (scaled t L) us σ).set i ((runUpdates (scaled t L) us σ).read e) ↔
      Balanced t L T us := by
  obtain ⟨harr, hout, hread, -⟩ := iterate_tripStep h.additive.plain h.not_target 1 σ T
  obtain ⟨harr', hout', hframe', -⟩ := runUpdates_frame (scaled t L) us σ
  have hconv : ∀ x : Var, x.type = t → t.conv (σ.read x) = σ.read x := fun x hx => hx ▸ Datatype.conv_conv _ _
  have he : (runUpdates (scaled t L) us σ).read e = σ.read e :=
    congrArg e.type.conv (hframe' e fun he => (h.unassigned e he).2.1 rfl)
  rw [← trips_eq_scaled_iff h σ σ (fun _ _ => rfl) 1 L hT, he]
  constructor
  · intro heq x hx
    rw [heq]
    exact Function.update_of_ne hx _ _
  · intro hvars
    refine State.ext_iff'.mpr ⟨fun x => ?_, harr.trans harr'.symm, hout.trans hout'.symm⟩
    by_cases hx : x = i
    · subst hx
      rw [vars_iterate_tripStep 1 σ hT List.mem_cons_self, hread, h.iterType,
        htrips.counter_one h.integer (hconv x h.iterType) (hconv e h.boundType) hT, vars_set_self, h.iterType,
        hconv e h.boundType]
    · exact (hvars x hx).trans (Function.update_of_ne hx _ _).symm

theorem redundantWhile_iff {t : Datatype} {i e : Var} {k : Literal} {stmts : List Stmt} {s : Stmt}
    (h : Header t i (var i) e (literal k) (Stmt.updatesAll stmts))
    (hcount : CountPreserved (binary .sub (var e) (var i)) (Stmt.updatesAll stmts))
    (hpass : redundantWhile (.compare .lt (var i) (var e))
      (.scope (.block (stmts ++ [.assign i (binary .add (var i) (literal k))]))) = some (some s)) {σ : State} :
    (∀ σ', Runs (.while (.compare .lt (var i) (var e))
        (.scope (.block (stmts ++ [.assign i (binary .add (var i) (literal k))])))) σ σ' → Runs s σ σ') ↔
      ∀ T, 0 < T → TripCount t (σ.read i) (σ.read e) k.val T →
        Balanced t (loopCount t (σ.read i) (σ.read e) k.val) T (Stmt.updatesAll stmts) := by
  obtain ⟨hone, hpass⟩ := redundantWhile_some hpass
  unfold redundantCount at hpass
  obtain ⟨count', hsimp, hpass⟩ := Option.bind_eq_some_iff.mp hpass
  obtain ⟨o, hdup, hpass⟩ := Option.bind_eq_some_iff.mp hpass
  obtain ⟨b', rfl, rfl⟩ := Option.map_eq_some_iff.mp (Option.some.inj hpass)
  have hspec := duplicateBody_spec hdup
  have hupdates : (Stmt.makeBlock stmts).updates = Stmt.updatesAll stmts := updatesAll_filter stmts
  have hk : (literal k).eval σ.mem = some k.val := rfl
  rw [hone] at hk ⊢
  have htrip : ∀ ρ, Agree (inHeader e (literal k)) σ ρ → Runs (.scope (.block (stmts ++
      [.assign i (binary .add (var i) (literal k))]))) ρ (tripStep i 1 (Stmt.updatesAll stmts) ρ) := by
    intro ρ hρ
    have hdecl : (Stmt.block (stmts ++ [.assign i (binary .add (var i) (literal k))])).declared = [] := by
      have hstmts : Stmt.declaredAll stmts = [] := (declaredAll_filter stmts).symm.trans hspec.declared.1
      rw [Stmt.declared, declaredAll_append, hstmts]
      rfl
    have hbody := runs_makeBlock.mp (hspec.body ρ)
    rw [hupdates] at hbody
    rw [runs_scope_of_declared_nil hdecl]
    exact runs_block_append.mpr ⟨_, hbody, runs_block_singleton.mpr (h.runs_increment hk hρ)⟩
  have hloop : ∀ σ', Runs (.while (.compare .lt (var i) (var e))
      (.scope (.block (stmts ++ [.assign i (binary .add (var i) (literal k))])))) σ σ' ↔
        ∃ T, TripCount t (σ.read i) (σ.read e) 1 T ∧ σ' = (tripStep i 1 (Stmt.updatesAll stmts))^[T] σ := fun σ' =>
    runs_while_trips h.iterType h.boundType (fun ρ hρ => ⟨htrip ρ hρ, h.agree_trip 1 hρ⟩)
      (fun ρ hρ => Header.read_bound hρ) (Agree.refl _ σ)
  have hcopy : Runs b' σ
      (runUpdates (scaled t (loopCount t (σ.read i) (σ.read e) 1)) (Stmt.updatesAll stmts) σ) := by
    have htype : (binary .sub (var e) (var i)).type = t := by
      simp only [Expr.type, h.iterType, h.boundType, Datatype.maxType_self]
    have hfree : ∀ x ∈ (Stmt.makeBlock stmts).updates.map Update.target, ¬ (x = e ∨ x = i) := by
      rw [hupdates]
      rintro x hx (hxe | hxi)
      · exact (h.unassigned x hx).2.1 hxe
      · exact (h.unassigned x hx).1 hxi
    rw [← hupdates, ← htype]
    refine hspec.runs_copy (hupdates ▸ hcount) hsimp hfree fun τ hτ => ?_
    rw [eval_distance h.iterType h.boundType, hτ.2 e (.inl rfl), hτ.2 i (.inr rfl), htype, State.read, State.read,
      h.iterType, h.boundType]
  constructor
  · intro hpres T hT htrips
    have hrun := (h.runs_closed rfl htrips).mp (hpres _ ((hloop _).mpr ⟨T, htrips, rfl⟩))
    rw [if_pos hT, runs_closed_count hspec.declared.2] at hrun
    obtain ⟨τ, hτ, heq⟩ := hrun
    rw [hτ.det hcopy] at heq
    exact (h.trips_iff_set σ _ hT htrips).mp heq
  · intro hbal σ' hrun
    obtain ⟨T, htrips, rfl⟩ := (hloop σ').mp hrun
    refine (h.runs_closed rfl htrips).mpr ?_
    split_ifs with hT
    · rw [(h.trips_iff_set σ _ hT htrips).mpr (hbal T hT htrips), runs_closed_count hspec.declared.2]
      exact ⟨_, hcopy, rfl⟩
    · obtain rfl : T = 0 := Nat.eq_zero_of_not_pos hT
      rfl

/-- 32-bit variables: an accumulator, a counter and its bound. -/
def xVar : Var := ⟨0, .int .w32⟩
def iVar : Var := ⟨1, .int .w32⟩
def nVar : Var := ⟨2, .int .w32⟩

def lit32 (n : ℤ) : Literal := .make (.int .w32) n

/-- `for (i = 0; i < n; i += c) x = x + 1`. -/
def countUp (c : ℤ) : Stmt :=
  .for iVar (literal (lit32 0)) nVar (literal (lit32 c))
    (.scope (.block [.assign xVar (binary .add (var xVar) (literal (lit32 1)))]))

/-- A memory in which `n` is 3 and every other variable 0. -/
def threeInBound : State := ⟨⟨fun v => if v = nVar then 3 else 0, fun _ _ => 0⟩, []⟩

example : (run 8 (countUp 1) threeInBound).map (fun σ => σ.mem.vars xVar) = some 3 := by decide +kernel

theorem preserves_countUp_one :
    CountPreserved (binary .div (binary .sub (var nVar) (literal (lit32 0))) (literal (lit32 1)))
      [.increment xVar (lit32 1)] := by
  have hone : (lit32 1).val = 1 := by decide +kernel
  have hzero : (lit32 0).val = 0 := by decide +kernel
  have hconv : ∀ v, (Datatype.int .w32).conv ((Datatype.int .w32).conv v) = (Datatype.int .w32).conv v :=
    Datatype.conv_conv _
  have hcount : simplify (binary .div (binary .sub (var nVar) (literal (lit32 0))) (literal (lit32 1))) =
      some (var nVar) := rfl
  refine ⟨⟨_, hcount, rfl, fun m v hv => ?_⟩, fun count' hcount' x k hk => ?_⟩
  · rw [eval_loopCount (t := .int .w32) rfl rfl rfl rfl rfl (by rw [hone]; exact one_ne_zero)] at hv
    rw [← hv, hzero, hone, loopCount, sub_zero, Datatype.quot_one (hconv _)]
    exact congrArg some (hconv _).symm
  · obtain rfl := Option.some.inj (hcount.symm.trans hcount')
    obtain ⟨rfl, rfl⟩ := Update.increment.inj (List.mem_singleton.mp hk)
    refine ⟨var nVar, rfl, rfl, fun m v hv => ?_⟩
    obtain ⟨p, q, hp, hq, hv⟩ := eval_binary hv
    obtain rfl := Option.some.inj hp
    obtain rfl := Option.some.inj hq
    rw [← hv, hone]
    have hmul : (Datatype.int .w32).conv ((Datatype.int .w32).conv ((Datatype.int .w32).conv (m.vars nVar)) *
        (Datatype.int .w32).conv 1) = (Datatype.int .w32).conv (m.vars nVar) := by
      rw [Datatype.conv_one, mul_one, hconv, hconv]
    exact congrArg some hmul.symm

end IR
end Taco
