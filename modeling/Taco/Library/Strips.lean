import Mathlib.Data.List.Perm.Basic
import Mathlib.Data.List.Count
import Mathlib.Tactic

/-! Nested strip mining, over any labels. A tree of strips says how a range `[0, k)` is cut: a strip of
    factor `s` gives the outer subtree the range `[0, ⌈k/s⌉)` and the inner one `[0, s)`, whatever `k`
    is. The points of the tree are the numbers `o * s + i` it composes; `Exact` says for which bounds
    each number below the bound is composed once. -/

namespace Taco
namespace Strips

/-! ### Sums and counts over lists -/

theorem count_mul_le_sum (f : ℕ → ℕ) (a : ℕ) : ∀ l : List ℕ, l.count a * f a ≤ (l.map f).sum
  | [] => by simp
  | b :: l => by
    have ih := count_mul_le_sum f a l
    rcases eq_or_ne b a with rfl | hb
    · simp only [List.count_cons_self, List.map_cons, List.sum_cons, Nat.add_mul, Nat.one_mul]
      omega
    · rw [List.count_cons_of_ne hb, List.map_cons, List.sum_cons]
      omega

theorem count_mul_add_le_sum (f : ℕ → ℕ) {a b : ℕ} (hab : a ≠ b) :
    ∀ l : List ℕ, l.count a * f a + l.count b * f b ≤ (l.map f).sum
  | [] => by simp
  | c :: l => by
    have ih := count_mul_add_le_sum f hab l
    rw [List.map_cons, List.sum_cons]
    rcases eq_or_ne c a with rfl | hca
    · rw [List.count_cons_self, List.count_cons_of_ne hab, Nat.add_mul, Nat.one_mul]
      omega
    · rcases eq_or_ne c b with rfl | hcb
      · rw [List.count_cons_self, List.count_cons_of_ne hca, Nat.add_mul, Nat.one_mul]
        omega
      · rw [List.count_cons_of_ne hca, List.count_cons_of_ne hcb]
        omega

theorem sum_map_eq_count_mul (f : ℕ → ℕ) (a : ℕ) :
    ∀ {l : List ℕ}, (∀ b ∈ l, b ≠ a → f b = 0) → (l.map f).sum = l.count a * f a
  | [], _ => by simp
  | b :: l, h => by
    have ih := sum_map_eq_count_mul f a fun c hc => h c (List.mem_cons_of_mem _ hc)
    rw [List.map_cons, List.sum_cons, ih]
    rcases eq_or_ne b a with rfl | hb
    · rw [List.count_cons_self, Nat.add_mul, Nat.one_mul, Nat.add_comm]
    · rw [List.count_cons_of_ne hb, h b List.mem_cons_self hb, Nat.zero_add]

/-! ### One strip -/

/-- The numbers `o * s + i`, outer values first. -/
def compose (s : ℕ) (outer inner : List ℕ) : List ℕ :=
  outer.flatMap fun o => inner.map fun i => o * s + i

theorem mem_compose {s x : ℕ} {outer inner : List ℕ} :
    x ∈ compose s outer inner ↔ ∃ o ∈ outer, ∃ i ∈ inner, o * s + i = x := by
  simp only [compose, List.mem_flatMap, List.mem_map]

/-- How often `x` is composed from the outer value `o`. -/
def hits (s : ℕ) (inner : List ℕ) (x o : ℕ) : ℕ :=
  if o * s ≤ x then inner.count (x - o * s) else 0

theorem count_map_add (c x : ℕ) : ∀ l : List ℕ,
    (l.map fun i => c + i).count x = if c ≤ x then l.count (x - c) else 0
  | [] => by simp
  | i :: l => by
    rw [List.map_cons, List.count_cons, count_map_add c x l, List.count_cons]
    by_cases hc : c ≤ x
    · have : (c + i == x) = (i == x - c) := by
        rw [Bool.eq_iff_iff, beq_iff_eq, beq_iff_eq]
        omega
      rw [if_pos hc, if_pos hc, this]
    · have : (c + i == x) = false := by
        rw [beq_eq_false_iff_ne]
        omega
      rw [if_neg hc, if_neg hc, this]
      rfl

theorem count_compose (s x : ℕ) (outer inner : List ℕ) :
    (compose s outer inner).count x = (outer.map (hits s inner x)).sum := by
  rw [compose, List.count_flatMap]
  congr 1
  apply List.map_congr_left
  intro o _
  exact count_map_add (o * s) x inner

theorem hits_zero_left (s x : ℕ) (inner : List ℕ) : hits s inner x 0 = inner.count x := by
  simp [hits]

theorem hits_mul_self (s o : ℕ) (inner : List ℕ) : hits s inner (o * s) o = inner.count 0 := by
  simp [hits]

theorem hits_div {s : ℕ} (x : ℕ) (inner : List ℕ) : hits s inner x (x / s) = inner.count (x % s) := by
  have h := Nat.div_add_mod' x s
  rw [hits, if_pos (by omega), show x - x / s * s = x % s by omega]

/-- Outer values above `x / s` compose nothing equal to `x`. -/
theorem hits_eq_zero_of_lt {s o x : ℕ} (inner : List ℕ) (hs : 0 < s) (h : x / s < o) : hits s inner x o = 0 := by
  rw [hits, if_neg (by rw [not_le]; exact (Nat.div_lt_iff_lt_mul hs).mp h)]

/-- An outer value below `x / s` needs an inner value that leaves its strip. -/
theorem hits_eq_zero_of_gt {s o x : ℕ} {inner : List ℕ} (h : o < x / s) (hin : ∀ i ∈ inner, i < s) :
    hits s inner x o = 0 := by
  have hle : (o + 1) * s ≤ x := (Nat.mul_le_mul_right s h).trans (Nat.div_mul_le_self x s)
  rw [Nat.add_mul, Nat.one_mul] at hle
  rw [hits, if_pos (by omega), List.count_eq_zero]
  intro hmem
  have := hin _ hmem
  omega

/-! ### Rounding up -/

/-- `⌈k/s⌉`, as the bound of an outer loop is computed. -/
def ceilDiv (k s : ℕ) : ℕ := (k + (s - 1)) / s

theorem lt_ceilDiv {k s o : ℕ} (hs : 0 < s) : o < ceilDiv k s ↔ o * s < k := by
  rw [ceilDiv, Nat.lt_iff_add_one_le, Nat.le_div_iff_mul_le hs, Nat.add_mul, Nat.one_mul]
  omega

theorem div_lt_ceilDiv {k s x : ℕ} (hs : 0 < s) (hx : x < k) : x / s < ceilDiv k s :=
  (lt_ceilDiv hs).mpr ((Nat.div_mul_le_self x s).trans_lt hx)

theorem ceilDiv_mono {j k s : ℕ} (h : j ≤ k) : ceilDiv j s ≤ ceilDiv k s :=
  Nat.div_le_div_right (by omega)

theorem ceilDiv_of_dvd {k s : ℕ} (hs : 0 < s) (h : s ∣ k) : ceilDiv k s = k / s := by
  obtain ⟨q, rfl⟩ := h
  rw [ceilDiv, Nat.mul_add_div hs, Nat.mul_div_cancel_left _ hs, Nat.div_eq_of_lt (by omega), Nat.add_zero]

/-! ### Trees of strips -/

/-- A range that is iterated itself, or cut into strips of `factor` whose outer and inner part are cut
    further. -/
inductive StripTree (ι : Type*) where
  | leaf (v : ι)
  | split (v : ι) (factor : ℕ) (outer inner : StripTree ι)
  deriving Repr, DecidableEq

namespace StripTree
variable {ι : Type*}

/-- Every factor of the tree is positive. -/
def Positive : StripTree ι → Prop
  | leaf _ => True
  | split _ s o i => 0 < s ∧ o.Positive ∧ i.Positive

/-- What the tree composes for the range `[0, k)`. -/
def points : StripTree ι → ℕ → List ℕ
  | leaf _, k => List.range k
  | split _ s o i, k => compose s (o.points (ceilDiv k s)) (i.points s)

/-- No factor leaves a partial last strip in a range of `k`. -/
def Divides : StripTree ι → ℕ → Prop
  | leaf _, _ => True
  | split _ s o i, k => s ∣ k ∧ o.Divides (k / s) ∧ i.Divides s

/-- Each number below `b` is composed once: an inner range may run past its factor only if no number
    below `b` lies in a second strip. -/
def Exact : StripTree ι → ℕ → Prop
  | leaf _, _ => True
  | split _ s o i, b => o.Exact (ceilDiv b s) ∧ i.Exact (min b s) ∧ (b ≤ s ∨ i.Divides s)

instance decidableDivides : ∀ (t : StripTree ι) (k : ℕ), Decidable (t.Divides k)
  | leaf _, _ => inferInstanceAs (Decidable True)
  | split _ s o i, k =>
    have := decidableDivides o (k / s)
    have := decidableDivides i s
    inferInstanceAs (Decidable (s ∣ k ∧ o.Divides (k / s) ∧ i.Divides s))

instance decidableExact : ∀ (t : StripTree ι) (b : ℕ), Decidable (t.Exact b)
  | leaf _, _ => inferInstanceAs (Decidable True)
  | split _ s o i, b =>
    have := decidableExact o (ceilDiv b s)
    have := decidableExact i (min b s)
    inferInstanceAs (Decidable (o.Exact (ceilDiv b s) ∧ i.Exact (min b s) ∧ (b ≤ s ∨ i.Divides s)))

/-- A tree reaches every number of its range. -/
theorem mem_points_of_lt : ∀ {t : StripTree ι} {k x : ℕ}, t.Positive → x < k → x ∈ t.points k
  | leaf _, _, _, _, hx => List.mem_range.mpr hx
  | split _ s _ _, _, x, ⟨hs, ho, hi⟩, hx =>
    mem_compose.mpr ⟨x / s, mem_points_of_lt ho (div_lt_ceilDiv hs hx), x % s, mem_points_of_lt hi (Nat.mod_lt x hs),
      Nat.div_add_mod' x s⟩

theorem count_points_pos {t : StripTree ι} {k x : ℕ} (ht : t.Positive) (hx : x < k) : 0 < (t.points k).count x :=
  List.count_pos_iff.mpr (mem_points_of_lt ht hx)

theorem lt_of_divides : ∀ {t : StripTree ι} {k x : ℕ}, t.Positive → t.Divides k → x ∈ t.points k → x < k
  | leaf _, _, _, _, _, hx => List.mem_range.mp hx
  | split _ s o i, k, x, ⟨hs, ho, hi⟩, ⟨hdvd, hdo, hdi⟩, hx => by
    obtain ⟨a, ha, b, hb, rfl⟩ := mem_compose.mp hx
    rw [ceilDiv_of_dvd hs hdvd] at ha
    have hak : a < k / s := lt_of_divides ho hdo ha
    have hbs : b < s := lt_of_divides hi hdi hb
    calc a * s + b < (a + 1) * s := by rw [Nat.add_mul, Nat.one_mul]; omega
      _ ≤ k / s * s := Nat.mul_le_mul_right s hak
      _ ≤ k := Nat.div_mul_le_self k s

/-- A tree that does not divide its range composes the first number beyond it. -/
theorem mem_points_of_not_divides : ∀ {t : StripTree ι} {k : ℕ}, t.Positive → 0 < k → ¬t.Divides k → k ∈ t.points k
  | leaf _, _, _, _, hd => absurd trivial hd
  | split v s o i, k, ⟨hs, ho, hi⟩, hk, hd => by
    rw [points, mem_compose]
    by_cases hdvd : s ∣ k
    · obtain ⟨q, rfl⟩ := hdvd
      have hq : 0 < q := Nat.pos_of_mul_pos_left hk
      rw [ceilDiv_of_dvd hs (Nat.dvd_mul_right s q), Nat.mul_div_cancel_left q hs]
      by_cases hdo : o.Divides q
      · -- The inner part overruns: the last outer value composes `s * q` with it.
        have hdi : ¬i.Divides s := fun hdi => hd ⟨Nat.dvd_mul_right s q, by rwa [Nat.mul_div_cancel_left q hs], hdi⟩
        refine ⟨q - 1, mem_points_of_lt ho (by omega), s, mem_points_of_not_divides hi hs hdi, ?_⟩
        rw [Nat.sub_mul, Nat.one_mul, Nat.mul_comm s q]
        exact Nat.sub_add_cancel (Nat.le_mul_of_pos_left s hq)
      · exact ⟨q, mem_points_of_not_divides ho hq hdo, 0, mem_points_of_lt hi hs, by rw [Nat.mul_comm, Nat.add_zero]⟩
    · -- The last strip is partial, and `k` is in it.
      have hmod : 0 < k % s := Nat.pos_of_ne_zero fun h => hdvd (Nat.dvd_of_mod_eq_zero h)
      have hdiv := Nat.div_add_mod' k s
      exact ⟨k / s, mem_points_of_lt ho ((lt_ceilDiv hs).mpr (by omega)), k % s, mem_points_of_lt hi (Nat.mod_lt k hs),
        hdiv⟩

theorem count_split {s k x : ℕ} {o i : StripTree ι} {v : ι} :
    ((split v s o i).points k).count x = ((o.points (ceilDiv k s)).map (hits s (i.points s) x)).sum :=
  count_compose s x _ _

/-- Once the inner part stays below its factor, or `x` is in the first strip, only the outer value
    `x / s` composes `x`. -/
theorem count_split_eq {s k x : ℕ} {o i : StripTree ι} {v : ι} (hs : 0 < s) (hi : i.Positive)
    (h : x < s ∨ i.Divides s) :
    ((split v s o i).points k).count x = (o.points (ceilDiv k s)).count (x / s) * (i.points s).count (x % s) := by
  rw [count_split, sum_map_eq_count_mul _ (x / s), hits_div]
  intro b _ hb
  rcases Nat.lt_or_gt_of_ne hb with hlt | hgt
  · rcases h with hx | hd
    · rw [Nat.div_eq_of_lt hx] at hlt
      exact absurd hlt (Nat.not_lt_zero b)
    · exact hits_eq_zero_of_gt hlt fun j hj => lt_of_divides hi hd hj
  · exact hits_eq_zero_of_lt _ hs hgt

theorem count_eq_one_of_exact : ∀ {t : StripTree ι} {b k x : ℕ}, t.Positive → b ≤ k → t.Exact b → x < b →
    (t.points k).count x = 1
  | leaf _, b, k, x, _, hbk, _, hx => List.count_eq_one_of_mem List.nodup_range (List.mem_range.mpr (by omega))
  | split _ s o i, b, k, x, ⟨hs, ho, hi⟩, hbk, ⟨heo, hei, hd⟩, hx => by
    rw [count_split_eq hs hi (hd.imp_left fun hbs => by omega),
      count_eq_one_of_exact ho (ceilDiv_mono hbk) heo (div_lt_ceilDiv hs hx),
      count_eq_one_of_exact hi (Nat.min_le_right b s) hei (Nat.lt_min.mpr ⟨(Nat.mod_le x s).trans_lt hx, Nat.mod_lt x hs⟩)]

theorem exact_of_count_eq_one : ∀ {t : StripTree ι} {b k : ℕ}, t.Positive → b ≤ k →
    (∀ x < b, (t.points k).count x = 1) → t.Exact b
  | leaf _, _, _, _, _, _ => trivial
  | split v s o i, b, k, ⟨hs, ho, hi⟩, hbk, h => by
    have hinner : 0 < (i.points s).count 0 := count_points_pos hi hs
    have houter : ∀ a, a * s < b → 0 < (o.points (ceilDiv k s)).count a := fun a ha =>
      count_points_pos ho ((lt_ceilDiv hs).mpr (by omega))
    have hone : ∀ a x, x < b → (o.points (ceilDiv k s)).count a * hits s (i.points s) x a ≤ 1 := fun a x hx =>
      (count_mul_le_sum _ a _).trans (by rw [← count_split (v := v), h x hx])
    refine ⟨exact_of_count_eq_one ho (ceilDiv_mono hbk) fun a ha => ?_,
      exact_of_count_eq_one hi (Nat.min_le_right b s) fun x hx => ?_, ?_⟩
    · have has := (lt_ceilDiv hs).mp ha
      have hle := hone a (a * s) has
      rw [hits_mul_self] at hle
      exact Nat.le_antisymm ((Nat.le_mul_of_pos_right _ hinner).trans hle) (houter a has)
    · have hxb : x < b := hx.trans_le (Nat.min_le_left b s)
      have hle := hone 0 x hxb
      rw [hits_zero_left] at hle
      exact Nat.le_antisymm ((Nat.le_mul_of_pos_left _ (houter 0 (by omega))).trans hle)
        (count_points_pos hi (hx.trans_le (Nat.min_le_right b s)))
    · -- With two strips and an overrun, `s` is composed from the outer values 0 and 1.
      by_contra hcon
      rw [not_or, not_le] at hcon
      have hs' : 0 < (i.points s).count s := List.count_pos_iff.mpr (mem_points_of_not_divides hi hs hcon.2)
      have htwo := count_mul_add_le_sum (hits s (i.points s) s) Nat.zero_ne_one (o.points (ceilDiv k s))
      have h1 : hits s (i.points s) s 1 = (i.points s).count 0 := by
        rw [← hits_mul_self s 1, Nat.one_mul]
      rw [← count_split (v := v), h s hcon.1, hits_zero_left, h1] at htwo
      have ho0 := houter 0 (by omega)
      have ho1 := houter 1 (by omega)
      have := Nat.mul_pos ho0 hs'
      have := Nat.mul_pos ho1 hinner
      omega

/-- Below `k`, the tree composes each number once exactly when it is `Exact`. -/
theorem exact_iff {t : StripTree ι} {k : ℕ} (ht : t.Positive) :
    t.Exact k ↔ ∀ x < k, (t.points k).count x = 1 :=
  ⟨fun h _ hx => count_eq_one_of_exact ht (Nat.le_refl k) h hx, exact_of_count_eq_one ht (Nat.le_refl k)⟩

/-! ### Leaves and values -/

def label : StripTree ι → ι
  | leaf v => v
  | split v _ _ _ => v

@[simp] theorem label_leaf (v : ι) : (leaf v).label = v := rfl

@[simp] theorem label_split (v : ι) (s : ℕ) (o i : StripTree ι) : (split v s o i).label = v := rfl

@[grind =]
def leaves : StripTree ι → List ι
  | leaf v => [v]
  | split _ _ o i => o.leaves ++ i.leaves

/-- The labels of the ranges that are cut. -/
def inner : StripTree ι → List ι
  | leaf _ => []
  | split v _ o i => v :: (o.inner ++ i.inner)

/-- The labels of all ranges, cut or iterated. -/
@[grind =]
def labels : StripTree ι → List ι
  | leaf v => [v]
  | split v _ o i => v :: (o.labels ++ i.labels)

def height : StripTree ι → ℕ
  | leaf _ => 0
  | split _ _ o i => max o.height i.height + 1

/-- The number composed from the values of the leaves. -/
@[grind =]
def eval : StripTree ι → (ι → ℕ) → ℕ
  | leaf v, env => env v
  | split _ s o i, env => o.eval env * s + i.eval env

/-- The length of the range that each leaf iterates when the tree's own range is `k`. -/
def extents : StripTree ι → ℕ → List (ι × ℕ)
  | leaf v, k => [(v, k)]
  | split _ s o i, k => o.extents (ceilDiv k s) ++ i.extents s

theorem leaves_ne_nil : ∀ t : StripTree ι, t.leaves ≠ []
  | leaf _ => List.cons_ne_nil _ _
  | split _ _ o _ => by simp [leaves, leaves_ne_nil o]

theorem leaves_subset_labels : ∀ t : StripTree ι, t.leaves ⊆ t.labels
  | leaf _ => List.Subset.refl _
  | split _ _ o i => List.subset_cons_of_subset _ <|
    List.append_subset.mpr ⟨List.Subset.trans (leaves_subset_labels o) (List.subset_append_left _ _),
      List.Subset.trans (leaves_subset_labels i) (List.subset_append_right _ _)⟩

theorem inner_subset_labels : ∀ t : StripTree ι, t.inner ⊆ t.labels
  | leaf _ => List.nil_subset _
  | split _ _ o i => List.cons_subset_cons _ <|
    List.append_subset.mpr ⟨List.Subset.trans (inner_subset_labels o) (List.subset_append_left _ _),
      List.Subset.trans (inner_subset_labels i) (List.subset_append_right _ _)⟩

theorem label_mem_labels : ∀ t : StripTree ι, t.label ∈ t.labels
  | leaf _ => List.mem_cons_self
  | split _ _ _ _ => List.mem_cons_self

theorem nodup_leaves : ∀ {t : StripTree ι}, t.labels.Nodup → t.leaves.Nodup
  | leaf _, h => h
  | split _ _ o i, h => by
    obtain ⟨ho, hi, hoi⟩ := List.nodup_append.mp (List.nodup_cons.mp h).2
    exact List.nodup_append.mpr ⟨nodup_leaves ho, nodup_leaves hi,
      fun a ha b hb => hoi a (leaves_subset_labels o ha) b (leaves_subset_labels i hb)⟩

theorem map_fst_extents : ∀ (t : StripTree ι) (k : ℕ), (t.extents k).map Prod.fst = t.leaves
  | leaf _, _ => rfl
  | split _ s o i, k => by simp [extents, leaves, map_fst_extents o, map_fst_extents i]

theorem eval_congr {env env' : ι → ℕ} : ∀ {t : StripTree ι}, (∀ v ∈ t.leaves, env v = env' v) → t.eval env = t.eval env'
  | leaf _, h => h _ List.mem_cons_self
  | split _ _ _ _, h => by
    rw [eval, eval, eval_congr fun v hv => h v (List.mem_append_left _ hv),
      eval_congr fun v hv => h v (List.mem_append_right _ hv)]

section Assignments
variable [DecidableEq ι]

/-- The states that nested loops over the given ranges pass through, the first range outermost. -/
def assignments : List (ι × ℕ) → (ι → ℕ) → List (ι → ℕ)
  | [], env => [env]
  | (v, k) :: ranges, env => (List.range k).flatMap fun x => assignments ranges (Function.update env v x)

theorem assignments_append : ∀ (r r' : List (ι × ℕ)) (env : ι → ℕ),
    assignments (r ++ r') env = (assignments r env).flatMap (assignments r')
  | [], _, _ => by simp [assignments]
  | (v, k) :: r, r', env => by
    simp only [List.cons_append, assignments, assignments_append r r', List.flatMap_assoc]

/-- Only the loop variables change. -/
theorem assignments_frame {w : ι} : ∀ {r : List (ι × ℕ)} {env env' : ι → ℕ}, w ∉ r.map Prod.fst →
    env' ∈ assignments r env → env' w = env w
  | [], _, _, _, h => by rw [List.mem_singleton.mp h]
  | (v, k) :: r, env, env', hw, h => by
    rw [List.map_cons, List.mem_cons, not_or] at hw
    obtain ⟨x, -, hx⟩ := List.mem_flatMap.mp h
    rw [assignments_frame hw.2 hx, Function.update_of_ne hw.1]

/-- The order of the loops only permutes the states. -/
theorem assignments_perm {r r' : List (ι × ℕ)} (h : r.Perm r') (hr : (r.map Prod.fst).Nodup) (env : ι → ℕ) :
    (assignments r env).Perm (assignments r' env) := by
  induction h generalizing env with
  | nil => exact List.Perm.refl _
  | cons a _ ih =>
    obtain ⟨v, k⟩ := a
    rw [List.map_cons, List.nodup_cons] at hr
    exact List.Perm.flatMap_left _ fun x _ => ih hr.2 _
  | swap a b r =>
    obtain ⟨v, k⟩ := a
    obtain ⟨w, m⟩ := b
    have hwv : w ≠ v := by
      simp only [List.map_cons, List.nodup_cons, List.mem_cons, not_or] at hr
      exact hr.1.1
    simp only [assignments]
    rw [← Multiset.coe_eq_coe]
    simp only [← Multiset.coe_bind]
    rw [Multiset.bind_bind]
    refine Multiset.bind_congr fun x _ => Multiset.bind_congr fun y _ => ?_
    rw [Function.update_comm hwv]
  | trans h₁ _ ih₁ ih₂ =>
    exact (ih₁ hr env).trans (ih₂ ((h₁.map Prod.fst).nodup_iff.mp hr) env)

/-- The loops over a tree's leaves compose the tree's points, in order. -/
theorem map_eval_assignments : ∀ {t : StripTree ι} {k : ℕ} (env : ι → ℕ), t.leaves.Nodup →
    (assignments (t.extents k) env).map t.eval = t.points k
  | leaf v, k, env, _ => by
    have : ∀ l : List ℕ, (l.flatMap fun x => [Function.update env v x]).map (leaf v).eval = l := fun l => by
      induction l with
      | nil => rfl
      | cons x l ih => rw [List.flatMap_cons, List.map_append, ih]; simp [eval]
    exact this _
  | split v s o i, k, env, ht => by
    rw [leaves, List.nodup_append] at ht
    rw [extents, assignments_append, List.map_flatMap, points, compose, ← map_eval_assignments env ht.1,
      List.flatMap_map]
    refine List.flatMap_congr fun e _ => ?_
    rw [← map_eval_assignments e ht.2.1, List.map_map]
    refine List.map_congr_left fun e' he' => ?_
    have hframe : o.eval e' = o.eval e := eval_congr fun w hw =>
      assignments_frame (by rw [map_fst_extents]; exact fun hw' => ht.2.2 w hw w hw' rfl) he'
    rw [eval, hframe, Function.comp_apply]

end Assignments

/-! ### Cutting a leaf -/

section Graft
variable [DecidableEq ι]

/-- The range of the leaf `v` is cut as `sub`. -/
@[grind =]
def graft : StripTree ι → ι → StripTree ι → StripTree ι
  | leaf w, v, sub => if w = v then sub else leaf w
  | split w s o i, v, sub => split w s (o.graft v sub) (i.graft v sub)

variable {v : ι} {sub : StripTree ι}

theorem label_graft (t : StripTree ι) (h : sub.label = v) : (t.graft v sub).label = t.label := by
  cases t with
  | leaf w =>
    rw [graft]
    split
    · rw [h, label_leaf]
      exact (‹w = v›).symm
    · rfl
  | split _ _ _ _ => rfl

theorem graft_of_not_mem : ∀ {t : StripTree ι}, v ∉ t.leaves → t.graft v sub = t
  | leaf w, h => if_neg fun he : w = v => h (he ▸ List.mem_cons_self)
  | split _ _ _ _, h => by
    rw [leaves, List.mem_append, not_or] at h
    rw [graft, graft_of_not_mem h.1, graft_of_not_mem h.2]

theorem leaves_graft : ∀ t : StripTree ι, (t.graft v sub).leaves = t.leaves.flatMap fun w => if w = v then sub.leaves else [w]
  | leaf w => by
    rw [graft, leaves, List.flatMap_singleton]
    split <;> rfl
  | split _ _ o i => by rw [graft, leaves, leaves_graft o, leaves_graft i, leaves, List.flatMap_append]

theorem height_graft_le : ∀ t : StripTree ι, (t.graft v sub).height ≤ t.height + sub.height
  | leaf w => by
    rw [graft]
    split
    · exact Nat.le_add_left _ _
    · exact Nat.le_add_right _ _
  | split _ _ o i => by
    have ho := height_graft_le o
    have hi := height_graft_le i
    simp only [graft, height]
    omega

theorem positive_graft (hs : sub.Positive) : ∀ {t : StripTree ι}, t.Positive → (t.graft v sub).Positive
  | leaf w, _ => by
    rw [graft]
    split
    · exact hs
    · trivial
  | split _ _ _ _, ⟨h, ho, hi⟩ => ⟨h, positive_graft hs ho, positive_graft hs hi⟩

theorem inner_graft_subset : ∀ t : StripTree ι, (t.graft v sub).inner ⊆ sub.inner ++ t.inner
  | leaf w => by
    rw [graft]
    split
    · exact List.subset_append_left _ _
    · exact List.nil_subset _
  | split w _ o i => by
    have ho := inner_graft_subset o
    have hi := inner_graft_subset i
    intro x hx
    simp only [graft, inner, List.mem_cons, List.mem_append] at hx ⊢
    rcases hx with rfl | hx | hx
    · exact Or.inr (Or.inl rfl)
    · rcases List.mem_append.mp (ho hx) with h | h
      · exact Or.inl h
      · exact Or.inr (Or.inr (Or.inl h))
    · rcases List.mem_append.mp (hi hx) with h | h
      · exact Or.inl h
      · exact Or.inr (Or.inr (Or.inr h))

/-- Cutting a leaf adds the labels below the new cut. -/
theorem labels_graft_perm {s : ℕ} {a b : ι} : ∀ {t : StripTree ι}, t.labels.Nodup → v ∈ t.leaves →
    (t.graft v (split v s (leaf a) (leaf b))).labels.Perm (a :: b :: t.labels)
  | leaf w, _, hv => by
    obtain rfl : v = w := List.mem_singleton.mp hv
    rw [graft, if_pos rfl]
    exact @List.perm_append_comm _ [v] [a, b]
  | split w _ o i, hnd, hv => by
    obtain ⟨ho, hi, hoi⟩ := List.nodup_append.mp (List.nodup_cons.mp hnd).2
    rw [graft, labels, labels]
    by_cases hvo : v ∈ o.leaves
    · have hvi : v ∉ i.leaves := fun h => hoi v (leaves_subset_labels o hvo) v (leaves_subset_labels i h) rfl
      rw [graft_of_not_mem hvi]
      exact (((labels_graft_perm ho hvo).append_right i.labels).cons w).trans
        ((@List.perm_append_comm _ [w] [a, b]).append_right (o.labels ++ i.labels))
    · have hvi : v ∈ i.leaves := (List.mem_append.mp hv).resolve_left hvo
      rw [graft_of_not_mem hvo]
      refine (((labels_graft_perm hi hvi).append_left o.labels).cons w).trans ?_
      rw [← List.singleton_append, ← List.append_assoc, show a :: b :: i.labels = [a, b] ++ i.labels from rfl,
        ← List.append_assoc]
      exact (List.perm_append_comm.append_right i.labels).trans (List.Perm.of_eq (by simp))

end Graft

end StripTree
end Strips
end Taco
