import Mathlib.Tactic

/-! Index expressions and the rewriter that zeroes accesses. -/

namespace Taco

/-- Index expressions; an access is given by the node that stands for it. -/
inductive IndexExpr (V : Type*) where
  | access (node : ℕ)
  | literal (val : V)
  | neg (a : IndexExpr V)
  | add (a b : IndexExpr V)
  | sub (a b : IndexExpr V)
  | mul (a b : IndexExpr V)

namespace IndexExpr

variable {V : Type*}

/-- The accesses from left to right. -/
def accesses : IndexExpr V → List ℕ
  | access node => [node]
  | literal _ => []
  | neg a => a.accesses
  | add a b | sub a b | mul a b => a.accesses ++ b.accesses

/-- The value of the expression where the accesses have values. -/
@[grind =]
def eval [Ring V] (val : ℕ → V) : IndexExpr V → V
  | access node => val node
  | literal v => v
  | neg a => -a.eval val
  | add a b => a.eval val + b.eval val
  | sub a b => a.eval val - b.eval val
  | mul a b => a.eval val * b.eval val

/-! ### Zero -/

def visitDisjunctionOp (op : IndexExpr V → IndexExpr V → IndexExpr V) : Option (IndexExpr V) → Option (IndexExpr V) →
    Option (IndexExpr V)
  | none, none => none
  | none, some b => some b
  | some a, none => some a
  | some a, some b => some (op a b)

def visitConjunctionOp (op : IndexExpr V → IndexExpr V → IndexExpr V) : Option (IndexExpr V) → Option (IndexExpr V) →
    Option (IndexExpr V)
  | some a, some b => some (op a b)
  | _, _ => none

/-- The expression whose zeroed accesses are left out; nothing is left of one that is zero. -/
@[grind =]
def zero (zeroed : List ℕ) : IndexExpr V → Option (IndexExpr V)
  | access node => if zeroed.contains node then none else some (access node)
  | literal v => some (literal v)
  | neg a => (a.zero zeroed).map neg
  | add a b => visitDisjunctionOp add (a.zero zeroed) (b.zero zeroed)
  | sub a b =>
    match a.zero zeroed, b.zero zeroed with
    | none, none => none
    | none, some b => some (neg b)
    | some a, none => some a
    | some a, some b => some (sub a b)
  | mul a b => visitConjunctionOp mul (a.zero zeroed) (b.zero zeroed)

/-! ### What is left -/

/-- Something is left of the expression where only some accesses are present. -/
def Defined (present : ℕ → Prop) : IndexExpr V → Prop
  | access node => present node
  | literal _ => True
  | neg a => a.Defined present
  | add a b | sub a b => a.Defined present ∨ b.Defined present
  | mul a b => a.Defined present ∧ b.Defined present

/-- The access is left. -/
def Live (present : ℕ → Prop) (node : ℕ) : IndexExpr V → Prop
  | access node' => node = node' ∧ present node'
  | literal _ => False
  | neg a => a.Live present node
  | add a b | sub a b => a.Live present node ∨ b.Live present node
  | mul a b => (a.Defined present ∧ b.Defined present) ∧ (a.Live present node ∨ b.Live present node)

variable {present present' : ℕ → Prop} {node : ℕ}

theorem Defined.mono {e : IndexExpr V} (h : e.Defined present) (hle : ∀ a ∈ e.accesses, present a → present' a) :
    e.Defined present' := by
  induction e with
  | access a => exact hle a (List.mem_singleton_self a) h
  | literal v => trivial
  | neg a ih => exact ih h hle
  | add a b iha ihb | sub a b iha ihb =>
    rcases h with h | h
    · exact Or.inl (iha h fun x hx => hle x (List.mem_append_left _ hx))
    · exact Or.inr (ihb h fun x hx => hle x (List.mem_append_right _ hx))
  | mul a b iha ihb =>
    exact ⟨iha h.1 fun x hx => hle x (List.mem_append_left _ hx), ihb h.2 fun x hx => hle x (List.mem_append_right _ hx)⟩

theorem defined_congr {e : IndexExpr V} (h : ∀ a ∈ e.accesses, present a ↔ present' a) :
    e.Defined present ↔ e.Defined present' :=
  ⟨fun he => he.mono fun a ha => (h a ha).mp, fun he => he.mono fun a ha => (h a ha).mpr⟩

theorem Live.mono {e : IndexExpr V} (h : e.Live present node) (hle : ∀ a ∈ e.accesses, present a → present' a) :
    e.Live present' node := by
  induction e with
  | access a => exact ⟨h.1, hle a (List.mem_singleton_self a) h.2⟩
  | literal v => cases h
  | neg a ih => exact ih h hle
  | add a b iha ihb | sub a b iha ihb =>
    rcases h with h | h
    · exact Or.inl (iha h fun x hx => hle x (List.mem_append_left _ hx))
    · exact Or.inr (ihb h fun x hx => hle x (List.mem_append_right _ hx))
  | mul a b iha ihb =>
    have hla : ∀ x ∈ a.accesses, present x → present' x := fun x hx => hle x (List.mem_append_left _ hx)
    have hlb : ∀ x ∈ b.accesses, present x → present' x := fun x hx => hle x (List.mem_append_right _ hx)
    exact ⟨⟨h.1.1.mono hla, h.1.2.mono hlb⟩, h.2.imp (iha · hla) (ihb · hlb)⟩

theorem live_congr {e : IndexExpr V} (h : ∀ a ∈ e.accesses, present a ↔ present' a) :
    e.Live present node ↔ e.Live present' node :=
  ⟨fun he => he.mono fun a ha => (h a ha).mp, fun he => he.mono fun a ha => (h a ha).mpr⟩

/-- Where all accesses are present everything is left. -/
theorem defined_of_forall {e : IndexExpr V} (h : ∀ a ∈ e.accesses, present a) : e.Defined present := by
  induction e with
  | access a => exact h a (List.mem_singleton_self a)
  | literal v => trivial
  | neg a ih => exact ih h
  | add a b iha ihb | sub a b iha ihb => exact Or.inl (iha fun x hx => h x (List.mem_append_left _ hx))
  | mul a b iha ihb => exact ⟨iha fun x hx => h x (List.mem_append_left _ hx), ihb fun x hx => h x (List.mem_append_right _ hx)⟩

theorem live_of_forall {e : IndexExpr V} (h : ∀ a ∈ e.accesses, present a) (hnode : node ∈ e.accesses) :
    e.Live present node := by
  induction e with
  | access a => exact ⟨List.mem_singleton.mp hnode, h a (List.mem_singleton_self a)⟩
  | literal v => cases hnode
  | neg a ih => exact ih h hnode
  | add a b iha ihb | sub a b iha ihb =>
    rcases List.mem_append.mp hnode with ha | hb
    · exact Or.inl (iha (fun x hx => h x (List.mem_append_left _ hx)) ha)
    · exact Or.inr (ihb (fun x hx => h x (List.mem_append_right _ hx)) hb)
  | mul a b iha ihb =>
    have hla : ∀ x ∈ a.accesses, present x := fun x hx => h x (List.mem_append_left _ hx)
    have hlb : ∀ x ∈ b.accesses, present x := fun x hx => h x (List.mem_append_right _ hx)
    exact ⟨⟨defined_of_forall hla, defined_of_forall hlb⟩, (List.mem_append.mp hnode).imp (iha hla) (ihb hlb)⟩

theorem Live.mem_accesses {e : IndexExpr V} (h : e.Live present node) : node ∈ e.accesses := by
  induction e with
  | access a => exact h.1 ▸ List.mem_singleton_self _
  | literal v => cases h
  | neg a ih => exact ih h
  | add a b iha ihb | sub a b iha ihb => exact List.mem_append.mpr (h.imp iha ihb)
  | mul a b iha ihb => exact List.mem_append.mpr (h.2.imp iha ihb)

theorem Live.of_present {e : IndexExpr V} (h : e.Live present node) : present node := by
  induction e with
  | access a => exact h.1 ▸ h.2
  | literal v => cases h
  | neg a ih => exact ih h
  | add a b iha ihb | sub a b iha ihb => exact h.elim iha ihb
  | mul a b iha ihb => exact h.2.elim iha ihb

/-- An access is left only of an expression of which something is left. -/
theorem Live.defined {e : IndexExpr V} (h : e.Live present node) : e.Defined present := by
  induction e with
  | access a => exact h.2
  | literal v => cases h
  | neg a ih => exact ih h
  | add a b iha ihb | sub a b iha ihb => exact h.imp iha ihb
  | mul a b iha ihb => exact h.1

/-! ### Zeroed expressions -/

theorem zero_isSome {zeroed : List ℕ} (e : IndexExpr V) : (e.zero zeroed).isSome ↔ e.Defined (· ∉ zeroed) := by
  induction e with
  | access a => by_cases h : a ∈ zeroed <;> simp [zero, Defined, h]
  | literal v => simp [zero, Defined]
  | neg a ih => simp [zero, Defined, ih]
  | add a b iha ihb =>
    rw [Defined, ← iha, ← ihb, zero]
    cases a.zero zeroed <;> cases b.zero zeroed <;> simp [visitDisjunctionOp]
  | sub a b iha ihb =>
    rw [Defined, ← iha, ← ihb, zero]
    cases a.zero zeroed <;> cases b.zero zeroed <;> simp
  | mul a b iha ihb =>
    rw [Defined, ← iha, ← ihb, zero]
    cases a.zero zeroed <;> cases b.zero zeroed <;> simp [visitConjunctionOp]

theorem live_of_mem_zero {zeroed : List ℕ} {e e' : IndexExpr V} (h : e.zero zeroed = some e') (hnode : node ∈ e'.accesses) :
    e.Live (· ∉ zeroed) node := by
  induction e generalizing e' with
  | access a =>
    by_cases ha : a ∈ zeroed <;> simp only [zero, List.contains_eq_mem, ha, decide_true, decide_false, if_true,
      Bool.false_eq_true, if_false, Option.some.injEq, reduceCtorEq] at h
    subst h
    exact ⟨List.mem_singleton.mp hnode, ha⟩
  | literal v =>
    simp only [zero, Option.some.injEq] at h
    subst h
    cases hnode
  | neg a ih =>
    obtain ⟨a', ha', rfl⟩ := Option.map_eq_some_iff.mp h
    exact ih ha' hnode
  | add a b iha ihb =>
    rw [zero] at h
    cases ha : a.zero zeroed with
    | none =>
      cases hb : b.zero zeroed with
      | none => simp [ha, hb, visitDisjunctionOp] at h
      | some b' =>
        simp only [ha, hb, visitDisjunctionOp, Option.some.injEq] at h
        exact Or.inr (ihb (h ▸ hb) hnode)
    | some a' =>
      cases hb : b.zero zeroed with
      | none =>
        simp only [ha, hb, visitDisjunctionOp, Option.some.injEq] at h
        exact Or.inl (iha (h ▸ ha) hnode)
      | some b' =>
        simp only [ha, hb, visitDisjunctionOp, Option.some.injEq] at h
        subst h
        exact (List.mem_append.mp hnode).imp (iha ha) (ihb hb)
  | sub a b iha ihb =>
    rw [zero] at h
    cases ha : a.zero zeroed with
    | none =>
      cases hb : b.zero zeroed with
      | none => simp [ha, hb] at h
      | some b' =>
        simp only [ha, hb, Option.some.injEq] at h
        subst h
        exact Or.inr (ihb hb hnode)
    | some a' =>
      cases hb : b.zero zeroed with
      | none =>
        simp only [ha, hb, Option.some.injEq] at h
        exact Or.inl (iha (h ▸ ha) hnode)
      | some b' =>
        simp only [ha, hb, Option.some.injEq] at h
        subst h
        exact (List.mem_append.mp hnode).imp (iha ha) (ihb hb)
  | mul a b iha ihb =>
    rw [zero] at h
    cases ha : a.zero zeroed with
    | none => simp [ha, visitConjunctionOp] at h
    | some a' =>
      cases hb : b.zero zeroed with
      | none => simp [ha, hb, visitConjunctionOp] at h
      | some b' =>
        simp only [ha, hb, visitConjunctionOp, Option.some.injEq] at h
        subst h
        refine ⟨⟨(zero_isSome a).mp (by rw [ha]; rfl), (zero_isSome b).mp (by rw [hb]; rfl)⟩, ?_⟩
        exact (List.mem_append.mp hnode).imp (iha ha) (ihb hb)

/-- Zeroing twice is zeroing all. -/
theorem zero_zero (zeroed zeroed' : List ℕ) (e : IndexExpr V) :
    (e.zero zeroed).bind (zero zeroed') = e.zero (zeroed ++ zeroed') := by
  induction e with
  | access a => by_cases h : a ∈ zeroed <;> simp [zero, h]
  | literal v => rfl
  | neg a ih =>
    rw [zero, zero, ← ih]
    cases a.zero zeroed <;> rfl
  | add a b iha ihb =>
    rw [zero, zero, ← iha, ← ihb]
    rcases a.zero zeroed with _ | a' <;> rcases b.zero zeroed with _ | b'
    · rfl
    · cases h : b'.zero zeroed' <;> simp [visitDisjunctionOp, h]
    · cases h : a'.zero zeroed' <;> simp [visitDisjunctionOp, h]
    · rfl
  | sub a b iha ihb =>
    rw [zero, zero, ← iha, ← ihb]
    rcases a.zero zeroed with _ | a' <;> rcases b.zero zeroed with _ | b'
    · rfl
    · cases h : b'.zero zeroed' <;> simp [zero, h]
    · cases h : a'.zero zeroed' <;> simp [h]
    · rfl
  | mul a b iha ihb =>
    rw [zero, zero, ← iha, ← ihb]
    rcases a.zero zeroed with _ | a' <;> rcases b.zero zeroed with _ | b'
    · rfl
    · rfl
    · cases h : a'.zero zeroed' <;> simp [visitConjunctionOp, h]
    · rfl

/-! ### Values -/

section

variable [Ring V] {val val' : ℕ → V}

theorem eval_congr {e : IndexExpr V} (h : ∀ a ∈ e.accesses, val a = val' a) : e.eval val = e.eval val' := by
  induction e with
  | access a => exact h a (List.mem_singleton_self a)
  | literal v => rfl
  | neg a ih => rw [eval, eval, ih h]
  | add a b iha ihb | sub a b iha ihb | mul a b iha ihb =>
    rw [eval, eval, iha fun x hx => h x (List.mem_append_left _ hx), ihb fun x hx => h x (List.mem_append_right _ hx)]

theorem eval_zero (zeroed : List ℕ) (e : IndexExpr V) :
    (e.zero zeroed).elim 0 (eval val) = e.eval fun a => if a ∈ zeroed then 0 else val a := by
  induction e with
  | access a => by_cases h : a ∈ zeroed <;> simp [zero, eval, h]
  | literal v => rfl
  | neg a ih =>
    rw [zero, eval, ← ih]
    cases a.zero zeroed <;> simp [eval]
  | add a b iha ihb =>
    rw [zero, eval, ← iha, ← ihb]
    cases a.zero zeroed <;> cases b.zero zeroed <;> simp [visitDisjunctionOp, eval]
  | sub a b iha ihb =>
    rw [zero, eval, ← iha, ← ihb]
    cases a.zero zeroed <;> cases b.zero zeroed <;> simp [eval]
  | mul a b iha ihb =>
    rw [zero, eval, ← iha, ← ihb]
    cases a.zero zeroed <;> cases b.zero zeroed <;> simp [visitConjunctionOp, eval]

/-- An expression of which nothing is left is zero. -/
theorem eval_of_not_defined {e : IndexExpr V} (h : ¬e.Defined present) (hval : ∀ a ∈ e.accesses, ¬present a → val a = 0) :
    e.eval val = 0 := by
  induction e with
  | access a => exact hval a (List.mem_singleton_self a) h
  | literal v => exact absurd trivial h
  | neg a ih => rw [eval, ih h hval, neg_zero]
  | add a b iha ihb =>
    rw [eval, iha (fun ha => h (Or.inl ha)) fun x hx => hval x (List.mem_append_left _ hx),
      ihb (fun hb => h (Or.inr hb)) fun x hx => hval x (List.mem_append_right _ hx), add_zero]
  | sub a b iha ihb =>
    rw [eval, iha (fun ha => h (Or.inl ha)) fun x hx => hval x (List.mem_append_left _ hx),
      ihb (fun hb => h (Or.inr hb)) fun x hx => hval x (List.mem_append_right _ hx), sub_zero]
  | mul a b iha ihb =>
    rw [eval]
    by_cases ha : a.Defined present
    · rw [ihb (fun hb => h ⟨ha, hb⟩) fun x hx => hval x (List.mem_append_right _ hx), mul_zero]
    · rw [iha ha fun x hx => hval x (List.mem_append_left _ hx), zero_mul]

end

end IndexExpr

end Taco
