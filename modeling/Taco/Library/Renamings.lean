import Mathlib.Tactic

/-! Renamings that are found while two structures are compared: maps in both directions that grow, and comparisons that
    decide whether a renaming fits. -/

namespace Taco
namespace Renamings

/-! ### One-to-one relations -/

/-- Each element is related to one element at most, in both directions. -/
structure OneToOne {α : Type*} (R : α → α → Prop) : Prop where
  left : ∀ {a a' b}, R a b → R a' b → a = a'
  right : ∀ {a b b'}, R a b → R a b' → b = b'

namespace OneToOne

variable {α : Type*} {R S : α → α → Prop}

theorem eq : OneToOne fun a b : α => a = b where
  left := by
    rintro a a' b rfl rfl
    rfl
  right := by
    rintro a b b' rfl rfl
    rfl

theorem of_injective {f : α → α} (hf : Function.Injective f) : OneToOne fun a b => b = f a where
  left := by
    rintro a a' b rfl h
    exact hf h
  right := by
    rintro a b b' rfl rfl
    rfl

/-- From what is related to the same element to what it is related to. -/
theorem transfer (hR : OneToOne R) (hS : OneToOne S) : OneToOne fun b c => ∃ a, R a b ∧ S a c where
  left := by
    rintro b b' c ⟨a, hab, hac⟩ ⟨a', hab', hac'⟩
    obtain rfl := hS.left hac hac'
    exact hR.right hab hab'
  right := by
    rintro b c c' ⟨a, hab, hac⟩ ⟨a', hab', hac'⟩
    obtain rfl := hR.left hab hab'
    exact hS.right hac hac'

end OneToOne

theorem forall₂_transfer {α β γ : Type*} {P : α → β → Prop} {Q : α → γ → Prop} {R : β → γ → Prop}
    (h : ∀ a b c, P a b → Q a c → R b c) :
    ∀ {as bs cs}, List.Forall₂ P as bs → List.Forall₂ Q as cs → List.Forall₂ R bs cs
  | _, _, _, .nil, .nil => .nil
  | _, _, _, .cons hP hPs, .cons hQ hQs => .cons (h _ _ _ hP hQ) (forall₂_transfer h hPs hQs)

/-- What is reflexive and relates all that is related to the same is an equivalence. -/
theorem equivalence_of_transfer {α : Type*} {R : α → α → Prop} (hrefl : ∀ a, R a a)
    (htransfer : ∀ a b d, R a b → R a d → R b d) : Equivalence R where
  refl := hrefl
  symm hab := htransfer _ _ _ hab (hrefl _)
  trans hab hbd := htransfer _ _ _ (htransfer _ _ _ hab (hrefl _)) hbd

/-! ### Maps in both directions -/

/-- A map and its inverse, for elements that are of the same kind. -/
structure TwoWay (α : Type*) [DecidableEq α] (same : α → α → Bool) where
  toB : List (α × α)
  toA : List (α × α)
  inverse : ∀ a b, toB.lookup a = some b ↔ toA.lookup b = some a
  same_of_lookup : ∀ a b, toB.lookup a = some b → same a b = true

namespace TwoWay

variable {α : Type*} [DecidableEq α] {same : α → α → Bool}

def empty : TwoWay α same where
  toB := []
  toA := []
  inverse a b := by simp
  same_of_lookup a b h := by cases h

def Rel (m : TwoWay α same) (a b : α) : Prop := m.toB.lookup a = some b

theorem lookup_cons (a b x : α) (l : List (α × α)) : ((a, b) :: l).lookup x = if x = a then some b else l.lookup x := by
  rw [List.lookup_cons]
  by_cases h : x = a
  · simp [h]
  · rw [if_neg h, beq_false_of_ne h]

/-- A new pair of elements, neither of which is in the maps. -/
def insert (m : TwoWay α same) (a b : α) (ha : m.toB.lookup a = none) (hb : m.toA.lookup b = none)
    (hsame : same a b = true) : TwoWay α same where
  toB := (a, b) :: m.toB
  toA := (b, a) :: m.toA
  inverse x y := by
    rw [lookup_cons, lookup_cons]
    split_ifs with hx hy hy
    · simp [hx, hy]
    · rw [← m.inverse, hx, ha]
      simpa using Ne.symm hy
    · rw [m.inverse, hy, hb]
      simpa using Ne.symm hx
    · exact m.inverse x y
  same_of_lookup x y h := by
    rw [lookup_cons] at h
    split_ifs at h with hx
    · rw [hx, ← Option.some.inj h]
      exact hsame
    · exact m.same_of_lookup x y h

/-- Two elements are paired already, or neither is in the maps and they are of the same kind. -/
def check (m : TwoWay α same) (a b : α) : Option (TwoWay α same) :=
  match ha : m.toB.lookup a, hb : m.toA.lookup b with
  | none, none => if hsame : same a b = true then some (m.insert a b ha hb hsame) else none
  | some b', some a' => if b' = b ∧ a' = a then some m else none
  | some _, none | none, some _ => none

theorem oneToOne_rel (m : TwoWay α same) : OneToOne m.Rel where
  left h h' := Option.some.inj (((m.inverse _ _).mp h).symm.trans ((m.inverse _ _).mp h'))
  right h h' := Option.some.inj (h.symm.trans h')

theorem rel_empty {a b : α} : ¬ (empty : TwoWay α same).Rel a b := fun h => by cases h

theorem rel_insert {m : TwoWay α same} {a b x y : α} {ha : m.toB.lookup a = none} {hb : m.toA.lookup b = none}
    {hsame : same a b = true} : (m.insert a b ha hb hsame).Rel x y ↔ x = a ∧ y = b ∨ m.Rel x y := by
  rw [Rel, insert, lookup_cons]
  split_ifs with hx
  · constructor
    · exact fun h => Or.inl ⟨hx, (Option.some.inj h).symm⟩
    · rintro (⟨-, rfl⟩ | h)
      · rfl
      · rw [Rel, hx, ha] at h
        cases h
  · exact ⟨Or.inr, fun h => h.resolve_left fun h => hx h.1⟩

/-- A check that succeeds relates the two elements and keeps what is related. -/
theorem rel_of_check {m m' : TwoWay α same} {a b : α} (h : m.check a b = some m') :
    m'.Rel a b ∧ (∀ x y, m.Rel x y → m'.Rel x y) ∧ ∀ x y, m'.Rel x y → x = a ∧ y = b ∨ m.Rel x y := by
  unfold check at h
  split at h
  · split_ifs at h with hsame
    obtain rfl := Option.some.inj h
    exact ⟨rel_insert.mpr (Or.inl ⟨rfl, rfl⟩), fun x y hxy => rel_insert.mpr (Or.inr hxy), fun x y => rel_insert.mp⟩
  · rename_i b' a' ha hb
    split_ifs at h with heq
    obtain rfl := Option.some.inj h
    exact ⟨ha.trans (congrArg some heq.1), fun x y hxy => hxy, fun x y => Or.inr⟩
  · cases h
  · cases h

/-- A check succeeds on elements that a one-to-one relation relates besides those of the maps. -/
theorem exists_check {m : TwoWay α same} {R : α → α → Prop} (hR : OneToOne R) (hm : ∀ x y, m.Rel x y → R x y) {a b : α}
    (hab : R a b) (hsame : same a b = true) : ∃ m', m.check a b = some m' := by
  unfold check
  split
  · exact ⟨_, dif_pos hsame⟩
  · rename_i b' a' ha hb
    have hb' : b' = b := hR.right (hm a b' ha) hab
    have ha' : a' = a := hR.left (hm a' b ((m.inverse a' b).mpr hb)) hab
    exact ⟨m, if_pos ⟨hb', ha'⟩⟩
  · rename_i b' ha hb
    obtain rfl := hR.right (hm a b' ha) hab
    rw [(m.inverse a b').mp ha] at hb
    cases hb
  · rename_i a' ha hb
    have hrel := (m.inverse a' b).mpr hb
    obtain rfl := hR.left (hm a' b hrel) hab
    rw [hrel] at ha
    cases ha

/-- A check decides whether a one-to-one relation relates the elements besides those of the maps. -/
theorem check_iff {m : TwoWay α same} {R : α → α → Prop} (hR : OneToOne R) (hsame : ∀ {x y}, R x y → same x y = true)
    (hm : ∀ {x y}, m.Rel x y → R x y) {a b : α} :
    R a b ↔ ∃ m', m.check a b = some m' ∧ ∀ x y, m'.Rel x y → R x y := by
  constructor
  · intro hab
    obtain ⟨m', h⟩ := exists_check hR (fun _ _ => hm) hab (hsame hab)
    refine ⟨m', h, fun x y hxy => ?_⟩
    rcases (rel_of_check h).2.2 x y hxy with ⟨rfl, rfl⟩ | hxy
    · exact hab
    · exact hm hxy
  · rintro ⟨m', h, hm'⟩
    exact hm' a b (rel_of_check h).1

end TwoWay

/-! ### Comparisons -/

section Comparisons

variable {S R : Type*} [Preorder S] (within : S → R → Prop)

/-- A comparison that goes from state to state succeeds exactly within the renamings that fit. -/
def Decides (f : S → Option S) (P : R → Prop) : Prop :=
  ∀ s, (∀ s', f s = some s' → s ≤ s') ∧ ∀ r, within s r → (P r ↔ ∃ s', f s = some s' ∧ within s' r)

variable {within} {f g : S → Option S} {P Q : R → Prop}

namespace Decides

theorem congr (h : Decides within f P) (hPQ : ∀ r, P r ↔ Q r) : Decides within f Q := fun s =>
  ⟨(h s).1, fun r hr => (hPQ r).symm.trans ((h s).2 r hr)⟩

theorem always : Decides within some fun _ => True := by
  intro s
  exact ⟨fun _ h => le_of_eq (Option.some.inj h), fun _ hr => iff_of_true trivial ⟨s, rfl, hr⟩⟩

theorem never (hf : ∀ s, f s = none) (hP : ∀ r, ¬ P r) : Decides within f P := by
  intro s
  rw [hf s]
  refine ⟨fun _ h => ?_, fun r _ => iff_of_false (hP r) ?_⟩
  · cases h
  · rintro ⟨s', h, -⟩
    cases h

/-- A test that does not depend on the renaming. -/
theorem test (p : Prop) [Decidable p] : Decides within (fun s => if p then some s else none) fun _ => p := by
  by_cases hp : p
  · simp only [if_pos hp]
    exact always.congr fun _ => iff_of_true trivial hp
  · exact never (fun _ => if_neg hp) fun _ => hp

/-- One comparison after the other. -/
theorem bind (hmono : ∀ (s s' : S) (r : R), s ≤ s' → within s' r → within s r) (hf : Decides within f P)
    (hg : Decides within g Q) : Decides within (fun s => (f s).bind g) fun r => P r ∧ Q r := by
  intro s
  constructor
  · intro s' h
    obtain ⟨s₁, h₁, h₂⟩ := Option.bind_eq_some_iff.mp h
    exact ((hf s).1 s₁ h₁).trans ((hg s₁).1 s' h₂)
  · intro r hr
    constructor
    · rintro ⟨hP, hQ⟩
      obtain ⟨s₁, h₁, hr₁⟩ := ((hf s).2 r hr).mp hP
      obtain ⟨s', h₂, hr'⟩ := ((hg s₁).2 r hr₁).mp hQ
      exact ⟨s', Option.bind_eq_some_iff.mpr ⟨s₁, h₁, h₂⟩, hr'⟩
    · rintro ⟨s', h, hr'⟩
      obtain ⟨s₁, h₁, h₂⟩ := Option.bind_eq_some_iff.mp h
      have hr₁ : within s₁ r := hmono _ _ _ ((hg s₁).1 s' h₂) hr'
      exact ⟨((hf s).2 r hr).mpr ⟨s₁, h₁, hr₁⟩, ((hg s₁).2 r hr₁).mpr ⟨s', h₂, hr'⟩⟩

end Decides

end Comparisons

end Renamings
end Taco
