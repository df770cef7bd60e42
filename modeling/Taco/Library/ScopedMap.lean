import Mathlib.Tactic

/-! A map with levels of scoping: a key is looked up in the innermost scope that has it. -/

namespace Taco

/-- The scopes, innermost first. -/
structure ScopedMap (κ ν : Type) where
  scopes : List (List (κ × ν))

namespace ScopedMap

variable {κ ν : Type} [DecidableEq κ]

/-- A map of one empty scope. -/
def empty : ScopedMap κ ν := ⟨[[]]⟩

def scope (m : ScopedMap κ ν) : ScopedMap κ ν := ⟨[] :: m.scopes⟩

def unscope (m : ScopedMap κ ν) : ScopedMap κ ν := ⟨m.scopes.tail⟩

/-- The entries, innermost scope first. -/
def entries (m : ScopedMap κ ν) : List (κ × ν) := m.scopes.flatten

def get? (m : ScopedMap κ ν) (k : κ) : Option ν := m.scopes.findSome? fun s => s.lookup k

def contains (m : ScopedMap κ ν) (k : κ) : Bool := (m.get? k).isSome

/-- Insertion into the innermost scope, which keeps an entry that is already there. -/
def insert (m : ScopedMap κ ν) (k : κ) (v : ν) : ScopedMap κ ν :=
  match m.scopes with
  | [] => m
  | s :: rest => ⟨(if (s.lookup k).isSome then s else (k, v) :: s) :: rest⟩

/-- Erasing a key from the innermost scope that has it. -/
def removeFrom (k : κ) : List (List (κ × ν)) → List (List (κ × ν))
  | [] => []
  | s :: rest => if (s.lookup k).isSome then s.filter (fun e => e.1 ≠ k) :: rest else s :: removeFrom k rest

def remove (m : ScopedMap κ ν) (k : κ) : ScopedMap κ ν := ⟨removeFrom k m.scopes⟩

/-! ### Entries -/

/-- No key has two entries. -/
def Unshadowed (m : ScopedMap κ ν) : Prop := (m.entries.map Prod.fst).Nodup

theorem mem_of_lookup {s : List (κ × ν)} {k : κ} {v : ν} (h : s.lookup k = some v) : (k, v) ∈ s := by
  obtain ⟨l₁, l₂, rfl, -⟩ := List.lookup_eq_some_iff.mp h
  exact List.mem_append_right _ List.mem_cons_self

theorem lookup_eq_none {s : List (κ × ν)} {k : κ} : s.lookup k = none ↔ k ∉ s.map Prod.fst := by
  rw [List.lookup_eq_none_iff, List.mem_map]
  constructor
  · rintro h ⟨e, he, rfl⟩
    exact absurd (h e he) (by simp)
  · intro h e he
    rw [bne_iff_ne]
    exact fun hk => h ⟨e, he, hk.symm⟩

theorem mem_of_get? {m : ScopedMap κ ν} {k : κ} {v : ν} (h : m.get? k = some v) : (k, v) ∈ m.entries := by
  obtain ⟨s, hs, hv⟩ := List.exists_of_findSome?_eq_some h
  exact List.mem_flatten.mpr ⟨s, hs, mem_of_lookup hv⟩

theorem get?_eq_none {m : ScopedMap κ ν} {k : κ} : m.get? k = none ↔ k ∉ m.entries.map Prod.fst := by
  rw [get?, List.findSome?_eq_none_iff, entries, List.map_flatten, List.mem_flatten]
  constructor
  · rintro h ⟨_, hs, hk⟩
    obtain ⟨s, hmem, rfl⟩ := List.mem_map.mp hs
    exact lookup_eq_none.mp (h s hmem) hk
  · intro h s hs
    exact lookup_eq_none.mpr fun hk => h ⟨_, List.mem_map_of_mem hs, hk⟩

/-- In a map without shadowing, looking up is membership. -/
theorem get?_eq_some {m : ScopedMap κ ν} (hm : m.Unshadowed) {k : κ} {v : ν} :
    m.get? k = some v ↔ (k, v) ∈ m.entries := by
  refine ⟨mem_of_get?, fun hmem => ?_⟩
  cases h : m.get? k with
  | none => exact absurd (List.mem_map_of_mem hmem) (get?_eq_none.mp h)
  | some w => rw [(Prod.mk.inj (List.inj_on_of_nodup_map hm (mem_of_get? h) hmem rfl)).2]

theorem contains_iff {m : ScopedMap κ ν} {k : κ} : m.contains k = true ↔ k ∈ m.entries.map Prod.fst := by
  rw [contains, ← not_iff_not, Bool.not_eq_true, Option.isSome_eq_false_iff, Option.isNone_iff_eq_none, get?_eq_none]

/-! ### Operations -/

omit [DecidableEq κ] in
@[simp] theorem entries_scope (m : ScopedMap κ ν) : m.scope.entries = m.entries := rfl

theorem removeFrom_sublist (k : κ) : ∀ ss : List (List (κ × ν)), List.Forall₂ List.Sublist (removeFrom k ss) ss
  | [] => .nil
  | s :: rest => by
    rw [removeFrom]
    split_ifs
    · exact .cons List.filter_sublist (List.forall₂_same.mpr fun _ _ => List.Sublist.refl _)
    · exact .cons (List.Sublist.refl _) (removeFrom_sublist k rest)

theorem not_mem_removeFrom {k : κ} : ∀ {ss : List (List (κ × ν))}, (ss.flatten.map Prod.fst).Nodup →
    k ∉ (removeFrom k ss).flatten.map Prod.fst
  | [], _ => by simp [removeFrom]
  | s :: rest, h => by
    rw [List.flatten_cons, List.map_append, List.nodup_append] at h
    obtain ⟨-, hrest, hdisj⟩ := h
    rw [removeFrom]
    cases hs : s.lookup k with
    | some v =>
      have hk : k ∈ s.map Prod.fst := List.mem_map_of_mem (mem_of_lookup hs)
      rw [Option.isSome_some, if_pos rfl, List.flatten_cons, List.map_append, List.mem_append, not_or]
      refine ⟨fun hmem => ?_, fun hmem => hdisj k hk k hmem rfl⟩
      obtain ⟨e, he, rfl⟩ := List.mem_map.mp hmem
      exact absurd rfl (of_decide_eq_true (List.mem_filter.mp he).2)
    | none =>
      rw [Option.isSome_none, if_neg Bool.false_ne_true, List.flatten_cons, List.map_append, List.mem_append, not_or]
      exact ⟨lookup_eq_none.mp hs, not_mem_removeFrom hrest⟩

theorem not_mem_remove {m : ScopedMap κ ν} (hm : m.Unshadowed) (k : κ) : k ∉ (m.remove k).entries.map Prod.fst :=
  not_mem_removeFrom hm

/-! ### Shrinking -/

omit [DecidableEq κ]

/-- The map has the scopes of the other one, with some entries left out. -/
def Shrinks (m m' : ScopedMap κ ν) : Prop := List.Forall₂ List.Sublist m'.scopes m.scopes

theorem forall₂_sublist_trans : ∀ {ss ts us : List (List (κ × ν))}, List.Forall₂ List.Sublist ss ts →
    List.Forall₂ List.Sublist ts us → List.Forall₂ List.Sublist ss us
  | _, _, _, .nil, .nil => .nil
  | _, _, _, .cons h hs, .cons h' hs' => .cons (h.trans h') (forall₂_sublist_trans hs hs')

theorem Shrinks.refl (m : ScopedMap κ ν) : m.Shrinks m := List.forall₂_same.mpr fun _ _ => List.Sublist.refl _

theorem Shrinks.trans {m₁ m₂ m₃ : ScopedMap κ ν} (h₁ : m₁.Shrinks m₂) (h₂ : m₂.Shrinks m₃) : m₁.Shrinks m₃ :=
  forall₂_sublist_trans h₂ h₁

theorem shrinks_remove [DecidableEq κ] (m : ScopedMap κ ν) (k : κ) : m.Shrinks (m.remove k) :=
  removeFrom_sublist k m.scopes

theorem flatten_sublist : ∀ {ss ts : List (List (κ × ν))}, List.Forall₂ List.Sublist ss ts →
    ss.flatten.Sublist ts.flatten
  | _, _, .nil => List.Sublist.refl _
  | _, _, .cons h hs => by
    rw [List.flatten_cons, List.flatten_cons]
    exact h.append (flatten_sublist hs)

theorem Shrinks.entries {m m' : ScopedMap κ ν} (h : m.Shrinks m') : m'.entries.Sublist m.entries := flatten_sublist h

theorem Shrinks.unshadowed {m m' : ScopedMap κ ν} (h : m.Shrinks m') (hm : m.Unshadowed) : m'.Unshadowed :=
  hm.sublist (h.entries.map Prod.fst)

end ScopedMap
end Taco
