import Taco.IndexNotation.ProvenanceGraph
import Taco.Notation.Nodes

/-! The iterators of the levels of accesses, and the one that a position variable takes. -/

namespace Taco
namespace Notation

open Concrete (ProvenanceGraph)

/-! ### The iterators -/

/-- A pack of levels: the number of its levels, the format, the mode and the level of the first. -/
structure ModePack where
  numModes : ℕ
  modeFormat : ModeFormat
  mode : ℕ
  level : ℕ
  deriving DecidableEq

/-- The level that an iterator goes over. -/
structure Mode where
  dimension : Dimension
  level : ℕ
  modeFormat : ModeFormat
  modePack : ModePack
  packLocation : ℕ
  parentModeFormat : Option ModeFormat
  deriving DecidableEq

/-- An iterator of an access: of its root, or of one of its levels. -/
structure Iterator where
  access : Access
  mode : Option Mode
  deriving DecidableEq

structure ModeAccess where
  access : Access
  modePos : ℕ
  deriving DecidableEq

/-- The mode that a level stores, where the first level is 1. -/
def Access.modeNumber (a : Access) (level : ℕ) : ℕ := a.tensorVar.format.modeOrdering.getD (level - 1) 0

/-- The loop over the levels of a pack. -/
def createPackIterators (access : Access) (modePack : ModePack) :
    (level pos : ℕ) → (parentModeType : Option ModeFormat) → List ModeFormat → List (ModeAccess × Iterator)
  | _, _, _, [] => []
  | level, pos, parentModeType, modeType :: modeTypes =>
    let modeNumber := access.modeNumber level
    let mode : Mode :=
      ⟨access.tensorVar.type.shape.getDimension modeNumber, level, modeType, modePack, pos, parentModeType⟩
    (⟨access, modeNumber + 1⟩, ⟨access, some mode⟩) ::
      createPackIterators access modePack (level + 1) (pos + 1) (some modeType) modeTypes

/-- The loop over the packs. -/
def createLevelIterators (access : Access) :
    (level : ℕ) → (parentModeType : Option ModeFormat) → List (List ModeFormat) → List (ModeAccess × Iterator)
  | _, _, [] => []
  | level, parentModeType, modeTypePack :: packs =>
    let modePack : ModePack :=
      ⟨modeTypePack.length, modeTypePack.headD .dense, access.modeNumber level, level⟩
    createPackIterators access modePack level 0 parentModeType modeTypePack ++
      createLevelIterators access (level + modeTypePack.length) (modeTypePack.getLast?.or parentModeType) packs

/-- `createAccessIterators`: the entries for the root and for the levels. -/
def createAccessIterators (access : Access) : List (ModeAccess × Iterator) :=
  (⟨access, 0⟩, ⟨access, none⟩) :: createLevelIterators access 1 none access.tensorVar.format.modeFormatPacks

/-- `levelIterators` of a statement with these accesses, in the order of their nodes. -/
def levelIterators (accesses : List Access) : List (ModeAccess × Iterator) := accesses.flatMap createAccessIterators

structure PosRelNode where
  parentVar : IndexVar
  posVar : IndexVar
  access : Access

namespace PosRelNode

/-- The entry of the mode ordering at the first mode that the variable indexes. -/
def orderingEntry (rel : PosRelNode) (underivedParent : IndexVar) : ℕ :=
  rel.access.tensorVar.format.modeOrdering.getD (rel.access.indexVars.idxOf underivedParent) 0

def maxMode (rel : PosRelNode) (provGraph : ProvenanceGraph) : ℕ :=
  (provGraph.getUnderivedAncestors rel.parentVar).foldl (fun maxMode underivedParent =>
    let mode := rel.orderingEntry underivedParent
    if mode > maxMode then mode else maxMode) 0

/-- `getAccessIterator`; nothing where the code reports an internal error. -/
def getAccessIterator (rel : PosRelNode) (accesses : List Access) (provGraph : ProvenanceGraph) : Option Iterator :=
  let modeAccess : ModeAccess := ⟨rel.access, rel.maxMode provGraph + 1⟩
  ((levelIterators accesses).find? fun levelIterator => levelIterator.1 = modeAccess).map Prod.snd

end PosRelNode

/-! ### What a position variable iterates over -/

namespace Access

/-- The level that stores a mode. -/
def storageLevel (a : Access) (mode : ℕ) : ℕ := a.tensorVar.format.modeOrdering.idxOf mode + 1

/-- `mode` is accessed by one of the variables, and no level below its own stores another such mode. -/
structure IsDeepest (a : Access) (vars : List IndexVar) (mode : ℕ) : Prop where
  accessed : ∃ v ∈ vars, a.indexVars[mode]? = some v
  deepest : ∀ m, (∃ v ∈ vars, a.indexVars[m]? = some v) → a.storageLevel m ≤ a.storageLevel mode

end Access

/-- The iterator of the deepest level that stores a mode of the relation's variable. -/
def PosRelNode.Target (rel : PosRelNode) (provGraph : ProvenanceGraph) (iterator : Iterator) : Prop :=
  iterator.access = rel.access ∧
    ∃ mode, rel.access.IsDeepest (provGraph.getUnderivedAncestors rel.parentVar) mode ∧
      iterator.mode.map Mode.level = some (rel.access.storageLevel mode)

/-! ### The keys -/

variable {access : Access}

theorem createPackIterators_spec {modePack : ModePack} {level pos : ℕ} {parentModeType : Option ModeFormat}
    {modeTypes : List ModeFormat} {e : ModeAccess × Iterator}
    (he : e ∈ createPackIterators access modePack level pos parentModeType modeTypes) :
    e.2.access = access ∧ ∃ l, level ≤ l ∧ l < level + modeTypes.length ∧ e.1 = ⟨access, access.modeNumber l + 1⟩ ∧
      e.2.mode.map Mode.level = some l := by
  induction modeTypes generalizing level pos parentModeType with
  | nil => cases he
  | cons modeType modeTypes ih =>
    rcases List.mem_cons.mp he with rfl | he
    · exact ⟨rfl, level, le_rfl, by simp, rfl, rfl⟩
    · obtain ⟨haccess, l, hle, hlt, hkey, hlevel⟩ := ih he
      exact ⟨haccess, l, by omega, by rw [List.length_cons]; omega, hkey, hlevel⟩

theorem exists_createPackIterators {modePack : ModePack} {level pos : ℕ} {parentModeType : Option ModeFormat}
    {modeTypes : List ModeFormat} {l : ℕ} (hle : level ≤ l) (hlt : l < level + modeTypes.length) :
    ∃ e ∈ createPackIterators access modePack level pos parentModeType modeTypes, e.1 = ⟨access, access.modeNumber l + 1⟩ := by
  induction modeTypes generalizing level pos parentModeType with
  | nil => exact absurd hlt (by simpa using hle)
  | cons modeType modeTypes ih =>
    rcases hle.eq_or_lt with rfl | hle
    · exact ⟨_, List.mem_cons_self, rfl⟩
    · rw [List.length_cons] at hlt
      obtain ⟨e, he, hkey⟩ := @ih (level + 1) (pos + 1) (some modeType) hle (by omega)
      exact ⟨e, List.mem_cons_of_mem _ he, hkey⟩

theorem createLevelIterators_spec {level : ℕ} {parentModeType : Option ModeFormat} {packs : List (List ModeFormat)}
    {e : ModeAccess × Iterator} (he : e ∈ createLevelIterators access level parentModeType packs) :
    e.2.access = access ∧ ∃ l, level ≤ l ∧ l < level + packs.flatten.length ∧ e.1 = ⟨access, access.modeNumber l + 1⟩ ∧
      e.2.mode.map Mode.level = some l := by
  induction packs generalizing level parentModeType with
  | nil => cases he
  | cons modeTypePack packs ih =>
    rw [List.flatten_cons, List.length_append]
    rcases List.mem_append.mp he with he | he
    · obtain ⟨haccess, l, hle, hlt, hkey, hlevel⟩ := createPackIterators_spec he
      exact ⟨haccess, l, hle, by omega, hkey, hlevel⟩
    · obtain ⟨haccess, l, hle, hlt, hkey, hlevel⟩ := ih he
      exact ⟨haccess, l, by omega, by omega, hkey, hlevel⟩

theorem exists_createLevelIterators {level : ℕ} {parentModeType : Option ModeFormat} {packs : List (List ModeFormat)}
    {l : ℕ} (hle : level ≤ l) (hlt : l < level + packs.flatten.length) :
    ∃ e ∈ createLevelIterators access level parentModeType packs, e.1 = ⟨access, access.modeNumber l + 1⟩ := by
  induction packs generalizing level parentModeType with
  | nil => exact absurd hlt (by simpa using hle)
  | cons modeTypePack packs ih =>
    rw [List.flatten_cons, List.length_append] at hlt
    rcases lt_or_ge l (level + modeTypePack.length) with hpack | hpack
    · obtain ⟨e, he, hkey⟩ := exists_createPackIterators hle hpack
      exact ⟨e, List.mem_append_left _ he, hkey⟩
    · obtain ⟨e, he, hkey⟩ := ih hpack (by omega)
      exact ⟨e, List.mem_append_right _ he, hkey⟩

/-- The iterator under the key of a mode is that of the level that stores the mode. -/
theorem createAccessIterators_spec {mode : ℕ} {e : ModeAccess × Iterator} (he : e ∈ createAccessIterators access)
    {a : Access} (hkey : e.1 = ⟨a, mode + 1⟩) :
    e.2.access = a ∧ e.2.mode.map Mode.level = some (a.storageLevel mode) := by
  rcases List.mem_cons.mp he with rfl | he
  · cases hkey
  · obtain ⟨haccess, l, hle, hlt, hkey', hlevel⟩ := createLevelIterators_spec he
    rw [hkey, ModeAccess.mk.injEq, Nat.add_right_cancel_iff] at hkey'
    obtain ⟨rfl, rfl⟩ := hkey'
    refine ⟨haccess, hlevel.trans (congrArg some ?_)⟩
    have hcomplete := a.tensorVar.format.complete
    have hlength : l - 1 < a.tensorVar.format.modeOrdering.length := by
      rw [hcomplete.length_eq, List.length_range]
      omega
    have hnodup : a.tensorVar.format.modeOrdering.Nodup := hcomplete.nodup_iff.mpr List.nodup_range
    rw [Access.storageLevel, Access.modeNumber, List.getD_eq_getElem?_getD, List.getElem?_eq_getElem hlength,
      Option.getD_some, hnodup.idxOf_getElem]
    omega

theorem exists_createAccessIterators {mode : ℕ} (hmode : mode ∈ access.tensorVar.format.modeOrdering) :
    ∃ e ∈ createAccessIterators access, e.1 = ⟨access, mode + 1⟩ := by
  have hlt : access.tensorVar.format.modeOrdering.idxOf mode < access.tensorVar.format.modeFormatPacks.flatten.length := by
    rw [← List.length_range (n := List.length _), ← access.tensorVar.format.complete.length_eq]
    exact List.idxOf_lt_length_iff.mpr hmode
  have hle : 1 ≤ access.storageLevel mode := Nat.le_add_left 1 _
  have hbelow : access.storageLevel mode < 1 + access.tensorVar.format.modeFormatPacks.flatten.length := by
    rw [Access.storageLevel]
    omega
  obtain ⟨e, he, hkey⟩ := exists_createLevelIterators hle hbelow
  refine ⟨e, List.mem_cons_of_mem _ he, hkey.trans ?_⟩
  rw [Access.modeNumber, Access.storageLevel, Nat.add_sub_cancel, List.getD_eq_getElem?_getD,
    List.getElem?_eq_getElem (List.idxOf_lt_length_iff.mpr hmode), Option.getD_some, List.getElem_idxOf]

/-! ### The lookup -/

theorem foldl_max (f : IndexVar → ℕ) (vars : List IndexVar) (n : ℕ) :
    n ≤ vars.foldl (fun m v => if f v > m then f v else m) n ∧
      (∀ v ∈ vars, f v ≤ vars.foldl (fun m v => if f v > m then f v else m) n) ∧
      (vars.foldl (fun m v => if f v > m then f v else m) n = n ∨
        ∃ v ∈ vars, f v = vars.foldl (fun m v => if f v > m then f v else m) n) := by
  induction vars generalizing n with
  | nil => exact ⟨le_rfl, fun v hv => absurd hv List.not_mem_nil, Or.inl rfl⟩
  | cons v vars ih =>
    rw [List.foldl_cons]
    split_ifs with h
    · obtain ⟨hle, hall, heq⟩ := ih (f v)
      refine ⟨h.le.trans hle, fun u hu => ?_, Or.inr ?_⟩
      · rcases List.mem_cons.mp hu with rfl | hu
        · exact hle
        · exact hall u hu
      · rcases heq with heq | ⟨u, hu, heq⟩
        · exact ⟨v, List.mem_cons_self, heq.symm⟩
        · exact ⟨u, List.mem_cons_of_mem _ hu, heq⟩
    · obtain ⟨hle, hall, heq⟩ := ih n
      refine ⟨hle, fun u hu => ?_, heq.imp id fun ⟨u, hu, heq⟩ => ⟨u, List.mem_cons_of_mem _ hu, heq⟩⟩
      rcases List.mem_cons.mp hu with rfl | hu
      · exact (not_lt.mp h).trans hle
      · exact hall u hu

/-- There is a variable at the end of a walk up. -/
theorem ancestors_ne_nil (g : ProvenanceGraph) (fuel : ℕ) (indexVar : IndexVar) : g.ancestors fuel indexVar ≠ [] := by
  induction fuel generalizing indexVar with
  | zero => exact List.cons_ne_nil _ _
  | succ fuel ih =>
    rw [ProvenanceGraph.ancestors]
    split_ifs with h
    · exact List.cons_ne_nil _ _
    · obtain ⟨parent, hparent⟩ := List.exists_mem_of_ne_nil _ fun hnil => h (List.isEmpty_iff.mpr hnil)
      rw [Ne, List.flatMap_eq_nil_iff]
      exact fun hall => ih parent (hall parent hparent)

namespace PosRelNode

variable {rel : PosRelNode} {provGraph : ProvenanceGraph}

theorem orderingEntry_le_maxMode {v : IndexVar} (hv : v ∈ provGraph.getUnderivedAncestors rel.parentVar) :
    rel.orderingEntry v ≤ rel.maxMode provGraph := (foldl_max rel.orderingEntry _ 0).2.1 v hv

/-- The largest entry is the entry of one of the variables. -/
theorem exists_orderingEntry_eq_maxMode (rel : PosRelNode) (provGraph : ProvenanceGraph) :
    ∃ v ∈ provGraph.getUnderivedAncestors rel.parentVar, rel.orderingEntry v = rel.maxMode provGraph := by
  obtain ⟨v, hv⟩ := List.exists_mem_of_ne_nil _ (ancestors_ne_nil provGraph provGraph.relations.length rel.parentVar)
  rcases (foldl_max rel.orderingEntry (provGraph.getUnderivedAncestors rel.parentVar) 0).2.2 with h | h
  · have hzero : rel.maxMode provGraph = 0 := h
    exact ⟨v, hv, Nat.le_antisymm (orderingEntry_le_maxMode hv) (by omega)⟩
  · exact h

theorem orderingEntry_mem {v : IndexVar} (hv : v ∈ rel.access.indexVars) :
    rel.orderingEntry v ∈ rel.access.tensorVar.format.modeOrdering := by
  have hlt : rel.access.indexVars.idxOf v < rel.access.tensorVar.format.modeOrdering.length := by
    have horder := rel.access.complete.trans rel.access.tensorVar.complete.symm
    rw [rel.access.tensorVar.format.complete.length_eq, List.length_range, ← Format.getOrder, ← horder]
    exact List.idxOf_lt_length_iff.mpr hv
  rw [orderingEntry, List.getD_eq_getElem?_getD, List.getElem?_eq_getElem hlt, Option.getD_some]
  exact List.getElem_mem hlt

/-- The iterator is that of the level which stores the mode with the number of the largest entry. -/
theorem getAccessIterator_spec {accesses : List Access} (haccess : rel.access ∈ accesses)
    (hvars : ∀ v ∈ provGraph.getUnderivedAncestors rel.parentVar, v ∈ rel.access.indexVars) :
    rel.maxMode provGraph ∈ rel.access.tensorVar.format.modeOrdering ∧
      ∃ iterator, rel.getAccessIterator accesses provGraph = some iterator ∧ iterator.access = rel.access ∧
        iterator.mode.map Mode.level = some (rel.access.storageLevel (rel.maxMode provGraph)) := by
  have hmem : rel.maxMode provGraph ∈ rel.access.tensorVar.format.modeOrdering := by
    obtain ⟨v, hv, heq⟩ := rel.exists_orderingEntry_eq_maxMode provGraph
    exact heq ▸ orderingEntry_mem (hvars v hv)
  obtain ⟨e, he, hkey⟩ := exists_createAccessIterators hmem
  have hfound : ((levelIterators accesses).find? fun levelIterator =>
      levelIterator.1 = (⟨rel.access, rel.maxMode provGraph + 1⟩ : ModeAccess)).isSome :=
    List.find?_isSome.mpr ⟨e, List.mem_flatMap.mpr ⟨rel.access, haccess, he⟩, decide_eq_true hkey⟩
  obtain ⟨e', he'⟩ := Option.isSome_iff_exists.mp hfound
  obtain ⟨a, -, hmem'⟩ := List.mem_flatMap.mp (List.mem_of_find?_eq_some he')
  have hfits := List.find?_some he'
  have hkey' := of_decide_eq_true hfits
  obtain ⟨haccess', hlevel⟩ := createAccessIterators_spec hmem' hkey'
  exact ⟨hmem, e'.2, by rw [getAccessIterator, he', Option.map_some], haccess', hlevel⟩

/-- A position variable takes the iterator of the deepest level of its variables exactly if, where `mode` is the mode
    that this level stores, the mode ordering has the entry `mode` at the position of one of the variables, and no larger
    one at the position of another. -/
theorem getAccessIterator_iff (rel : PosRelNode) (provGraph : ProvenanceGraph) (accesses : List Access)
    (haccess : rel.access ∈ accesses)
    (hvars : ∀ v ∈ provGraph.getUnderivedAncestors rel.parentVar, v ∈ rel.access.indexVars) :
    (∃ iterator, rel.getAccessIterator accesses provGraph = some iterator ∧ rel.Target provGraph iterator) ↔
      ∃ mode, rel.access.IsDeepest (provGraph.getUnderivedAncestors rel.parentVar) mode ∧
        (∃ v ∈ provGraph.getUnderivedAncestors rel.parentVar, rel.orderingEntry v = mode) ∧
        ∀ v ∈ provGraph.getUnderivedAncestors rel.parentVar, rel.orderingEntry v ≤ mode := by
  obtain ⟨hmem, iterator, hget, haccess', hlevel⟩ := getAccessIterator_spec haccess hvars
  constructor
  · rintro ⟨iterator', hget', -, mode, hdeepest, hlevel'⟩
    rw [hget, Option.some.injEq] at hget'
    subst hget'
    rw [hlevel, Option.some.injEq, Access.storageLevel, Access.storageLevel, Nat.add_right_cancel_iff] at hlevel'
    have heq : rel.maxMode provGraph = mode := (List.idxOf_inj hmem).mp hlevel'
    subst heq
    exact ⟨_, hdeepest, rel.exists_orderingEntry_eq_maxMode provGraph, fun v hv => orderingEntry_le_maxMode hv⟩
  · rintro ⟨mode, hdeepest, ⟨v, hv, heq⟩, hle⟩
    obtain ⟨u, hu, hmax⟩ := rel.exists_orderingEntry_eq_maxMode provGraph
    have hmode : rel.maxMode provGraph = mode :=
      Nat.le_antisymm (hmax ▸ hle u hu) (heq ▸ orderingEntry_le_maxMode hv)
    exact ⟨iterator, hget, haccess', mode, hdeepest, hmode ▸ hlevel⟩

/-- A position variable of the rows of a matrix that is stored by columns. -/
def rowsOfColumns : PosRelNode where
  parentVar := 0
  posVar := 2
  access :=
    { tensorVar := ⟨0, ⟨.real .float64, [.sized 4, .sized 5]⟩, ⟨[[.dense], [.dense]], [1, 0], .swap 0 1 []⟩, rfl⟩
      indexVars := [0, 1]
      windowedModes := []
      indexSetModes := []
      isAccessingStructure := false
      complete := rfl }

theorem getAccessIterator_iff_rowsOfColumns :
    let provGraph : ProvenanceGraph := ⟨[.pos 0 2]⟩
    (∃ iterator, rowsOfColumns.getAccessIterator [rowsOfColumns.access] provGraph = some iterator ∧
      rowsOfColumns.Target provGraph iterator) ↔
      ∃ mode, rowsOfColumns.access.IsDeepest (provGraph.getUnderivedAncestors 0) mode ∧
        (∃ v ∈ provGraph.getUnderivedAncestors 0, rowsOfColumns.orderingEntry v = mode) ∧
        ∀ v ∈ provGraph.getUnderivedAncestors 0, rowsOfColumns.orderingEntry v ≤ mode :=
  getAccessIterator_iff rowsOfColumns ⟨[.pos 0 2]⟩ [rowsOfColumns.access] (List.mem_singleton_self _) (by decide)

/-- The rows are stored by the second level, and the iterator is that of the first. -/
theorem getAccessIterator_rowsOfColumns :
    ¬ ∃ iterator, rowsOfColumns.getAccessIterator [rowsOfColumns.access] ⟨[.pos 0 2]⟩ = some iterator ∧
      rowsOfColumns.Target ⟨[.pos 0 2]⟩ iterator := by
  rintro ⟨iterator, hget, -, mode, hdeepest, hlevel⟩
  have hfirst : (rowsOfColumns.getAccessIterator [rowsOfColumns.access] ⟨[.pos 0 2]⟩).map (·.mode.map Mode.level) =
      some (some 1) := by decide
  rw [hget, Option.map_some, hlevel, Option.some.injEq, Option.some.injEq] at hfirst
  obtain ⟨v, hv, hmode⟩ := hdeepest.accessed
  have hzero : v = 0 := by
    have hall : ∀ u ∈ (⟨[.pos 0 2]⟩ : ProvenanceGraph).getUnderivedAncestors rowsOfColumns.parentVar, u = 0 := by decide
    exact hall v hv
  have hmodes : ∀ m < 2, rowsOfColumns.access.indexVars[m]? = some 0 → rowsOfColumns.access.storageLevel m ≠ 1 := by decide
  obtain ⟨hlt, -⟩ := List.getElem?_eq_some_iff.mp hmode
  exact hmodes mode hlt (hzero ▸ hmode) hfirst

end PosRelNode

end Notation
end Taco
