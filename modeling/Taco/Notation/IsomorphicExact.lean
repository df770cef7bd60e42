import Taco.Notation.Isomorphic

/-! `isomorphic` decides whether there is a renaming under which two nodes match, but for what the comparison leaves out. -/

namespace Taco
namespace Notation

open IndexNotation (Intrinsic)
open Renamings

/-! ### What the checks decide -/

namespace IsoState

/-- The second state relates all that the first one does. -/
instance : Preorder IsoState where
  le s s' := (∀ a b, s.tensors.Rel a b → s'.tensors.Rel a b) ∧ ∀ a b, s.vars.Rel a b → s'.vars.Rel a b
  le_refl _ := ⟨fun _ _ => id, fun _ _ => id⟩
  le_trans _ _ _ h h' := ⟨fun a b hab => h'.1 a b (h.1 a b hab), fun a b hab => h'.2 a b (h.2 a b hab)⟩

/-- The renaming extends the maps. -/
structure Within (s : IsoState) (r : Renaming) : Prop where
  tensors : ∀ {a b}, s.tensors.Rel a b → r.tensor a b
  vars : ∀ {a b}, s.vars.Rel a b → r.var a b

theorem Within.of_le (s s' : IsoState) (r : Renaming) (h : s ≤ s') (hr : s'.Within r) : s.Within r where
  tensors hab := hr.tensors (h.1 _ _ hab)
  vars hab := hr.vars (h.2 _ _ hab)

theorem within_empty (r : Renaming) : empty.Within r where
  tensors h := (TwoWay.rel_empty h).elim
  vars h := (TwoWay.rel_empty h).elim

/-- The renaming that the maps store. -/
def found (s : IsoState) : Renaming where
  tensor := s.tensors.Rel
  var := s.vars.Rel
  tensor_oneToOne := s.tensors.oneToOne_rel
  var_oneToOne := s.vars.oneToOne_rel
  sameKind h := s.tensors.same_of_lookup _ _ h

theorem within_found (s : IsoState) : s.Within s.found := ⟨id, id⟩

theorem decides_checkTensorVar (a b : TensorVar) : Decides Within (checkTensorVar a b) fun r => r.tensor a b := by
  intro s
  constructor
  · intro s' h
    obtain ⟨tensors, hcheck, rfl⟩ := Option.map_eq_some_iff.mp h
    exact ⟨(TwoWay.rel_of_check hcheck).2.1, fun _ _ => id⟩
  · intro r hr
    refine (TwoWay.check_iff r.tensor_oneToOne r.sameKind hr.tensors).trans ?_
    constructor
    · rintro ⟨tensors, h, hm⟩
      exact ⟨_, Option.map_eq_some_iff.mpr ⟨tensors, h, rfl⟩, fun hab => hm _ _ hab, hr.vars⟩
    · rintro ⟨s', h, hr'⟩
      obtain ⟨tensors, hcheck, rfl⟩ := Option.map_eq_some_iff.mp h
      exact ⟨tensors, hcheck, fun _ _ => hr'.tensors⟩

theorem decides_checkIndexVar (a b : IndexVar) : Decides Within (checkIndexVar a b) fun r => r.var a b := by
  intro s
  constructor
  · intro s' h
    obtain ⟨vars, hcheck, rfl⟩ := Option.map_eq_some_iff.mp h
    exact ⟨fun _ _ => id, (TwoWay.rel_of_check hcheck).2.1⟩
  · intro r hr
    refine (TwoWay.check_iff r.var_oneToOne (fun _ => rfl) hr.vars).trans ?_
    constructor
    · rintro ⟨vars, h, hm⟩
      exact ⟨_, Option.map_eq_some_iff.mpr ⟨vars, h, rfl⟩, hr.tensors, fun hab => hm _ _ hab⟩
    · rintro ⟨s', h, hr'⟩
      obtain ⟨vars, hcheck, rfl⟩ := Option.map_eq_some_iff.mp h
      exact ⟨vars, hcheck, fun _ _ => hr'.vars⟩

end IsoState

open IsoState (Within checkTensorVar checkIndexVar decides_checkTensorVar decides_checkIndexVar)

theorem decides_checkIndexVars : ∀ as bs : List IndexVar,
    Decides Within (checkIndexVars as bs) fun r => List.Forall₂ r.var as bs
  | [], [] => Decides.always.congr fun r => iff_of_true trivial .nil
  | a :: as, b :: bs =>
    ((decides_checkIndexVar a b).bind Within.of_le (decides_checkIndexVars as bs)).congr fun r => List.forall₂_cons.symm
  | [], b :: bs => Decides.never (fun s => rfl) fun r h => by cases h
  | a :: as, [] => Decides.never (fun s => rfl) fun r h => by cases h

theorem decides_checkAccesses (a b : Access) : Decides Within (checkAccesses a b) fun r => a.Renamed r b := by
  refine Decides.congr (((decides_checkTensorVar _ _).bind Within.of_le (decides_checkIndexVars _ _)).bind Within.of_le
    (Decides.test _)) fun r => ?_
  constructor
  · rintro ⟨⟨htensor, hvars⟩, hstructure, hwindows, hsets⟩
    exact ⟨htensor, hvars, hstructure, hwindows, hsets⟩
  · rintro ⟨htensor, hvars, hstructure, hwindows, hsets⟩
    exact ⟨⟨htensor, hvars⟩, hstructure, hwindows, hsets⟩

mutual

theorem decides_isoExpr : ∀ a b : IndexExpr, Decides Within (isoExpr a b) fun r => a.Matches .coded r b
  | .undefined, e => by
    cases e
    case undefined => exact Decides.always.congr fun r => by simp [IndexExpr.Matches]
    all_goals exact Decides.never (fun s => by simp only [isoExpr]) fun r h => by simp [IndexExpr.Matches] at h
  | .access a, e => by
    cases e
    case access b => exact (decides_checkAccesses a b).congr fun r => by simp [IndexExpr.Matches]
    all_goals exact Decides.never (fun s => by simp only [isoExpr]) fun r h => by simp [IndexExpr.Matches] at h
  | .literal type val, e => by
    cases e
    case literal type' val' => exact (Decides.test _).congr fun r => by simp [IndexExpr.Matches, eq_comm]
    all_goals exact Decides.never (fun s => by simp only [isoExpr]) fun r h => by simp [IndexExpr.Matches] at h
  | .neg a, e => by
    cases e
    case neg b => exact (decides_isoExpr a b).congr fun r => by simp [IndexExpr.Matches]
    all_goals exact Decides.never (fun s => by simp only [isoExpr]) fun r h => by simp [IndexExpr.Matches] at h
  | .sqrt a, e => by
    cases e
    case sqrt b => exact (decides_isoExpr a b).congr fun r => by simp [IndexExpr.Matches]
    all_goals exact Decides.never (fun s => by simp only [isoExpr]) fun r h => by simp [IndexExpr.Matches] at h
  | .add a a', e => by
    cases e
    case add b b' =>
      exact ((decides_isoExpr a b).bind Within.of_le (decides_isoExpr a' b')).congr fun r => by simp [IndexExpr.Matches]
    all_goals exact Decides.never (fun s => by simp only [isoExpr]) fun r h => by simp [IndexExpr.Matches] at h
  | .sub a a', e => by
    cases e
    case sub b b' =>
      exact ((decides_isoExpr a b).bind Within.of_le (decides_isoExpr a' b')).congr fun r => by simp [IndexExpr.Matches]
    all_goals exact Decides.never (fun s => by simp only [isoExpr]) fun r h => by simp [IndexExpr.Matches] at h
  | .mul a a', e => by
    cases e
    case mul b b' =>
      exact ((decides_isoExpr a b).bind Within.of_le (decides_isoExpr a' b')).congr fun r => by simp [IndexExpr.Matches]
    all_goals exact Decides.never (fun s => by simp only [isoExpr]) fun r h => by simp [IndexExpr.Matches] at h
  | .div a a', e => by
    cases e
    case div b b' =>
      exact ((decides_isoExpr a b).bind Within.of_le (decides_isoExpr a' b')).congr fun r => by simp [IndexExpr.Matches]
    all_goals exact Decides.never (fun s => by simp only [isoExpr]) fun r h => by simp [IndexExpr.Matches] at h
  | .cast a type, e => by
    cases e
    case cast b type' =>
      exact ((Decides.test (type = type')).bind Within.of_le (decides_isoExpr a b)).congr fun r => by
        simp [IndexExpr.Matches, eq_comm, and_comm]
    all_goals exact Decides.never (fun s => by simp only [isoExpr]) fun r h => by simp [IndexExpr.Matches] at h
  | .callIntrinsic func args, e => by
    cases e
    case callIntrinsic func' args' =>
      exact ((Decides.test (getIntrinsicName func = getIntrinsicName func')).bind Within.of_le
        (decides_isoExprs args args')).congr fun r => by simp [IndexExpr.Matches, Comparison.coded]
    all_goals exact Decides.never (fun s => by simp only [isoExpr]) fun r h => by simp [IndexExpr.Matches] at h
  | .reduction op var a, e => by
    cases e
    case reduction op' var' b =>
      exact (((decides_isoExpr op op').bind Within.of_le (decides_checkIndexVar var var')).bind Within.of_le
        (decides_isoExpr a b)).congr fun r => by simp [IndexExpr.Matches, and_assoc]
    all_goals exact Decides.never (fun s => by simp only [isoExpr]) fun r h => by simp [IndexExpr.Matches] at h

theorem decides_isoExprs : ∀ as bs : List IndexExpr,
    Decides Within (isoExprs as bs) fun r => IndexExpr.MatchesAll .coded r as bs
  | [], [] => Decides.always.congr fun r => by simp [IndexExpr.MatchesAll]
  | [], b :: bs => Decides.never (fun s => by simp only [isoExprs]) fun r h => by simp [IndexExpr.MatchesAll] at h
  | a :: as, [] => Decides.never (fun s => by simp only [isoExprs]) fun r h => by simp [IndexExpr.MatchesAll] at h
  | a :: as, b :: bs =>
    ((decides_isoExpr a b).bind Within.of_le (decides_isoExprs as bs)).congr fun r => by
      simp [IndexExpr.MatchesAll]

end

theorem decides_isoStmt (a b : IndexStmt) : Decides Within (isoStmt a b) fun r => a.Matches .coded r b := by
  induction a generalizing b with
  | undefined =>
    cases b
    case undefined => exact Decides.always.congr fun r => by simp [IndexStmt.Matches]
    all_goals exact Decides.never (fun s => by simp only [isoStmt]) fun r h => by simp [IndexStmt.Matches] at h
  | assignment lhs rhs op =>
    cases b
    case assignment lhs' rhs' op' =>
      exact (((decides_checkAccesses lhs lhs').bind Within.of_le (decides_isoExpr rhs rhs')).bind Within.of_le
        (decides_isoExpr op op')).congr fun r => by simp [IndexStmt.Matches, and_assoc]
    all_goals exact Decides.never (fun s => by simp only [isoStmt]) fun r h => by simp [IndexStmt.Matches] at h
  | yield indexVars expr =>
    cases b
    case yield indexVars' expr' =>
      exact ((decides_checkIndexVars indexVars indexVars').bind Within.of_le (decides_isoExpr expr expr')).congr fun r => by
        simp [IndexStmt.Matches]
    all_goals exact Decides.never (fun s => by simp only [isoStmt]) fun r h => by simp [IndexStmt.Matches] at h
  | «forall» i a tags ih =>
    cases b
    case «forall» j b tags' =>
      exact (((decides_checkIndexVar i j).bind Within.of_le (ih b)).bind Within.of_le (Decides.test (tags = tags'))).congr
        fun r => by simp [IndexStmt.Matches, and_assoc, and_comm, eq_comm]
    all_goals exact Decides.never (fun s => by simp only [isoStmt]) fun r h => by simp [IndexStmt.Matches] at h
  | «where» consumer producer ih ih' =>
    cases b
    case «where» consumer' producer' =>
      exact ((ih consumer').bind Within.of_le (ih' producer')).congr fun r => by simp [IndexStmt.Matches]
    all_goals exact Decides.never (fun s => by simp only [isoStmt]) fun r h => by simp [IndexStmt.Matches] at h
  | sequence definition mutation ih ih' =>
    cases b
    case sequence definition' mutation' =>
      exact ((ih definition').bind Within.of_le (ih' mutation')).congr fun r => by simp [IndexStmt.Matches]
    all_goals exact Decides.never (fun s => by simp only [isoStmt]) fun r h => by simp [IndexStmt.Matches] at h
  | assemble queries compute results ih ih' =>
    cases b
    case assemble queries' compute' results' =>
      exact ((ih queries').bind Within.of_le (ih' compute')).congr fun r => by
        simp [IndexStmt.Matches, Comparison.coded]
    all_goals exact Decides.never (fun s => by simp only [isoStmt]) fun r h => by simp [IndexStmt.Matches] at h
  | multi a a' ih ih' =>
    cases b
    case multi b b' => exact ((ih b).bind Within.of_le (ih' b')).congr fun r => by simp [IndexStmt.Matches]
    all_goals exact Decides.never (fun s => by simp only [isoStmt]) fun r h => by simp [IndexStmt.Matches] at h
  | suchThat a predicate ih =>
    cases b
    case suchThat b predicate' =>
      exact ((ih b).bind Within.of_le (Decides.test _)).congr fun r => by simp [IndexStmt.Matches, Comparison.coded]
    all_goals exact Decides.never (fun s => by simp only [isoStmt]) fun r h => by simp [IndexStmt.Matches] at h

/-- A comparison that starts without pairs decides whether there is a renaming. -/
theorem isSome_iff {f : IsoState → Option IsoState} {P : Renaming → Prop} (h : Decides Within f P) :
    (f .empty).isSome = true ↔ ∃ r, P r := by
  rw [Option.isSome_iff_exists]
  constructor
  · rintro ⟨s', hs⟩
    have hwithin : IsoState.empty.Within s'.found := Within.of_le _ _ _ ((h .empty).1 s' hs) s'.within_found
    exact ⟨s'.found, ((h .empty).2 _ hwithin).mpr ⟨s', hs, s'.within_found⟩⟩
  · rintro ⟨r, hr⟩
    obtain ⟨s', hs, -⟩ := ((h .empty).2 r (IsoState.within_empty r)).mp hr
    exact ⟨s', hs⟩

theorem IndexExpr.isomorphic_iff (a b : IndexExpr) : a.isomorphic b = true ↔ ∃ r, a.Matches .coded r b :=
  isSome_iff (decides_isoExpr a b)

theorem IndexStmt.isomorphic_iff (a b : IndexStmt) : a.isomorphic b = true ↔ ∃ r, a.Matches .coded r b :=
  isSome_iff (decides_isoStmt a b)

/-! ### The comparison is an equivalence -/

namespace Shape

theorem equal_iff : ∀ {a b : Shape}, a.equal b = true ↔ a.map Dimension.getSize = b.map Dimension.getSize
  | [], [] => by simp [equal]
  | [], e :: es => by simp [equal]
  | d :: ds, [] => by simp [equal]
  | d :: ds, e :: es => by simp [equal, Dimension.equal_iff, equal_iff (a := ds)]

end Shape

theorem TensorVar.sameKind_iff {a b : TensorVar} :
    a.sameKind b = true ↔ a.type.dataType = b.type.dataType ∧
      a.type.shape.map Dimension.getSize = b.type.shape.map Dimension.getSize ∧ a.format = b.format := by
  simp [sameKind, TensorType.equal, Shape.equal_iff, and_assoc]

namespace IndexVarRel

/-- Relations are equal but for the accesses of their positions. -/
theorem equal_iff {a b : IndexVarRel} :
    a.equal b = true ↔ a = b ∨ ∃ p q node x y, a = .pos p q node x ∧ b = .pos p q node y := by
  cases a <;> cases b <;> simp [equal, and_assoc]
  grind

theorem equal_refl (a : IndexVarRel) : a.equal a = true := equal_iff.mpr (Or.inl rfl)

theorem equal_transfer (a b d : IndexVarRel) (hb : a.equal b = true) (hd : a.equal d = true) : b.equal d = true := by
  rw [equal_iff] at hb hd ⊢
  rcases hb with rfl | ⟨p, q, node, x, y, rfl, rfl⟩
  · exact hd
  · rcases hd with rfl | ⟨p', q', node', x', z, hpos, rfl⟩
    · exact Or.inr ⟨p, q, node, y, x, rfl, rfl⟩
    · injection hpos with hp hq hnode hx
      subst hp hq hnode
      exact Or.inr ⟨p, q, node, y, z, rfl, rfl⟩

end IndexVarRel

namespace Renaming

/-- Nothing is renamed. -/
def refl : Renaming where
  tensor a b := a = b
  var a b := a = b
  tensor_oneToOne := .eq
  var_oneToOne := .eq
  sameKind := by
    rintro a b rfl
    exact TensorVar.sameKind_iff.mpr ⟨rfl, rfl, rfl⟩

/-- From what the first renaming gives to what the second one gives. -/
def transfer (r r' : Renaming) : Renaming where
  tensor b d := ∃ a, r.tensor a b ∧ r'.tensor a d
  var b d := ∃ a, r.var a b ∧ r'.var a d
  tensor_oneToOne := r.tensor_oneToOne.transfer r'.tensor_oneToOne
  var_oneToOne := r.var_oneToOne.transfer r'.var_oneToOne
  sameKind := by
    rintro b d ⟨a, hb, hd⟩
    have hab := TensorVar.sameKind_iff.mp (r.sameKind hb)
    have had := TensorVar.sameKind_iff.mp (r'.sameKind hd)
    exact TensorVar.sameKind_iff.mpr ⟨hab.1.symm.trans had.1, hab.2.1.symm.trans had.2.1, hab.2.2.symm.trans had.2.2⟩

end Renaming

theorem Access.renamed_refl (a : Access) : a.Renamed .refl a where
  tensorVar := rfl
  indexVars := List.forall₂_same.mpr fun _ _ => rfl
  isAccessingStructure := rfl
  windowedModes := rfl
  indexSetModes := rfl

theorem Access.Renamed.transfer {r r' : Renaming} {a b d : Access} (hb : a.Renamed r b) (hd : a.Renamed r' d) :
    b.Renamed (r.transfer r') d where
  tensorVar := ⟨a.tensorVar, hb.tensorVar, hd.tensorVar⟩
  indexVars := forall₂_transfer (fun _ _ _ h h' => ⟨_, h, h'⟩) hb.indexVars hd.indexVars
  isAccessingStructure := hb.isAccessingStructure.symm.trans hd.isAccessingStructure
  windowedModes := hb.windowedModes.symm.trans hd.windowedModes
  indexSetModes := hb.indexSetModes.symm.trans hd.indexSetModes

namespace IndexExpr

mutual

theorem matches_refl : ∀ a : IndexExpr, a.Matches .coded .refl a
  | undefined | literal _ _ => rfl
  | access a => ⟨a, rfl, a.renamed_refl⟩
  | neg a | sqrt a | cast a _ => ⟨a, rfl, matches_refl a⟩
  | add a b | sub a b | mul a b | div a b => ⟨a, b, rfl, matches_refl a, matches_refl b⟩
  | callIntrinsic func args => ⟨func, args, rfl, rfl, matchesAll_refl args⟩
  | reduction op var a => ⟨op, var, a, rfl, matches_refl op, rfl, matches_refl a⟩

theorem matchesAll_refl : ∀ as : List IndexExpr, MatchesAll .coded .refl as as
  | [] => rfl
  | a :: as => ⟨a, as, rfl, matches_refl a, matchesAll_refl as⟩

end

mutual

theorem matches_transfer {r r' : Renaming} :
    ∀ {a b d : IndexExpr}, a.Matches .coded r b → a.Matches .coded r' d → b.Matches .coded (r.transfer r') d
  | undefined, _, _, rfl, rfl => rfl
  | literal _ _, _, _, rfl, rfl => rfl
  | access _, _, _, ⟨_, rfl, hb⟩, ⟨d, rfl, hd⟩ => ⟨d, rfl, hb.transfer hd⟩
  | neg _, _, _, ⟨_, rfl, hb⟩, ⟨d, rfl, hd⟩ => ⟨d, rfl, matches_transfer hb hd⟩
  | sqrt _, _, _, ⟨_, rfl, hb⟩, ⟨d, rfl, hd⟩ => ⟨d, rfl, matches_transfer hb hd⟩
  | cast _ _, _, _, ⟨_, rfl, hb⟩, ⟨d, rfl, hd⟩ => ⟨d, rfl, matches_transfer hb hd⟩
  | add _ _, _, _, ⟨_, _, rfl, hb, hb'⟩, ⟨d, d', rfl, hd, hd'⟩ =>
    ⟨d, d', rfl, matches_transfer hb hd, matches_transfer hb' hd'⟩
  | sub _ _, _, _, ⟨_, _, rfl, hb, hb'⟩, ⟨d, d', rfl, hd, hd'⟩ =>
    ⟨d, d', rfl, matches_transfer hb hd, matches_transfer hb' hd'⟩
  | mul _ _, _, _, ⟨_, _, rfl, hb, hb'⟩, ⟨d, d', rfl, hd, hd'⟩ =>
    ⟨d, d', rfl, matches_transfer hb hd, matches_transfer hb' hd'⟩
  | div _ _, _, _, ⟨_, _, rfl, hb, hb'⟩, ⟨d, d', rfl, hd, hd'⟩ =>
    ⟨d, d', rfl, matches_transfer hb hd, matches_transfer hb' hd'⟩
  | callIntrinsic _ _, _, _, ⟨_, _, rfl, hb, hbs⟩, ⟨func, args, rfl, hd, hds⟩ =>
    ⟨func, args, rfl, Eq.trans (Eq.symm hb) hd, matchesAll_transfer hbs hds⟩
  | reduction _ _ _, _, _, ⟨_, _, _, rfl, hop, hvar, hb⟩, ⟨op, var, d, rfl, hop', hvar', hd⟩ =>
    ⟨op, var, d, rfl, matches_transfer hop hop', ⟨_, hvar, hvar'⟩, matches_transfer hb hd⟩

theorem matchesAll_transfer {r r' : Renaming} :
    ∀ {as bs ds : List IndexExpr}, MatchesAll .coded r as bs → MatchesAll .coded r' as ds →
      MatchesAll .coded (r.transfer r') bs ds
  | [], _, _, rfl, rfl => rfl
  | _ :: _, _, _, ⟨_, _, rfl, hb, hbs⟩, ⟨d, ds, rfl, hd, hds⟩ =>
    ⟨d, ds, rfl, matches_transfer hb hd, matchesAll_transfer hbs hds⟩

end

end IndexExpr

namespace IndexStmt

theorem matches_refl (a : IndexStmt) : a.Matches .coded .refl a := by
  induction a with
  | undefined => rfl
  | assignment lhs rhs op => exact ⟨lhs, rhs, op, rfl, lhs.renamed_refl, rhs.matches_refl, op.matches_refl⟩
  | yield indexVars expr => exact ⟨indexVars, expr, rfl, List.forall₂_same.mpr fun _ _ => rfl, expr.matches_refl⟩
  | «forall» i a tags ih => exact ⟨i, a, rfl, rfl, ih⟩
  | «where» a a' ih ih' | sequence a a' ih ih' | multi a a' ih ih' => exact ⟨a, a', rfl, ih, ih'⟩
  | assemble a a' results ih ih' => exact ⟨a, a', results, rfl, ih, ih', trivial⟩
  | suchThat a predicate ih => exact ⟨a, predicate, rfl, ih, List.forall₂_same.mpr fun rel _ => rel.equal_refl⟩

theorem matches_transfer {r r' : Renaming} {a b d : IndexStmt} (hb : a.Matches .coded r b) (hd : a.Matches .coded r' d) :
    b.Matches .coded (r.transfer r') d := by
  induction a generalizing b d with
  | undefined =>
    obtain rfl := hb
    exact hd
  | assignment lhs rhs op =>
    obtain ⟨lhs₁, rhs₁, op₁, rfl, hlhs₁, hrhs₁, hop₁⟩ := hb
    obtain ⟨lhs₂, rhs₂, op₂, rfl, hlhs₂, hrhs₂, hop₂⟩ := hd
    exact ⟨lhs₂, rhs₂, op₂, rfl, hlhs₁.transfer hlhs₂, IndexExpr.matches_transfer hrhs₁ hrhs₂,
      IndexExpr.matches_transfer hop₁ hop₂⟩
  | yield indexVars expr =>
    obtain ⟨vars₁, expr₁, rfl, hvars₁, hexpr₁⟩ := hb
    obtain ⟨vars₂, expr₂, rfl, hvars₂, hexpr₂⟩ := hd
    exact ⟨vars₂, expr₂, rfl, forall₂_transfer (fun _ _ _ h h' => ⟨_, h, h'⟩) hvars₁ hvars₂,
      IndexExpr.matches_transfer hexpr₁ hexpr₂⟩
  | «forall» i a tags ih =>
    obtain ⟨j₁, b₁, rfl, hvar₁, h₁⟩ := hb
    obtain ⟨j₂, b₂, rfl, hvar₂, h₂⟩ := hd
    exact ⟨j₂, b₂, rfl, ⟨i, hvar₁, hvar₂⟩, ih h₁ h₂⟩
  | «where» a a' ih ih' | sequence a a' ih ih' | multi a a' ih ih' =>
    obtain ⟨b₁, b₁', rfl, h₁, h₁'⟩ := hb
    obtain ⟨b₂, b₂', rfl, h₂, h₂'⟩ := hd
    exact ⟨b₂, b₂', rfl, ih h₁ h₂, ih' h₁' h₂'⟩
  | assemble a a' results ih ih' =>
    obtain ⟨b₁, b₁', results₁, rfl, h₁, h₁', -⟩ := hb
    obtain ⟨b₂, b₂', results₂, rfl, h₂, h₂', -⟩ := hd
    exact ⟨b₂, b₂', results₂, rfl, ih h₁ h₂, ih' h₁' h₂', trivial⟩
  | suchThat a predicate ih =>
    obtain ⟨b₁, predicate₁, rfl, h₁, hpredicate₁⟩ := hb
    obtain ⟨b₂, predicate₂, rfl, h₂, hpredicate₂⟩ := hd
    change List.Forall₂ _ _ _ at hpredicate₁ hpredicate₂
    exact ⟨b₂, predicate₂, rfl, ih h₁ h₂,
      forall₂_transfer IndexVarRel.equal_transfer hpredicate₁ hpredicate₂⟩

end IndexStmt

theorem IndexExpr.isomorphic_equivalence : Equivalence fun a b : IndexExpr => a.isomorphic b = true := by
  refine equivalence_of_transfer (fun a => (isomorphic_iff a a).mpr ⟨_, a.matches_refl⟩) fun a b d hb hd => ?_
  obtain ⟨r, hb⟩ := (isomorphic_iff a b).mp hb
  obtain ⟨r', hd⟩ := (isomorphic_iff a d).mp hd
  exact (isomorphic_iff b d).mpr ⟨_, matches_transfer hb hd⟩

theorem IndexStmt.isomorphic_equivalence : Equivalence fun a b : IndexStmt => a.isomorphic b = true := by
  refine equivalence_of_transfer (fun a => (isomorphic_iff a a).mpr ⟨_, a.matches_refl⟩) fun a b d hb hd => ?_
  obtain ⟨r, hb⟩ := (isomorphic_iff a b).mp hb
  obtain ⟨r', hd⟩ := (isomorphic_iff a d).mp hd
  exact (isomorphic_iff b d).mpr ⟨_, matches_transfer hb hd⟩

end Notation
end Taco
