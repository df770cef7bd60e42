import Taco.Library.NumberedNames

/-! The names that the C generator gives to the variables of a function and to the properties of its tensors. -/

namespace Taco
namespace Naming

open NumberedNames (NoClash copies counter next nodup_produced_iff produced)

/-! ### Nodes -/

/-- A variable: a node of its own. -/
structure Var where
  id : ℕ
  name : String
  isPtr : Bool
  deriving DecidableEq

inductive TensorProperty where
  | order | dimension | componentSize | modeOrdering | modeTypes | indices | values | valuesSize
  deriving DecidableEq

/-- A node that reads a property of a tensor. -/
structure GetProperty where
  id : ℕ
  tensor : Var
  property : TensorProperty
  mode : ℤ
  index : ℤ
  name : String
  deriving DecidableEq

/-- The nodes of the IR as the visitor sees them; a `node` stands for any other one, whose visit goes to its operands. -/
inductive Node where
  | var (op : Var)
  | getProperty (op : GetProperty)
  | varDecl (var : Var) (rhs : Node)
  | forLoop (var : Var) (start endBound increment contents : Node)
  | node (operands : List Node)

/-- A function; the inputs and outputs are asserted to be distinct. -/
structure IRFunction where
  inputs : List Var
  outputs : List Var
  body : Node
  distinct : (inputs ++ outputs).Nodup

/-! ### Unique names -/

/-- The names whose counters `resetUniqueNameCounters` sets to 0. -/
def reserved : List String :=
  ["auto", "break", "case", "char", "const", "continue", "default", "do", "double", "else", "enum", "extern", "float",
    "for", "goto", "if", "inline", "int", "long", "register", "restrict", "return", "short", "signed", "sizeof", "static",
    "struct", "switch", "typedef", "union", "unsigned", "void", "volatile", "while", "bool", "complex", "imaginary"]

/-- The keywords of C99. -/
def keywords : List String :=
  ["auto", "break", "case", "char", "const", "continue", "default", "do", "double", "else", "enum", "extern", "float",
    "for", "goto", "if", "inline", "int", "long", "register", "restrict", "return", "short", "signed", "sizeof", "static",
    "struct", "switch", "typedef", "union", "unsigned", "void", "volatile", "while", "_Bool", "_Complex", "_Imaginary"]

abbrev UniqueNameCounters := String → Option ℕ

def resetUniqueNameCounters : UniqueNameCounters := fun name => if name ∈ reserved then some 0 else none

def numbered (name : String) (n : ℕ) : String := name ++ "_" ++ toString n

def genUniqueName (counters : UniqueNameCounters) (name : String) : String × UniqueNameCounters :=
  match counters name with
  | some n => (numbered name n, Function.update counters name (some (n + 1)))
  | none => (name, Function.update counters name (some 0))

/-! ### The visitor -/

/-- A key of `varMap`: the address of a variable or of a property. -/
inductive Expr where
  | var (op : Var)
  | getProperty (op : GetProperty)
  deriving DecidableEq

/-- A property of a tensor, whichever node reads it. -/
abbrev PropertyKey := Var × TensorProperty × ℤ × ℤ

def GetProperty.key (op : GetProperty) : PropertyKey := (op.tensor, op.property, op.mode, op.index)

structure FindVars where
  varMap : List (Expr × String)
  varDecls : List (GetProperty × String)
  localVars : List Var
  canonicalPropertyVar : List (PropertyKey × String)
  outputProperties : List (PropertyKey × String)
  outputTensors : List Var
  inputTensors : List Var
  counters : UniqueNameCounters

namespace FindVars

/-- The inputs and outputs keep their names. -/
def make (inputs outputs : List Var) (counters : UniqueNameCounters) : FindVars where
  varMap := (inputs ++ outputs).map fun v => (.var v, v.name)
  varDecls := []
  localVars := []
  canonicalPropertyVar := []
  outputProperties := []
  outputTensors := outputs
  inputTensors := inputs
  counters := counters

def visitVar (f : FindVars) (op : Var) : FindVars :=
  if (f.varMap.lookup (.var op)).isSome then f
  else if op.isPtr then { f with varMap := (.var op, op.name) :: f.varMap }
  else
    let (name, counters) := genUniqueName f.counters op.name
    { f with varMap := (.var op, name) :: f.varMap, counters := counters }

def visitGetProperty (f : FindVars) (op : GetProperty) : FindVars :=
  if op.tensor ∉ f.inputTensors ∧ op.tensor ∉ f.outputTensors then f
  else if (f.varMap.lookup (.getProperty op)).isSome then f
  else
    match f.canonicalPropertyVar.lookup op.key with
    | some name => { f with varMap := (.getProperty op, name) :: f.varMap }
    | none =>
      let (name, counters) := genUniqueName f.counters op.name
      { f with
        canonicalPropertyVar := (op.key, name) :: f.canonicalPropertyVar
        varMap := (.getProperty op, name) :: f.varMap
        varDecls := (op, name) :: f.varDecls
        outputProperties :=
          if op.tensor ∈ f.outputTensors then (op.key, name) :: f.outputProperties else f.outputProperties
        counters := counters }

def addLocal (f : FindVars) (var : Var) : FindVars :=
  if var ∈ f.localVars then f else { f with localVars := f.localVars ++ [var] }

mutual

def visit (f : FindVars) : Node → FindVars
  | .var op => f.visitVar op
  | .getProperty op => f.visitGetProperty op
  | .varDecl var rhs => visit ((f.addLocal var).visitVar var) rhs
  | .forLoop var start endBound increment contents =>
    visit (visit (visit (visit ((f.addLocal var).visitVar var) start) endBound) increment) contents
  | .node operands => visitAll f operands

def visitAll (f : FindVars) : List Node → FindVars
  | [] => f
  | n :: ns => visitAll (visit f n) ns

end

end FindVars

/-- The names of a function, from fresh counters on. -/
def findVars (func : IRFunction) : FindVars :=
  (FindVars.make func.inputs func.outputs resetUniqueNameCounters).visit func.body

/-! ### What is asked of the names -/

/-- What has a name. -/
inductive Subject where
  | var (op : Var)
  | property (key : PropertyKey)
  deriving DecidableEq

def Expr.subject : Expr → Subject
  | var op => .var op
  | getProperty op => .property op.key

/-- The name that a visit of the node may request, where the variables in `known` have names. -/
def Expr.request (known : List Var) : Expr → Option (Subject × String)
  | var op => if op ∈ known ∨ op.isPtr = true then none else some (.var op, op.name)
  | getProperty op => if op.tensor ∈ known then some (.property op.key, op.name) else none

/-- Distinct variables and properties have distinct names, and no name that is made up is a keyword. -/
structure UniqueNames (func : IRFunction) : Prop where
  distinct : ∀ e name e' name', (e, name) ∈ (findVars func).varMap → (e', name') ∈ (findVars func).varMap →
    e.subject ≠ e'.subject → name ≠ name'
  keywordFree : ∀ e name, (e, name) ∈ (findVars func).varMap → (e.request (func.inputs ++ func.outputs)).isSome →
    name ∉ keywords

/-! ### The names that a function asks for -/

mutual

/-- The variables and properties in the order in which they are visited. -/
def Node.visited : Node → List Expr
  | .var op => [.var op]
  | .getProperty op => [.getProperty op]
  | .varDecl var rhs => .var var :: rhs.visited
  | .forLoop var start endBound increment contents =>
    .var var :: (start.visited ++ endBound.visited ++ increment.visited ++ contents.visited)
  | .node operands => visitedAll operands

def visitedAll : List Node → List Expr
  | [] => []
  | n :: ns => n.visited ++ visitedAll ns

end

/-- The first request for each variable and property. -/
def addRequest (known : List Var) (acc : List (Subject × String)) (e : Expr) :
    List (Subject × String) :=
  match e.request known with
  | some p => if p.1 ∈ acc.map Prod.fst then acc else acc ++ [p]
  | none => acc

def firstRequests (known : List Var) (es : List Expr) : List (Subject × String) :=
  es.foldl (addRequest known) []

def addPointer (known : List Var) (acc : List Var) : Expr → List Var
  | .var op => if op.isPtr = true ∧ op ∉ known ∧ op ∉ acc then acc ++ [op] else acc
  | .getProperty _ => acc

/-- The pointers that are neither inputs nor outputs; they keep their names. -/
def pointers (known : List Var) (es : List Expr) : List Var := es.foldl (addPointer known) []

namespace IRFunction

variable (func : IRFunction)

/-- The names of the inputs, outputs and pointers. -/
def ownNames : List String :=
  (func.inputs ++ func.outputs ++ pointers (func.inputs ++ func.outputs) func.body.visited).map Var.name

/-- The names that the other variables and the properties ask for. -/
def requestedNames : List String := (firstRequests (func.inputs ++ func.outputs) func.body.visited).map Prod.snd

end IRFunction

/-- The names do not get into each other's way: those that are kept are distinct, none of them is asked for or made up
    from a number, no made-up name is asked for, and the keywords that are asked for are reserved. -/
structure Clear (own requested : List String) : Prop where
  own_nodup : own.Nodup
  requested_notMem : ∀ r ∈ requested, r ∉ reserved → r ∉ own
  numbered_notMem : ∀ r ∈ requested, ∀ k < copies reserved requested r, numbered r k ∉ own
  noClash : NoClash numbered reserved requested
  keyword : ∀ r ∈ requested, r ∈ keywords → r ∈ reserved

/-! ### Made-up names -/

theorem numbered_toList (name : String) (n : ℕ) : (numbered name n).toList = name.toList ++ '_' :: Nat.toDigits 10 n := by
  simp [numbered]

theorem isDigit_of_mem_toDigits {n : ℕ} {c : Char} (h : c ∈ Nat.toDigits 10 n) : c.isDigit = true :=
  Nat.isDigit_of_mem_toDigits (by norm_num) (by norm_num) h

/-- A made-up name says what it was made from: its last underscore is the one in front of the number. -/
theorem numbered_injective2 : Function.Injective2 numbered := by
  have hshort : ∀ {front name : List Char} {m n : ℕ}, front ≠ [] → '_' :: Nat.toDigits 10 n = front ++ '_' :: name →
      (∀ c ∈ Nat.toDigits 10 n, c.isDigit = true) → False := by
    intro front name m n hne heq hdigits
    obtain ⟨c, front, rfl⟩ := List.exists_cons_of_ne_nil hne
    have hmem : '_' ∈ Nat.toDigits 10 n := by
      rw [(List.cons.inj heq).2]
      exact List.mem_append_right _ List.mem_cons_self
    exact absurd (hdigits _ hmem) (by decide)
  intro name name' m n heq
  have hlist := congrArg String.toList heq
  rw [numbered_toList, numbered_toList] at hlist
  obtain ⟨front, hname, hrest⟩ | ⟨front, hname, hrest⟩ := List.append_eq_append_iff.mp hlist
  all_goals
    have hnil : front = [] := by
      by_contra hne
      exact hshort (m := 0) hne hrest fun c => isDigit_of_mem_toDigits
    subst hnil
    rw [List.append_nil] at hname
    rw [List.nil_append] at hrest
    have hnumber := congrArg (fun digits => Nat.ofDigitChars 10 digits 0) (List.cons.inj hrest).2
    simp only [Nat.ofDigitChars_toDigits (by norm_num : 1 < 10) (by norm_num : 10 ≤ 10)] at hnumber
  · exact ⟨String.toList_injective hname.symm, hnumber⟩
  · exact ⟨String.toList_injective hname, hnumber.symm⟩

/-- A made-up name ends in a digit. -/
theorem numbered_notMem_keywords (name : String) (n : ℕ) : numbered name n ∉ keywords := by
  have hletter : ∀ w ∈ keywords, (w.toList.getLast?.all fun c => !c.isDigit) = true := by simp [keywords]
  intro hmem
  obtain ⟨front, c, hdigits⟩ := (List.eq_nil_or_concat (Nat.toDigits 10 n)).resolve_left Nat.toDigits_ne_nil
  rw [List.concat_eq_append] at hdigits
  have hc : c.isDigit = true := isDigit_of_mem_toDigits (n := n) (by rw [hdigits]; exact List.mem_append_right _ List.mem_cons_self)
  have hlast : (numbered name n).toList.getLast? = some c := by
    rw [numbered_toList, hdigits, ← List.cons_append, ← List.append_assoc, List.getLast?_concat]
  have hnot := hletter _ hmem
  rw [hlast] at hnot
  simp [hc] at hnot

theorem resetUniqueNameCounters_eq (name : String) : resetUniqueNameCounters name = counter reserved [] name := by
  rw [resetUniqueNameCounters, counter]
  simp [copies]

/-- What is asked for after other names gets the next name, and counts. -/
theorem genUniqueName_eq {counters : UniqueNameCounters} {requests : List String}
    (h : ∀ name, counters name = counter reserved requests name) (r : String) :
    (genUniqueName counters r).1 = next numbered reserved requests r ∧
      ∀ name, (genUniqueName counters r).2 name = counter reserved (requests ++ [r]) name := by
  rw [next, ← h r]
  simp only [NumberedNames.counter_append, ← h]
  rw [genUniqueName]
  cases counters r with
  | some n =>
    refine ⟨rfl, fun name => ?_⟩
    dsimp only
    rw [Function.update_apply]
    rfl
  | none =>
    refine ⟨rfl, fun name => ?_⟩
    dsimp only
    rw [Function.update_apply]
    rfl

/-! ### The visits -/

section Visits

variable {known : List Var} {es : List Expr} {e : Expr}

def FindVars.visitExpr (f : FindVars) : Expr → FindVars
  | .var op => f.visitVar op
  | .getProperty op => f.visitGetProperty op

theorem visitExpr_localVars (f : FindVars) (e : Expr) (locals : List Var) :
    FindVars.visitExpr { f with localVars := locals } e = { f.visitExpr e with localVars := locals } := by
  cases e with
  | var op =>
    simp only [FindVars.visitExpr, FindVars.visitVar]
    split_ifs <;> rfl
  | getProperty op =>
    simp only [FindVars.visitExpr, FindVars.visitGetProperty]
    split_ifs
    · rfl
    · rfl
    · split <;> rfl
    · split <;> rfl

theorem foldl_visitExpr_localVars (es : List Expr) : ∀ (f : FindVars) (locals : List Var),
    es.foldl FindVars.visitExpr { f with localVars := locals } =
      { es.foldl FindVars.visitExpr f with localVars := locals } := by
  induction es with
  | nil => exact fun f locals => rfl
  | cons e es ih =>
    intro f locals
    rw [List.foldl_cons, List.foldl_cons, visitExpr_localVars]
    exact ih (f.visitExpr e) locals

/-- The visits come to these expressions, but for the local variables. -/
def Comes (f g : FindVars) (es : List Expr) : Prop :=
  ∃ locals, g = { es.foldl FindVars.visitExpr f with localVars := locals }

theorem Comes.trans {f g k : FindVars} {es es' : List Expr} (h : Comes f g es) (h' : Comes g k es') :
    Comes f k (es ++ es') := by
  obtain ⟨locals, rfl⟩ := h
  obtain ⟨locals', rfl⟩ := h'
  refine ⟨locals', ?_⟩
  rw [List.foldl_append, foldl_visitExpr_localVars]

theorem comes_local (f : FindVars) (var : Var) : Comes f ((f.addLocal var).visitVar var) [.var var] := by
  rw [FindVars.addLocal]
  split_ifs
  · exact ⟨(f.visitVar var).localVars, rfl⟩
  · exact ⟨f.localVars ++ [var], visitExpr_localVars f (.var var) _⟩

mutual

theorem comes_visit : ∀ (n : Node) (f : FindVars), Comes f (f.visit n) n.visited
  | .var op, f => ⟨(f.visitVar op).localVars, by rw [FindVars.visit]; rfl⟩
  | .getProperty op, f => ⟨(f.visitGetProperty op).localVars, by rw [FindVars.visit]; rfl⟩
  | .varDecl var rhs, f => by
    rw [FindVars.visit, Node.visited]
    exact (comes_local f var).trans (comes_visit rhs _)
  | .forLoop var start endBound increment contents, f => by
    rw [FindVars.visit, Node.visited]
    have hstart := (comes_local f var).trans (comes_visit start _)
    have hend := hstart.trans (comes_visit endBound _)
    have hincrement := hend.trans (comes_visit increment _)
    have hcontents := hincrement.trans (comes_visit contents _)
    simpa using hcontents
  | .node operands, f => by
    rw [FindVars.visit, Node.visited]
    exact comes_visitAll operands f

theorem comes_visitAll : ∀ (ns : List Node) (f : FindVars), Comes f (f.visitAll ns) (visitedAll ns)
  | [], f => ⟨f.localVars, by rw [FindVars.visitAll]; rfl⟩
  | n :: ns, f => by
    rw [FindVars.visitAll, visitedAll]
    exact (comes_visit n f).trans (comes_visitAll ns _)

end

/-! ### Requests -/

theorem firstRequests_append : firstRequests known (es ++ [e]) = addRequest known (firstRequests known es) e := by
  rw [firstRequests, List.foldl_append]
  rfl

theorem pointers_append : pointers known (es ++ [e]) = addPointer known (pointers known es) e := by
  rw [pointers, List.foldl_append]
  rfl

/-- What has a name, and the name. -/
def pairs (known : List Var) (es : List Expr) : List (Subject × String) :=
  ((known ++ pointers known es).map fun v => (.var v, v.name)) ++
    ((firstRequests known es).map Prod.fst).zip (produced numbered reserved ((firstRequests known es).map Prod.snd))

theorem subjects_pairs (known : List Var) (es : List Expr) :
    (pairs known es).map Prod.fst =
      (known ++ pointers known es).map Subject.var ++ (firstRequests known es).map Prod.fst := by
  have hlength : ((firstRequests known es).map Prod.fst).length ≤
      (produced numbered reserved ((firstRequests known es).map Prod.snd)).length := by simp
  rw [pairs, List.map_append, List.map_map, List.map_fst_zip hlength]
  rfl

theorem names_pairs (known : List Var) (es : List Expr) :
    (pairs known es).map Prod.snd = (known ++ pointers known es).map Var.name ++
      produced numbered reserved ((firstRequests known es).map Prod.snd) := by
  have hlength : (produced numbered reserved ((firstRequests known es).map Prod.snd)).length ≤
      ((firstRequests known es).map Prod.fst).length := by simp
  rw [pairs, List.map_append, List.map_map, List.map_snd_zip hlength]
  rfl

/-- Only pointers keep their names, and only what is not known and no pointer asks for one. -/
structure Sorted (known : List Var) (es : List Expr) : Prop where
  pointer : ∀ v ∈ pointers known es, v.isPtr = true ∧ v ∉ known
  pointers_nodup : (pointers known es).Nodup
  requests_nodup : ((firstRequests known es).map Prod.fst).Nodup
  requested : ∀ v, .var v ∈ (firstRequests known es).map Prod.fst → v.isPtr = false ∧ v ∉ known
  property : ∀ key, .property key ∈ (firstRequests known es).map Prod.fst → key.1 ∈ known

theorem mem_addRequest {acc : List (Subject × String)} {s : Subject} (h : s ∈ (addRequest known acc e).map Prod.fst) :
    s ∈ acc.map Prod.fst ∨ ∃ name, e.request known = some (s, name) := by
  rw [addRequest] at h
  split at h
  · rename_i p hp
    split_ifs at h
    · exact Or.inl h
    · rw [List.map_append, List.mem_append] at h
      refine h.imp id fun h => ?_
      obtain rfl := List.mem_singleton.mp h
      exact ⟨p.2, hp⟩
  · exact Or.inl h

theorem sorted (known : List Var) (es : List Expr) : Sorted known es := by
  induction es using List.reverseRecOn with
  | nil =>
    exact ⟨fun v hv => (List.not_mem_nil hv).elim, List.nodup_nil, List.nodup_nil, fun v hv => (List.not_mem_nil hv).elim,
      fun key hkey => (List.not_mem_nil hkey).elim⟩
  | append_singleton es e ih =>
    have hpointers : (∀ v ∈ pointers known (es ++ [e]), v.isPtr = true ∧ v ∉ known) ∧ (pointers known (es ++ [e])).Nodup := by
      rw [pointers_append]
      cases e with
      | var op =>
        rw [addPointer]
        split_ifs with hnew
        · obtain ⟨hptr, hknown, hmem⟩ := hnew
          refine ⟨fun v hv => ?_, ?_⟩
          · rcases List.mem_append.mp hv with hv | hv
            · exact ih.pointer v hv
            · exact List.mem_singleton.mp hv ▸ ⟨hptr, hknown⟩
          · exact ih.pointers_nodup.append (List.nodup_singleton op) (List.disjoint_singleton.mpr hmem)
        · exact ⟨ih.pointer, ih.pointers_nodup⟩
      | getProperty op => exact ⟨ih.pointer, ih.pointers_nodup⟩
    refine ⟨hpointers.1, hpointers.2, ?_, fun v hv => ?_, fun key hkey => ?_⟩
    · rw [firstRequests_append, addRequest]
      split
      · split_ifs with hmem
        · exact ih.requests_nodup
        · rw [List.map_append]
          exact ih.requests_nodup.append (List.nodup_singleton _) (List.disjoint_singleton.mpr hmem)
      · exact ih.requests_nodup
    · rw [firstRequests_append] at hv
      rcases mem_addRequest hv with hv | ⟨name, hrequest⟩
      · exact ih.requested v hv
      · cases e with
        | var op =>
          rw [Expr.request] at hrequest
          split_ifs at hrequest with hnot
          cases hrequest
          rw [not_or] at hnot
          exact ⟨Bool.eq_false_iff.mpr hnot.2, hnot.1⟩
        | getProperty op =>
          rw [Expr.request] at hrequest
          split_ifs at hrequest
          cases hrequest
    · rw [firstRequests_append] at hkey
      rcases mem_addRequest hkey with hkey | ⟨name, hrequest⟩
      · exact ih.property key hkey
      · cases e with
        | var op =>
          rw [Expr.request] at hrequest
          split_ifs at hrequest
          cases hrequest
        | getProperty op =>
          rw [Expr.request] at hrequest
          split_ifs at hrequest with hknown
          cases hrequest
          exact hknown

theorem nodup_subjects (hknown : known.Nodup) : ((pairs known es).map Prod.fst).Nodup := by
  have h := sorted known es
  have hown : (known ++ pointers known es).Nodup :=
    hknown.append h.pointers_nodup fun v hv hp => (h.pointer v hp).2 hv
  rw [subjects_pairs]
  refine (hown.map fun v w hvw => Subject.var.inj hvw).append h.requests_nodup fun s hs hreq => ?_
  obtain ⟨v, hv, rfl⟩ := List.mem_map.mp hs
  obtain ⟨hptr, hnot⟩ := h.requested v hreq
  rcases List.mem_append.mp hv with hv | hv
  · exact hnot hv
  · rw [(h.pointer v hv).1] at hptr
    cases hptr

/-! ### What a visit adds -/

theorem mem_pairs_own {v : Var} (h : v ∈ known ++ pointers known es) : .var v ∈ (pairs known es).map Prod.fst := by
  rw [subjects_pairs]
  exact List.mem_append_left _ (List.mem_map_of_mem h)

theorem mem_pairs_requested {s : Subject} (h : s ∈ (firstRequests known es).map Prod.fst) :
    s ∈ (pairs known es).map Prod.fst := by
  rw [subjects_pairs]
  exact List.mem_append_right _ h

theorem subject_of_request {s : Subject} {name : String} (h : e.request known = some (s, name)) : e.subject = s := by
  cases e <;> rw [Expr.request] at h <;> split_ifs at h <;> cases h <;> rfl

/-- What has a name already adds nothing. -/
theorem pairs_of_mem (h : e.subject ∈ (pairs known es).map Prod.fst) :
    firstRequests known (es ++ [e]) = firstRequests known es ∧ pointers known (es ++ [e]) = pointers known es := by
  have hsorted := sorted known es
  rw [subjects_pairs, List.mem_append] at h
  rw [firstRequests_append, pointers_append]
  constructor
  · rw [addRequest]
    split
    · rename_i p hp
      refine if_pos ?_
      rw [← subject_of_request hp]
      refine h.resolve_left fun hown => ?_
      obtain ⟨v, hv, heq⟩ := List.mem_map.mp hown
      cases e with
      | var op =>
        obtain rfl : v = op := Subject.var.inj heq
        rw [Expr.request] at hp
        split_ifs at hp with hnot
        rw [not_or] at hnot
        rcases List.mem_append.mp hv with hv | hv
        · exact hnot.1 hv
        · exact hnot.2 (hsorted.pointer v hv).1
      | getProperty op => cases heq
    · rfl
  · cases e with
    | var op =>
      refine if_neg ?_
      rintro ⟨hptr, hknown, hmem⟩
      rcases h with hown | hreq
      · obtain ⟨v, hv, heq⟩ := List.mem_map.mp hown
        obtain rfl : v = op := Subject.var.inj heq
        exact (List.mem_append.mp hv).elim hknown hmem
      · rw [(hsorted.requested op hreq).1] at hptr
        cases hptr
    | getProperty op => rfl

/-- A new pointer. -/
theorem pairs_of_pointer {op : Var} (hptr : op.isPtr = true) (h : .var op ∉ (pairs known es).map Prod.fst) :
    firstRequests known (es ++ [.var op]) = firstRequests known es ∧
      pointers known (es ++ [.var op]) = pointers known es ++ [op] := by
  have hown : op ∉ known ++ pointers known es := fun hmem => h (mem_pairs_own hmem)
  rw [List.mem_append, not_or] at hown
  rw [firstRequests_append, pointers_append, addRequest, Expr.request, if_pos (Or.inr hptr)]
  exact ⟨rfl, if_pos ⟨hptr, hown⟩⟩

/-- A new request. -/
theorem pairs_of_request {s : Subject} {name : String} (hrequest : e.request known = some (s, name))
    (h : s ∉ (pairs known es).map Prod.fst) :
    firstRequests known (es ++ [e]) = firstRequests known es ++ [(s, name)] ∧
      pointers known (es ++ [e]) = pointers known es := by
  have hnew : s ∉ (firstRequests known es).map Prod.fst := fun hmem => h (mem_pairs_requested hmem)
  rw [firstRequests_append, pointers_append, addRequest, hrequest]
  refine ⟨if_neg hnew, ?_⟩
  cases e with
  | var op =>
    rw [Expr.request] at hrequest
    split_ifs at hrequest with hnot
    rw [not_or] at hnot
    exact if_neg fun hptr => hnot.2 hptr.1
  | getProperty op => rfl

/-! ### The invariant -/

/-- The names are those that the visited expressions ask for, and the counters count what was asked for. -/
structure Named (known : List Var) (es : List Expr) (f : FindVars) : Prop where
  tensors : f.inputTensors ++ f.outputTensors = known
  counters : ∀ name, f.counters name = counter reserved ((firstRequests known es).map Prod.snd) name
  canonical : ∀ key name, f.canonicalPropertyVar.lookup key = some name ↔ (.property key, name) ∈ pairs known es
  varMap : ∀ s name, (∃ e, (e, name) ∈ f.varMap ∧ e.subject = s) ↔ (s, name) ∈ pairs known es

variable {f : FindVars}

theorem Named.exists_iff (h : Named known es f) (s : Subject) :
    (∃ e name, (e, name) ∈ f.varMap ∧ e.subject = s) ↔ s ∈ (pairs known es).map Prod.fst := by
  rw [List.mem_map]
  constructor
  · rintro ⟨e, name, hmem, hs⟩
    exact ⟨(s, name), (h.varMap s name).mp ⟨e, hmem, hs⟩, rfl⟩
  · rintro ⟨⟨_, name⟩, hmem, rfl⟩
    obtain ⟨e, he, hs⟩ := (h.varMap _ name).mpr hmem
    exact ⟨e, name, he, hs⟩

theorem Named.of_lookup (h : Named known es f) (hsome : (f.varMap.lookup e).isSome = true) :
    e.subject ∈ (pairs known es).map Prod.fst := by
  obtain ⟨p, hp, heq⟩ := List.lookup_isSome_iff.mp hsome
  obtain rfl : e = p.1 := by simpa using heq
  exact (h.exists_iff _).mp ⟨p.1, p.2, hp, rfl⟩

theorem Named.of_same (h : Named known es f) (hrequests : firstRequests known (es ++ [e]) = firstRequests known es)
    (hpointers : pointers known (es ++ [e]) = pointers known es) : Named known (es ++ [e]) f := by
  have hpairs : pairs known (es ++ [e]) = pairs known es := by rw [pairs, pairs, hrequests, hpointers]
  exact ⟨h.tensors, hrequests ▸ h.counters, hpairs ▸ h.canonical, hpairs ▸ h.varMap⟩

/-- A visit that adds nothing, or a node of a property that has a name. -/
theorem Named.keep (h : Named known es f) (hmem : e.subject ∈ (pairs known es).map Prod.fst) : Named known (es ++ [e]) f := by
  obtain ⟨hrequests, hpointers⟩ := pairs_of_mem hmem
  exact h.of_same hrequests hpointers

theorem mem_cons_varMap {l : List (Expr × String)} {n : String} {s : Subject} {name : String} :
    (∃ e', (e', name) ∈ (e, n) :: l ∧ e'.subject = s) ↔
      (∃ e', (e', name) ∈ l ∧ e'.subject = s) ∨ (s, name) = (e.subject, n) := by
  constructor
  · rintro ⟨e', hmem, rfl⟩
    rcases List.mem_cons.mp hmem with heq | hmem
    · cases heq
      exact Or.inr rfl
    · exact Or.inl ⟨e', hmem, rfl⟩
  · rintro (⟨e', hmem, rfl⟩ | heq)
    · exact ⟨e', List.mem_cons_of_mem _ hmem, rfl⟩
    · cases heq
      exact ⟨e, List.mem_cons_self, rfl⟩

/-- A name that is made up for a request. -/
theorem Named.request (h : Named known es f) {s : Subject} {r : String} (hrequest : e.request known = some (s, r))
    (hnew : s ∉ (pairs known es).map Prod.fst) {g : FindVars} (htensors : g.inputTensors ++ g.outputTensors = known)
    (hcounters : g.counters = (genUniqueName f.counters r).2)
    (hvarMap : g.varMap = (e, (genUniqueName f.counters r).1) :: f.varMap)
    (hcanonical : ∀ key name, g.canonicalPropertyVar.lookup key = some name ↔
      f.canonicalPropertyVar.lookup key = some name ∨ (.property key, name) = (s, (genUniqueName f.counters r).1)) :
    Named known (es ++ [e]) g := by
  obtain ⟨hrequests, hpointers⟩ := pairs_of_request hrequest hnew
  obtain ⟨hname, hcounts⟩ := genUniqueName_eq h.counters r
  have hpairs : pairs known (es ++ [e]) = pairs known es ++ [(s, (genUniqueName f.counters r).1)] := by
    have hfst : (firstRequests known es ++ [(s, r)]).map Prod.fst = (firstRequests known es).map Prod.fst ++ [s] :=
      List.map_append
    have hsnd : (firstRequests known es ++ [(s, r)]).map Prod.snd = (firstRequests known es).map Prod.snd ++ [r] :=
      List.map_append
    rw [pairs, pairs, hrequests, hpointers, hfst, hsnd, NumberedNames.produced_append, List.zip_append (by simp), hname,
      List.append_assoc]
    rfl
  refine ⟨htensors, fun name => ?_, fun key name => ?_, fun s' name => ?_⟩
  · rw [hcounters, hrequests, List.map_append]
    exact hcounts name
  · rw [hcanonical, hpairs, List.mem_append, List.mem_singleton, h.canonical]
  · rw [hvarMap, mem_cons_varMap, hpairs, List.mem_append, List.mem_singleton, h.varMap, subject_of_request hrequest]

/-- A variable without a name is none of those that have one: only its own node stands for it. -/
theorem Named.var_new {op : Var} (h : Named known es f) (hnone : ¬ (f.varMap.lookup (.var op)).isSome = true) :
    .var op ∉ (pairs known es).map Prod.fst := by
  intro hmem
  obtain ⟨e, name, he, hs⟩ := (h.exists_iff _).mpr hmem
  cases e with
  | var op' =>
    cases hs
    exact hnone (List.lookup_isSome_iff.mpr ⟨_, he, beq_self_eq_true _⟩)
  | getProperty op' => cases hs

theorem Named.visitVar {op : Var} (h : Named known es f) : Named known (es ++ [.var op]) (f.visitVar op) := by
  rw [FindVars.visitVar]
  split_ifs with hsome hptr
  · exact h.keep (h.of_lookup hsome)
  · have hnew := h.var_new hsome
    obtain ⟨hrequests, hpointers⟩ := pairs_of_pointer hptr hnew
    have hpairs : ∀ p, p ∈ pairs known (es ++ [.var op]) ↔ p ∈ pairs known es ∨ p = (.var op, op.name) := fun p => by
      rw [pairs, pairs, hrequests, hpointers]
      simp only [List.map_append, List.mem_append, List.map_cons, List.map_nil, List.mem_singleton]
      tauto
    refine ⟨h.tensors, hrequests ▸ h.counters, fun key name => ?_, fun s name => ?_⟩
    · rw [hpairs, h.canonical, or_iff_left (by simp)]
    · rw [mem_cons_varMap, hpairs, h.varMap]
      rfl
  · have hnew := h.var_new hsome
    have hrequest : (Expr.var op).request known = some (.var op, op.name) := by
      rw [Expr.request, if_neg]
      rw [not_or]
      refine ⟨fun hknown => hnew (mem_pairs_own (List.mem_append_left _ hknown)), hptr⟩
    exact h.request hrequest hnew h.tensors rfl rfl fun key name => (or_iff_left (by simp)).symm

theorem Named.visitGetProperty {op : GetProperty} (h : Named known es f) :
    Named known (es ++ [.getProperty op]) (f.visitGetProperty op) := by
  have htensor : (op.tensor ∉ f.inputTensors ∧ op.tensor ∉ f.outputTensors) ↔ op.tensor ∉ known := by
    rw [← h.tensors, List.mem_append, not_or]
  rw [FindVars.visitGetProperty]
  by_cases hother : op.tensor ∉ f.inputTensors ∧ op.tensor ∉ f.outputTensors
  · -- a temporary has no request
    rw [if_pos hother]
    rw [htensor] at hother
    have hrequests : firstRequests known (es ++ [.getProperty op]) = firstRequests known es := by
      rw [firstRequests_append, addRequest, Expr.request, if_neg hother]
    exact h.of_same hrequests pointers_append
  rw [if_neg hother]
  by_cases hsome : (f.varMap.lookup (.getProperty op)).isSome = true
  · rw [if_pos hsome]
    exact h.keep (h.of_lookup hsome)
  · rw [if_neg hsome]
    cases hlookup : f.canonicalPropertyVar.lookup op.key with
    | some name =>
      have hpair : (Subject.property op.key, name) ∈ pairs known es := (h.canonical _ _).mp hlookup
      have hkept := h.keep (e := .getProperty op) (List.mem_map_of_mem hpair)
      have hpairs : pairs known (es ++ [.getProperty op]) = pairs known es := by
        obtain ⟨hrequests, hpointers⟩ := pairs_of_mem (e := .getProperty op) (List.mem_map_of_mem hpair)
        rw [pairs, pairs, hrequests, hpointers]
      refine ⟨hkept.tensors, hkept.counters, hkept.canonical, fun s name' => ?_⟩
      rw [mem_cons_varMap, hkept.varMap, hpairs]
      refine or_iff_left_of_imp fun heq => ?_
      rw [heq]
      exact hpair
    | none =>
      have hnew : .property op.key ∉ (pairs known es).map Prod.fst := fun hmem => by
        obtain ⟨⟨s, name⟩, hp, heq⟩ := List.mem_map.mp hmem
        cases heq
        rw [(h.canonical _ _).mpr hp] at hlookup
        cases hlookup
      have hrequest : (Expr.getProperty op).request known = some (.property op.key, op.name) := by
        rw [Expr.request, if_pos]
        by_contra hnot
        exact hother (htensor.mpr hnot)
      refine h.request hrequest hnew h.tensors rfl rfl fun key name => ?_
      dsimp only
      by_cases hkey : key = op.key
      · subst hkey
        rw [List.lookup_cons_self, hlookup]
        simp [eq_comm]
      · rw [List.lookup_cons, beq_false_of_ne hkey, or_iff_left]
        intro heq
        exact hkey (Subject.property.inj (Prod.mk.inj heq).1)

theorem named_make (inputs outputs : List Var) :
    Named (inputs ++ outputs) [] (FindVars.make inputs outputs resetUniqueNameCounters) := by
  have hpairs : pairs (inputs ++ outputs) [] = (inputs ++ outputs).map fun v => (.var v, v.name) := by
    simp [pairs, pointers, firstRequests]
  refine ⟨rfl, resetUniqueNameCounters_eq, fun key name => ?_, fun s name => ?_⟩
  · rw [hpairs]
    simp [FindVars.make]
  · rw [hpairs, FindVars.make]
    constructor
    · rintro ⟨e, he, rfl⟩
      obtain ⟨v, hv, heq⟩ := List.mem_map.mp he
      cases heq
      exact List.mem_map_of_mem hv
    · intro hmem
      obtain ⟨v, hv, heq⟩ := List.mem_map.mp hmem
      cases heq
      exact ⟨.var v, List.mem_map_of_mem hv, rfl⟩

theorem Named.foldl (h : Named known [] f) (es : List Expr) : Named known es (es.foldl FindVars.visitExpr f) := by
  induction es using List.reverseRecOn with
  | nil => exact h
  | append_singleton es e ih =>
    rw [List.foldl_append]
    cases e with
    | var op => exact ih.visitVar
    | getProperty op => exact ih.visitGetProperty

theorem named_findVars (func : IRFunction) :
    Named (func.inputs ++ func.outputs) func.body.visited (findVars func) := by
  obtain ⟨locals, hlocals⟩ := comes_visit func.body (FindVars.make func.inputs func.outputs resetUniqueNameCounters)
  have h := (named_make func.inputs func.outputs).foldl func.body.visited
  rw [findVars, hlocals]
  exact ⟨h.tensors, h.counters, h.canonical, h.varMap⟩

/-! ### When the names are unique -/

theorem distinct_iff_nodup {l : List (Subject × String)} (h : (l.map Prod.fst).Nodup) :
    (∀ p ∈ l, ∀ q ∈ l, p.1 ≠ q.1 → p.2 ≠ q.2) ↔ (l.map Prod.snd).Nodup := by
  have hfst := List.inj_on_of_nodup_map h
  rw [List.nodup_map_iff_inj_on h.of_map]
  constructor
  · intro hne p hp q hq heq
    by_contra hpq
    exact hne p hp q hq (fun hs => hpq (hfst hp hq hs)) heq
  · exact fun hinj p hp q hq hs heq => hs (congrArg Prod.fst (hinj p hp q hq heq))

/-- The nodes of the pairs that are made up. -/
theorem request_isSome_iff (hmem : e.subject ∈ (pairs known es).map Prod.fst) :
    (e.request known).isSome = true ↔ e.subject ∈ (firstRequests known es).map Prod.fst := by
  have hsorted := sorted known es
  rw [subjects_pairs, List.mem_append] at hmem
  cases e with
  | var op =>
    rw [Expr.request]
    constructor
    · intro hsome
      refine hmem.resolve_left fun hown => ?_
      obtain ⟨v, hv, heq⟩ := List.mem_map.mp hown
      obtain rfl : v = op := Subject.var.inj heq
      have hnone : v ∈ known ∨ v.isPtr = true :=
        (List.mem_append.mp hv).imp id fun hv => (hsorted.pointer v hv).1
      rw [if_pos hnone] at hsome
      cases hsome
    · intro hreq
      obtain ⟨hptr, hknown⟩ := hsorted.requested op hreq
      rw [if_neg (not_or.mpr ⟨hknown, Bool.eq_false_iff.mp hptr⟩)]
      rfl
  | getProperty op =>
    have hreq : .property op.key ∈ (firstRequests known es).map Prod.fst := hmem.resolve_left fun hown => by
      obtain ⟨v, -, heq⟩ := List.mem_map.mp hown
      cases heq
    have hknown : op.tensor ∈ known := hsorted.property op.key hreq
    rw [Expr.request, if_pos hknown]
    exact iff_of_true rfl hreq

end Visits

/-- The names are unique exactly if the names that are asked for are clear. -/
theorem uniqueNames_iff (func : IRFunction) : UniqueNames func ↔ Clear func.ownNames func.requestedNames := by
  have h := named_findVars func
  have hdistinct : (∀ e name e' name', (e, name) ∈ (findVars func).varMap → (e', name') ∈ (findVars func).varMap →
      e.subject ≠ e'.subject → name ≠ name') ↔
      (func.ownNames ++ produced numbered reserved func.requestedNames).Nodup := by
    rw [IRFunction.ownNames, IRFunction.requestedNames, ← names_pairs, ← distinct_iff_nodup (nodup_subjects func.distinct)]
    constructor
    · rintro hne ⟨s, name⟩ hp ⟨s', name'⟩ hq
      obtain ⟨e, he, rfl⟩ := (h.varMap s name).mpr hp
      obtain ⟨e', he', rfl⟩ := (h.varMap s' name').mpr hq
      exact hne e name e' name' he he'
    · exact fun hne e name e' name' he he' =>
        hne (e.subject, name) ((h.varMap _ _).mp ⟨e, he, rfl⟩) (e'.subject, name') ((h.varMap _ _).mp ⟨e', he', rfl⟩)
  have hkeyword : (∀ e name, (e, name) ∈ (findVars func).varMap →
      (e.request (func.inputs ++ func.outputs)).isSome = true → name ∉ keywords) ↔
      ∀ r ∈ func.requestedNames, r ∈ keywords → r ∈ reserved := by
    constructor
    · intro hfree r hr hkey
      by_contra hres
      have hproduced : r ∈ produced numbered reserved func.requestedNames :=
        NumberedNames.mem_produced_iff.mpr (Or.inl ⟨hr, hres⟩)
      have hlength : (produced numbered reserved func.requestedNames).length ≤
          ((firstRequests (func.inputs ++ func.outputs) func.body.visited).map Prod.fst).length := by
        simp [IRFunction.requestedNames]
      rw [← List.map_snd_zip hlength] at hproduced
      obtain ⟨⟨s, name⟩, hzip, rfl⟩ := List.mem_map.mp hproduced
      obtain ⟨e, he, rfl⟩ := (h.varMap s name).mpr (List.mem_append_right _ hzip)
      have hnamed := (h.exists_iff _).mp ⟨e, name, he, rfl⟩
      exact hfree e name he ((request_isSome_iff hnamed).mpr (List.of_mem_zip hzip).1) hkey
    · intro hreserved e name he hsome hkey
      have hmem := (h.varMap _ _).mp ⟨e, he, rfl⟩
      have hrequested := (request_isSome_iff ((h.exists_iff _).mp ⟨e, _, he, rfl⟩)).mp hsome
      have hproduced : name ∈ produced numbered reserved func.requestedNames := by
        rcases List.mem_append.mp hmem with hown | hzip
        · obtain ⟨v, hv, heq⟩ := List.mem_map.mp hown
          have hdisjoint : ((pairs (func.inputs ++ func.outputs) func.body.visited).map Prod.fst).Nodup :=
            nodup_subjects func.distinct
          rw [subjects_pairs, List.nodup_append] at hdisjoint
          exact absurd (Prod.mk.inj heq).1 (hdisjoint.2.2 _ (List.mem_map_of_mem hv) _ hrequested)
        · exact (List.of_mem_zip hzip).2
      rcases NumberedNames.mem_produced_iff.mp hproduced with ⟨hr, hres⟩ | ⟨r, -, k, -, rfl⟩
      · exact hres (hreserved name hr hkey)
      · exact numbered_notMem_keywords r k hkey
  constructor
  · rintro ⟨hd, hk⟩
    obtain ⟨hown, hproduced, hdisjoint⟩ := List.nodup_append.mp (hdistinct.mp hd)
    refine ⟨hown, fun r hr hres hmem => ?_, fun r hr k hk' hmem => ?_, (nodup_produced_iff numbered_injective2).mp hproduced,
      hkeyword.mp hk⟩
    · exact hdisjoint r hmem r (NumberedNames.mem_produced_iff.mpr (Or.inl ⟨hr, hres⟩)) rfl
    · exact hdisjoint _ hmem _ (NumberedNames.mem_produced_iff.mpr (Or.inr ⟨r, hr, k, hk', rfl⟩)) rfl
  · intro hclear
    refine ⟨hdistinct.mpr (List.nodup_append.mpr ⟨hclear.own_nodup, ?_, ?_⟩), hkeyword.mpr hclear.keyword⟩
    · exact (nodup_produced_iff numbered_injective2).mpr hclear.noClash
    · rintro own hown name hname rfl
      rcases NumberedNames.mem_produced_iff.mp hname with ⟨hr, hres⟩ | ⟨r, hr, k, hk, rfl⟩
      · exact hclear.requested_notMem own hr hres hown
      · exact hclear.numbered_notMem r hr k hk hown

/-- Two variables `a`, and a variable `a_0`. -/
def numberedVariable : IRFunction where
  inputs := []
  outputs := []
  body := .node [.var ⟨0, "a", false⟩, .var ⟨1, "a", false⟩, .var ⟨2, "a_0", false⟩]
  distinct := List.nodup_nil

/-- The second `a` and `a_0` get one name. -/
theorem numberedVariable_not_uniqueNames : ¬ ∀ func, UniqueNames func := by
  intro h
  have hvarMap : (findVars numberedVariable).varMap =
      [(.var ⟨2, "a_0", false⟩, "a_0"), (.var ⟨1, "a", false⟩, "a_0"), (.var ⟨0, "a", false⟩, "a")] := by decide
  refine (h numberedVariable).distinct (.var ⟨2, "a_0", false⟩) "a_0" (.var ⟨1, "a", false⟩) "a_0" ?_ ?_ (by decide) rfl
  · simp [hvarMap]
  · simp [hvarMap]

end Naming
end Taco
