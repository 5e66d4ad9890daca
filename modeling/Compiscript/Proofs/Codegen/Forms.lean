import Compiscript.Proofs.Grammar.Parts

/-!
# The Code of Whole Nodes

What the generator does with a node that has all its parts.

The definitions of the generator look for the parts of a node and fail if one
is missing. Here the parts are given, and what remains is how their code is put
together. There are four ways to do this with labels, for expressions and
statements that jump, and some small ones for declarations.
-/

namespace Compiscript

open List hiding get modify

/-- Operands that have a place in a listing. -/
def Operand.isText : Operand → Bool
  | .text _ => true
  | _ => false

/-- Operands that a listing can show, or leave out. -/
class Operand.Shown (a : Operand) : Prop where
  eq_none_or_isText : a = .none ∨ a.isText = true

instance : Operand.Shown .none := ⟨.inl rfl⟩

instance (s : String) : Operand.Shown (.text s) := ⟨.inr rfl⟩

instance (v : Value) : v.operand.Shown := ⟨.inr rfl⟩

instance (v : Value) : (Gen.printed v).Shown :=
  ⟨by cases v <;> first | exact .inl rfl | exact .inr rfl⟩

/-- Operations that stand for themselves: they mark no place and lead to none, pass
    nothing to a call and begin no function. -/
def Op.isPlain : Op → Bool
  | .label | .jump | .ifz | .ifnz | .call | .param | .enter => false
  | .other name => name.isText
  | _ => true

namespace Tac

/-- Whether a name looks like that of a label that was made up: an `L` and digits. -/
def isLabelName (x : String) : Bool :=
  match x.toList with
  | 'L' :: cs => (decimal? cs).isSome
  | _ => false

variable {x : String} {c : Char}

lemma isLabelName_of_head (h : x.toList.head? = some c) (hc : c ≠ 'L') : isLabelName x = false := by
  unfold isLabelName
  split
  · rename_i cs heq
    rw [heq] at h
    exact absurd (Option.some.inj h).symm hc
  · rfl

lemma isLabelName_of_getLast (h : x.toList.getLast? = some c)
    (hc : c.isDigit = false) (hL : c ≠ 'L') : isLabelName x = false := by
  unfold isLabelName
  split
  · rename_i cs heq
    rw [heq] at h
    cases cs with
    | nil => exact absurd (Option.some.inj h).symm hL
    | cons d ds =>
      have hmem : c ∈ d :: ds := by
        rw [getLast?_cons_cons] at h
        exact mem_of_getLast? h
      have hall : (d :: ds).all Char.isDigit = false := by
        rw [all_eq_false]
        exact ⟨c, hmem, by rw [hc]; decide⟩
      rw [decimal?, hall]
      rfl
  · rfl

end Tac

namespace Gen

/-! ### Operators -/

lemma isPlain_ofOperand {s : String}
    (hs : s.toList.take 2 = ['C', 'M'] ∨ s.toList.take 2 = ['B', 'I']) :
    (Op.ofOperand (.text s)).isPlain = true := by
  have hnm := Op.ofOperand_operand (.text s)
  cases hop : Op.ofOperand (.text s) with
  | label | jump | ifz | ifnz | call | param | enter =>
    rw [hop] at hnm
    injection hnm with hnm
    rw [← hnm] at hs
    revert hs
    decide
  | other name =>
    rw [hop] at hnm
    exact congrArg Operand.isText hnm
  | _ => rfl

lemma isPlain_comparisonOp (s : String) : (comparisonOp s).isPlain = true := by
  refine isPlain_ofOperand (.inl ?_)
  rw [String.toList_append]
  rfl

lemma isPlain_arithmeticOp (s : String) : (arithmeticOp s).isPlain = true := by
  unfold arithmeticOp
  split
  iterate 5 rfl
  refine isPlain_ofOperand (.inr ?_)
  rw [String.toList_append]
  rfl

/-! ### The parts of a node -/

/-- The parts that the nodes of a rule cannot do without, whatever their
    labels. There is a choice between the parts of a list. -/
def requiredByRule : Rule → List (List Part)
  | .variableDeclaration | .functionDeclaration | .classDeclaration | .parameter =>
    [[.token .identifier]]
  | .expressionStatement | .printStatement => [[.rule .expression]]
  | .ifStatement | .whileStatement => [[.rule .expression], [.rule .block]]
  | .logicalOrExpr => [[.rule .logicalAndExpr]]
  | .logicalAndExpr => [[.rule .equalityExpr]]
  | .unaryExpr => [[.rule .unaryExpr, .rule .primaryExpr]]
  | .leftHandSide => [[.rule .primaryAtom]]
  | _ => []

/-- The parts that the nodes with a label cannot do without. -/
def requiredByLabel : Option Label → List (List Part)
  | some .assignExpr => [[.rule .leftHandSide], [.rule .assignmentExpr]]
  | some .propertyAssignExpr =>
    [[.rule .leftHandSide], [.token .identifier], [.rule .assignmentExpr]]
  | some .exprNoAssign => [[.rule .conditionalExpr]]
  | some .ternaryExpr => [[.rule .logicalOrExpr]]
  | some .identifierExpr | some .newExpr | some .propertyAccessExpr => [[.token .identifier]]
  | some .indexExpr => [[.rule .expression]]
  | _ => []

/-- The parts that a node cannot do without. -/
def required (tag : Tag) : List (List Part) := requiredByRule tag.rule ++ requiredByLabel tag.label

/-- A tree has the parts that its node cannot do without. -/
def Complete (t : Tree) : Prop :=
  ∀ tag, t.tag? = some tag →
    ∀ parts ∈ required tag, ∃ part ∈ parts, ∃ c ∈ t.children, part.fits c = true

variable {parts : List Part} {tag : Tag}

lemma mem_required_of_rule (h : parts ∈ requiredByRule tag.rule) : parts ∈ required tag :=
  mem_append_left _ h

lemma mem_required_of_label (h : parts ∈ requiredByLabel tag.label) : parts ∈ required tag :=
  mem_append_right _ h

namespace Complete

variable {t : Tree} {tag : Tag}

lemma exists_kid (h : Complete t) (htag : t.tag? = some tag) {r : Rule}
    (hr : [Part.rule r] ∈ required tag) : ∃ k, t.kid? r = some k := by
  obtain ⟨part, hp, hc⟩ := h tag htag _ hr
  cases mem_singleton.1 hp
  exact Option.isSome_iff_exists.1 (Tree.isSome_kid? hc)

lemma exists_text (h : Complete t) (htag : t.tag? = some tag) {k : Kind}
    (hk : [Part.token k] ∈ required tag) : ∃ x, t.tokenText? k = some x := by
  obtain ⟨part, hp, hc⟩ := h tag htag _ hk
  cases mem_singleton.1 hp
  exact Option.isSome_iff_exists.1 (Tree.isSome_tokenText? hc)

/-- Without a sign in front there is something else. -/
lemma exists_primary (h : Complete t) (htag : t.tag? = some tag) (hru : tag.rule = .unaryExpr)
    (hno : t.kid? .unaryExpr = none) : ∃ k, t.kid? .primaryExpr = some k := by
  have hmem : [Part.rule .unaryExpr, .rule .primaryExpr] ∈ requiredByRule tag.rule := by
    rw [hru]
    exact .head _
  obtain ⟨part, hp, hc⟩ := h tag htag _ (mem_required_of_rule hmem)
  rcases mem_cons.1 hp with rfl | hp
  · have hso := Tree.isSome_kid? hc
    rw [hno] at hso
    cases hso
  · cases mem_singleton.1 hp
    exact Option.isSome_iff_exists.1 (Tree.isSome_kid? hc)

/-- What is read as a field has a name. -/
lemma exists_field (hs : Complete t) (h : suffixOf t = .field) :
    ∃ x, t.tokenText? .identifier = some x := by
  unfold suffixOf at h
  split at h
  · cases h
  · rename_i hlab
    obtain ⟨tag, htag, hlab⟩ := Option.bind_eq_some_iff.1 hlab
    refine hs.exists_text htag (mem_required_of_label ?_)
    rw [hlab]
    exact .head _
  · split at h <;> cases h
  · cases h

/-- What is read as an index has an expression in it. -/
lemma exists_index (hs : Complete t) (h : suffixOf t = .index) :
    ∃ k, t.kid? .expression = some k := by
  unfold suffixOf at h
  split at h
  · cases h
  · split at h <;> cases h
  · rename_i hlab
    obtain ⟨tag, htag, hlab⟩ := Option.bind_eq_some_iff.1 hlab
    refine hs.exists_kid htag (mem_required_of_label ?_)
    rw [hlab]
    exact .head _
  · cases h

end Complete

lemma shows_required (r : Rule) : ∀ e ∈ production r, ∀ parts ∈ required ⟨r, e.label⟩,
    ∃ part ∈ parts, ∃ item ∈ e.body, item.shows part = true := by
  cases r <;> decide

variable {t : Tree}

lemma complete_of_derives {P : Token → Prop} {r : Rule} (h : Derives P r t) :
    t.Everywhere Complete := by
  refine h.everywhere (fun tok _ tag htag => ?_) fun r t ht tag htag parts hps => ?_
  · cases htag
  · obtain ⟨e, start, cs, he, hcs, rfl⟩ := ht
    cases htag
    obtain ⟨part, hp, item, hit, hsho⟩ := shows_required r e he parts hps
    exact ⟨part, hp, hcs.exists_part hit hsho⟩

/-- The code of a node is made by what there is for nodes of its kind. -/
lemma generate_of_tag (h : t.tag? = some tag) : generate t = tagged t (generate ·.tree) tag := by
  rw [generate_eq]
  cases t with
  | node tag' start cs =>
    cases h
    rfl
  | leaf tok => cases h
  | bad tok => cases h

/-! ### Code with labels -/

/-- The code of a condition and of the two values to choose from. -/
def choose (cond first second : Gen Value) : Gen Value := do
  let c ← cond
  let onFalse ← freshLabel
  let done ← freshLabel
  emit .ifz c.operand .none (.text onFalse)
  release c
  let a ← first
  let result := Value.temp (← freshTemp)
  move a result.display
  release a
  jump done
  label onFalse
  let b ← second
  move b result.display
  release b
  label done
  return result

/-- The code of two operands, the second of which may be skipped. -/
def shortcut (skip : Op) (decided : String) (first second : Gen Value) : Gen Value := do
  let result := Value.temp (← freshTemp)
  let away ← freshLabel
  let done ← freshLabel
  let a ← first
  emit skip a.operand .none (.text away)
  release a
  let b ← second
  move b result.display
  release b
  jump done
  label away
  move (.text decided) result.display
  label done
  return result

/-- The code of a condition and of two ways to go on. -/
def branch (cond first second : Gen Value) : Gen Value := do
  let c ← cond
  let otherwise ← freshLabel
  let done ← freshLabel
  emit .ifz c.operand .none (.text otherwise)
  release c
  let _ ← first
  jump done
  label otherwise
  let _ ← second
  label done
  return .none

/-- The code of a condition and of what is repeated. -/
def loop (cond body : Gen Value) : Gen Value := do
  let again ← freshLabel
  let done ← freshLabel
  label again
  let c ← cond
  emit .ifz c.operand .none (.text done)
  release c
  let _ ← body
  jump again
  label done
  return .none

section Tree

variable {t : Tree} {visit : t.Sub → Gen Value} {a b c : t.Sub}

variable {rest : List t.Sub}

lemma ternary_eq (hks : t.kids .expression = a :: b :: rest) (hc : t.kid? .logicalOrExpr = some c) :
    ternary t visit = choose (visit c) (visit a) (visit b) := by
  rw [ternary, hks, hc]
  rfl

lemma logical_eq {operand : Rule} {skip : Op} {decided : String}
    (hks : t.kids operand = a :: b :: rest) :
    logical t visit operand skip decided = shortcut skip decided (visit a) (visit b) := by
  rw [logical, hks]
  rfl

lemma ifStatement_eq (hc : t.kid? .expression = some c) (ha : t.kid? .block = some a) :
    ifStatement t visit = branch (visit c) (visit a)
      (match t.kidAt? .block 1 with
        | some b => visit b
        | none => pure .none) := by
  have ha' : t.kidAt? .block 0 = some a := by rwa [Tree.kidAt?, ← head?_eq_getElem?]
  rw [ifStatement, hc, ha']
  cases t.kidAt? .block 1 <;> rfl

lemma whileStatement_eq (hc : t.kid? .expression = some c) (ha : t.kid? .block = some a) :
    whileStatement t visit = loop (visit c) (visit a) := by
  rw [whileStatement, hc, ha]
  rfl

end Tree

/-- The value of a name. -/
def readName (x : String) : Gen Value := do
  if (← get).function.isSome then
    match ← resolve? x with
    | some ⟨_, _, ⟨_, _, _, some true⟩, .variable _ _ _ index⟩ =>
      return .text ("param" ++ toString index)
    | _ => return .text x
  else return .text x

variable {t : Tree}

lemma identifier_eq {x : String} (hx : t.tokenText? .identifier = some x) :
    identifier t = readName x := by
  rw [identifier, tokenText, hx]
  rfl

/-! ### Calls -/

/-- The end of a call: its arguments are passed, and it is made. -/
def finishCall (args : List Value) (name : String) (result done : Value) : Gen Link := do
  pass args
  emit .call (.text ("func_" ++ name)) .none (.text result.display)
  release done
  return ⟨result, none⟩

/-- A call in a chain, behind its arguments. -/
def callWith (t : Tree) (visit : t.Sub → Gen Value) (base : Value) (start : Option t.Sub)
    (before : List t.Sub) (l : Link) (args : List Value) : Gen Link := do
  let result := Value.temp (← freshTemp)
  match before with
  | [] => finishCall args (calleeName l) result l.value
  | last :: earlier =>
    if suffixOf last.tree = .field then
      receiver t visit base start earlier.reverse
      finishCall args (l.name.getD "None") result l.value
    else finishCall args (calleeName l) result l.value

lemma suffix_of_call {visit : t.Sub → Gen Value} {base : Value} {start : Option t.Sub}
    {before : List t.Sub} {l : Link} {s : t.Sub} (h : suffixOf s.tree = .call) :
    suffix t visit base start before l s =
      arguments s.tree (fun a => visit (s.lift a)) >>= callWith t visit base start before l := by
  rw [suffix, h]
  refine congrArg (_ >>= ·) (funext fun args => congrArg (_ >>= ·) (funext fun n => ?_))
  cases before with
  | nil => rfl
  | cons last earlier =>
    dsimp only
    split <;> rfl

/-! ### Declarations -/

/-- Give a variable a place in the frame of the function at hand. -/
def placeInFunction (x : String) : Gen Unit := do
  match (← get).function with
  | some f => place Frame.addLocal f x (← resolve? x)
  | none => pure ()

/-- Write the labels of a function down in its symbol. -/
def storeLabels (x entry exit : String) : Gen Unit := do
  match ← resolve? x with
  | some sym => store (labelled entry exit sym)
  | none => pure ()

/-- The beginning of a function. -/
def openFunction (x : String) (parameters : List Tree) (inClass : Option String)
    (entry exit : String) : Gen Unit := do
  storeLabels x entry exit
  label entry
  match inClass with
  | some c => emit .methodBegin (.text c) .none (.text entry)
  | none => pure ()
  modify fun s => { s with frames := s.frames.ensure x }
  placeParameters x 0 parameters
  emit .enter (.int 0) .none .none

section Declaration

variable (t : Tree) (visit : t.Sub → Gen Value)

/-- The first value of a variable, if it has one. -/
def firstValue (x : String) : Gen Value :=
  match (t.kid? .initializer).bind fun i => (i.tree.kid? .expression).map i.lift with
  | none => return .none
  | some e => do
    let value ← visit e
    move value x
    release value
    return .none

/-- The body of a function, if it has one. -/
def functionBody : Gen Value :=
  match t.kid? .block with
  | some b => visit b
  | none => return .none

variable {t visit} {x : String} (hx : t.tokenText? .identifier = some x)

include hx

lemma declareVariable_eq :
    declareVariable t visit = placeInFunction x >>= fun _ => firstValue t visit x := by
  simp only [declareVariable, tokenText, hx, need, pure_bind, placeInFunction, bind_assoc]
  refine congrArg (MonadState.get >>= ·) (funext fun g => ?_)
  cases g.function with
  | none => rfl
  | some f => exact (bind_assoc _ _ _).symm

lemma declareFunction_eq :
    declareFunction t visit = (do
      modify fun s => { s with function := some x, result := none }
      let c := (← get).inClass
      openFunction x (parametersOf t) c (functionLabels c x).1 (functionLabels c x).2
      let _ ← functionBody t visit
      closeFunction (functionLabels c x).2
      return .none) := by
  simp only [declareFunction, tokenText, hx, need, pure_bind, openFunction, storeLabels, bind_assoc]
  refine congrArg (_ >>= ·) (funext fun _ => congrArg (_ >>= ·) (funext fun g => ?_))
  refine congrArg (_ >>= ·) (funext fun sym => ?_)
  rw [functionBody]
  cases sym <;> cases g.inClass <;> cases t.kid? .block <;>
    simp only [bind_assoc, pure_bind]

end Declaration

/-- The label at the start of a function and the one at its end. -/
lemma functionLabels_forms (c : Option String) (x : String) :
    (∃ y, (functionLabels c x).1 = "func_" ++ y) ∧ ∃ y, (functionLabels c x).2 = y ++ "_exit" := by
  unfold functionLabels
  split
  · rename_i c
    refine ⟨⟨_, String.append_assoc⟩, ⟨c ++ "_constructor", ?_⟩⟩
    change c ++ ("_constructor" ++ "_exit") = _
    rw [String.append_assoc]
  · exact ⟨⟨_, rfl⟩, ⟨_, rfl⟩⟩

lemma isLabelName_append_exit (s : String) : Tac.isLabelName (s ++ "_exit") = false := by
  refine Tac.isLabelName_of_getLast (c := 't') ?_ (by decide) (by decide)
  rw [String.toList_append, getLast?_append]
  rfl

lemma isLabelName_functionLabels (inClass : Option String) (x : String) :
    Tac.isLabelName (functionLabels inClass x).1 = false ∧
      Tac.isLabelName (functionLabels inClass x).2 = false := by
  obtain ⟨⟨y, hent⟩, ⟨z, hexit⟩⟩ := functionLabels_forms inClass x
  rw [hent, hexit]
  refine ⟨Tac.isLabelName_of_head (c := 'f') ?_ (by decide), isLabelName_append_exit z⟩
  rw [String.toList_append]
  rfl

end Gen

end Compiscript
