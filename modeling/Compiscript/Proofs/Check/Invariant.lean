import Compiscript.Check
import Compiscript.Proofs.Grammar.Parts

/-!
# Induction over the Checker

A property of steps that holds for the smallest ones and is kept when steps are
put together holds for the check of every tree.

As in the induction over the generator, the definitions of the checker mostly put
small steps together, one behind the other. Expressions need few of them, which
are in `Check.Steps`: they look at the state, complain and give up. What remains
to be shown for statements is listed in `Check.Invariant`.
-/

namespace Compiscript

open List hiding foldlM get mapM modify

/-- The rules that expressions are made of. -/
def Rule.isInExpression : Rule → Bool
  | .expression | .assignmentExpr | .conditionalExpr | .logicalOrExpr | .logicalAndExpr
  | .equalityExpr | .relationalExpr | .additiveExpr | .multiplicativeExpr | .unaryExpr
  | .primaryExpr | .literalExpr | .leftHandSide | .primaryAtom | .suffixOp | .arguments
  | .arrayLiteral => true
  | _ => false

lemma Rule.closed_isInExpression : Rule.Closed Rule.isInExpression := by decide

/-- Whether a class names itself as its base. -/
def Tree.extendsItself (t : Tree) : Bool :=
  t.isOf .classDeclaration && (Check.baseName? t).isSome &&
    Check.baseName? t == t.tokenText? .identifier

/-- Complaints about where names are declared. -/
def Complaint.isAboutScopes : Complaint → Bool
  | .redeclared _ | .undeclared _ => true
  | _ => false

/-- Complaints about jumps that are in no loop. -/
def Complaint.isAboutJumps : Complaint → Bool
  | .jumpOutsideLoop _ => true
  | _ => false

/-- Complaints that are about types and the like, and not about where something stands. -/
def Complaint.isOrdinary (c : Complaint) : Bool := !c.isAboutScopes && !c.isAboutJumps

variable {c : Complaint}

lemma Complaint.isAboutScopes_eq_false (h : c.isOrdinary = true) : c.isAboutScopes = false := by
  rw [isOrdinary, Bool.and_eq_true, Bool.not_eq_true'] at h
  exact h.1

lemma Complaint.isAboutJumps_eq_false (h : c.isOrdinary = true) : c.isAboutJumps = false := by
  rw [isOrdinary, Bool.and_eq_true, Bool.not_eq_true', Bool.not_eq_true'] at h
  exact h.2

/-- The jump that nodes of a kind stand for. -/
def Tag.jump? : Tag → Option Jump
  | ⟨.breakStatement, _⟩ => some .break
  | ⟨.continueStatement, _⟩ => some .continue
  | _ => none

namespace Check

section Run

variable {α β : Type}

lemma run_bind (x : Check α) (f : α → Check β) (s : Checker) :
    (x >>= f).run s =
      (match x.run s with
        | (.ok a, s') => (f a).run s'
        | (.error e, s') => (.error e, s') : Except Absent β × Checker) := by
  change (match x.run s with | (r, s') => ExceptT.bindCont f r s') = _
  rcases x.run s with ⟨r, s'⟩
  cases r <;> rfl

lemma run_tryCatch (x : Check α) (h : Absent → Check α) (s : Checker) :
    (tryCatch x h).run s =
      (match x.run s with
        | (.ok a, s') => (.ok a, s')
        | (.error e, s') => (h e).run s' : Except Absent α × Checker) := by
  rw [ExceptT.run_tryCatch]
  simp only [bind, StateT.bind]
  rcases x.run s with ⟨r, s'⟩
  cases r <;> rfl

/-- A declaration that fails leaves a complaint. -/
lemma run_define (p : Pos) (sym : Symbol) (s : Checker) :
    (define p sym).run s = (.ok (), match s.scopes.define? sym with
      | some scopes => { s with scopes }
      | none => { s with errors := s.errors ++ [⟨p, .redeclared sym.name⟩] }) := by
  change ((match s.scopes.define? sym with
    | some scopes => modify ({ · with scopes })
    | none => complain p (.redeclared sym.name) : Check Unit).run s) = _
  cases s.scopes.define? sym <;> rfl

end Run

section For

variable (t : Tree) (visit : t.Sub → Check Ty)

/-- What a `for` starts with. -/
def forStart : Check Unit :=
  match t.subs[2]? with
  | some first => do let _ ← visit first
  | none => pure ()

/-- The expressions in the header of a `for`. -/
def forHeader : Check Unit :=
  match t.kids .expression with
  | [] => pure ()
  | e :: rest => do
    condition t visit .for (some e)
    match rest with
    | update :: _ => let _ ← visit update
    | [] => pure ()

/-- A `for` is a loop around its header and its body. -/
lemma forStatement_eq :
    forStatement t visit = (do
      enterLoop
      (do forStart t visit; forHeader t visit; let _ ← visitPart visit (t.kid? .block))
      leaveLoop) >>= fun _ => return .unknown := by
  unfold forStatement forStart forHeader
  cases t.subs[2]? <;> rcases t.kids .expression with _ | ⟨e, _ | ⟨update, rest⟩⟩ <;>
    simp only [bind_assoc, pure_bind]

end For

/-- A class up to its members. Its name and its number are the result. -/
def classHead (t : Tree) : Check (String × Nat) := do
  let name ← tokenText t .identifier
  let (classes, id) := (← get).classes.add name
  modify fun s => { s with classes }
  define t.pos (.ofClass name (.class name) id)
  modify fun s => { s with classNames := s.classNames.set name id }
  extendBase t id
  return (name, id)

lemma declareClass_eq (t : Tree) (visit : t.Sub → Check Ty) : declareClass t visit = (do
    let c ← classHead t
    for m in t.kids .classMember do declareMember t visit c.2 c.1 m
    for m in t.kids .classMember do methodBody t visit c.2 c.1 m
    return .unknown) := by
  unfold declareClass classHead
  simp only [bind_assoc, pure_bind]

/-- A property of steps, by what it says about the small ones that expressions are made of. -/
structure Steps (Q : ∀ {α : Type}, Check α → Prop) : Prop where
  pure {α : Type} (a : α) : Q (Pure.pure a : Check α)
  bind {α β : Type} {x : Check α} {f : α → Check β} (hx : Q x) (hf : ∀ a, Q (f a)) : Q (x >>= f)
  throw {α : Type} (what : Absent) : Q (throw what : Check α)
  get {β : Type} {k : Checker → Check β} (h : ∀ s, Q (k s)) : Q (MonadState.get >>= k)
  complain (p : Pos) {c : Complaint} (h : c.isOrdinary = true) : Q (complain p c)

/-- The same, with what it says about names, about scopes and about loops. -/
structure Invariant (E : Check Ty → Prop) (Q : ∀ {α : Type}, Check α → Prop) : Prop
    extends Steps Q where
  recover {x : Check Ty} (hx : Q x) (hE : E x) :
    Q (tryCatch (do return (← x).orNull) fun _ => return .null)
  undeclared (p : Pos) (x : String) : Q (Check.complain p (.undeclared x))
  define (p : Pos) {sym : Symbol} (h : sym.place.isParam ≠ some true) : Q (define p sym)
  markInitialized (x : String) :
    Q (modify fun s => { s with scopes := s.scopes.update x Symbol.initialized } : Check Unit)
  fillClass (id : Nat) {f : ClassInfo → ClassInfo} (hf : ∀ c, (f c).base = c.base) :
    Q (modify fun s => { s with classes := s.classes.modify id f } : Check Unit)
  loop {body : Check Unit} (h : Q body) : Q (do enterLoop; body; leaveLoop)
  scope {body : Check Unit} (h : Q body) : Q (do pushScope; body; popScope)
  functionScope (p : Pos) (f : Symbol) (params : List (String × Ty)) {body : Check Unit}
    (h : Q body) : Q (do pushScope; functionBody p f params body; popScope)
  methodScope (p : Pos) (f : Symbol) (id : Nat) (className : String) {body : Check Unit}
    (h : Q body) : Q (do
      let outer := (← MonadState.get).inClass
      pushScope
      modify fun s => { s with inClass := some id }
      Check.define p (.ofVariable "this" (.class className) false true)
      functionBody p f (paramsOf f) body
      modify fun s => { s with inClass := outer }
      popScope)

/-- The arguments of a call occur in it. -/
lemma within_of_mem_arguments {t : Tree} {op e : t.Sub} (h : e ∈ arguments op) :
    e.tree.Within op.tree := by
  unfold arguments at h
  split at h
  · rename_i a ha
    obtain ⟨k, hk, rfl⟩ := mem_map.1 h
    exact (Tree.Within.of_kids hk).trans (.of_kid? ha)
  · cases h

namespace Steps

variable {Q : ∀ {α : Type}, Check α → Prop} (hQ : Steps Q)

include hQ

lemma map {x : Check α} {f : α → β} (hx : Q x) : Q (do return f (← x)) :=
  hQ.bind hx fun _ => hQ.pure _

lemma require (holds : Bool) (p : Pos) (h : c.isOrdinary = true) : Q (require holds p c) := by
  rw [Check.require]
  split
  · exact hQ.pure ()
  · exact hQ.complain p h

lemma jump (t : Tree) {j : Jump} (h : Q (Check.complain t.pos (.jumpOutsideLoop j))) :
    Q (jump t j) := by
  refine hQ.get fun s => hQ.map ?_
  rw [Check.require]
  split
  · exact hQ.pure ()
  · exact h

lemma need (what : Absent) (o : Option α) : Q (need what o) := by
  cases o with
  | none => exact hQ.throw what
  | some a => exact hQ.pure a

lemma accept (a b : Ty) : Q (accept a b) := hQ.need _ _

lemma tokenText (t : Tree) (k : Kind) : Q (tokenText t k) := hQ.need _ _

lemma resolve? (x : String) : Q (resolve? x) := hQ.get fun _ => hQ.pure _

lemma class? (x : String) : Q (class? x) := hQ.get fun _ => hQ.pure _

lemma ofText (x : String) : Q (ofText x) := by
  unfold Check.ofText
  dsimp only
  repeat' split
  all_goals first
    | exact hQ.pure _
    | exact hQ.bind (hQ.resolve? x) fun sym => by split <;> exact hQ.pure _

lemma mapM {f : α → Check β} {xs : List α} (h : ∀ x ∈ xs, Q (f x)) : Q (xs.mapM f) := by
  induction xs with
  | nil => exact hQ.pure []
  | cons x xs ih =>
    rw [mapM_cons]
    refine hQ.bind (h x (.head _)) fun b => ?_
    refine hQ.bind (ih fun y hy => h y (.tail _ hy)) fun bs => ?_
    exact hQ.pure (b :: bs)

lemma foldlM {f : β → α → Check β} {xs : List α} (h : ∀ x ∈ xs, ∀ b, Q (f b x))
    (b : β) : Q (xs.foldlM f b) := by
  induction xs generalizing b with
  | nil => exact hQ.pure b
  | cons x xs ih =>
    rw [foldlM_cons]
    exact hQ.bind (h x (.head _) b) fun b' =>
      ih (fun y hy => h y (.tail _ hy)) b'

lemma forIn {f : α → PUnit → Check (ForInStep PUnit)} {xs : List α}
    (h : ∀ x ∈ xs, ∀ u, Q (f x u)) : Q (forIn xs PUnit.unit f) := by
  induction xs with
  | nil => exact hQ.pure _
  | cons x xs ih =>
    rw [forIn_cons]
    refine hQ.bind (h x (.head _) _) fun r => ?_
    cases r with
    | done u => exact hQ.pure u
    | yield u => exact ih fun y hy => h y (.tail _ hy)

lemma complaining (p : Pos) (h : c.isOrdinary = true) (a : α) :
    Q (do Check.complain p c; return a : Check α) :=
  hQ.map (hQ.complain p h)

lemma matchArguments (p : Pos) {mismatch : Nat → Ty → Ty → Complaint}
    (h : ∀ i a b, (mismatch i a b).isOrdinary = true)
    (params : List (String × Ty)) (found : List Ty) :
    Q (matchArguments p mismatch params found) := by
  refine hQ.map (hQ.forIn fun c _ u => ?_)
  exact hQ.bind (hQ.accept _ _) fun _ => hQ.map (hQ.require _ _ (h _ _ _))

lemma member (op : Tree) (type : Ty) : Q (member op type) := by
  unfold Check.member
  refine hQ.bind (hQ.need _ _) fun x => ?_
  split
  · refine hQ.bind (hQ.class? _) fun c => ?_
    split
    · exact hQ.complaining _ rfl _
    · refine hQ.get fun s => ?_
      dsimp only
      split
      · exact hQ.pure _
      · split
        · exact hQ.pure _
        · exact hQ.complaining _ rfl _
  · exact hQ.complaining _ rfl _

lemma assignField (p : Pos) (field : String) (object found : Ty) :
    Q (assignField p field object found) := by
  unfold Check.assignField
  split
  · refine hQ.bind (hQ.class? _) fun c => ?_
    split
    · exact hQ.complain _ rfl
    · refine hQ.get fun s => ?_
      split
      · exact hQ.complain _ rfl
      · refine hQ.bind (hQ.require _ _ rfl) fun _ => hQ.bind (hQ.accept _ _) fun _ => ?_
        exact hQ.require _ _ rfl
  · exact hQ.complain _ rfl

lemma parameters (f : Tree) : Q (parameters f) := by
  unfold Check.parameters
  split
  · exact hQ.pure _
  · exact hQ.mapM fun p _ => hQ.map (hQ.tokenText _ _)

/-- What holds for all changes of the classes holds for the head of a class. -/
lemma classHead (hdef : ∀ p {sym : Symbol}, sym.place.isParam ≠ some true →
      Q (define p sym)) (hset : ∀ (f : Checker → Classes) (g : Checker → Table String Nat),
      Q (modify fun s => { s with classes := f s, classNames := g s } : Check Unit)) (t : Tree) :
    Q (classHead t) := by
  have hext : ∀ id, Q (extendBase t id) := by
    intro id
    unfold extendBase
    split
    · exact hQ.pure _
    · refine hQ.bind (hQ.class? _) fun c => ?_
      split
      · exact hQ.complain _ rfl
      · exact hset _ (·.classNames)
  refine hQ.bind (hQ.tokenText _ _) fun x => hQ.get fun s => ?_
  refine hQ.bind (hset _ (·.classNames)) fun _ => ?_
  refine hQ.bind (hdef _ (by simp [Symbol.ofClass, Placement.none])) fun _ => ?_
  exact hQ.bind (hset (·.classes) _) fun _ => hQ.map (hext _)

lemma callee? (atom : Tree) : Q (callee? atom) := by
  unfold Check.callee?
  dsimp only
  split
  · exact hQ.pure _
  · exact hQ.map (hQ.resolve? _)

section Node

variable {t : Tree} {visit : t.Sub → Check Ty}
  (hv : ∀ c : t.Sub, c.tree.Within t → Q (visit c))

include hv

lemma visitPart {part : Option t.Sub} (h : ∀ k, part = some k → k.tree.Within t) :
    Q (visitPart visit part) := by
  cases part with
  | none => exact hQ.throw .node
  | some k => exact hv k (h k rfl)

lemma visitKid (r : Rule) : Q (Check.visitPart visit (t.kid? r)) :=
  hQ.visitPart hv fun _ => .of_kid?

lemma visitKidAt (r : Rule) (i : Nat) : Q (Check.visitPart visit (t.kidAt? r i)) :=
  hQ.visitPart hv fun _ => .of_kidAt?

lemma visitAll : Q (visitAll visit) :=
  hQ.foldlM (fun c hc _ => hQ.map (hv c (.of_subs hc))) _

lemma visitTypes {es : List t.Sub} (h : ∀ e ∈ es, e.tree.Within t) :
    Q (es.mapM fun e => do return (← visit e).orNull) :=
  hQ.mapM fun e he => hQ.map (hv e (h e he))

/-! ### Expressions -/

lemma ternary : Q (ternary t visit) := by
  rw [Check.ternary]
  refine hQ.bind (hQ.visitKid hv _) fun condition => ?_
  split
  · refine hQ.bind (hQ.visitKidAt hv _ _) fun first => ?_
    refine hQ.bind (hQ.visitKidAt hv _ _) fun second => ?_
    refine hQ.bind (hQ.require _ _ rfl) fun _ => hQ.bind (hQ.accept _ _) fun _ => ?_
    exact hQ.map (hQ.require _ _ rfl)
  · exact hQ.pure _

lemma operands {operand : Rule} {several : List t.Sub → Check Ty}
    (h : Q (several (t.kids operand))) : Q (operands t visit operand several) := by
  unfold Check.operands
  split
  · exact hQ.throw _
  · exact hQ.visitKidAt hv _ _
  · exact h

lemma logical (operand : Rule) : Q (logical t visit operand) := by
  refine hQ.operands hv (hQ.map (hQ.forIn fun c hc u => ?_))
  refine hQ.bind (hv c (.of_kids hc)) fun _ => ?_
  exact hQ.map (hQ.require _ _ rfl)

lemma equality : Q (Check.equality t visit) := by
  refine hQ.operands hv (hQ.bind (hQ.visitKid hv _) fun first => ?_)
  refine hQ.map (hQ.foldlM (fun c hc before => ?_) first)
  refine hQ.bind (hv c (.of_kids (mem_of_mem_tail hc))) fun _ => ?_
  refine hQ.bind (hQ.accept _ _) fun _ => ?_
  exact hQ.map (hQ.require _ _ rfl)

lemma relational : Q (Check.relational t visit) := by
  refine hQ.operands hv (hQ.bind (hQ.visitKid hv _) fun first => ?_)
  refine hQ.map (hQ.foldlM (fun c hc before => ?_) first)
  refine hQ.bind (hv c (.of_kids (mem_of_mem_tail hc))) fun _ => ?_
  exact hQ.map (hQ.require _ _ rfl)

lemma additive : Q (Check.additive t visit) := by
  have htys : Q ((t.kids .multiplicativeExpr).mapM visit) :=
    hQ.mapM fun c hc => hv c (.of_kids hc)
  refine hQ.operands hv (hQ.bind htys fun types => ?_)
  split
  · split
    · exact hQ.pure _
    · exact hQ.complaining _ rfl _
  · split
    · exact hQ.pure _
    · exact hQ.complaining _ rfl _

lemma call {op : t.Sub} (hop : op.tree.Within t) (state : Chained) :
    Q (Check.call t visit op state) := by
  rcases state with ⟨type, f⟩
  cases f with
  | none => exact hQ.complaining _ rfl _
  | some f =>
    refine hQ.bind (hQ.visitTypes hv fun e he => ?_) fun found => ?_
    · exact (within_of_mem_arguments he).trans hop
    dsimp only
    split
    · exact hQ.map (hQ.matchArguments _ (fun _ _ _ => rfl) _ _)
    · exact hQ.complaining _ rfl _

lemma index {op : t.Sub} (hop : op.tree.Within t) (state : Chained) :
    Q (index t visit op state) := by
  unfold Check.index
  split
  · split
    · rename_i e he
      refine hQ.bind (hv _ ((Tree.Within.of_kid? he).trans hop)) fun _ => ?_
      exact hQ.map (hQ.require _ _ rfl)
    · exact hQ.pure _
  · exact hQ.complaining _ rfl _

lemma suffix {op : t.Sub} (hop : op.tree.Within t) (state : Chained) :
    Q (suffix t visit state op) := by
  unfold Check.suffix
  split
  · exact hQ.throw _
  · split
    · exact hQ.member _ _
    · exact hQ.call hv hop state
    · exact hQ.index hv hop state
    · exact hQ.pure _

lemma leftHandSide : Q (Check.leftHandSide t visit) := by
  unfold Check.leftHandSide
  cases hat : t.kid? .primaryAtom with
  | none => exact hQ.throw .node
  | some atom =>
    simp only [Check.need, pure_bind]
    refine hQ.bind (hv atom (.of_kid? hat)) fun type => ?_
    refine hQ.bind (hQ.callee? _) fun f => ?_
    refine hQ.map (hQ.foldlM (fun op hop state => ?_) _)
    exact hQ.suffix hv (.of_kids hop) state

lemma newObject : Q (newObject t visit) := by
  unfold Check.newObject
  dsimp only
  split
  · exact hQ.complaining _ rfl _
  · refine hQ.bind (hQ.class? _) fun c => ?_
    split
    · exact hQ.complaining _ rfl _
    · refine hQ.bind (hQ.visitTypes hv fun e he => ?_) fun found => hQ.get fun s => ?_
      · split at he
        · rename_i a ha
          obtain ⟨k, hk, rfl⟩ := mem_map.1 he
          exact (Tree.Within.of_kids hk).trans (.of_kid? ha)
        · cases he
      split
      · exact hQ.pure _
      · split
        · exact hQ.map (hQ.matchArguments _ (fun _ _ _ => rfl) _ _)
        · exact hQ.complaining _ rfl _

lemma arrayLiteral : Q (arrayLiteral t visit) := by
  have hgo : ∀ base types, Q (arrayLiteral.go t base types) := by
    intro base types
    induction types with
    | nil => exact hQ.pure ()
    | cons entry types ih =>
      rcases entry with ⟨type, i⟩
      rw [arrayLiteral.go]
      refine hQ.bind (hQ.accept _ _) fun ok => ?_
      split
      · exact ih
      · exact hQ.complain _ rfl
  unfold Check.arrayLiteral
  refine hQ.bind (hQ.visitTypes hv fun e he => .of_kids he) fun types => ?_
  split
  · exact hQ.pure _
  · exact hQ.map (hgo _ _)

/-- What holds for the checks of the parts holds for the check of an expression. -/
lemma tagged {tag : Tag} (htag : tag.rule.isInExpression = true) : Q (tagged t visit tag) := by
  unfold Check.tagged
  split
  -- The first cases are those of statements, the next ones visit a single part.
  iterate 18 cases htag
  iterate 3 exact hQ.visitKid hv _
  · exact hQ.ternary hv
  · exact hQ.logical hv _
  · exact hQ.logical hv _
  · exact hQ.equality hv
  · exact hQ.relational hv
  · exact hQ.additive hv
  · exact hQ.leftHandSide hv
  · exact hQ.newObject hv
  · exact hQ.arrayLiteral hv
  · exact hQ.visitAll hv

end Node

/-- What holds for the small steps holds for the check of every expression and of
    all that occurs in one. -/
lemma check {P : Token → Prop} {r : Rule} {t : Tree} (h : Derives P r t)
    (hr : r.isInExpression = true) {c : Tree} (hc : c.Within t) : Q (Compiscript.check c) := by
  have hv : ∀ d : c.Sub, d.tree.Within c → Q (Compiscript.check d.tree) :=
    fun d hd => check h hr (hd.trans hc)
  rw [check_eq]
  cases c with
  | node tag start cs =>
    exact hQ.tagged hv (h.everywhere_rule Rule.closed_isInExpression hr _ hc tag rfl)
  | leaf tok => exact hQ.ofText _
  | bad tok => exact hQ.pure _
termination_by sizeOf c
decreasing_by exact d.2

end Steps

section Variable

variable (t : Tree) (visit : t.Sub → Check Ty)

/-- The initial value of a variable. -/
def initialValue? : Option t.Sub :=
  (t.kid? .initializer).bind fun i => (i.tree.kid? .expression).map i.lift

/-- The declaration of a variable up to its initial value. -/
def variableHead : Check (String × Ty) := do
  let name ← tokenText t .identifier
  let type ← match t.markedType?, initialValue? t with
    | some type, _ => pure type
    | none, some e => infer visit e
    | none, none => do
      complain t.pos (.noType name)
      pure .null
  define t.pos (.ofVariable name type false (initialValue? t).isSome)
  return (name, type)

lemma declareVariable_eq : declareVariable t visit = (do
    let head ← variableHead t visit
    match initialValue? t with
    | none => pure ()
    | some e => do
      let found := (← visit e).orNull
      require (← accept head.2 found) t.pos (.variableMismatch head.1 head.2 found)
    return .unknown) := by
  unfold declareVariable variableHead initialValue?
  cases t.markedType? <;>
    cases (t.kid? .initializer).bind fun i => (i.tree.kid? .expression).map i.lift <;>
      simp only [bind_assoc, pure_bind]

end Variable

/-- The initial value of a variable is an expression. -/
lemma isExpression_initializer {t : Tree} (e : t.Sub) (he : initialValue? t = some e) :
    e.tree.Within t ∧ e.tree.isOf .expression = true := by
  obtain ⟨i, hi, he⟩ := Option.bind_eq_some_iff.1 he
  obtain ⟨k, hk, rfl⟩ := Option.map_eq_some_iff.1 he
  exact ⟨(Tree.Within.of_kid? hk).trans (.of_kid? hi), (Tree.of_kid? hk).2⟩

namespace Invariant

variable {E : Check Ty → Prop} {Q : ∀ {α : Type}, Check α → Prop} (hQ : Invariant E Q)

include hQ

lemma declare (p : Pos) (x : String) (type : Ty) (const init : Bool) :
    Q (Check.define p (.ofVariable x type const init)) :=
  hQ.define p (by simp [Symbol.ofVariable, Placement.ofVariable])

lemma addField (p : Pos) (id : Nat) (className : String) (sym : Symbol) :
    Q (addField p id className sym) := by
  unfold Check.addField
  refine hQ.get fun s => ?_
  dsimp only
  split
  · exact hQ.complain _ rfl
  · exact hQ.fillClass _ fun _ => rfl

lemma addMethod (p : Pos) (id : Nat) (className : String) (sym : Symbol) :
    Q (addMethod p id className sym) := by
  unfold Check.addMethod
  refine hQ.get fun s => hQ.bind (hQ.require _ _ rfl) fun _ => ?_
  exact hQ.fillClass _ fun _ => rfl

section Node

variable {t : Tree} {visit : t.Sub → Check Ty}
  (hv : ∀ c : t.Sub, c.tree.Within t → Q (visit c))

include hv

/-! ### Statements -/

lemma variableHead
    (hE : ∀ c : t.Sub, c.tree.Within t → c.tree.isOf .expression = true → E (visit c)) :
    Q (variableHead t visit) := by
  unfold Check.variableHead
  refine hQ.bind (hQ.tokenText _ _) fun x => ?_
  split
  · exact hQ.map (hQ.declare ..)
  · rename_i e _ he
    obtain ⟨hw, hof⟩ := isExpression_initializer e he
    exact hQ.bind (hQ.recover (hv e hw) (hE e hw hof)) fun _ => hQ.map (hQ.declare ..)
  · exact hQ.bind (hQ.complain _ rfl) fun _ => hQ.map (hQ.declare ..)

lemma declareVariable
    (hE : ∀ c : t.Sub, c.tree.Within t → c.tree.isOf .expression = true → E (visit c)) :
    Q (declareVariable t visit) := by
  rw [declareVariable_eq]
  refine hQ.bind (hQ.variableHead hv hE) fun head => ?_
  split
  · exact hQ.pure _
  · rename_i e he
    exact hQ.bind (hv e (isExpression_initializer e he).1) fun _ => hQ.bind (hQ.accept _ _) fun _ =>
      hQ.map (hQ.require _ _ rfl)

lemma declareConstant : Q (declareConstant t visit) := by
  unfold Check.declareConstant
  refine hQ.bind (hQ.tokenText _ _) fun x => ?_
  have hend := fun type => hQ.map (f := fun _ => Ty.unknown) (hQ.declare t.pos x type true true)
  have hrs := fun type found => hQ.bind (hQ.accept type found) fun ok =>
    hQ.bind (hQ.require ok t.pos
      (rfl : (Complaint.constantMismatch x type found).isOrdinary = true))
      fun _ => hend type
  cases t.markedType? <;> cases he : t.kid? .expression
  · exact hend _
  · exact hQ.bind (hv _ (.of_kid? he)) hend
  · exact hrs _ _
  · exact hQ.bind (hv _ (.of_kid? he)) (hrs _)

lemma assignVariable : Q (assignVariable t visit) := by
  unfold Check.assignVariable
  dsimp only
  refine hQ.bind (hQ.resolve? _) fun sym => ?_
  split
  · exact hQ.map (hQ.undeclared _ _)
  · rename_i sym
    refine hQ.bind (hQ.require _ _ rfl) fun _ => ?_
    have hrs : ∀ found, Q (do
        require (← accept sym.type found) t.pos
          (.variableMismatch ((t.tokenText? .identifier).getD "<unknown>") sym.type found)
        modify fun s => { s with
          scopes := s.scopes.update ((t.tokenText? .identifier).getD "<unknown>")
            Symbol.initialized }
        return Ty.unknown : Check Ty) := fun found =>
      hQ.bind (hQ.accept _ _) fun _ => hQ.bind (hQ.require _ _ rfl) fun _ =>
        hQ.map (hQ.markInitialized _)
    split
    · rename_i e he
      exact hQ.bind (hv e (.of_kid? he)) fun found => hrs found
    · exact hrs _

lemma assignProperty : Q (assignProperty t visit) := by
  unfold Check.assignProperty
  split
  · rename_i object value rest hks
    have hw : ∀ e ∈ object :: value :: rest, e.tree.Within t :=
      fun e he => .of_kids (hks ▸ he)
    have hla : (value :: rest).getLast?.getD value ∈ value :: rest := by
      rw [getLast?_eq_some_getLast (cons_ne_nil _ _)]
      exact getLast_mem _
    split
    · exact hQ.complaining _ rfl _
    · refine hQ.bind (hv _ (hw _ (.head _))) fun _ => ?_
      refine hQ.bind (hv _ (hw _ (.tail _ hla))) fun _ => ?_
      exact hQ.map (hQ.assignField _ _ _ _)
  · exact hQ.complaining _ rfl _

lemma assignment : Q (assignment t visit) := by
  unfold Check.assignment
  split
  · exact hQ.assignVariable hv
  · exact hQ.assignProperty hv

lemma evaluate : Q (Check.evaluate t visit) :=
  hQ.map (hQ.visitKid hv _)

lemma condition (statement : Conditional) {part : Option t.Sub}
    (h : ∀ k, part = some k → k.tree.Within t) : Q (Check.condition t visit statement part) :=
  hQ.bind (hQ.visitPart hv h) fun _ => hQ.require _ _ rfl

lemma conditionKid (statement : Conditional) :
    Q (Check.condition t visit statement (t.kid? .expression)) :=
  hQ.condition hv statement fun _ => .of_kid?

lemma loopBody : Q (Check.loopBody t visit) := by
  have hbd : Q (do let _ ← Check.visitPart visit (t.kid? .block); return () : Check Unit) :=
    hQ.map (hQ.visitKid hv _)
  simpa only [Check.loopBody, bind_assoc, pure_bind] using hQ.loop hbd

lemma ifStatement : Q (ifStatement t visit) := by
  unfold Check.ifStatement
  refine hQ.bind (hQ.conditionKid hv _) fun _ => hQ.bind (hQ.visitKidAt hv _ _) fun _ => ?_
  split
  · rename_i b hb
    exact hQ.map (hv b (.of_kidAt? hb))
  · exact hQ.pure _

lemma whileStatement : Q (Check.whileStatement t visit) :=
  hQ.bind (hQ.conditionKid hv _) fun _ => hQ.map (hQ.loopBody hv)

lemma doWhileStatement : Q (Check.doWhileStatement t visit) :=
  hQ.bind (hQ.loopBody hv) fun _ => hQ.map (hQ.conditionKid hv _)

lemma forStatement : Q (Check.forStatement t visit) := by
  rw [forStatement_eq]
  refine hQ.map (hQ.loop (hQ.bind ?_ fun _ => hQ.bind ?_ fun _ => ?_))
  · rw [forStart]
    split
    · rename_i first hfst
      have hmem := Tree.Within.of_subs (mem_of_getElem? hfst)
      exact hQ.map (hv first hmem)
    · exact hQ.pure _
  · rw [forHeader]
    split
    · exact hQ.pure _
    · rename_i e rest hks
      have hw : ∀ k ∈ e :: rest, k.tree.Within t :=
        fun k hk => .of_kids (hks ▸ hk)
      refine hQ.bind (hQ.condition hv _ fun k hk => ?_) fun _ => ?_
      · exact hw k (Option.some.inj hk ▸ mem_cons_self)
      · split
        · exact hQ.map (hv _ (hw _ (by simp)))
        · exact hQ.pure _
  · exact hQ.map (hQ.visitKid hv _)

lemma foreachStatement : Q (Check.foreachStatement t visit) := by
  unfold Check.foreachStatement
  refine hQ.bind (hQ.visitKid hv _) fun type => ?_
  have hrs : ∀ elem, Q (do
      pushScope
      Check.define t.pos (.ofVariable (← Check.tokenText t .identifier) elem false true)
      Check.loopBody t visit
      popScope
      return Ty.unknown : Check Ty) := by
    intro elem
    have hbd : Q (do
        Check.define t.pos (.ofVariable (← Check.tokenText t .identifier) elem false true)
        Check.loopBody t visit : Check Unit) :=
      hQ.bind (hQ.tokenText _ _) fun _ => hQ.bind (hQ.declare _ _ _ _ _) fun _ => hQ.loopBody hv
    simpa only [bind_assoc] using hQ.map (f := fun _ => Ty.unknown) (hQ.scope hbd)
  split
  · exact hrs _
  · exact hQ.bind (hQ.complain _ rfl) fun _ => hrs _


lemma returnStatement : Q (returnStatement t visit) := by
  unfold Check.returnStatement
  refine hQ.get fun s => ?_
  split
  · exact hQ.complaining _ rfl _
  · rename_i f _
    have hrs : ∀ found, Q (do
        require (← accept f.type found) t.pos (.returnMismatch found f.type)
        return Ty.unknown : Check Ty) := fun found =>
      hQ.bind (hQ.accept _ _) fun _ => hQ.map (hQ.require _ _ rfl)
    cases he : t.kid? .expression with
    | none => exact hrs _
    | some e => exact hQ.bind (hv e (.of_kid? he)) fun found => hrs found

lemma declareFunction : Q (declareFunction t visit) := by
  unfold Check.declareFunction
  refine hQ.bind (hQ.tokenText _ _) fun x => hQ.bind (hQ.parameters _) fun params => ?_
  refine hQ.bind (hQ.define _ (by simp [Symbol.ofFunction, Placement.none])) fun _ => ?_
  have hbd : Q (do let _ ← visitPart visit (t.kid? .block) : Check Unit) :=
    hQ.map (hQ.visitKid hv _)
  have hsc := hQ.functionScope t.pos
    (.ofFunction x ((t.typeOf? .typeExpr).getD .null) params) params hbd
  simpa only [bind_assoc] using hQ.map (f := fun _ => Ty.unknown) hsc

lemma declareMember (id : Nat) (className : String) {m : t.Sub} (hm : m.tree.Within t) :
    Q (declareMember t visit id className m) := by
  unfold Check.declareMember
  split
  · exact hQ.bind (hQ.tokenText _ _) fun _ => hQ.addField _ _ _ _
  · refine hQ.bind (hQ.tokenText _ _) fun x => ?_
    split
    · exact hQ.addField _ _ _ _
    · rename_i c hc _ _
      refine hQ.bind (hQ.visitPart hv fun k hk => ?_) fun _ => hQ.addField _ _ _ _
      obtain ⟨e, he, rfl⟩ := Option.map_eq_some_iff.1 hk
      exact (Tree.Within.of_kid? he).trans ((Tree.Within.of_kid? hc).trans hm)
  · exact hQ.bind (hQ.tokenText _ _) fun _ => hQ.bind (hQ.parameters _) fun _ =>
      hQ.addMethod _ _ _ _
  · exact hQ.pure _

lemma methodBody (id : Nat) (className : String) {m : t.Sub} (hm : m.tree.Within t) :
    Q (methodBody t visit id className m) := by
  unfold Check.methodBody
  split
  · exact hQ.pure _
  · rename_i f hf
    refine hQ.bind (hQ.tokenText _ _) fun x => hQ.get fun s => ?_
    refine hQ.methodScope _ _ _ _ (hQ.map (hQ.visitPart hv fun k hk => ?_))
    obtain ⟨b, hb, rfl⟩ := Option.map_eq_some_iff.1 hk
    exact (Tree.Within.of_kid? hb).trans ((Tree.Within.of_kid? hf).trans hm)

lemma declareClass (hhd : Q (Check.classHead t)) : Q (Check.declareClass t visit) := by
  rw [declareClass_eq]
  refine hQ.bind hhd fun c => hQ.bind (hQ.forIn fun m hm u => ?_) fun _ =>
    hQ.bind (hQ.forIn fun m hm u => ?_) fun _ => ?_
  · exact hQ.map (hQ.declareMember hv _ _ (.of_kids hm))
  · exact hQ.map (hQ.methodBody hv _ _ (.of_kids hm))
  · exact hQ.pure _

lemma statements (dead : Bool) {parts : List t.Sub} (h : ∀ s ∈ parts, s.tree.Within t) :
    Q (Check.statements t visit dead parts) := by
  induction parts generalizing dead with
  | nil => exact hQ.pure ()
  | cons s parts ih =>
    obtain ⟨hs, hrs⟩ := forall_mem_cons.1 h
    rw [Check.statements]
    exact hQ.bind (hQ.require _ _ rfl) fun _ => hQ.bind (hv s hs) fun _ => ih _ hrs

lemma block : Q (Check.block t visit) := by
  have hbd : Q (Check.statements t visit false (t.kids .statement)) :=
    hQ.statements hv false fun _ => .of_kids
  have hsc := hQ.scope hbd
  simpa only [Check.block, bind_assoc] using hQ.map (f := fun _ => Ty.unknown) hsc

lemma switchStatement : Q (switchStatement t visit) := by
  unfold Check.switchStatement
  refine hQ.bind (hQ.visitKid hv _) fun type => hQ.bind (hQ.require _ _ rfl) fun _ => ?_
  refine hQ.map (hQ.forIn fun c hc u => ?_)
  split
  · exact hQ.pure _
  · rename_i e he
    have hw := (Tree.Within.of_kid? he).trans (.of_kids hc)
    refine hQ.bind (hv _ hw) fun _ => hQ.bind (hQ.accept _ _) fun _ => ?_
    exact hQ.map (hQ.require _ _ rfl)

lemma program : Q (Check.program t visit) := by
  refine hQ.map (hQ.forIn fun c hc _ => ?_)
  exact hQ.map (hv c (.of_kids hc))

/-- What holds for the checks of the parts holds for the check of a node. -/
lemma tagged (hE : ∀ c : t.Sub, c.tree.Within t → c.tree.isOf .expression = true → E (visit c))
    {tag : Tag} (hj : ∀ j, tag.jump? = some j → Q (jump t j))
    (hhd : tag.rule = .classDeclaration → Q (classHead t)) : Q (tagged t visit tag) := by
  by_cases hin : tag.rule.isInExpression = true
  · exact hQ.toSteps.tagged hv hin
  unfold Check.tagged
  split
  · exact hQ.program hv
  · exact hQ.declareVariable hv hE
  · exact hQ.declareConstant hv
  · exact hQ.assignment hv
  · exact hQ.evaluate hv
  · exact hQ.evaluate hv
  · exact hQ.ifStatement hv
  · exact hQ.whileStatement hv
  · exact hQ.doWhileStatement hv
  · exact hQ.forStatement hv
  · exact hQ.foreachStatement hv
  · exact hj _ rfl
  · exact hj _ rfl
  · exact hQ.returnStatement hv
  · exact hQ.declareFunction hv
  · exact hQ.declareClass hv (hhd rfl)
  · exact hQ.block hv
  · exact hQ.switchStatement hv
  iterate 3 exact hQ.visitKid hv _
  · exact hQ.ternary hv
  iterate 6 exact absurd rfl hin
  · exact hQ.newObject hv
  · exact absurd rfl hin
  · exact hQ.visitAll hv

end Node

/-- What holds for the small steps, for jumps and for the heads of classes holds for the
    check of every tree. -/
lemma check {t : Tree}
    (hE : t.Everywhere fun c => c.isOf .expression = true → E (Compiscript.check c))
    (hj : t.Everywhere fun c => ∀ j, c.tag?.bind Tag.jump? = some j → Q (Check.jump c j))
    (hhd : t.Everywhere fun c => c.isOf .classDeclaration = true → Q (Check.classHead c)) :
    Q (Compiscript.check t) := by
  have hv : ∀ c : t.Sub, c.tree.Within t → Q (Compiscript.check c.tree) :=
    fun c hc => check (hE.sub hc) (hj.sub hc) (hhd.sub hc)
  rw [check_eq]
  cases t with
  | node tag start cs =>
    exact hQ.tagged hv (fun c hc hof => hE c.tree hc hof) (hj _ (.refl _)) fun h =>
      hhd _ (.refl _) (beq_iff_eq.2 h)
  | leaf tok => exact hQ.ofText _
  | bad tok => exact hQ.pure _
termination_by sizeOf t
decreasing_by exact c.2

end Invariant

/-! ### States before and after -/

/-- Whatever a step comes to, the states before and after it are in a relation. -/
def Moves (R : Checker → Checker → Prop) {α : Type} (x : Check α) : Prop := ∀ s, R s (x.run s).2

variable {R : Checker → Checker → Prop}

lemma Moves.recover {x : Check Ty} (hx : Moves R x) :
    Moves R (tryCatch x fun _ => return .null) := by
  intro s
  have hs := hx s
  rw [run_tryCatch]
  rcases hrun : x.run s with ⟨_ | a, s'⟩ <;> rw [hrun] at hs <;> exact hs

lemma Steps.of_moves (hrefl : ∀ s, R s s) (htrans : ∀ s s' s'', R s s' → R s' s'' → R s s'')
    (hcom : ∀ (s : Checker) p c, Complaint.isOrdinary c = true →
      R s { s with errors := s.errors ++ [⟨p, c⟩] }) : Steps (@Moves R) where
  pure _ s := hrefl s
  bind {_ _ x f} hx hf s := by
    have hs := hx s
    rw [run_bind]
    rcases hrun : x.run s with ⟨_ | a, s'⟩ <;> rw [hrun] at hs
    · exact hs
    · exact htrans _ _ _ hs (hf a s')
  throw _ s := hrefl s
  get h s := h s s
  complain p c h s := hcom s p c h

/-- A relation for which scopes, loops, functions and further complaints make no difference, nor
    do the members of a class. -/
structure Passing (R : Checker → Checker → Prop) : Prop where
  trans (s s' s'' : Checker) (h : R s s') (h' : R s' s'') : R s s''
  aside {s s' : Checker} (hclasses : s'.classes = s.classes) (hnames : s'.classNames = s.classNames)
    (herrors : s.errors <+: s'.errors) : R s s'
  fill (s : Checker) (id : Nat) {f : ClassInfo → ClassInfo} (hf : ∀ c, (f c).base = c.base) :
    R s { s with classes := s.classes.modify id f }

namespace Passing

variable {R : Checker → Checker → Prop} (hR : Passing R)

include hR

lemma steps : Steps (@Moves R) :=
  .of_moves (fun _ => hR.aside rfl rfl prefix_rfl) hR.trans
    fun _ _ _ _ => hR.aside rfl rfl (prefix_append _ _)

lemma define (p : Pos) (sym : Symbol) : Moves R (define p sym) := by
  intro s
  rw [run_define]
  cases s.scopes.define? sym with
  | none => exact hR.aside rfl rfl (prefix_append _ _)
  | some _ => exact hR.aside rfl rfl prefix_rfl

lemma functionBody (p : Pos) (f : Symbol) (params : List (String × Ty)) {body : Check Unit}
    (h : Moves R body) : Moves R (functionBody p f params body) := by
  have hset : ∀ f, Moves R (modify fun s => { s with function := f } : Check Unit) :=
    fun _ _ => hR.aside rfl rfl prefix_rfl
  refine hR.steps.bind (hR.steps.forIn fun _ _ _ => ?_) fun _ => hR.steps.get fun _ => ?_
  · exact hR.steps.bind (hR.define p _) fun _ => hR.steps.pure _
  · exact hR.steps.bind (hset _) fun _ => hR.steps.bind h fun _ => hset _

/-- Every visit is made of steps that keep to the relation. -/
lemma invariant : Invariant (fun _ => True) (@Moves R) where
  toSteps := hR.steps
  recover hx _ := .recover (hR.steps.bind hx fun _ => hR.steps.pure _)
  undeclared _ _ _ := hR.aside rfl rfl (prefix_append _ _)
  define p sym _ := hR.define p sym
  markInitialized _ _ := hR.aside rfl rfl prefix_rfl
  fillClass id _ hf s := hR.fill s id hf
  loop h := hR.steps.bind (fun _ => hR.aside rfl rfl prefix_rfl) fun _ =>
    hR.steps.bind h fun _ _ => hR.aside rfl rfl prefix_rfl
  scope h := hR.steps.bind (fun _ => hR.aside rfl rfl prefix_rfl) fun _ =>
    hR.steps.bind h fun _ _ => hR.aside rfl rfl prefix_rfl
  functionScope p f params _ h := hR.steps.bind (fun _ => hR.aside rfl rfl prefix_rfl)
    fun _ => hR.steps.bind (hR.functionBody p f params h) fun _ _ => hR.aside rfl rfl prefix_rfl
  methodScope p f id className _ h := by
    refine hR.steps.get fun _ => hR.steps.bind (fun _ => hR.aside rfl rfl prefix_rfl) fun _ => ?_
    refine hR.steps.bind (fun _ => hR.aside rfl rfl prefix_rfl) fun _ => ?_
    refine hR.steps.bind (hR.define p _) fun _ =>
      hR.steps.bind (hR.functionBody p f _ h) fun _ => ?_
    exact hR.steps.bind (fun _ => hR.aside rfl rfl prefix_rfl) fun _ _ =>
      hR.aside rfl rfl prefix_rfl

/-- Every visit keeps to the relation, if the heads of classes do. -/
lemma check {t : Tree}
    (hhd : t.Everywhere fun c => c.isOf .classDeclaration = true → Moves R (classHead c)) :
    Moves R (Compiscript.check t) :=
  hR.invariant.check (fun _ _ _ => trivial) (fun c _ _ _ => hR.steps.jump c fun _ =>
    hR.aside rfl rfl (prefix_append _ _)) hhd

end Passing

end Check

end Compiscript
