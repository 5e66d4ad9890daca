import Compiscript.Proofs.Check.Carries
import Compiscript.Proofs.Check.Operands

/-!
# Where a Check Looks

The parts of a statement that its check looks at, and what has been done by then.

Of each part it is said which steps come before it: the scopes and loops that are
entered, the names that are declared, and the visits of other parts. A check that ends
well without a complaint has taken these steps, and has then visited the part without a
complaint.
-/

namespace Compiscript

open List hiding get modify

/-- Rules of loops. -/
def Rule.isLoop : Rule → Bool
  | .whileStatement | .doWhileStatement | .forStatement | .foreachStatement => true
  | _ => false

/-- Rules of trees that are read in a scope of their own. -/
def Rule.opensScope : Rule → Bool
  | .block | .functionDeclaration | .foreachStatement => true
  | _ => false

lemma Scopes.Same.length_inner {s s' : Scopes} (h : s.Same s') :
    s'.inner.length = s.inner.length := by
  rw [Same, tables_eq s, tables_eq s'] at h
  have htail := h.2.length_eq
  rw [tables, tables, length_tail, length_tail, length_append, length_append] at htail
  simpa using htail.symm

namespace Check

/-! ### How statements begin -/

section Heads

variable (t : Tree) (visit : t.Sub → Check Ty)

/-- A `foreach` up to its body. -/
def foreachHead : Check Unit := do
  let elem ← match ← visitPart visit (t.kid? .expression) with
    | .array elem => pure elem
    | _ => do
      complain t.pos .foreachOverNoArray
      pure .null
  pushScope
  define t.pos (.ofVariable (← tokenText t .identifier) elem false true)

/-- Getting ready to read the body of a function. The function around it is the result. -/
def bodyHead (p : Pos) (f : Symbol) (params : List (String × Ty)) : Check (Option Symbol) := do
  for (name, type) in params do
    define p (.ofParameter name type)
  let outer := (← get).function
  modify fun s => { s with function := some f }
  return outer

/-- A function up to its body. -/
def functionHead : Check (Option Symbol) := do
  let name ← tokenText t .identifier
  let type := (t.typeOf? .typeExpr).getD .null
  let params ← parameters t
  let f := Symbol.ofFunction name type params
  define t.pos f
  pushScope
  bodyHead t.pos f params

/-- A method up to its body. The function and the class around it are the result. -/
def methodHead (id : Nat) (className : String) : Check (Option Symbol × Option Nat) := do
  let name ← tokenText t .identifier
  let method := (((← get).classes.get? id).bind (·.methods.get? name)).getD default
  let outer := (← get).inClass
  pushScope
  modify fun s => { s with inClass := some id }
  define t.pos (.ofVariable "this" (.class className) false true)
  let function ← bodyHead t.pos method (paramsOf method)
  return (function, outer)

lemma foreachStatement_eq : foreachStatement t visit = (do
    foreachHead t visit
    loopBody t visit
    popScope
    return .unknown) := by
  unfold foreachStatement foreachHead
  simp only [bind_assoc]
  refine bind_congr fun type => ?_
  cases type <;> simp only [bind_assoc, pure_bind]

lemma functionBody_eq (p : Pos) (f : Symbol) (params : List (String × Ty)) (body : Check Unit) :
    functionBody p f params body = (do
      let outer ← bodyHead p f params
      body
      modify fun s => { s with function := outer }) := by
  unfold functionBody bodyHead
  simp only [bind_assoc, pure_bind]

lemma declareFunction_eq : declareFunction t visit = (do
    let outer ← functionHead t
    let _ ← visitPart visit (t.kid? .block)
    modify fun s => { s with function := outer }
    popScope
    return .unknown) := by
  unfold declareFunction functionHead
  simp only [functionBody_eq, bind_assoc, pure_bind]

lemma methodBody_eq (id : Nat) (className : String) {m : t.Sub} {f : m.tree.Sub}
    (hf : m.tree.kid? .functionDeclaration = some f) : methodBody t visit id className m = (do
      let outer ← methodHead f.tree id className
      let _ ← visitPart visit ((f.tree.kid? .block).map fun b => m.lift (f.lift b))
      modify fun s => { s with function := outer.1 }
      modify fun s => { s with inClass := outer.2 }
      popScope) := by
  unfold methodBody methodHead
  rw [hf]
  simp only [functionBody_eq, bind_assoc, pure_bind]

end Heads

/-! ### Positions -/

/-- A part of a tree, the nodes between the two, the innermost first, and what has been done when
    the part is looked at. -/
structure Position where
  via : List Tree
  part : Tree
  before : Check Unit

/-- The positions of a loop. Each element is looked at when those before it are through. -/
def along {α κ : Type} (step : κ → α → Check Unit) (places : Check κ → α → List Position) :
    Check κ → List α → List Position
  | _, [] => []
  | before, a :: rest =>
    places before a ++ along step places (do
      let k ← before
      step k a
      return k) rest

/-- Visit a tree, whatever its type. -/
def look (c : Tree) : Check Unit := do let _ ← check c

/-- Trees that are visited one after the other. -/
def inTurn (via : List Tree) (before : Check Unit) (cs : List Tree) : List Position :=
  along (fun _ => look) (fun before c => [⟨via, c, before⟩]) before cs

section Positions

variable (t : Tree)

/-- The value of a constant of a class, if it is looked at. -/
def constantPositions (before : Check (String × Nat)) (m : t.Sub) : List Position :=
  (m.tree.partsOf .constantDeclaration).flatMap fun c =>
    if c.markedType?.isNone then
      inTurn [c, m.tree] (do let _ ← before) (c.partsOf .expression)
    else []

/-- The body of a method. -/
def methodPositions (before : Check (String × Nat)) (m : t.Sub) : List Position :=
  (m.tree.partsOf .functionDeclaration).flatMap fun f =>
    inTurn [f, m.tree] (do
      let c ← before
      let _ ← methodHead f c.2 c.1) (f.partsOf .block)

/-- The values and the methods of a class. All members are known before the first method. -/
def classPositions : List Position :=
  let visit := fun k : t.Sub => check k.tree
  along (fun c m => declareMember t visit c.2 c.1 m) (constantPositions t) (classHead t)
      (t.kids .classMember) ++
    along (fun c m => methodBody t visit c.2 c.1 m) (methodPositions t) (do
      let c ← classHead t
      for m in t.kids .classMember do declareMember t visit c.2 c.1 m
      return c) (t.kids .classMember)

/-- The parts of an expression. They are looked at in the same state as the whole. -/
def valuePositions (r : Rule) : List Position :=
  (valueParts t r).map fun c => ⟨c.1, c.2, pure ()⟩

/-- The parts of a tree of a rule that are looked at. -/
def positionsOf : Rule → List Position
  | .program => inTurn [] (pure ()) (t.partsOf .statement)
  | .block => inTurn [] pushScope (t.partsOf .statement)
  | .statement | .tryCatchStatement => inTurn [] (pure ()) t.children
  | .variableDeclaration => (t.partsOf .initializer).flatMap fun i =>
    inTurn [i] (do let _ ← variableHead t (check ·.tree)) (i.partsOf .expression)
  | .constantDeclaration | .assignment | .expressionStatement | .printStatement
  | .returnStatement => inTurn [] (pure ()) (t.partsOf .expression)
  | .ifStatement => inTurn [] (pure ()) (t.partsOf .expression ++ t.partsOf .block)
  | .whileStatement =>
    inTurn [] (pure ()) (t.partsOf .expression) ++ inTurn [] enterLoop (t.partsOf .block)
  | .doWhileStatement =>
    inTurn [] enterLoop (t.partsOf .block) ++
      inTurn [] (loopBody t (check ·.tree)) (t.partsOf .expression)
  | .forStatement =>
    inTurn [] enterLoop (t.children[2]?.toList ++ t.partsOf .expression ++ t.partsOf .block)
  | .foreachStatement =>
    inTurn [] (pure ()) (t.partsOf .expression) ++
      inTurn [] (do foreachHead t (check ·.tree); enterLoop) (t.partsOf .block)
  | .switchStatement =>
    inTurn [] (pure ()) (t.partsOf .expression) ++ (t.partsOf .switchCase).flatMap fun c =>
      inTurn [c] (pure ()) (c.partsOf .expression)
  | .functionDeclaration => inTurn [] (do let _ ← functionHead t) (t.partsOf .block)
  | .classDeclaration => classPositions t
  | r => if r.isInExpression then valuePositions t r else []

/-- The parts of a tree that are looked at. -/
def positions : List Position := t.tag?.toList.flatMap fun tag => positionsOf t tag.rule

end Positions

/-! ### Steps without a complaint -/

variable {α β κ : Type} {s s' s'' s0 : Checker} {t : Tree}

/-- A step takes back no complaint. -/
def Grows (x : Check α) : Prop := Moves (fun s s' => s.errors <+: s'.errors) x

variable {x : Check α} {a : α}

/-- Without complaints in the end there were none before. -/
lemma Grows.errors_eq_nil (hx : Grows x) (h : Gives x s a s')
    (hs' : s'.errors = []) : s.errors = [] := by
  have hgrows := hx s
  rw [h] at hgrows
  exact prefix_nil.1 (hs' ▸ hgrows)

lemma Gives.bind {f : α → Check β} {b : β} (hx : Gives x s a s')
    (hf : Gives (f a) s' b s'') : Gives (x >>= f) s b s'' := by
  rw [Gives, run_bind, hx]
  exact hf

lemma grows_passing : Passing fun s s' => s.errors <+: s'.errors where
  trans _ _ _ h h' := h.trans h'
  aside _ _ h := h
  fill _ _ _ _ := prefix_rfl

lemma grows_steps : Steps @Grows := grows_passing.steps

lemma grows_invariant : Invariant (fun _ => True) @Grows := grows_passing.invariant

lemma grows_check (t : Tree) : Grows (check t) :=
  grows_passing.check fun c _ _ => grows_steps.classHead (fun p _ _ => grows_passing.define p _)
    (fun _ _ _ => prefix_rfl) c

/-- A tree is checked without a complaint, in a state without complaints. -/
def Accepted (t : Tree) (s : Checker) : Prop :=
  s.errors = [] ∧ ∃ type s', Gives (check t) s type s' ∧ s'.errors = []

/-- A visit that ends without a complaint. -/
lemma Accepted.of_gives {type : Ty} (h : Gives (check t) s type s') (hs' : s'.errors = []) :
    Accepted t s := ⟨(grows_check t).errors_eq_nil h hs', type, s', h, hs'⟩

/-- Steps for the elements of a list, one after the other. -/
inductive Goes (step : α → Check Unit) : Checker → List α → Checker → Prop
  | nil (s : Checker) : Goes step s [] s
  | cons {s s1 s' : Checker} {a : α} {rest : List α} (h : Gives (step a) s () s1)
    (hrs : Goes step s1 rest s') : Goes step s (a :: rest) s'

namespace Goes

variable {step : α → Check Unit} {xs : List α}

lemma of_forIn {u : PUnit} (h : Gives (forIn xs PUnit.unit fun x _ => do
    step x
    return ForInStep.yield PUnit.unit) s u s') : Goes step s xs s' := by
  induction xs generalizing s with
  | nil =>
    cases h
    exact .nil _
  | cons x xs ih =>
    simp only [forIn_cons, bind_assoc, pure_bind] at h
    obtain ⟨_, s1, hx, h⟩ := h.of_bind
    exact .cons hx (ih h)

lemma sameContext (h : Goes step s xs s') (hs : ∀ x ∈ xs, Restores (step x)) :
    s.SameContext s' := by
  induction h with
  | nil => exact .refl _
  | cons hx _ ih =>
    rw [forall_mem_cons] at hs
    exact (hs.1 _ _ _ hx).trans (ih hs.2)

lemma errors_eq_nil (h : Goes step s xs s') (hs : ∀ x ∈ xs, Grows (step x))
    (hs' : s'.errors = []) : s.errors = [] := by
  induction h with
  | nil => exact hs'
  | cons hx _ ih =>
    rw [forall_mem_cons] at hs
    exact hs.1.errors_eq_nil hx (ih hs.2 hs')

end Goes

variable {xs : List α} {x : Check α} {a : α} {c : Tree} {u : Unit} {r : Rule}
  {step : α → Check Unit}

/-- A loop comes past each of its elements, in the context in which it began. -/
lemma exists_of_mem_along {step : κ → α → Check Unit} {places : Check κ → α → List Position}
    {before : Check κ} {k : κ} {p : Position} (hbef : Gives before s k s0)
    (hgo : Goes (step k) s0 xs s') (hs' : s'.errors = [])
    (hgrows : ∀ x ∈ xs, Grows (step k x)) (hres : ∀ x ∈ xs, Restores (step k x))
    (hp : p ∈ along step places before xs) :
    ∃ x ∈ xs, ∃ before' σ σ', Gives before' s k σ ∧ s0.SameContext σ ∧ p ∈ places before' x ∧
      Gives (step k x) σ () σ' ∧ σ'.errors = [] := by
  induction hgo generalizing before with
  | nil _ => cases hp
  | @cons s0 s1 s' x xs hx hrs ih =>
    rw [forall_mem_cons] at hgrows hres
    have hs1 := hrs.errors_eq_nil hgrows.2 hs'
    rcases mem_append.1 hp with hp | hp
    · exact ⟨x, .head _, before, s0, s1, hbef, .refl _, hp, hx, hs1⟩
    · have hnx : Gives (do
          let k ← before
          step k x
          return k) s k s1 := hbef.bind (hx.bind rfl)
      obtain ⟨y, hy, before', σ, σ', hgv, hsm, hrs⟩ :=
        ih hnx hs' hgrows.2 hres.2 hp
      exact ⟨y, .tail _ hy, before', σ, σ', hgv,
        (hres.1 _ _ _ hx).trans hsm, hrs⟩

/-- The functions, loops and scopes around a part of a tree. -/
structure Surrounds (around : List Tree) (part : Tree) (s σ : Checker) : Prop where
  function : σ.function.isSome = (s.function.isSome || around.any (·.isOf .functionDeclaration))
  loopDepth : part.isOneOf Rule.isInExpression = false →
    σ.loopDepth = s.loopDepth + (around.filter (·.isOneOf Rule.isLoop)).length
  scopes : part.isOneOf Rule.isInExpression = false →
    σ.scopes.inner.length =
      s.scopes.inner.length + (around.filter (·.isOneOf Rule.opensScope)).length

/-- A new scope in the same loops. -/
def OpensScope (s s' : Checker) : Prop :=
  s'.loopDepth = s.loopDepth ∧ s'.scopes.inner.length = s.scopes.inner.length + 1

/-- The body of a function is in a scope of its own. -/
lemma Surrounds.of_function {around : List Tree} {part : Tree} {σ : Checker}
    (hfun : σ.function.isSome = true) (hopens : OpensScope s σ)
    (hin : ∃ f ∈ around, f.isOf .functionDeclaration = true)
    (hloops : around.filter (·.isOneOf Rule.isLoop) = [])
    (hscs : (around.filter (·.isOneOf Rule.opensScope)).length = 1) :
    Surrounds around part s σ where
  function := by rw [hfun, any_eq_true.2 hin, Bool.or_true]
  loopDepth _ := by rw [hopens.1, hloops]; rfl
  scopes _ := by rw [hopens.2, hscs]

/-- The steps before a part lead to a state in which the part is accepted. -/
def Arrives (t : Tree) (s : Checker) (p : Position) : Prop :=
  ∃ σ, Gives p.before s () σ ∧ Accepted p.part σ ∧ Surrounds (p.via ++ [t]) p.part s σ

lemma Gives.discard (h : Gives x s a s') :
    Gives (do let _ ← x : Check Unit) s () s' := h.bind rfl

lemma gives_look_iff : Gives (look c) s u s' ↔ ∃ type, Gives (check c) s type s' := by
  constructor
  · intro h
    obtain ⟨type, s1, hc, hrs⟩ := Gives.of_bind h
    cases hrs
    exact ⟨type, hc⟩
  · rintro ⟨type, hc⟩
    exact hc.discard

lemma grows_look (c : Tree) : Grows (look c) :=
  grows_steps.bind (grows_check c) fun _ => grows_steps.pure _

/-- Trees that are visited one after the other. -/
lemma arrives_inTurn {P : Token → Prop} (h : Derives P r t) {via cs : List Tree}
    {before : Check Unit} (hbef : Gives before s () s0)
    (hgo : Goes look s0 cs s') (hs' : s'.errors = [])
    (hw : ∀ c ∈ cs, c.Within t) (hsur : ∀ c ∈ cs, Surrounds (via ++ [t]) c s s0) :
    ∀ p ∈ inTurn via before cs, Arrives t s p := by
  intro p hp
  obtain ⟨c, hc, before', σ, σ', hgv, hsm, hp, hvis, hσ'⟩ :=
    exists_of_mem_along hbef hgo hs'
      (fun c _ => grows_look c)
      (fun c hc => restores_steps.bind (restores_of_derives h (hw c hc)) fun _ =>
        restores_steps.pure _) hp
  cases mem_singleton.1 hp
  obtain ⟨type, hvis⟩ := gives_look_iff.1 hvis
  refine ⟨σ, hgv, .of_gives hvis hσ', ?_, fun hex => ?_, fun hex => ?_⟩
  · rw [hsm.function, (hsur c hc).function]
  · rw [hsm.loopDepth, (hsur c hc).loopDepth hex]
  · rw [hsm.scopes.length_inner, (hsur c hc).scopes hex]

lemma Goes.map {f : β → α} {ys : List β}
    (h : Goes (fun y => step (f y)) s ys s') : Goes step s (ys.map f) s' := by
  induction h with
  | nil => exact .nil _
  | cons hy _ ih => exact .cons hy ih

lemma Goes.one {type : Ty} (h : Gives (check c) s type s') : Goes look s [c] s' :=
  .cons (gives_look_iff.2 ⟨type, h⟩) (.nil _)

lemma Goes.append {ys : List α} (h : Goes step s xs s')
    (h' : Goes step s' ys s'') : Goes step s (xs ++ ys) s'' := by
  induction h with
  | nil => exact h'
  | cons hx _ ih => exact .cons hx (ih h')

/-- Children of a rule that are visited one after the other. -/
lemma Goes.kids (h : Goes (fun k : t.Sub => look k.tree) s (t.kids r) s') :
    Goes look s (t.partsOf r) s' := by
  rw [Tree.partsOf, ← Tree.kids_map_tree]
  exact h.map

/-- Steps that only complain have done nothing if there are no complaints. -/
lemma eq_of_onlyComplains (hx : OnlyComplains x) (h : Gives x s a s')
    (hs' : s'.errors = []) : s' = s := by
  obtain ⟨es, hes, -⟩ := hx s
  rw [h] at hes
  dsimp only at hes
  subst hes
  obtain ⟨-, rfl⟩ := append_eq_nil_iff.1 hs'
  rw [append_nil]

lemma OnlyComplains.grows (hx : OnlyComplains x) : Grows x := by
  intro s
  obtain ⟨es, hes, -⟩ := hx s
  rw [hes]
  exact prefix_append _ _

lemma Goes.silent (h : Goes step s xs s')
    (hs : ∀ x ∈ xs, OnlyComplains (step x)) (hs' : s'.errors = []) :
    s' = s ∧ ∀ x ∈ xs, Gives (step x) s () s := by
  induction h with
  | nil => exact ⟨rfl, forall_mem_nil _⟩
  | cons hx hrs ih =>
    rw [forall_mem_cons] at hs
    have hs1 := hrs.errors_eq_nil (fun x hx => (hs.2 x hx).grows) hs'
    cases eq_of_onlyComplains hs.1 hx hs1
    obtain ⟨rfl, hsil⟩ := ih hs.2 hs'
    exact ⟨rfl, forall_mem_cons.2 ⟨hx, hsil⟩⟩

lemma Gives.errors_ne_nil {p : Pos} {c : Complaint} (h : Gives (complain p c) s u s') :
    s'.errors ≠ [] := by
  cases h.of_modify
  exact append_ne_nil_of_right_ne_nil _ (cons_ne_nil _ _)

lemma Gives.of_require {holds : Bool} {p : Pos} {c : Complaint}
    (h : Gives (require holds p c) s u s') (hs' : s'.errors = []) : holds = true ∧ s' = s := by
  cases holds with
  | true =>
    cases h
    exact ⟨rfl, rfl⟩
  | false => exact absurd hs' (Gives.errors_ne_nil h)

section Statement

variable {r : Rule} (h : Derived r t)

include h

lemma isOf_eq_beq (q : Rule) : t.isOf q = (r == q) := by
  obtain ⟨e, p, cs, -, -, rfl⟩ := h
  rfl

lemma isOneOf_eq (p : Rule → Bool) : t.isOneOf p = p r := by
  obtain ⟨e, pos, cs, -, -, rfl⟩ := h
  rfl

variable {c : Tree} {cs : List Tree} {q : Rule} {type : Ty} {via : List Tree} {st : Conditional}
  {u : Unit}

lemma surrounds_of_eq (hr : r ≠ .functionDeclaration) {σ : Checker}
    (hfun : σ.function = s.function)
    (hdepth : σ.loopDepth = s.loopDepth + if r.isLoop then 1 else 0)
    (hscs : σ.scopes.inner.length = s.scopes.inner.length + if r.opensScope then 1 else 0) :
    Surrounds [t] c s σ := by
  refine ⟨?_, fun _ => ?_, fun _ => ?_⟩
  · rw [hfun, any_cons, any_nil, Bool.or_false, isOf_eq_beq h,
      beq_eq_false_iff_ne.2 hr, Bool.or_false]
  · rw [hdepth, filter_singleton, isOneOf_eq h]
    cases r.isLoop <;> rfl
  · rw [hscs, filter_singleton, isOneOf_eq h]
    cases r.opensScope <;> rfl

/-- The parts of a statement whose context is the one around it. -/
lemma arrives_plain (hr : r ≠ .functionDeclaration ∧ r.isLoop = false ∧ r.opensScope = false)
    (hgo : Goes look s cs s') (hs' : s'.errors = []) (hcs : ∀ c ∈ cs, c ∈ t.children) :
    ∀ p ∈ inTurn [] (pure ()) cs, Arrives t s p :=
  arrives_inTurn h rfl hgo hs' (fun c hc => .of_mem (hcs c hc)) fun c _ =>
    surrounds_of_eq h hr.1 rfl (by rw [hr.2.1]; rfl) (by rw [hr.2.2]; rfl)

lemma goes_kid (hone : ∀ e ∈ production r, Item.mostIn q e.body ≤ 1)
    (hrun : Gives (visitPart (fun k : t.Sub => check k.tree) (t.kid? q)) s type s') :
    Goes look s (t.partsOf q) s' := by
  obtain ⟨k, hk, hrun⟩ := hrun.of_need
  rw [Tree.partsOf, ← Tree.kids_map_tree, h.kids_of_kid? hone hk]
  exact .one hrun

omit h in
lemma of_mem_partsOf (hc : c ∈ t.partsOf q) : c ∈ t.children := (mem_filter.1 hc).1

lemma complains_expression (hc : c.Within t) (hof : c.isOf .expression = true) :
    OnlyComplains (check c) := onlyComplains.check (h.of_isOf hc hof) rfl (.refl c)

/-- Expressions are in the function that is around them. -/
lemma surrounds_expression (hr : r ≠ .functionDeclaration)
    (hvia : ∀ v ∈ via, v.isOf .functionDeclaration = false) (hfun : s0.function = s.function)
    (hc : c.isOneOf Rule.isInExpression = true) : Surrounds (via ++ [t]) c s s0 := by
  refine ⟨?_, fun hno => ?_, fun hno => ?_⟩
  · have hany : via.any (·.isOf .functionDeclaration) = false :=
      any_eq_false.2 fun v hv => Bool.eq_false_iff.1 (hvia v hv)
    rw [hfun, any_append, hany, any_cons, any_nil, isOf_eq_beq h,
      beq_eq_false_iff_ne.2 hr]
    simp
  · rw [hc] at hno
    cases hno
  · rw [hc] at hno
    cases hno

/-- Expressions that are visited one after the other. -/
lemma arrives_expressions (hr : r ≠ .functionDeclaration)
    {before : Check Unit} (hvia : ∀ v ∈ via, v.isOf .functionDeclaration = false)
    (hbef : Gives before s () s0) (hfun : s0.function = s.function)
    (hgo : Goes look s0 cs s') (hs' : s'.errors = [])
    (hcs : ∀ c ∈ cs, c.Within t ∧ c.isOf .expression = true) :
    ∀ p ∈ inTurn via before cs, Arrives t s p :=
  arrives_inTurn h hbef hgo hs' (fun c hc => (hcs c hc).1) fun c hc =>
    surrounds_expression h hr hvia hfun (Tree.isOneOf_of_isOf (hcs c hc).2 rfl)

lemma goes_condition {e : t.Sub} (he : e ∈ t.kids .expression)
    (hrun : Gives (condition t (check ·.tree) st (some e)) s u s') (hs' : s'.errors = []) :
    s' = s ∧ Goes look s [e.tree] s := by
  obtain ⟨hmem, hof⟩ := Tree.of_mem_kids he
  obtain ⟨type, s1, hvis, hreq⟩ := hrun.of_bind
  obtain ⟨-, rfl⟩ := hreq.of_require hs'
  cases eq_of_onlyComplains (complains_expression h (.of_mem hmem) hof) hvis hs'
  exact ⟨rfl, .one hvis⟩

lemma goes_conditionKid (hone : ∀ e ∈ production r, Item.mostIn .expression e.body ≤ 1)
    (hrun : Gives (condition t (check ·.tree) st (t.kid? .expression)) s u s')
    (hs' : s'.errors = []) : s' = s ∧ Goes look s (t.partsOf .expression) s := by
  cases he : t.kid? .expression with
  | none =>
    rw [he] at hrun
    cases hrun
  | some e =>
    rw [he] at hrun
    rw [Tree.partsOf, ← Tree.kids_map_tree, h.kids_of_kid? hone he]
    exact goes_condition h (Tree.mem_kids_of_kid? he) hrun hs'

lemma goes_loopBody (hone : ∀ e ∈ production r, Item.mostIn .block e.body ≤ 1)
    (hrun : Gives (loopBody t (check ·.tree)) s u s') :
    ∃ s1, Goes look { s with loopDepth := s.loopDepth + 1 } (t.partsOf .block) s1 ∧
      s1.errors = s'.errors := by
  obtain ⟨_, s1, hent, hrun⟩ := hrun.of_bind
  obtain ⟨type, s2, hvis, hlv⟩ := hrun.of_bind
  cases hent.of_modify
  cases hlv.of_modify
  exact ⟨s2, goes_kid h hone hvis, rfl⟩

/-- The value of a statement, if it has one. -/
lemma goes_valueOf (hone : ∀ e ∈ production r, Item.mostIn .expression e.body ≤ 1)
    (hrun : Gives (valueOf t (check ·.tree)) s type s') :
    Goes look s (t.partsOf .expression) s' := by
  unfold valueOf at hrun
  split at hrun
  · rename_i e he
    rw [Tree.partsOf, ← Tree.kids_map_tree, h.kids_of_kid? hone he]
    exact .one hrun
  · rename_i hnn
    rw [Tree.partsOf, ← Tree.kids_map_tree, head?_eq_none_iff.1 hnn]
    cases hrun
    exact .nil _

end Statement

end Check

end Compiscript
