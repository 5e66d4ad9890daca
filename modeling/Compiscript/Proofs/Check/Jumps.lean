import Compiscript.Proofs.Check.Positions
import Compiscript.Proofs.Check.Scoping

/-!
# Jumps outside of Loops

Which `break` and `continue` are complained about.

The checker counts the loops that are open and complains about a jump where there are
none. The count is an affair of the whole walk: what is read inside a loop is read with
a loop open, a function that is declared there included, although a jump in the body of
the function cannot leave the loop. And jumps in the cases of a `switch` are never read.

## Main definitions

* `Tree.strayJumps`: The complaints that a tree should get, in the order of the text. In
  the strict reading the body of a function is in no loop and the cases of a `switch`
  count; the other one is that of the checker.

## Theorems

* `Checker.jump_errors_exact`: Which jumps are complained about.
-/

namespace Compiscript

open List hiding get modify
open Compiscript.Tree

/-- Rules in whose trees there are no statements. -/
def Rule.isJumpless : Rule → Bool
  | .variableDeclaration | .constantDeclaration | .typeMark | .initializer | .assignment
  | .expressionStatement | .printStatement | .returnStatement | .parameters | .parameter
  | .typeExpr | .baseType => true
  | r => r.isInExpression

/-- Rules that make no jumps, no loops and no `switch`. -/
def Rule.passesJumps : Rule → Bool
  | .breakStatement | .continueStatement | .switchStatement => false
  | r => !r.isLoop

lemma Rule.closed_isJumpless : Rule.Closed Rule.isJumpless := by decide

namespace Tree

mutual

/-- The complaints about the jumps of a tree, given whether there is a loop around it. In the strict
    reading a function in a loop is not in the loop, and the cases of a `switch` are read. -/
def strayJumps (strict looped : Bool) : Tree → List SemanticError
  | .node ⟨.breakStatement, _⟩ p _ => if looped then [] else [⟨p, .jumpOutsideLoop .break⟩]
  | .node ⟨.continueStatement, _⟩ p _ => if looped then [] else [⟨p, .jumpOutsideLoop .continue⟩]
  | .node ⟨.functionDeclaration, _⟩ _ cs => strayJumpsAll strict (looped && !strict) cs
  | .node ⟨.switchStatement, _⟩ _ cs => if strict then strayJumpsAll strict looped cs else []
  | .node tag _ cs => strayJumpsAll strict (looped || tag.rule.isLoop) cs
  | _ => []

/-- The complaints about the jumps of several trees. -/
def strayJumpsAll (strict looped : Bool) : List Tree → List SemanticError
  | [] => []
  | c :: cs => strayJumps strict looped c ++ strayJumpsAll strict looped cs

end

variable {P : Token → Prop} {r : Rule} {t c : Tree}

lemma strayJumpsAll_eq (strict looped : Bool) (cs : List Tree) :
    strayJumpsAll strict looped cs = cs.flatMap (strayJumps strict looped) := by
  induction cs with
  | nil => rfl
  | cons c cs ih => rw [strayJumpsAll, ih, flatMap_cons]

/-- Whether a node is a jump. -/
def isJump (t : Tree) : Bool := t.isOf .breakStatement || t.isOf .continueStatement

lemma strayJumps_eq_nil (strict looped : Bool) (t : Tree)
    (h : t.Everywhere fun c => c.isJump = false) : strayJumps strict looped t = [] := by
  have hall : ∀ looped, strayJumpsAll strict looped t.children = [] := by
    intro looped
    rw [strayJumpsAll_eq, flatMap_eq_nil_iff]
    exact fun c hc => strayJumps_eq_nil strict looped c (h.sub (.of_mem hc))
  have hhere := h t (.refl t)
  cases t with
  | leaf | bad => rfl
  | node tag p cs =>
    obtain ⟨rule, label⟩ := tag
    cases rule with
    | breakStatement | continueStatement => cases hhere
    | switchStatement =>
      cases strict with
      | false => rfl
      | true => exact hall looped
    | _ => exact hall _
termination_by sizeOf t
decreasing_by exact sizeOf_child_lt hc

lemma strayJumps_of_derives (h : Derives P r t) (hr : r.isJumpless = true)
    (strict looped : Bool) : t.strayJumps strict looped = [] := by
  refine strayJumps_eq_nil strict looped t fun c hc => ?_
  cases c with
  | leaf | bad => rfl
  | node tag p cs =>
    have htag := h.everywhere_rule Rule.closed_isJumpless hr _ hc tag rfl
    obtain ⟨rule, label⟩ := tag
    cases rule <;> first | rfl | cases htag

lemma strayJumps_eq_all (h : Derives P r t) (hr : r.passesJumps = true) (looped : Bool) :
    t.strayJumps false looped = strayJumpsAll false looped t.children := by
  obtain ⟨e, p, cs, -, -, rfl⟩ := h
  cases r <;> first | (cases looped <;> rfl) | cases hr

lemma strayJumps_loop (h : Derives P r t) (hr : r.isLoop = true) (looped : Bool) :
    t.strayJumps false looped = strayJumpsAll false true t.children := by
  obtain ⟨e, p, cs, -, -, rfl⟩ := h
  cases r <;> first | (cases looped <;> rfl) | cases hr

lemma strayJumpsAll_children (h : Derives P r t) {q : Rule} (strict looped : Bool)
    (ho : r.MentionsOnly fun q' => q' = q ∨ q'.isJumpless = true) :
    strayJumpsAll strict looped t.children =
      (t.kids q).flatMap (·.tree.strayJumps strict looped) := by
  rw [strayJumpsAll_eq]
  refine flatMap_children fun c hc hno => ?_
  rcases h.leaf_or_mentioned hc with ⟨tok, rfl⟩ | ⟨q', hof, e, he, hment⟩
  · rfl
  · rcases ho e he q' (Rule.mem_all q') hment with rfl | hq'
    · rw [hof] at hno
      cases hno
    · exact strayJumps_of_derives (h.of_isOf (.of_mem hc) hof) hq' strict looped

/-- No function is declared in a tree. -/
def Functionless (t : Tree) : Prop := t.Everywhere fun c => c.isOf .functionDeclaration = false

/-- Both readings agree if no function is declared in a loop and no jump is in a
    `switch`. -/
lemma strayJumps_strict (looped : Bool) (t : Tree) (hloo : looped = true → t.Functionless)
    (hloops : t.Everywhere fun c => c.isOneOf Rule.isLoop = true → c.Functionless)
    (hswi : t.Everywhere fun c => c.isOf .switchStatement = true →
      c.Everywhere fun d => d.isJump = false) :
    strayJumps true looped t = strayJumps false looped t := by
  have hall : ∀ looped : Bool, (looped = true → t.Functionless) →
      strayJumpsAll true looped t.children = strayJumpsAll false looped t.children := by
    intro looped hloo
    rw [strayJumpsAll_eq, strayJumpsAll_eq]
    refine flatMap_congr fun c hc => ?_
    have hin : c.Within t := .of_mem hc
    exact strayJumps_strict looped c (fun h => (hloo h).sub hin) (hloops.sub hin)
      (hswi.sub hin)
  cases t with
  | leaf | bad => rfl
  | node tag p cs =>
    have hn : (looped || tag.rule.isLoop) = true → (node tag p cs).Functionless := by
      rw [Bool.or_eq_true]
      exact fun h => h.elim hloo fun h => hloops _ (.refl _) h
    obtain ⟨rule, label⟩ := tag
    cases rule with
    | breakStatement | continueStatement => rfl
    -- The readings differ where a function is entered with a loop open, which is excluded.
    | functionDeclaration =>
      cases looped with
      | false => exact hall false nofun
      | true => cases hloo rfl _ (.refl _)
    | switchStatement =>
      exact strayJumps_eq_nil true looped _ (hswi _ (.refl _) rfl)
    | _ => exact hall _ hn
termination_by sizeOf t
decreasing_by exact sizeOf_child_lt hc

end Tree

namespace Check

variable {α β : Type} {f g : Bool → List SemanticError}

/-- The complaints about jumps so far. -/
def jumpErrors (s : Checker) : List SemanticError := s.errors.filter (·.complaint.isAboutJumps)

/-- Between two states the same loops are open, and there are certain new complaints about jumps. -/
def Marked (es : List SemanticError) (s s' : Checker) : Prop :=
  s'.loopDepth = s.loopDepth ∧ jumpErrors s' = jumpErrors s ++ es

lemma Marked.refl (s : Checker) : Marked [] s s := ⟨rfl, (append_nil _).symm⟩

lemma Marked.trans {es es' : List SemanticError} {s s' s'' : Checker} (h : Marked es s s')
    (h' : Marked es' s' s'') : Marked (es ++ es') s s'' :=
  ⟨h'.1.trans h.1, by rw [h'.2, h.2, append_assoc]⟩

/-- Complaints of other kinds do not count. -/
lemma Marked.of_complain {c : Complaint} (hc : c.isAboutJumps = false) (p : Pos) (s : Checker) :
    Marked [] s { s with errors := s.errors ++ [⟨p, c⟩] } := by
  refine ⟨rfl, ?_⟩
  rw [jumpErrors, filter_append, filter_cons_of_neg (by simp [hc])]
  rfl

/-- A step that complains about certain jumps, if it ends well, given whether a loop is open. -/
def Marks (f : Bool → List SemanticError) (x : Check α) : Prop :=
  ∀ s a s', Gives x s a s' → Marked (f (0 < s.loopDepth)) s s'

/-- A step that complains about no jump, if it ends well. -/
def Quiet (x : Check α) : Prop := Marks (fun _ => []) x

/-- A step that complains about no jump, however it ends. -/
def AlwaysQuiet (x : Check α) : Prop := Moves (Marked []) x

lemma AlwaysQuiet.quiet {x : Check α} (h : AlwaysQuiet x) : Quiet x := by
  intro s a s' hrun
  have hs := h s
  rwa [hrun] at hs

lemma alwaysQuiet_steps : Steps @AlwaysQuiet :=
  .of_moves (R := Marked []) .refl (fun _ _ _ => .trans) fun s p _ h =>
    .of_complain (Complaint.isAboutJumps_eq_false h) p s

namespace Marks

variable {x : Check α} {k : α → Check β}

lemma bind (hx : Marks f x) (hk : ∀ a, Marks g (k a)) :
    Marks (fun looped => f looped ++ g looped) (x >>= k) := by
  intro s b s'' h
  obtain ⟨a, s', hxa, hkb⟩ := h.of_bind
  have hs' := hx s a s' hxa
  have hs'' := hk a s' b s'' hkb
  rw [hs'.1] at hs''
  exact hs'.trans hs''

lemma after (hx : Quiet x) (hk : ∀ a, Marks f (k a)) : Marks f (x >>= k) := hx.bind hk

lemma pure (a : α) : Quiet (Pure.pure a : Check α) := (alwaysQuiet_steps.pure a).quiet

lemma before (hx : Marks f x) (hk : ∀ a, Quiet (k a)) : Marks f (x >>= k) := by
  have h := hx.bind hk
  simp only [append_nil] at h
  exact h

lemma get {k : Checker → Check β} (h : ∀ s, Marks f (k s)) : Marks f (MonadState.get >>= k) :=
  fun s a s' hrun => h s s a s' hrun.of_get

lemma of_modify {change : Checker → Checker}
    (hcha : ∀ s, (change s).loopDepth = s.loopDepth ∧ (change s).errors = s.errors) :
    Quiet (modify change : Check PUnit) := by
  intro s a s' h
  rw [h.of_modify]
  exact ⟨(hcha s).1, by rw [jumpErrors, (hcha s).2]; exact (append_nil _).symm⟩

lemma define (p : Pos) (sym : Symbol) : Quiet (Check.define p sym) := by
  intro s a s' h
  have hs : s' = _ := (congrArg Prod.snd h).symm.trans (congrArg Prod.snd (run_define p sym s))
  subst hs
  cases s.scopes.define? sym with
  | none => exact .of_complain rfl p s
  | some _ => exact .refl s

lemma forIn {γ : Type} {ks : List γ} {x : γ → Check α} {g : γ → Bool → List SemanticError}
    (h : ∀ k ∈ ks, Marks (g k) (x k)) :
    Marks (fun looped => ks.flatMap (g · looped)) (ForIn.forIn ks PUnit.unit fun k _ => do
      let _ ← x k
      return ForInStep.yield PUnit.unit) := by
  induction ks with
  | nil => exact pure _
  | cons k ks ih =>
    rw [forall_mem_cons] at h
    simp only [forIn_cons, bind_assoc, pure_bind, flatMap_cons]
    exact h.1.bind fun _ => ih h.2

lemma loop {body : Check α} (h : Marks f body) :
    Marks (fun _ => f true) (do enterLoop; let _ ← body; leaveLoop) := by
  intro s a s' hrun
  obtain ⟨_, s1, hent, hrun⟩ := hrun.of_bind
  obtain ⟨_, s2, hbd, hlv⟩ := hrun.of_bind
  cases hent.of_modify
  cases hlv.of_modify
  obtain ⟨hdepth, her⟩ := h _ _ _ hbd
  refine ⟨?_, ?_⟩
  · change s2.loopDepth - 1 = s.loopDepth
    rw [hdepth]
    rfl
  · have hopen : decide (0 < s.loopDepth + 1) = true := decide_eq_true (Nat.succ_pos _)
    change jumpErrors s2 = _
    rw [her]
    change _ ++ f (decide (0 < s.loopDepth + 1)) = _
    rw [hopen]
    rfl

lemma scope {body : Check Unit} (h : Marks f body) :
    Marks f (do pushScope; body; popScope) :=
  after (of_modify fun _ => ⟨rfl, rfl⟩) fun _ => before h fun _ =>
    of_modify fun _ => ⟨rfl, rfl⟩

end Marks

lemma quiet_steps : Steps @Quiet where
  pure := .pure
  bind hx hk := .after hx hk
  throw what := (alwaysQuiet_steps.throw what).quiet
  get := .get
  complain p _ h := (alwaysQuiet_steps.complain p h).quiet

lemma quiet_bodyHead (p : Pos) (sym : Symbol) (params : List (String × Ty)) :
    Quiet (bodyHead p sym params) := by
  refine .after (quiet_steps.forIn fun _ _ _ => ?_) fun _ => .get fun _ => ?_
  · exact .after (.define p _) fun _ => .pure _
  · exact .after (.of_modify fun _ => ⟨rfl, rfl⟩) fun _ => .pure _

lemma Marks.functionBody (p : Pos) (sym : Symbol) (params : List (String × Ty))
    {body : Check Unit} (h : Marks f body) : Marks f (Check.functionBody p sym params body) := by
  rw [functionBody_eq]
  exact .after (quiet_bodyHead p sym params) fun _ => .before h fun _ =>
    .of_modify fun _ => ⟨rfl, rfl⟩

lemma quiet_invariant : Invariant AlwaysQuiet @Quiet where
  toSteps := quiet_steps
  recover _ hE := AlwaysQuiet.quiet
    (Moves.recover (alwaysQuiet_steps.bind hE fun _ => alwaysQuiet_steps.pure _))
  undeclared p _ := AlwaysQuiet.quiet fun s => .of_complain rfl p s
  define p sym _ := .define p sym
  markInitialized _ := .of_modify fun _ => ⟨rfl, rfl⟩
  fillClass _ _ _ := .of_modify fun _ => ⟨rfl, rfl⟩
  loop h := .loop h
  scope h := .scope h
  functionScope p sym params _ h := .scope (.functionBody p sym params h)
  methodScope p sym _ _ _ h := .get fun _ =>
    .after (.of_modify fun _ => ⟨rfl, rfl⟩) fun _ =>
      .after (.of_modify fun _ => ⟨rfl, rfl⟩) fun _ =>
        .after (.define p _) fun _ => .after (.functionBody p sym _ h) fun _ =>
          .after (.of_modify fun _ => ⟨rfl, rfl⟩) fun _ =>
            .of_modify fun _ => ⟨rfl, rfl⟩

lemma quiet_classHead (t : Tree) : Quiet (classHead t) :=
  quiet_steps.classHead (fun p _ _ => .define p _) (fun _ _ => .of_modify fun _ => ⟨rfl, rfl⟩) t

variable {P : Token → Prop} {r : Rule} {t : Tree}

lemma quiet_of_derives (h : Derives P r t) (hr : r.isJumpless = true) : Quiet (check t) := by
  refine quiet_invariant.check (fun c hc hof => ?_) (fun c hc j hj => ?_) fun c _ _ =>
    quiet_classHead c
  · exact alwaysQuiet_steps.check (h.of_isOf hc hof) rfl (.refl c)
  · obtain ⟨tag, htag, hj⟩ := Option.bind_eq_some_iff.1 hj
    have hru := h.everywhere_rule Rule.closed_isJumpless hr c hc tag htag
    obtain ⟨rule, label⟩ := tag
    cases rule <;> first | (cases hj; done) | cases hru

section Node

variable {visit : t.Sub → Check Ty}
  (hv : ∀ k : t.Sub, k.tree.Within t →
    Marks (fun looped => k.tree.strayJumps false looped) (visit k))

include hv

variable {q : Rule} {m : t.Sub}

lemma quiet_visit (h : Derives P r t) {k : t.Sub} (hk : k.tree.Within t)
    (hof : k.tree.isOf q = true) (hq : q.isJumpless = true) : Quiet (visit k) := by
  have hmks := hv k hk
  simp only [strayJumps_of_derives (h.of_isOf hk hof) hq] at hmks
  exact hmks

lemma quiet_kid (h : Derives P r t) (hq : q.isJumpless = true) :
    Quiet (visitPart visit (t.kid? q)) := by
  cases hk : t.kid? q with
  | none => exact quiet_steps.throw _
  | some k =>
    exact quiet_visit hv h (.of_kid? hk)
      (isOf_of_kid? hk) hq

lemma quiet_condition (h : Derives P r t) (statement : Conditional) :
    Quiet (condition t visit statement (t.kid? .expression)) :=
  .after (quiet_kid hv h rfl) fun _ => quiet_steps.require _ _ rfl

lemma marks_kid (h : Derives P r t) (hone : ∀ e ∈ production r, Item.mostIn q e.body ≤ 1) :
    Marks (fun looped => (t.kids q).flatMap (·.tree.strayJumps false looped))
      (visitPart visit (t.kid? q)) := by
  cases hk : t.kid? q with
  | none => exact fun s a s' hrun => nomatch hrun
  | some k =>
    rw [h.kids_of_kid? hone hk]
    simp only [flatMap_singleton]
    exact hv k (.of_kid? hk)

lemma marks_loopBody (h : Derives P r t) (hone : ∀ e ∈ production r, Item.mostIn .block e.body ≤ 1)
    (ho : r.MentionsOnly fun q => q = .block ∨ q.isJumpless = true) :
    Marks (fun _ => strayJumpsAll false true t.children) (loopBody t visit) := by
  rw [strayJumpsAll_children h false true ho]
  exact .loop (marks_kid hv h hone)

lemma marks_while (h : Derives P .whileStatement t) :
    Marks (fun _ => strayJumpsAll false true t.children) (whileStatement t visit) :=
  .after (quiet_condition hv h _) fun _ =>
    (marks_loopBody hv h (by decide) (by decide)).before fun _ => .pure _

lemma marks_doWhile (h : Derives P .doWhileStatement t) :
    Marks (fun _ => strayJumpsAll false true t.children) (doWhileStatement t visit) :=
  (marks_loopBody hv h (by decide) (by decide)).before fun _ =>
    .after (quiet_condition hv h _) fun _ => .pure _

lemma marks_foreach (h : Derives P .foreachStatement t) :
    Marks (fun _ => strayJumpsAll false true t.children) (foreachStatement t visit) := by
  have hhd : Quiet (foreachHead t visit) := by
    refine .after (quiet_kid hv h rfl) fun type => ?_
    have hrs : ∀ elem, Quiet (do
        pushScope
        define t.pos (.ofVariable (← tokenText t .identifier) elem false true)) := fun elem =>
      .after (.of_modify fun _ => ⟨rfl, rfl⟩) fun _ =>
        .after (quiet_steps.tokenText _ _) fun _ => .define _ _
    split
    · exact hrs _
    · exact .after (quiet_steps.complain _ rfl) fun _ => hrs _
  rw [foreachStatement_eq]
  exact .after hhd fun _ => (marks_loopBody hv h (by decide) (by decide)).before fun _ =>
    .after (.of_modify fun _ => ⟨rfl, rfl⟩) fun _ => .pure _

lemma quiet_forHeader (h : Derives P .forStatement t) : Quiet (forHeader t visit) := by
  have hvis : ∀ e ∈ t.kids .expression, Quiet (visit e) := fun e he =>
    quiet_visit hv h (.of_kids he) (of_mem_kids he).2 rfl
  unfold forHeader
  split
  · exact .pure _
  · rename_i e rest hkd
    rw [hkd] at hvis
    have hcond : Quiet (condition t visit .for (some e)) :=
      .after (hvis e (.head _)) fun _ => quiet_steps.require _ _ rfl
    refine .after hcond fun _ => ?_
    split
    · exact .after (hvis _ (by simp)) fun _ => .pure _
    · exact .pure _

lemma marks_for (h : Derives P .forStatement t) :
    Marks (fun _ => strayJumpsAll false true t.children) (forStatement t visit) := by
  obtain ⟨k, o, start, rest, hchs, hst, -⟩ := Tracks.children_for h
  have hfst : Quiet (forStart t visit) := by
    obtain ⟨first, hfst, rfl⟩ := exists_sub (t := t) (i := 2) (by rw [hchs]; rfl)
    have hmem := mem_of_getElem? hfst
    rw [forStart, hfst]
    refine .after ?_ fun _ => .pure _
    rcases h.leaf_or_mentioned (mem_children_of_mem_subs hmem) with
      ⟨tok, htok⟩ | ⟨q, hof, e, he, hment⟩
    · have hmks := hv first (.of_subs hmem)
      rw [htok] at hmks
      exact hmks
    · have ho : Rule.MentionsOnly .forStatement fun q => q = .block ∨ q.isJumpless = true := by
        decide
      rcases ho e he q (Rule.mem_all q) hment with rfl | hq
      · rcases hst with ⟨tok, htok⟩ | ⟨r, -, hr, hof'⟩
        · rw [htok] at hof
          cases hof
        · rw [isOf_eq_false hof' hr] at hof
          cases hof
      · exact quiet_visit hv h (.of_subs hmem) hof hq
  rw [strayJumpsAll_children (q := .block) h false true (by decide), forStatement_eq]
  exact (Marks.loop (.after hfst fun _ => .after (quiet_forHeader hv h) fun _ =>
    (marks_kid hv h (by decide)).before fun _ => .pure _)).before fun _ => .pure _

lemma marks_if (h : Derives P .ifStatement t) :
    Marks (fun looped => strayJumpsAll false looped t.children) (ifStatement t visit) := by
  have hblk : ∀ k ∈ t.kids .block, Marks (fun looped => k.tree.strayJumps false looped) (visit k) :=
    fun k hk => hv k (.of_kids hk)
  have hlen : (t.kids .block).length ≤ 2 := h.length_kids_le le_rfl (by decide)
  simp only [strayJumpsAll_children (q := .block) h false _ (by decide)]
  refine .after (quiet_condition hv h _) fun _ => ?_
  unfold kidAt?
  generalize t.kids .block = ks at hblk hlen
  match ks with
  | [] => exact fun s a s' hrun => nomatch hrun
  | [a] =>
    rw [forall_mem_singleton] at hblk
    simp only [flatMap_singleton]
    exact hblk.before fun _ => .pure _
  | [a, b] =>
    rw [forall_mem_cons, forall_mem_singleton] at hblk
    simp only [flatMap_cons, flatMap_nil, append_nil]
    exact hblk.1.bind fun _ => hblk.2.before fun _ => .pure _
  | _ :: _ :: _ :: _ => simp at hlen

lemma marks_statements (dead : Bool) {ks : List t.Sub} (hks : ∀ k ∈ ks, k.tree.Within t) :
    Marks (fun looped => ks.flatMap (·.tree.strayJumps false looped))
      (statements t visit dead ks) := by
  induction ks generalizing dead with
  | nil => exact .pure _
  | cons k ks ih =>
    rw [forall_mem_cons] at hks
    simp only [flatMap_cons]
    exact .after (quiet_steps.require _ _ rfl) fun _ => (hv k hks.1).bind fun _ => ih _ hks.2

lemma marks_block (h : Derives P .block t) :
    Marks (fun looped => strayJumpsAll false looped t.children) (block t visit) := by
  simp only [strayJumpsAll_children (q := .statement) h false _ (by decide)]
  have hbd : Marks _ (statements t visit false (t.kids .statement)) :=
    marks_statements hv false fun _ => .of_kids
  have hsc := (Marks.scope hbd).before fun _ => Marks.pure Ty.unknown
  simp only [bind_assoc] at hsc
  exact hsc

lemma marks_program (h : Derives P .program t) :
    Marks (fun looped => strayJumpsAll false looped t.children) (program t visit) := by
  simp only [strayJumpsAll_children (q := .statement) h false _ (by decide)]
  exact (Marks.forIn fun k hk => hv k (.of_kids hk)).before fun _ => .pure _

lemma marks_visitAll :
    Marks (fun looped => strayJumpsAll false looped t.children) (visitAll visit) := by
  have hloop : ∀ ks : List t.Sub, (∀ k ∈ ks, k ∈ t.subs) → ∀ found : Ty,
      Marks (fun looped => ks.flatMap (·.tree.strayJumps false looped))
        (ks.foldlM (fun found k => do
          let type ← visit k
          return if type = .unknown then found else type) found) := by
    intro ks hks
    induction ks with
    | nil => exact fun _ => .pure _
    | cons k ks ih =>
      intro found
      rw [forall_mem_cons] at hks
      rw [foldlM_cons]
      simp only [flatMap_cons]
      exact ((hv k (.of_subs hks.1)).before fun _ => .pure _).bind fun _ =>
        ih hks.2 _
  simp only [strayJumpsAll_eq]
  rw [← subs_map_tree]
  simp only [flatMap_map]
  exact hloop _ (fun _ hk => hk) _

lemma quiet_switch (h : Derives P .switchStatement t) : Quiet (switchStatement t visit) := by
  unfold switchStatement
  refine .after (quiet_kid hv h rfl) fun type => .after (quiet_steps.require _ _ rfl) fun _ => ?_
  refine .after (quiet_steps.forIn fun c hc u => ?_) fun _ => .pure _
  split
  · exact .pure _
  · rename_i e he
    have hin := (Within.of_kid? he).trans (.of_kids hc)
    have hof := isOf_of_kid? he
    refine .after (quiet_visit hv h (k := c.lift e) hin hof rfl) fun _ => ?_
    exact .after (quiet_steps.accept _ _) fun _ => .after (quiet_steps.require _ _ rfl) fun _ =>
      .pure _

lemma marks_function (h : Derives P .functionDeclaration t) :
    Marks (fun looped => strayJumpsAll false looped t.children) (declareFunction t visit) := by
  have hhd : Quiet (functionHead t) :=
    .after (quiet_steps.tokenText _ _) fun _ => .after (quiet_steps.parameters _) fun _ =>
      .after (.define _ _) fun _ => .after (.of_modify fun _ => ⟨rfl, rfl⟩) fun _ =>
        quiet_bodyHead _ _ _
  simp only [strayJumpsAll_children (q := .block) h false _ (by decide)]
  rw [declareFunction_eq]
  exact .after hhd fun _ => (marks_kid hv h (by decide)).before fun _ =>
    .after (.of_modify fun _ => ⟨rfl, rfl⟩) fun _ =>
      .after (.of_modify fun _ => ⟨rfl, rfl⟩) fun _ => .pure _

lemma quiet_declareMember (h : Derives P r t) (id : Nat) (className : String)
    (hm : m.tree.Within t) : Quiet (declareMember t visit id className m) := by
  unfold declareMember
  split
  · exact .after (quiet_steps.tokenText _ _) fun _ => quiet_invariant.addField _ _ _ _
  · refine .after (quiet_steps.tokenText _ _) fun x => ?_
    split
    · exact quiet_invariant.addField _ _ _ _
    · refine .after ?_ fun _ => quiet_invariant.addField _ _ _ _
      rename_i c _ hc _ _
      cases he : c.tree.kid? .expression with
      | none => exact quiet_steps.throw _
      | some e =>
        have hin := (Within.of_kid? he).trans ((Within.of_kid? hc).trans hm)
        exact quiet_visit hv h (k := m.lift (c.lift e)) hin
          (of_kid? he).2 rfl
  · exact .after (quiet_steps.tokenText _ _) fun _ => .after (quiet_steps.parameters _) fun _ =>
      quiet_invariant.addMethod _ _ _ _
  · exact .pure _

lemma marks_methodBody (id : Nat) (className : String) (hm : m.tree.Within t)
    (h : Derives P .classMember m.tree) :
    Marks (fun looped => m.tree.strayJumps false looped) (methodBody t visit id className m) := by
  have hmb : ∀ looped, m.tree.strayJumps false looped =
      (m.tree.kids .functionDeclaration).flatMap (·.tree.strayJumps false looped) := by
    intro looped
    rw [strayJumps_eq_all h rfl,
      strayJumpsAll_children (q := .functionDeclaration) h false looped (by decide)]
  simp only [hmb]
  cases hf : m.tree.kid? .functionDeclaration with
  | none =>
    have hkd : m.tree.kids .functionDeclaration = [] := head?_eq_none_iff.1 hf
    rw [hkd, methodBody, hf]
    exact .pure _
  | some f =>
    have hin := (Within.of_kid? hf).trans hm
    have hder := h.of_isOf (.of_kid? hf) (isOf_of_kid? hf)
    -- Neither the head nor what is put back at the end touches the count of loops.
    have hhd : Quiet (methodHead f.tree id className) :=
      .after (quiet_steps.tokenText _ _) fun _ => .get fun _ => .get fun _ =>
        .after (.of_modify fun _ => ⟨rfl, rfl⟩) fun _ =>
          .after (.of_modify fun _ => ⟨rfl, rfl⟩) fun _ => .after (.define _ _) fun _ =>
            .after (quiet_bodyHead _ _ _) fun _ => .pure _
    have hbd : Marks (fun looped => f.tree.strayJumps false looped)
        (visitPart visit ((f.tree.kid? .block).map fun b => m.lift (f.lift b))) := by
      simp only [strayJumps_eq_all hder rfl,
        strayJumpsAll_children (q := .block) hder false _ (by decide)]
      cases hb : f.tree.kid? .block with
      | none => exact fun s a s' hrun => nomatch hrun
      | some b =>
        rw [hder.kids_of_kid? (by decide) hb]
        simp only [flatMap_singleton]
        exact hv (m.lift (f.lift b)) ((Within.of_kid? hb).trans hin)
    rw [h.kids_of_kid? (by decide) hf, methodBody_eq t visit id className hf]
    simp only [flatMap_singleton]
    exact .after hhd fun _ => hbd.before fun _ =>
      .after (.of_modify fun _ => ⟨rfl, rfl⟩) fun _ =>
        .after (.of_modify fun _ => ⟨rfl, rfl⟩) fun _ =>
          .of_modify fun _ => ⟨rfl, rfl⟩

lemma marks_class (h : Derives P .classDeclaration t) :
    Marks (fun looped => strayJumpsAll false looped t.children) (declareClass t visit) := by
  simp only [strayJumpsAll_children (q := .classMember) h false _ (by decide)]
  rw [declareClass_eq]
  refine .after (quiet_classHead t) fun c => .after (quiet_steps.forIn fun m hm _ => ?_) fun _ =>
    (Marks.forIn fun m hm => ?_).before fun _ => .pure _
  · exact .after (quiet_declareMember hv h _ _ (.of_kids hm)) fun _ => .pure _
  · have hin := Within.of_kids hm
    exact marks_methodBody hv c.2 c.1 hin
      (h.of_isOf hin (of_mem_kids hm).2)

end Node

lemma marks_jump (t : Tree) (j : Jump) :
    Marks (fun looped => if looped then [] else [⟨t.pos, .jumpOutsideLoop j⟩]) (jump t j) := by
  intro s a s' hrun
  obtain ⟨_, s1, hreq, hend⟩ := hrun.of_get.of_bind
  cases hend
  rw [Check.require] at hreq
  by_cases hopen : 0 < s.loopDepth
  · simp only [hopen, decide_true, if_true] at hreq ⊢
    cases hreq
    exact .refl s
  · simp only [hopen, decide_false, if_false, Bool.false_eq_true] at hreq ⊢
    cases hreq.of_modify
    exact ⟨rfl, filter_append _ _⟩

lemma marks_of_derives {r : Rule} {t : Tree} (h : Derives P r t) :
    Marks (fun looped => t.strayJumps false looped) (check t) := by
  -- By recursion on the size of the tree; the grammar tells which parts there are.
  have hv : ∀ k : t.Sub, k.tree.Within t →
      Marks (fun looped => k.tree.strayJumps false looped) (check k.tree) := by
    intro k hk
    cases htag : k.tree.tag? with
    | some tag => exact marks_of_derives (h.of_within hk htag)
    | none =>
      rw [check_eq]
      rcases k with ⟨k | k | k, hsz⟩
      · cases htag
      · exact quiet_steps.ofText _
      · exact .pure _
  have hlab : ∀ r ∈ Rule.all, r.isJumpless = false → ∀ e ∈ production r, e.label = none := by
    decide
  cases hr : r.isJumpless with
  | true =>
    simp only [strayJumps_of_derives h hr]
    exact quiet_of_derives h hr
  | false =>
    obtain ⟨e, p, cs, he, hcs, rfl⟩ := id h
    rw [hlab r (Rule.mem_all r) hr e he] at h hv ⊢
    rw [check_node]
    cases r with
    | program =>
      simp only [strayJumps_eq_all h rfl]
      exact marks_program hv h
    | block =>
      simp only [strayJumps_eq_all h rfl]
      exact marks_block hv h
    | ifStatement =>
      simp only [strayJumps_eq_all h rfl]
      exact marks_if hv h
    | functionDeclaration =>
      simp only [strayJumps_eq_all h rfl]
      exact marks_function hv h
    | classDeclaration =>
      simp only [strayJumps_eq_all h rfl]
      exact marks_class hv h
    | statement | tryCatchStatement | switchCase | defaultCase | classMember =>
      simp only [strayJumps_eq_all h rfl]
      exact marks_visitAll hv
    -- Below a loop, a loop is open whatever stands around it.
    | whileStatement =>
      simp only [strayJumps_loop h rfl]
      exact marks_while hv h
    | doWhileStatement =>
      simp only [strayJumps_loop h rfl]
      exact marks_doWhile hv h
    | forStatement =>
      simp only [strayJumps_loop h rfl]
      exact marks_for hv h
    | foreachStatement =>
      simp only [strayJumps_loop h rfl]
      exact marks_foreach hv h
    | breakStatement => exact marks_jump _ .break
    | continueStatement => exact marks_jump _ .continue
    | switchStatement => exact quiet_switch hv h
    | _ => cases hr
termination_by sizeOf t
decreasing_by exact k.2

lemma jumpErrors_of_run (h : Derives P r t) {type : Ty} {s : Checker}
    (hrun : Checker.run t .start = (.ok type, s)) : jumpErrors s = t.strayJumps false false :=
  (marks_of_derives h _ _ _ hrun).2

end Check

namespace Checker

/-- In a text without syntax errors, if the check ends well then there is one complaint for each
    `break` and each `continue` that is in no `switch` and has no loop around it, at its place and
    in the order of the text. If no function is declared in a loop and no jump is in a `switch`,
    these are the jumps for which there is no loop between them and the body of the function they
    are in. -/
theorem jump_errors_exact (source : String) (hparse : (parse source).errors = []) (type : Ty)
    (s : Checker) (hrun : Checker.run (parse source).tree .start = (.ok type, s)) :
    s.errors.filter (·.complaint.isAboutJumps) = (parse source).tree.strayJumps false false ∧
      (((parse source).tree.Everywhere fun c => c.isOneOf Rule.isLoop = true → c.Functionless) →
        ((parse source).tree.Everywhere fun c => c.isOf .switchStatement = true →
          c.Everywhere fun d => d.isJump = false) → s.errors.filter (·.complaint.isAboutJumps) =
          (parse source).tree.strayJumps true false) := by
  have hexact := Check.jumpErrors_of_run (derives_of_parse hparse) hrun
  exact ⟨hexact, fun hloops hswi =>
    hexact.trans (Tree.strayJumps_strict false _ nofun hloops hswi).symm⟩

/-- Of two jumps, the one that is in no loop gets a complaint. -/
theorem jump_errors_exact_stray : (parse Gen.stray).errors = [] ∧
      ∃ type s, Checker.run (parse Gen.stray).tree .start = (.ok type, s) ∧
        s.errors.filter (·.complaint.isAboutJumps) = (parse Gen.stray).tree.strayJumps false false ∧
        s.errors.filter (·.complaint.isAboutJumps) = (parse Gen.stray).tree.strayJumps true false ∧
        (parse Gen.stray).tree.strayJumps true false = [⟨⟨1, 0⟩, .jumpOutsideLoop .break⟩] := by
  obtain ⟨-, -, -, ⟨hparse, hsz, hnn, hfun, hok, her⟩, -⟩ := Gen.texts_evaluated
  obtain ⟨type, hrun⟩ := exists_run hsz hok
  obtain ⟨hloose, hstr⟩ := jump_errors_exact Gen.stray hparse type _ hrun
  have hstr := hstr (fun c hc _ d hd => Gen.has_eq_false.1 hfun d (hd.trans hc))
    fun c hc hof => ?_
  · refine ⟨hparse, type, _, hrun, hloose, hstr, ?_⟩
    rw [← hstr, her]
    rfl
  · rw [(everywhere_of_hasNoSwitchOrClass hnn).1 c hc] at hof
    cases hof

end Checker

end Compiscript
