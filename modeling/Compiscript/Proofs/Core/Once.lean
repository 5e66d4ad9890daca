import Compiscript.Proofs.Core.Refinement

/-!
# Loops That Run Once

The generator has code of its own for a branch and for a loop that begins with
its test. Of any other loop, and of the statements that leave a round or a loop,
it visits the parts as they stand: each part is carried out once, the values of
the tests are computed and not looked at, and there is no way back and no way
out. `once?` reads a tree as the statement of the core that says just that.

## Theorems

* `Core.code_passes_once`: What the code of a program does that has such statements.
-/

namespace Compiscript.Core

open Machine Tac Gen

/-- Compute a value and do nothing with it. -/
def Stmt.evaluate (e : Expr) : Stmt := .branch e .skip .skip

/-- Control statements that the generator has no code of its own for. -/
def isPassedOver : Rule → Bool
  | .doWhileStatement | .forStatement | .breakStatement | .continueStatement => true
  | _ => false

/-- What a part of such a statement is carried out as. -/
def part? : Phrase → Option Stmt
  | .token _ => some .skip
  | .expr .expression e => some (.evaluate e)
  | .stmt .block s => some (.block s)
  | .stmt .variableDeclaration s => some s
  | .stmt .assignment s => some s
  | .stmt .expression s => some s
  | _ => none

/-- Parts that are carried out one after the other. -/
def inTurn? : List Phrase → Option Stmt
  | [] => some .skip
  | p :: rest => (part? p).bind fun s => (inTurn? rest).map (.seq s)

/-- What a node is carried out as. -/
def assembleOnce : Tag → List Phrase → Option Stmt
  | ⟨.assignmentExpr, some .assignExpr⟩,
    [.expr .leftHandSide (.var x), .token _, .expr .assignmentExpr e] => some (.assign x e)
  | ⟨.expression, none⟩, [.stmt .assignmentExpr s] => some s
  | ⟨.statement, none⟩, [.stmt r s] =>
    if isPassedOver r then some s else assembleStmt ⟨.statement, none⟩ [.stmt r s]
  | ⟨r, none⟩, parts =>
    if isPassedOver r then (inTurn? parts).map .block else assembleStmt ⟨r, none⟩ parts
  | _, _ => none

mutual

/-- What a parse tree is carried out as. -/
def once? : Tree → Option Phrase
  | .node tag start children =>
    match phrase? (.node tag start children) with
    | some p => some p
    | none => (onces? children).bind fun parts => (assembleOnce tag parts).map (.stmt tag.rule)
  | .leaf t => some (.token t)
  | .bad _ => none

/-- What several parse trees are carried out as. -/
def onces? : List Tree → Option (List Phrase)
  | [] => some []
  | t :: rest => (once? t).bind fun p => (onces? rest).map (p :: ·)

end

/-- What the program in a parse tree is carried out as. -/
def programOnce? (t : Tree) : Option Stmt :=
  match once? t with
  | some (.stmt .program s) => some s
  | _ => none

lemma onces?_eq_some {ts : List Tree} {ps : List Phrase} (h : onces? ts = some ps) :
    List.Forall₂ (fun t p => once? t = some p) ts ps := by
  induction ts generalizing ps with
  | nil =>
    rw [onces?] at h
    injection h with h
    rw [← h]
    exact .nil
  | cons t ts ih =>
    rw [onces?, Option.bind_eq_some_iff] at h
    rcases h with ⟨p, hp, h⟩
    rcases Option.map_eq_some_iff.1 h with ⟨ps, hps, rfl⟩
    exact .cons hp (ih hps)

variable {t : Tree} {p : Phrase}

lemma once?_of_phrase (h : phrase? t = some p) : once? t = some p := by
  cases t with
  | node tag start children => rw [once?, h]
  | leaf t => exact h
  | bad t => cases h

lemma programOnce?_of_program {p : Stmt} (h : program? t = some p) : programOnce? t = some p := by
  unfold program? at h
  split at h
  · rename_i s hphr
    rw [programOnce?, once?_of_phrase hphr]
    exact h
  · cases h

/-- A tree that is carried out is one of the core, or a node of another kind with
    children that are carried out. -/
lemma once?_cases (h : once? t = some p) :
    phrase? t = some p ∨ ∃ tag start cs parts s, t = .node tag start cs ∧ p = .stmt tag.rule s ∧
      List.Forall₂ (fun c part => once? c = some part) cs parts ∧
      assembleOnce tag parts = some s := by
  cases t with
  | node tag start cs =>
    rw [once?] at h
    split at h
    · rename_i q hq
      exact .inl (hq.trans h)
    · obtain ⟨parts, hpts, h⟩ := Option.bind_eq_some_iff.1 h
      obtain ⟨s, hs, rfl⟩ := Option.map_eq_some_iff.1 h
      exact .inr ⟨tag, start, cs, parts, s, rfl, rfl, onces?_eq_some hpts, hs⟩
  | leaf t => exact .inl h
  | bad t => cases h

lemma reading_once : Reading once? where
  isOf h r := by
    rcases once?_cases h with h | ⟨tag, start, cs, parts, s, rfl, rfl, -, -⟩
    · exact isOf_of_phrase h r
    · simp [Tree.isOf, Phrase.rule?, beq_eq_decide]
  usual h hpt := by
    rcases once?_cases h with h | ⟨tag, start, cs, parts, s, rfl, rfl, -, -⟩
    · exact h
    · exact absurd rfl (hpt _ _)

section Translation

variable {V : Type} [DecidableEq V] {A : Arith V} {t c : Tree} {e : Expr} {st : Stmt} {start : Pos}

/-- The code of an expression computes its value, and that is all. -/
lemma StmtCodes.evaluate {p p1 : Temps} {n n1 : Nat} {v : Value} {b : List Instr} (hp : p.Kept)
    (he : Codes A e p n v b p1 n1) (hvs : e.Plain) : StmtCodes A (.evaluate e) p n b p1 n1 where
  kept := he.kept
  labels := he.labels
  run hpd hnd s c h fuel := by
    rw [Stmt.evaluate, exec, Config.test, withValue_map]
    refine he.follows hp hvs hpd hnd h fun s' h' => ?_
    split
    · exact (Follows.done h').inBlock
    · exact (Follows.done h').inBlock

lemma stmtTranslates_evaluate (hc : phrase? c = some (.expr .expression e)) (hpl : e.Plain) :
    StmtTranslates A c (.evaluate e) := by
  intro p n hp
  obtain ⟨v, b, p1, n1, hem, hcds⟩ := translates_of_phrase A c hc hpl p n hp
  exact ⟨v, b, p1, n1, hem, .evaluate hp hcds hpl⟩

lemma stmtTranslates_leaf (tok : Token) : StmtTranslates A (.leaf tok) .skip := by
  intro p n hp
  refine ⟨.none, [], p, n, ?_, .skip hp n⟩
  rw [generate_leaf]
  exact .pure _ p n

lemma stmtTranslates_part {part : Phrase} (hc : once? c = some part) (hst : part? part = some st)
    (hpl : st.Plain)
    (ih : ∀ r s, r ≠ .program → once? c = some (.stmt r s) → s.Plain → StmtTranslates A c s) :
    StmtTranslates A c st := by
  unfold part? at hst
  split at hst
  · cases hst
    cases reading_once.eq_leaf hc
    exact stmtTranslates_leaf _
  · cases hst
    exact stmtTranslates_evaluate (reading_once.expr hc) hpl.1
  · cases hst
    exact (ih _ _ (by decide) hc hpl).block
  -- a declaration, an assignment and one in the place of an expression
  iterate 3
    · cases hst
      exact ih _ _ (by decide) hc hpl
  · cases hst

variable {cs : List Tree} {parts : List Phrase} {tag : Tag} {r : Rule} {l : Option Label}
  {x : String}

lemma exists_inTurn (hcs : List.Forall₂ (fun c part => once? c = some part) cs parts)
    (hst : inTurn? parts = some st) (hpl : st.Plain)
    (ih : ∀ c ∈ cs, ∀ r s, r ≠ .program → once? c = some (.stmt r s) → s.Plain →
      StmtTranslates A c s) (p : Temps) (n : Nat) (v0 : Value) (hp : p.Kept) :
    ∃ v b p' n', Emits (cs.foldlM (fun _ c => generate c) v0) p n v b p' n' ∧
      StmtCodes A st p n b p' n' := by
  induction hcs generalizing st p n v0 with
  | nil =>
    cases hst
    exact ⟨v0, [], p, n, .pure _ p n, .skip hp n⟩
  | @cons c part cs parts hc hcs ihrest =>
    obtain ⟨s, hs, hst⟩ := Option.bind_eq_some_iff.1 hst
    obtain ⟨s', hs', rfl⟩ := Option.map_eq_some_iff.1 hst
    obtain ⟨v, b, p1, n1, hem, hcds⟩ :=
      stmtTranslates_part hc hs hpl.1 (ih c (.head _)) p n hp
    obtain ⟨v', b', p2, n2, hemits', hcodes'⟩ := ihrest hs' hpl.2
      (fun c' hc' => ih c' (.tail _ hc')) p1 n1 v hcds.kept
    exact ⟨v', b ++ b', p2, n2, hem.bind hemits', hcds.seq hcodes'⟩

lemma StmtTranslates.of_children (ht : t = .node tag start cs)
    (htag : tagged t (generate ·.tree) tag = visitAll fun k : t.Sub => generate k.tree)
    (h : ∀ (p : Temps) (n : Nat), p.Kept → ∃ v b p' n',
      Emits (cs.foldlM (fun _ c => generate c) .none) p n v b p' n' ∧ StmtCodes A st p n b p' n') :
    StmtTranslates A t st := by
  intro p n hp
  obtain ⟨v, b, p', n', hem, hcds⟩ := h p n hp
  refine ⟨v, b, p', n', ?_, hcds⟩
  rw [generate_of_eq ht, htag, visitAll_eq, ht]
  exact hem

lemma StmtTranslates.of_child (ht : t = .node tag start [c])
    (htag : tagged t (generate ·.tree) tag = visitAll fun k : t.Sub => generate k.tree)
    (h : StmtTranslates A c st) : StmtTranslates A t st := by
  refine .of_children ht htag fun p n hp => ?_
  obtain ⟨v, b, p', n', hem, hcds⟩ := h p n hp
  refine ⟨v, b, p', n', ?_, hcds⟩
  change Emits (generate c >>= pure) p n v b p' n'
  rw [bind_pure]
  exact hem

lemma exists_of_expr (h : phrase? c = some (.expr r e)) :
    ∃ l start cs parts, c = .node ⟨r, l⟩ start cs ∧
      List.Forall₂ (fun c part => phrase? c = some part) cs parts ∧
      assembleExpr ⟨r, l⟩ parts = some e := by
  obtain ⟨tag, start, cs, parts, rfl, hcs, h⟩ := exists_parts h rfl
  cases Option.some.inj (assemble_rule h)
  exact ⟨tag.label, start, cs, parts, rfl, hcs, assembleExpr_of_assemble h⟩

lemma eq_of_leftHandSide (h : assembleExpr ⟨.leftHandSide, l⟩ parts = some e) :
    l = none ∧ parts = [.expr .primaryAtom e] := by
  unfold assembleExpr at h
  split at h
  -- nodes of other rules
  all_goals try (rename_i heq; cases heq; done)
  · rename_i heq
    cases heq
    cases h
    exact ⟨rfl, rfl⟩
  · cases h

lemma exists_of_primaryAtom (h : assembleExpr ⟨.primaryAtom, l⟩ parts = some e) :
    ∃ tok, l = some .identifierExpr ∧ parts = [.token tok] ∧ (nameOf? tok).map .var = some e := by
  unfold assembleExpr at h
  split at h
  all_goals try (rename_i heq; cases heq; done)
  · rename_i tok heq
    cases heq
    exact ⟨tok, rfl, rfl, h⟩
  · cases h

lemma emits_target (h : phrase? c = some (.expr .leftHandSide (.var x)))
    (p : Temps) (n : Nat) : Emits (generate c) p n (.text x) [] p n := by
  obtain ⟨l, start, cs, parts, hc, hcs, h⟩ := exists_of_expr h
  obtain ⟨rfl, rfl⟩ := eq_of_leftHandSide h
  rcases hcs with _ | ⟨hd, _ | _⟩
  obtain ⟨l, start', cs, parts, hat, hcs, h⟩ := exists_of_expr hd
  obtain ⟨tok, rfl, rfl, hnm⟩ := exists_of_primaryAtom h
  obtain ⟨y, hy, hvar⟩ := Option.map_eq_some_iff.1 hnm
  cases Expr.var.inj hvar
  rcases hcs with _ | ⟨htok, _ | _⟩
  cases eq_leaf_of_phrase htok
  exact emits_chain hc hd (emits_name hat hy p n)

lemma stmtTranslates_assignExpr {tok : Token} {d : Tree}
    (ht : t = .node ⟨.assignmentExpr, some .assignExpr⟩ start [d, .leaf tok, c])
    (hd : phrase? d = some (.expr .leftHandSide (.var x)))
    (hc : phrase? c = some (.expr .assignmentExpr e)) (hpl : e.Plain) :
    StmtTranslates A t (.assign x e) := by
  obtain ⟨kd, hkd, hd'⟩ := Tree.kid?_eq_some (t := t) (c := d) (r := .leftHandSide)
    (by simp [ht, isOf_of_phrase hd, isOf_of_phrase hc, Phrase.rule?])
  obtain ⟨kc, hkc, hc'⟩ := Tree.kid?_eq_some (t := t) (c := c) (r := .assignmentExpr)
    (by simp [ht, isOf_of_phrase hd, isOf_of_phrase hc, Phrase.rule?])
  intro p n hp
  obtain ⟨v, b, p1, n1, hem, hcds⟩ := translates_of_phrase A c hc hpl p n hp
  refine ⟨v, _, _, _, ?_, .assign hp hcds hpl x⟩
  have htar := emits_target hd p n
  rw [← hd'] at htar
  rw [← hc'] at hem
  rw [generate_of_eq ht]
  change Emits (assignExpr t _) _ _ _ _ _ _
  refine (Emits.visitPart hkd htar).silent ((Emits.visitPart hkc hem).bind ?_)
  exact (Emits.move v x _ _).bind ((Emits.release v _ _).silent (Emits.pure _ _ _))

lemma tagged_of_isPassedOver (h : isPassedOver r = true)
    (visit : t.Sub → Gen Value) : tagged t visit ⟨r, none⟩ = visitAll visit := by
  unfold isPassedOver at h
  split at h
  iterate 4 rfl
  cases h

lemma stmtTranslates_onceNode (hcs : List.Forall₂ (fun c part => once? c = some part) cs parts)
    (h : assembleOnce tag parts = some st) (hru : tag.rule ≠ .program) (hpl : st.Plain)
    (ih : ∀ c ∈ cs, ∀ r s, r ≠ .program → once? c = some (.stmt r s) → s.Plain →
      StmtTranslates A c s) : StmtTranslates A (.node tag start cs) st := by
  unfold assembleOnce at h
  split at h
  · -- an assignment in the place of an expression
    cases h
    rcases hcs with _ | ⟨hd, _ | ⟨h1, _ | ⟨hc, _ | _⟩⟩⟩
    cases reading_once.eq_leaf h1
    exact stmtTranslates_assignExpr rfl (reading_once.expr hd) (reading_once.expr hc) hpl
  · -- an expression that is one
    cases h
    rcases hcs with _ | ⟨hc, _ | _⟩
    exact .of_child rfl rfl (ih _ (.head _) _ _ (by decide) hc hpl)
  · split at h
    · -- a statement that is passed over
      rename_i r s hr
      cases h
      rcases hcs with _ | ⟨hc, _ | _⟩
      refine stmtTranslates_statement rfl (ih _ (.head _) r _ ?_ hc hpl)
      rintro rfl
      cases hr
    · exact stmtTranslates_node reading_once hcs h hru hpl ih
  · split at h
    · rename_i hr
      obtain ⟨s, hs, rfl⟩ := Option.map_eq_some_iff.1 h
      refine StmtTranslates.block (.of_children rfl (tagged_of_isPassedOver hr _) fun p n hp => ?_)
      exact exists_inTurn hcs hs hpl ih p n .none hp
    · exact stmtTranslates_node reading_once hcs h hru hpl ih
  · cases h

lemma stmtTranslates_of_once (A : Arith V) (t : Tree)
    (h : once? t = some (.stmt r st)) (hr : r ≠ .program) (hpl : st.Plain) :
    StmtTranslates A t st := by
  induction hsz : sizeOf t using Nat.strong_induction_on generalizing t r st with
  | _ size ih =>
    rcases once?_cases h with h | ⟨tag, start, cs, parts, s, rfl, heq, hcs, hs⟩
    · exact stmtTranslates_of_phrase A t h hr hpl
    · injection heq with hru heq
      subst hru heq
      refine stmtTranslates_onceNode hcs hs hr hpl fun c hc r s hr hphr hpl => ?_
      refine ih (sizeOf c) ?_ c hphr hr hpl rfl
      rw [← hsz]
      exact Tree.sizeOf_child_lt hc

/-- A statement of the core stands alone in its node, and it declares no function and no class. -/
lemma exists_of_assembleStmt (h : assembleStmt ⟨.statement, none⟩ parts = some st) :
    ∃ r s, parts = [.stmt r s] ∧ r ≠ .functionDeclaration ∧ r ≠ .classDeclaration := by
  unfold assembleStmt at h
  split at h
  all_goals try (rename_i heq; cases heq; done)
  iterate 6 exact ⟨_, _, rfl, by decide, by decide⟩
  cases h

lemma exists_of_assembleOnce (h : assembleOnce ⟨.statement, l⟩ parts = some st) :
    ∃ r s, parts = [.stmt r s] ∧ r ≠ .functionDeclaration ∧ r ≠ .classDeclaration := by
  unfold assembleOnce at h
  split at h
  · rename_i heq
    cases heq
  · rename_i heq
    cases heq
  · split at h
    · rename_i r s _ hr
      refine ⟨r, s, rfl, ?_, ?_⟩ <;> rintro rfl <;> cases hr
    · exact exists_of_assembleStmt h
  · rename_i r heq _ _
    cases heq
    exact exists_of_assembleStmt h
  · cases h

lemma translatesStatements_once (A : Arith V) : TranslatesStatements A once? := by
  intro c s h
  refine ⟨?_, stmtTranslates_of_once A c h (by decide)⟩
  rcases once?_cases h with h | ⟨tag, start, cs, parts, s, rfl, heq, hcs, hs⟩
  · exact isDeclaration_of_phrase h
  · obtain ⟨r, l⟩ := tag
    injection heq with hru
    obtain rfl : .statement = r := hru
    obtain ⟨r, s, rfl, hfun, hcl⟩ := exists_of_assembleOnce hs
    rcases hcs with _ | ⟨hc, _ | _⟩
    simp [isDeclaration, Tree.hasKid, reading_once.isOf hc, Phrase.rule?, hfun, hcl]

lemma exists_programOnce (h : programOnce? t = some st) (hpl : st.Plain) :
    ∃ b p n, Emits (generate t) .empty 0 .none (programCode b) p n ∧
      StmtCodes A st .empty 0 b p n := by
  unfold programOnce? at h
  split at h
  · rename_i s honce
    cases h
    rcases once?_cases honce with h | ⟨tag, start, cs, parts, s, ht, heq, hcs, hs⟩
    · exact exists_program (by rw [program?, h]) hpl
    · obtain ⟨r, l⟩ := tag
      injection heq with hru heq
      obtain rfl : .program = r := hru
      subst heq
      refine exists_programNode reading_once (translatesStatements_once A) ht hcs ?_ hpl
      cases l with
      | none => exact hs
      | some l => cases hs
  · cases h

end Translation

/-- The code of a program does what the program is carried out as, whatever the
    numbers are and the variables hold at first: it prints the same, ends when and how
    that ends, and leaves the same in the outermost variables. A program of the core is
    carried out as it stands, so branches and loops that begin with their test keep
    their meaning. Of any other control statement the parts are carried out once, one
    after the other, so that no such loop has a second round and nothing leaves one. -/
theorem code_passes_once (t : Tree) (p : Stmt) (hp : programOnce? t = some p)
    (hnamed : WellNamed p) : (∀ q, program? t = some q → q = p) ∧
      ∃ g, Generator.run t (.start none) = (.ok .none, g) ∧
        ∀ (V : Type) [DecidableEq V] (A : Arith V) (store : String → V),
          Implements A g.code p store := by
  refine ⟨fun q hq => ?_, exists_implements_of hnamed fun _ _ _ =>
    exists_programOnce hp hnamed.plain⟩
  exact Option.some.inj ((programOnce?_of_program hq).symm.trans hp)

/-- A node with one child, by its rule. -/
def around (c : Tree) (tag : Tag) : Tree := .node tag default [c]

/-- A token by its kind and text. -/
def word (k : Kind) (text : String) : Tree := .leaf ⟨k, text, default⟩

/-- The expression `true`, with all nodes from the literal up. -/
def trueTree : Tree :=
  [⟨.literalExpr, none⟩, ⟨.primaryExpr, none⟩, ⟨.unaryExpr, none⟩, ⟨.multiplicativeExpr, none⟩,
    ⟨.additiveExpr, none⟩, ⟨.relationalExpr, none⟩, ⟨.equalityExpr, none⟩, ⟨.logicalAndExpr, none⟩,
    ⟨.logicalOrExpr, none⟩, ⟨.conditionalExpr, some .ternaryExpr⟩,
    ⟨.assignmentExpr, some .exprNoAssign⟩, ⟨.expression, none⟩].foldl around (word .kwTrue "true")

/-- `do { print(true); } while (true);`, which has no end. -/
def printForever : Tree :=
  .node ⟨.program, none⟩ default
    [around (.node ⟨.doWhileStatement, none⟩ default [word .kwDo "do",
          .node ⟨.block, none⟩ default
            [word .openBrace "\x7b",
              around (.node ⟨.printStatement, none⟩ default
                [word .kwPrint "print", word .openParen "(", trueTree, word .closeParen ")",
                  word .semicolon ";"]) ⟨.statement, none⟩,
              word .closeBrace "\x7d"],
          word .kwWhile "while", word .openParen "(", trueTree, word .closeParen ")",
          word .semicolon ";"]) ⟨.statement, none⟩,
      word .endOfInput "<EOF>"]

/-- Its code has one: it prints once. -/
theorem code_passes_once_printForever : ∃ p g, programOnce? printForever = some p ∧ WellNamed p ∧
      Generator.run printForever (.start none) = (.ok .none, g) ∧
      ∀ (V : Type) [DecidableEq V] (A : Arith V) (store : String → V),
        Implements A g.code p store := by
  have hany : (programOnce? printForever).any (fun p => decide (WellNamed p)) = true := by
    decide +kernel
  obtain ⟨p, hp, hnamed⟩ := (Option.any_eq_true _ _).1 hany
  rw [decide_eq_true_eq] at hnamed
  obtain ⟨-, g, hg, hcode⟩ := code_passes_once printForever p hp hnamed
  exact ⟨p, g, hp, hnamed, hg, hcode⟩

end Compiscript.Core
