import Compiscript.Proofs.Codegen.Visits

/-!
# Writes

A variable is written to when it is declared with a value, by an assignment, and by
an expression `x = e`. A field is written to by an assignment. All of these compute
a value and then store it, and the instruction that stores it stands right behind
the code of what it needs.

## Theorems

* `Gen.writes_are_stored`: What is written in the text is written in the code as well.
-/

namespace Compiscript.Gen

open List

open Tac

/-- A write of a program. -/
inductive Write where
  /-- A value for a variable. -/
  | name (x : String) (value : Tree)
  /-- A value for a field of an object. -/
  | field (object : Tree) (f : String) (value : Tree)
  /-- A value for a variable, in an expression. -/
  | target (x : String) (value : Tree)

/-- The name that a chain is, if nothing follows it. -/
def bareName? (t : Tree) : Option String :=
  match t.tag?, t.every .primaryAtom, t.every .suffixOp with
  | some ⟨.leftHandSide, none⟩, atom :: _, [] => startName? atom
  | _, _, _ => none

/-- The write that a node stands for. -/
def writeOf? (t : Tree) : Option Write :=
  match t.tag? with
  | some ⟨.variableDeclaration, _⟩ =>
    match t.tokenText? .identifier, (t.first .initializer).flatMap (·.first .expression) with
    | some x, [e] => some (.name x e)
    | _, _ => none
  | some ⟨.assignment, _⟩ =>
    match t.tokenText? .identifier, t.every .expression with
    | some x, [e] => some (.name x e)
    | some f, [object, e] => some (.field object f e)
    | _, _ => none
  | some ⟨.assignmentExpr, some .assignExpr⟩ =>
    match t.first .leftHandSide, t.first .assignmentExpr with
    | [target], [e] => (bareName? target).map (.target · e)
    | _, _ => none
  | _ => none

/-- The code between two states computes a value, and then it stores it. -/
def Write.Stored (params : Set String) (g g' : Generator) : Write → Prop
  | .name x e => ∃ v h h', Later params g h ∧ Gives (generate e) h v h' ∧
      g'.code = h'.code ++ [.of .mov v.operand .none (.text x)]
  | .field object f e => ∃ v o h h', Gives (generate e) g v h ∧ Gives (generate object) h o h' ∧
      g'.code = h'.code ++ [.of .movp v.operand o.operand (.text f)]
  | .target x e => ∃ y v h, Gives (readName x) g (.text y) g ∧ Gives (generate e) g v h ∧
      g'.code = h.code ++ [.of .mov v.operand .none (.text y)] ∧ (Plain params g → y = x)

/-! ### The code of a write -/

section Store

variable {α : Type} {g g' : Generator}

lemma Gives.of_emit {op : Op} {a1 a2 res : Operand} {x : Gen α} {a : α}
    (h : Gives (do emit op a1 a2 res; x) g a g') (hx : Silent x) :
    g'.code = g.code ++ [.of op a1 a2 res] := by
  obtain ⟨_, g1, hemit, hr⟩ := h.of_bind
  have hadded : Gives (emit op a1 a2 res) g ()
      { g with code := g.code ++ [.of op a1 a2 res] } := rfl
  obtain ⟨-, rfl⟩ := hemit.unique hadded
  obtain ⟨b, g2, hgv, hcode, -⟩ := hx { g with code := g.code ++ [.of op a1 a2 res] }
  obtain ⟨-, rfl⟩ := hr.unique hgv
  exact hcode

lemma exists_readName (x : String) (g : Generator) : ∃ y, Gives (readName x) g (.text y) g := by
  by_cases hfun : g.function.isSome = true
  · have hbind : ∀ {α : Type} {m : Gen α} {a : α} {f : α → Gen Value}, Gives m g a g →
        (∃ y, Gives (f a) g (.text y) g) → ∃ y, Gives (m >>= f) g (.text y) g := by
      rintro _ _ _ _ hm ⟨y, hy⟩
      exact ⟨y, hm.bind hy⟩
    refine hbind (a := g) rfl ?_
    rw [if_pos hfun]
    refine hbind (a := g.symbols.bind (·.get? x)) rfl ?_
    split
    · exact ⟨_, rfl⟩
    · exact ⟨x, rfl⟩
  · refine ⟨x, Gives.bind (a := g) rfl ?_⟩
    rw [if_neg hfun]
    rfl

lemma generate_bareName {t : Tree} {x : String} (h : bareName? t = some x) :
    generate t = readName x := by
  unfold bareName? at h
  split at h
  · rename_i atom atoms htag hatoms hsuf
    rw [Tree.every_eq] at hatoms hsuf
    obtain ⟨a, as, hkd, rfl, -⟩ := map_eq_cons_iff.1 hatoms
    have ha : t.kid? .primaryAtom = some a := by
      rw [Tree.kid?, hkd]
      rfl
    have hof : a.tree.isOf .primaryAtom = true := Tree.isOf_of_kid? ha
    have hcha : generate t = chain t (generate ·.tree) := generate_of_tag htag
    rw [hcha, chain, ha, map_eq_nil_iff.1 hsuf, ← generate_startName hof h]
    exact bind_pure _
  · cases h

end Store

section Node

variable {params : Set String} {t : Tree} {g g' : Generator} {v : Value}

lemma silent_release (v a : Value) : Silent (do release v; return a : Gen Value) :=
  (Silent.release v).bind fun _ => .pure a

variable {x : String} {e : Tree}

lemma stored_declareVariable (hx : t.tokenText? .identifier = some x)
    (he : (t.first .initializer).flatMap (·.first .expression) = [e])
    (hgv : Gives (declareVariable t (generate ·.tree)) g v g') :
    (Write.name x e).Stored params g g' := by
  -- The value is that of the expression behind the name.
  obtain ⟨i, hi⟩ : ∃ i, t.kid? .initializer = some i := by
    refine Option.ne_none_iff_exists'.1 fun hno => ?_
    rw [Tree.first_eq_nil hno] at he
    cases he
  rw [Tree.first_eq_singleton hi, flatMap_singleton] at he
  obtain ⟨k, hk⟩ : ∃ k, i.tree.kid? .expression = some k := by
    refine Option.ne_none_iff_exists'.1 fun hno => ?_
    rw [Tree.first_eq_nil hno] at he
    cases he
  rw [Tree.first_eq_singleton hk] at he
  obtain rfl : k.tree = e := singleton_inj.1 he
  rw [declareVariable_eq hx] at hgv
  obtain ⟨_, g1, hpla, hfst⟩ := hgv.of_bind
  have hlat : Later params g g1 := (Visits.uniform.placeInFunction x g _ g1 hpla).1
  rw [firstValue, hi, Option.bind_some, hk] at hfst
  obtain ⟨w, g2, hval, hsto⟩ := hfst.of_bind
  exact ⟨w, g1, g2, hlat, hval, hsto.of_emit (silent_release w _)⟩

lemma stored_assignment (hx : t.tokenText? .identifier = some x)
    (he : t.every .expression = [e]) (hgv : Gives (assignment t (generate ·.tree)) g v g') :
    (Write.name x e).Stored params g g' := by
  rw [Tree.every_eq] at he
  obtain ⟨k, hkd, rfl⟩ := map_eq_singleton_iff.1 he
  rw [assignment, hx, hkd] at hgv
  obtain ⟨w, g1, hval, hsto⟩ := hgv.of_bind
  exact ⟨w, g, g1, .refl g, hval, hsto.of_emit (silent_release w _)⟩

lemma stored_fieldAssignment {f : String} {object : Tree}
    (hf : t.tokenText? .identifier = some f) (he : t.every .expression = [object, e])
    (hgv : Gives (assignment t (generate ·.tree)) g v g') :
    (Write.field object f e).Stored params g g' := by
  rw [Tree.every_eq] at he
  obtain ⟨o, ks, hkd, rfl, hks⟩ := map_eq_cons_iff.1 he
  obtain ⟨k, rfl, rfl⟩ := map_eq_singleton_iff.1 hks
  rw [assignment, hf, hkd] at hgv
  obtain ⟨w, g1, hval, hr⟩ := hgv.of_bind
  obtain ⟨u, g2, hobj, hsto⟩ := hr.of_bind
  exact ⟨w, u, g1, g2, hval, hobj,
    hsto.of_emit ((Silent.release w).bind fun _ => silent_release u _)⟩

lemma stored_assignExpr {target : Tree} (htar : t.first .leftHandSide = [target])
    (he : t.first .assignmentExpr = [e]) (hx : bareName? target = some x)
    (hgv : Gives (assignExpr t (generate ·.tree)) g v g') :
    (Write.target x e).Stored params g g' := by
  have hkid : ∀ {r d}, t.first r = [d] → visitPart (generate ·.tree) (t.kid? r) = generate d := by
    intro r d hd
    obtain ⟨k, hk⟩ : ∃ k, t.kid? r = some k := by
      refine Option.ne_none_iff_exists'.1 fun hno => ?_
      rw [Tree.first_eq_nil hno] at hd
      cases hd
    rw [Tree.first_eq_singleton hk] at hd
    obtain rfl : k.tree = d := singleton_inj.1 hd
    rw [hk]
    rfl
  rw [assignExpr, hkid htar, hkid he, generate_bareName hx] at hgv
  obtain ⟨y, hrd⟩ := exists_readName x g
  obtain ⟨_, g1, hnm, hr⟩ := hgv.of_bind
  obtain ⟨rfl, rfl⟩ := hnm.unique hrd
  obtain ⟨w, g2, hval, hsto⟩ := hr.of_bind
  refine ⟨y, w, g2, hrd, hval, hsto.of_emit (silent_release w _), fun hpl => ?_⟩
  obtain ⟨_, hsf, -⟩ := Hidden.readName x g1 hpl
  exact Value.text.inj (hrd.unique hsf).1

end Node

/-- The code of a node holds the write that it stands for. -/
lemma stored_of_gives {params : Set String} {t : Tree} {w : Write} (hw : writeOf? t = some w)
    {g g' : Generator} {v : Value} (hgv : Gives (generate t) g v g') : w.Stored params g g' := by
  unfold writeOf? at hw
  split at hw
  · -- A variable with a value.
    rename_i htag
    rw [generate_of_tag htag] at hgv
    split at hw
    · rename_i x e hx he
      cases hw
      exact stored_declareVariable hx he hgv
    · cases hw
  · -- An assignment.
    rename_i htag
    rw [generate_of_tag htag] at hgv
    split at hw
    · rename_i x e hx he
      cases hw
      exact stored_assignment hx he hgv
    · rename_i f object e hf he
      cases hw
      exact stored_fieldAssignment hf he hgv
    · cases hw
  · -- An assignment in an expression.
    rename_i htag
    rw [generate_of_tag htag] at hgv
    split at hw
    · rename_i target e htar he
      obtain ⟨x, hx, rfl⟩ := Option.map_eq_some_iff.1 hw
      exact stored_assignExpr htar he hx hgv
    · cases hw
  · cases hw

/-- The names of the parameters of a program. -/
def parameterNames (t : Tree) : Set String :=
  {x | ∃ p : Tree, p.Within t ∧ p.isOf .parameter = true ∧ p.tokenText? .identifier = some x}

lemma parameterIn_names (t : Tree) : t.Everywhere (ParameterIn (parameterNames t)) :=
  fun p hp hof _ hx => ⟨p, hp, hof, hx⟩

/-- The code of all that is met in a text is there in the end. -/
lemma exists_run_between {source : String} (symbols : Option (Table String Symbol))
    (hparse : (parse source).errors = []) :
    ∃ v g, Generator.run (parse source).tree (.start symbols) = (.ok v, g) ∧
      ∀ d, Met d (parse source).tree →
        Between (parameterNames (parse source).tree) (.start symbols) d g := by
  have hc := complete_of_derives (derives_of_parse hparse)
  obtain ⟨v, g, hrun, -⟩ := sealed_run symbols hparse
  exact ⟨v, g, hrun, fun d hmet => between_of_met hmet hc (parameterIn_names _) hrun⟩

/-- A text without syntax errors has code, whatever is known about its symbols, and every write that
    is met is in it. The code that is made for its node is that of the value, and behind it the
    instruction that stores it in the variable or in the field. -/
theorem writes_are_stored (source : String) (symbols : Option (Table String Symbol))
    (hparse : (parse source).errors = []) :
    ∃ v g, Generator.run (parse source).tree (.start symbols) = (.ok v, g) ∧
      ∀ d w, Met d (parse source).tree → writeOf? d = some w →
        ∃ u k k', Later (parameterNames (parse source).tree) (.start symbols) k ∧
          Gives (generate d) k u k' ∧ w.Stored (parameterNames (parse source).tree) k k' ∧
          Later (parameterNames (parse source).tree) k' g := by
  obtain ⟨v, g, hrun, hbet⟩ := exists_run_between symbols hparse
  refine ⟨v, g, hrun, fun d w hmet hw => ?_⟩
  obtain ⟨u, k, k', hbef, hgv, hafter⟩ := hbet d hmet
  exact ⟨u, k, k', hbef, hgv, stored_of_gives hw hgv, hafter⟩

/-- A program with a value for a variable, one for a field and one in an expression. -/
theorem writes_are_stored_nested : (parse nested).errors = [] ∧
      ∃ v g, Generator.run (parse nested).tree (.start none) = (.ok v, g) ∧
        ∀ d w, Met d (parse nested).tree → writeOf? d = some w →
          ∃ u k k', Later (parameterNames (parse nested).tree) (.start none) k ∧
            Gives (generate d) k u k' ∧ w.Stored (parameterNames (parse nested).tree) k k' ∧
            Later (parameterNames (parse nested).tree) k' g :=
  ⟨nested_evaluated, writes_are_stored nested none nested_evaluated⟩

end Compiscript.Gen
