import Compiscript.Proofs.Check.Globals
import Compiscript.Proofs.Codegen.Functions
import Compiscript.Proofs.Evaluation

/-!
# Code with and without Symbols

The generator looks names up in the outermost scope only, wherever they occur,
and it writes into the symbols that it finds. A parameter that is found there is
marked as one, and from then on all functions take the name for a parameter. If
no parameter is found there, what is written into the symbols is not read again.

## Theorems

* `Gen.same_code_with_symbols`: The code does not depend on the symbols then.
* `Gen.same_code_every_time`: Generating again gives the same code then.
-/

namespace Compiscript

namespace Symbol

/-- Whether a symbol is a variable, a constant or a parameter. -/
def isVariable (s : Symbol) : Bool :=
  match s.detail with
  | .variable .. => true
  | _ => false

end Symbol

namespace Table

/-- Symbols under their own names, and no variable among them that is taken for a
    parameter or has the name of one. -/
def Plain (params : Set String) (t : Table String Symbol) : Prop :=
  ∀ x sym, t.get? x = some sym →
    sym.name = x ∧ (sym.isVariable = true → sym.place.isParam ≠ some true ∧ x ∉ params)

lemma Named.plain {params : Set String} {t : Table String Symbol} (h : t.Named)
    (hpars : ∀ x ∈ params, ∀ sym, t.get? x = some sym → sym.isVariable = false) :
    t.Plain params := by
  intro x sym hx
  obtain ⟨hnm, hpla⟩ := h x sym hx
  refine ⟨hnm, fun hvar => ⟨hpla, fun hmem => ?_⟩⟩
  rw [hpars x hmem sym hx] at hvar
  cases hvar

/-- Writing back a symbol that was found and changed in a harmless way. -/
lemma Plain.modify {params : Set String} {t : Table String Symbol} (h : t.Plain params)
    {x : String} {sym sym' : Symbol} (hx : t.get? x = some sym) (hnm : sym'.name = sym.name)
    (hvar : sym'.isVariable = true → sym.isVariable = true ∧
      (x ∉ params → sym'.place.isParam = sym.place.isParam)) :
    (t.modify sym'.name fun _ => sym').Plain params := by
  obtain ⟨hsym, hpl⟩ := h x sym hx
  intro y found hy
  rw [hnm, hsym] at hy
  by_cases hxy : x = y
  · subst hxy
    rw [get?_modify_self, hx] at hy
    cases hy
    refine ⟨hnm.trans hsym, fun hv => ?_⟩
    obtain ⟨hsymv, hpar⟩ := hvar hv
    obtain ⟨hne, hnot⟩ := hpl hsymv
    exact ⟨hpar hnot ▸ hne, hnot⟩
  · rw [get?_modify_of_ne t hxy] at hy
    exact h y found hy

end Table

/-- What the code depends on: all but the frames and the symbols. -/
def Generator.visible (g : Generator) : Generator := { g with frames := .empty, symbols := none }

namespace Gen

open Generator (visible)

/-- Nothing among the symbols that are known is a parameter. -/
def Plain (params : Set String) (g : Generator) : Prop := ∀ t, g.symbols = some t → t.Plain params

/-- A step that goes the same way from states that look the same, as long as no
    parameter is found among the symbols. -/
def Agrees (params : Set String) {α : Type} (x : Gen α) : Prop :=
  ∀ g h, visible g = visible h → Plain params g → Plain params h →
    ∃ a g' h', Gives x g a g' ∧ Gives x h a h' ∧ visible g' = visible h' ∧
      Plain params g' ∧ Plain params h'

/-- A step that changes nothing but frames and symbols. -/
def Hidden (params : Set String) {α : Type} (x : Gen α) (a : α) : Prop :=
  ∀ g, Plain params g → ∃ g', Gives x g a g' ∧ visible g' = visible g ∧ Plain params g'

section Agrees

variable {params : Set String} {α β : Type} {x : Gen α} {f : α → Gen β}

namespace Hidden

variable {a : α} {b : β}

lemma pure (a : α) : Hidden params (Pure.pure a) a := fun g hg => ⟨g, .pure a g, rfl, hg⟩

lemma frames (F : Frames → Frames) :
    Hidden params (modify fun s => { s with frames := F s.frames }) () :=
  fun g hg => ⟨{ g with frames := F g.frames }, rfl, rfl, hg⟩

end Hidden

namespace Agrees

lemma of_hidden {a : α} (h : Hidden params x a) : Agrees params x := by
  intro g1 g2 hvb hg1 hg2
  obtain ⟨g₁', hgives1, hvisible1, hplain1⟩ := h g1 hg1
  obtain ⟨g₂', hgives2, hvisible2, hplain2⟩ := h g2 hg2
  exact ⟨a, g₁', g₂', hgives1, hgives2, by rw [hvisible1, hvisible2, hvb], hplain1, hplain2⟩

lemma bind (hx : Agrees params x) (hf : ∀ a, Agrees params (f a)) : Agrees params (x >>= f) := by
  intro g h hvb hg hh
  obtain ⟨a, g', h', hgv, hgv', hvisible', hg', hh'⟩ := hx g h hvb hg hh
  obtain ⟨b, g'', h'', hnx, hnext', hvisible'', hg'', hh''⟩ := hf a g' h' hvisible' hg' hh'
  exact ⟨b, g'', h'', hgv.bind hnx, hgv'.bind hnext', hvisible'', hg'', hh''⟩

lemma of_visible {a : Generator → α} {F : Generator → Generator}
    (hx : ∀ g, Gives x g (a (visible g)) (F g)) (hsyms : ∀ g, (F g).symbols = g.symbols)
    (hvb : ∀ g, visible (F g) = visible (F (visible g))) : Agrees params x := by
  intro g h heq hg hh
  refine ⟨a (visible g), F g, F h, hx g, heq ▸ hx h, ?_, ?_, ?_⟩
  · rw [hvb g, heq, ← hvb h]
  · intro t ht
    rw [hsyms] at ht
    exact hg t ht
  · intro t ht
    rw [hsyms] at ht
    exact hh t ht

lemma get {k : Generator → Gen β} (hk : ∀ g h, Context g h → k g = k h)
    (h : ∀ g, Agrees params (k g)) : Agrees params (MonadState.get >>= k) := by
  intro g1 g2 hvb hg1 hg2
  have hcon : Context g1 g2 := by
    have hfun := congrArg Generator.function hvb
    have hcl := congrArg Generator.inClass hvb
    have hres := congrArg Generator.result hvb
    exact ⟨hfun, hcl, hres⟩
  obtain ⟨a, g₁', g₂', hgives1, hgives2, hr⟩ := h g1 g1 g2 hvb hg1 hg2
  rw [hk g1 g2 hcon] at hgives2
  exact ⟨a, g₁', g₂', hgives1, hgives2, hr⟩

end Agrees

/-! ### Names -/

lemma gives_resolve? {g : Generator} {y : String} {o : Option Symbol}
    (h : g.symbols.bind (·.get? y) = o) : Gives (resolve? y) g o g := by
  subst h
  rfl

namespace Hidden

variable {y : String}

lemma readName (y : String) : Hidden params (Gen.readName y) (.text y) := by
  intro g hg
  refine ⟨g, Gives.bind (a := g) rfl ?_, rfl, hg⟩
  split
  · refine Gives.bind (a := g.symbols.bind (·.get? y)) rfl ?_
    split
    · -- A variable that is taken for a parameter is not there.
      rename_i heq
      obtain ⟨t, ht, hy⟩ := Option.bind_eq_some_iff.1 heq
      exact absurd rfl ((hg t ht y _ hy).2 rfl).1
    · rfl
  · rfl

/-- Write back a symbol that was found under a name. -/
lemma store {g : Generator} (hg : Plain params g) {sym sym' : Symbol}
    (hsym : g.symbols.bind (·.get? y) = some sym) (hnm : sym'.name = sym.name)
    (hvar : sym'.isVariable = true → sym.isVariable = true ∧
      (y ∉ params → sym'.place.isParam = sym.place.isParam)) :
    Plain params { g with symbols := g.symbols.map (·.modify sym'.name fun _ => sym') } := by
  obtain ⟨t, ht, hy⟩ := Option.bind_eq_some_iff.1 hsym
  intro t' ht'
  rw [ht] at ht'
  cases ht'
  exact (hg t ht).modify hy hnm hvar

lemma place {add : Frame → Symbol → Frame × Symbol} {c : Symbol → Symbol}
    (hnm : ∀ frame sym, (add frame (c sym)).2.name = sym.name)
    (hvar : ∀ frame sym, (add frame (c sym)).2.isVariable = true → sym.isVariable = true ∧
      (y ∉ params → (add frame (c sym)).2.place.isParam = sym.place.isParam)) (f : String) :
    Hidden params (Gen.resolve? y >>= fun sym => Gen.place add f y (sym.map c)) () := by
  intro g hg
  cases hsym : g.symbols.bind (·.get? y) with
  | none =>
    refine ⟨_, Gives.bind (a := none) (gives_resolve? hsym) rfl, rfl, hg⟩
  | some sym =>
    refine ⟨_, Gives.bind (a := some sym) (gives_resolve? hsym) rfl, rfl, ?_⟩
    exact store hg hsym (hnm _ _) (hvar _ _)

lemma placeInFunction (y : String) : Hidden params (Gen.placeInFunction y) () := by
  intro g hg
  cases hfun : g.function with
  | none =>
    refine ⟨g, Gives.bind (a := g) rfl ?_, rfl, hg⟩
    rw [hfun]
    rfl
  | some f =>
    have hpla : Hidden params
        (Gen.resolve? y >>= fun sym => Gen.place Frame.addLocal f y (sym.map id)) () :=
      place (fun _ _ => rfl) (fun _ _ h => ⟨h, fun _ => rfl⟩) f
    simp only [Option.map_id_fun, id] at hpla
    obtain ⟨g', hgv, hr⟩ := hpla g hg
    refine ⟨g', Gives.bind (a := g) rfl ?_, hr⟩
    rw [hfun]
    exact hgv

lemma placeParameter (hy : y ∈ params) (f : String) (i : Nat) : Hidden params
    (Gen.resolve? y >>= fun sym => Gen.place Frame.addParam f y (sym.map (numbered i))) () := by
  have hnum : ∀ sym, (numbered i sym).name = sym.name ∧
      (numbered i sym).isVariable = sym.isVariable := by
    intro sym
    unfold numbered Symbol.isVariable
    split <;> simp_all
  refine place (fun _ sym => (hnum sym).1) (fun _ sym h => ?_) f
  exact ⟨(hnum sym).2.symm.trans h, fun hnot => absurd hy hnot⟩

lemma storeLabels (y entry exit : String) : Hidden params (Gen.storeLabels y entry exit) () := by
  intro g hg
  cases hsym : g.symbols.bind (·.get? y) with
  | none => exact ⟨g, (gives_resolve? hsym).bind rfl, rfl, hg⟩
  | some sym =>
    have hlab : (labelled entry exit sym).name = sym.name ∧
        (labelled entry exit sym).isVariable = sym.isVariable ∧
        (labelled entry exit sym).place = sym.place := by
      unfold labelled Symbol.isVariable
      split <;> simp_all
    obtain ⟨hnm, hvar, hpla⟩ := hlab
    refine ⟨_, (gives_resolve? hsym).bind rfl, rfl, store hg hsym hnm fun h => ?_⟩
    exact ⟨hvar ▸ h, fun _ => by rw [hpla]⟩

end Hidden

/-- Every small step goes the same way. -/
lemma Agrees.uniform (params : Set String) :
    Uniform params fun _ {α : Type} (x : Gen α) => Agrees params x where
  pure a := .of_hidden (.pure a)
  seq := .bind
  get := .get
  emit op a1 a2 res := .of_visible (a := fun _ => ())
    (F := fun g => { g with code := g.code ++ [.of op a1 a2 res] }) (fun _ => rfl) (fun _ => rfl)
    fun _ => rfl
  countLabel := .of_visible (a := fun g => g.labels)
    (F := fun g => { g with labels := g.labels + 1 }) (fun _ => rfl) (fun _ => rfl) fun _ => rfl
  freshTemp := .of_visible (a := fun g => g.temps.get.1)
    (F := fun g => { g with temps := g.temps.get.2 }) (fun _ => rfl) (fun _ => rfl) fun _ => rfl
  release v := .of_visible (a := fun _ => ())
    (F := fun g => { g with temps := g.temps.giveBack v }) (fun _ => by cases v <;> rfl)
    (fun _ => rfl) fun _ => rfl
  setFunction f := .of_visible (a := fun _ => ())
    (F := fun g => { g with function := f, result := none }) (fun _ => rfl) (fun _ => rfl)
    fun _ => rfl
  setResult n := .of_visible (a := fun _ => ()) (F := fun g => { g with result := some n })
    (fun _ => rfl) (fun _ => rfl) fun _ => rfl
  setClass c := .of_visible (a := fun _ => ()) (F := fun g => { g with inClass := c })
    (fun _ => rfl) (fun _ => rfl) fun _ => rfl
  ensureFrame f := .of_hidden (.frames (·.ensure f))
  readName x := .of_hidden (.readName x)
  placeInFunction x := .of_hidden (.placeInFunction x)
  placeParameter hx f i := .of_hidden (.placeParameter hx f i)
  storeLabels x entry exit := .of_hidden (.storeLabels x entry exit)

end Agrees

/-! ### Programs -/

/-- No parameter in a tree has the name of a variable or constant of a table. -/
def NoClash (symbols : Table String Symbol) (t : Tree) : Prop :=
  ∀ p : Tree, p.Within t → p.isOf .parameter = true → ∀ x, p.tokenText? .identifier = some x →
    ∀ sym, symbols.get? x = some sym → sym.isVariable = false

/-- Whether no parameter in a tree has the name of a variable, evaluated. -/
def clashFree (symbols : Table String Symbol) (t : Tree) : Bool :=
  t.all fun p => !p.isOf .parameter ||
    (p.tokenText? .identifier).all fun x => (symbols.get? x).all fun sym => !sym.isVariable

variable {symbols : Table String Symbol}

lemma noClash_of_clashFree {t : Tree} (h : clashFree symbols t = true) : NoClash symbols t := by
  intro p hp hpar x hx sym hsym
  have hall := (Tree.all_iff t).1 h p hp
  simpa [hpar, hx, hsym] using hall

/-- The names that no variable of a table has. -/
def unusedIn (symbols : Table String Symbol) : Set String :=
  {x | ∀ sym, symbols.get? x = some sym → sym.isVariable = false}

/-- The code of a text without syntax errors is the same from any two states
    that look the same, if no parameter is found among the symbols. -/
lemma agrees_generate {source : String} (hparse : (parse source).errors = [])
    (hclash : NoClash symbols (parse source).tree) :
    Agrees (unusedIn symbols) (generate (parse source).tree) :=
  (Agrees.uniform _).invariant.generate _ (complete_of_derives (derives_of_parse hparse)) hclash

/-- No parameter is found among the symbols that the checker leaves. -/
lemma plain_globals (t : Tree) :
    Plain (unusedIn (Checker.globals t)) (.start (some (Checker.globals t))) := by
  intro table htab
  cases htab
  exact (Checker.globals_named t).plain fun x hx sym hsym => hx sym hsym

lemma code_eq_of_visible {g h : Generator} (heq : visible g = visible h) : g.code = h.code := by
  have hcode := congrArg Generator.code heq
  exact hcode

/-- A text without syntax errors in which no parameter has the name of a variable or constant of the
    outermost scope has the same code with the symbols of the checker and without any. -/
theorem same_code_with_symbols (source : String) (hparse : (parse source).errors = [])
    (hclash : NoClash (Checker.globals (parse source).tree) (parse source).tree) :
    ∃ v g h, Generator.run (parse source).tree (.start none) = (.ok v, g) ∧
      Generator.run (parse source).tree (.start (some (Checker.globals (parse source).tree))) =
        (.ok v, h) ∧ g.code = h.code := by
  obtain ⟨v, g, h, hg, hh, hvb, -, -⟩ := agrees_generate hparse hclash (.start none)
    (.start (some _)) rfl (fun _ h => nomatch h) (plain_globals _)
  exact ⟨v, g, h, hg, hh, code_eq_of_visible hvb⟩

/-- A parameter, and a variable of the outermost scope that is read beside it. -/
def adding : String :=
  "let total: integer = 1; function add(n: integer): integer { return total + n; } print(add(2));"

/-- A variable and a parameter of one name, and the variable read in another function. -/
def sharing : String :=
  "let x: integer = 1; function f(): integer { return x; } " ++
  "function g(x: integer): integer { return x; }"

/-- A variable that is not declared, and one that is declared twice. -/
def slips : String := "y=1;let x=2;let x=3;"

/-- A jump that is in no loop, and one that is in a loop. -/
def stray : String := "break;while(true){continue;}"

/-- Values for a field and in an expression; and calls of a function, of a method of an element and
    of a constructor, one within the other. -/
def nested : String := "o.f=g(x=1,a[0].m(new C()).b);"

/-- A variable that is declared, and then gets its own value. -/
def settled : String := "let x=1;x=x;"

/-- In a loop in a function, a number that is negated, and an expression that assigns. -/
def twisted : String := "let x=1;function f(){while(true){x=x=!x;}}"

/-- A bound for the size of the trees of these texts. -/
def enough : Nat := 1000000

/-- What the checker comes to, evaluated. -/
def checkedUpTo (t : Tree) : Except Absent Ty × Checker := (checkUpTo enough t).run .start

section Enough

variable {t : Tree} (h : sizeOf t ≤ enough)

include h

lemma run_eq_checkedUpTo : Checker.run t .start = checkedUpTo t := Checker.run_eq h .start

lemma globals_eq_checkedUpTo : Checker.globals t = (checkedUpTo t).2.scopes.global := by
  rw [Checker.globals, run_eq_checkedUpTo h]

end Enough

/-- Whether a text has neither a `switch` nor a class. -/
def hasNoSwitchOrClass (t : Tree) : Bool :=
  t.all fun c => !c.isOf .switchStatement && !c.isOf .classDeclaration

/-- Whether some tree that occurs in a tree has a property. -/
def has (t : Tree) (p : Tree → Bool) : Bool := !t.all fun c => !p c

variable {t : Tree} {p : Tree → Bool}

lemma has_eq_false : has t p = false ↔ ∀ c, c.Within t → p c = false := by
  rw [has, Bool.not_eq_false', Tree.all_iff]
  simp only [Tree.Everywhere, Bool.not_eq_true']

lemma exists_of_has (h : has t p = true) : ∃ c, c.Within t ∧ p c = true := by
  by_contra hno
  have hfalse : has t p = false :=
    has_eq_false.2 fun c hc => Bool.eq_false_iff.2 fun hp => hno ⟨c, hc, hp⟩
  exact Bool.false_ne_true (hfalse.symm.trans h)

/-- Whether a text has no cases and no members of classes, and no signs within names and calls. -/
def isPlain (t : Tree) : Bool :=
  t.all fun c => !c.isOf .switchCase && !c.isOf .defaultCase && !c.isOf .classMember &&
    !(c.isOf .leftHandSide && has c (·.isOf .unaryExpr))

-- The tables of the parser take most of the time here, so all that is needed of several
-- texts is evaluated at once.
set_option maxRecDepth 100000 in
lemma texts_evaluated : ((parse adding).errors = [] ∧ sizeOf (parse adding).tree ≤ enough ∧
      clashFree (checkedUpTo (parse adding).tree).2.scopes.global (parse adding).tree = true ∧
      WellPlaced (parse adding).tree) ∧
    ((parse sharing).errors = [] ∧ sizeOf (parse sharing).tree ≤ enough ∧
      (checkedUpTo (parse sharing).tree).1.toBool = true ∧
      (checkedUpTo (parse sharing).tree).2.errors = [] ∧
      hasNoSwitchOrClass (parse sharing).tree = true) ∧
    ((parse slips).errors = [] ∧ sizeOf (parse slips).tree ≤ enough ∧
      hasNoSwitchOrClass (parse slips).tree = true ∧
      (checkedUpTo (parse slips).tree).1.toBool = true ∧ (checkedUpTo (parse slips).tree).2.errors =
        [⟨⟨1, 0⟩, .undeclared "y"⟩, ⟨⟨1, 12⟩, .redeclared "x"⟩]) ∧
    ((parse stray).errors = [] ∧ sizeOf (parse stray).tree ≤ enough ∧
      hasNoSwitchOrClass (parse stray).tree = true ∧
      has (parse stray).tree (·.isOf .functionDeclaration) = false ∧
      (checkedUpTo (parse stray).tree).1.toBool = true ∧
      (checkedUpTo (parse stray).tree).2.errors = [⟨⟨1, 0⟩, .jumpOutsideLoop .break⟩]) ∧
    ((parse settled).errors = [] ∧ sizeOf (parse settled).tree ≤ enough ∧
      hasNoSwitchOrClass (parse settled).tree = true ∧
      (checkedUpTo (parse settled).tree).1.toBool = true ∧
      (checkedUpTo (parse settled).tree).2.errors = []) := by
  decide +kernel

lemma adding_evaluated : (parse adding).errors = [] ∧ sizeOf (parse adding).tree ≤ enough ∧
      clashFree (checkedUpTo (parse adding).tree).2.scopes.global (parse adding).tree = true ∧
      WellPlaced (parse adding).tree :=
  texts_evaluated.1

lemma sharing_evaluated : (parse sharing).errors = [] ∧ sizeOf (parse sharing).tree ≤ enough ∧
      (checkedUpTo (parse sharing).tree).1.toBool = true ∧
      (checkedUpTo (parse sharing).tree).2.errors = [] ∧
      hasNoSwitchOrClass (parse sharing).tree = true :=
  texts_evaluated.2.1

set_option maxRecDepth 100000 in
lemma nested_evaluated : (parse nested).errors = [] := by decide +kernel

lemma noClash_adding : NoClash (Checker.globals (parse adding).tree) (parse adding).tree := by
  obtain ⟨-, hsz, hclash, -⟩ := adding_evaluated
  rw [globals_eq_checkedUpTo hsz]
  exact noClash_of_clashFree hclash

theorem same_code_with_symbols_adding :
    (parse adding).errors = [] ∧ NoClash (Checker.globals (parse adding).tree) (parse adding).tree ∧
      ∃ v g h, Generator.run (parse adding).tree (.start none) = (.ok v, g) ∧
        Generator.run (parse adding).tree (.start (some (Checker.globals (parse adding).tree))) =
          (.ok v, h) ∧ g.code = h.code :=
  ⟨adding_evaluated.1, noClash_adding,
    same_code_with_symbols adding adding_evaluated.1 noClash_adding⟩

/-! ### Generating again -/

/-- The symbols after code has been generated some number of times. -/
def symbolsAfter (t : Tree) (symbols : Option (Table String Symbol)) :
    Nat → Option (Table String Symbol)
  | 0 => symbols
  | n + 1 => (Generator.run t (.start (symbolsAfter t symbols n))).2.symbols

section Again

variable {params : Set String} {t : Tree} (h : Agrees params (generate t))
  {symbols : Option (Table String Symbol)} (hpl : Plain params (.start symbols))

include h hpl

lemma plain_symbolsAfter (n : Nat) : Plain params (.start (symbolsAfter t symbols n)) := by
  induction n with
  | zero => exact hpl
  | succ n ih =>
    obtain ⟨v, g, -, hrun, -, -, hg, -⟩ := h _ _ rfl ih ih
    have hsyms : symbolsAfter t symbols (n + 1) = g.symbols :=
      congrArg (·.2.symbols) hrun
    rw [hsyms]
    exact hg

lemma same_code_again : ∃ v g, Generator.run t (.start symbols) = (.ok v, g) ∧
    ∀ n, ∃ g', Generator.run t (.start (symbolsAfter t symbols n)) = (.ok v, g') ∧
      g'.code = g.code := by
  obtain ⟨v, g, -, hrun, -, -, -, -⟩ := h _ _ rfl hpl hpl
  refine ⟨v, g, hrun, fun n => ?_⟩
  obtain ⟨w, g1, g', hfst, hag, hvb, -, -⟩ :=
    h (.start symbols) (.start (symbolsAfter t symbols n)) rfl hpl (plain_symbolsAfter h hpl n)
  -- Both runs begin with the one from the symbols at the start.
  obtain ⟨hv, rfl⟩ := Prod.mk.inj (hrun.symm.trans hfst)
  cases Except.ok.inj hv
  exact ⟨g', hag, (code_eq_of_visible hvb).symm⟩

end Again

/-- Under the same condition code can be generated any number of times, each time
    with the symbols as the last time left them, and it is the same every time. -/
theorem same_code_every_time (source : String) (hparse : (parse source).errors = [])
    (hclash : NoClash (Checker.globals (parse source).tree) (parse source).tree) :
    ∃ v g, Generator.run (parse source).tree (.start (some (Checker.globals (parse source).tree))) =
        (.ok v, g) ∧
      ∀ n, ∃ g', Generator.run (parse source).tree (.start (symbolsAfter (parse source).tree
          (some (Checker.globals (parse source).tree)) n)) = (.ok v, g') ∧ g'.code = g.code :=
  same_code_again (agrees_generate hparse hclash) (plain_globals _)

theorem same_code_every_time_adding :
    (parse adding).errors = [] ∧ NoClash (Checker.globals (parse adding).tree) (parse adding).tree ∧
      ∃ v g, Generator.run (parse adding).tree
          (.start (some (Checker.globals (parse adding).tree))) = (.ok v, g) ∧
        ∀ n, ∃ g', Generator.run (parse adding).tree (.start (symbolsAfter (parse adding).tree
            (some (Checker.globals (parse adding).tree)) n)) = (.ok v, g') ∧ g'.code = g.code :=
  ⟨adding_evaluated.1, noClash_adding,
    same_code_every_time adding adding_evaluated.1 noClash_adding⟩

end Gen

end Compiscript
