import Compiscript.Proofs.Codegen.Writes

/-!
# Names in the Code

A name occurs where it is read, where it is declared with a value and where it is
assigned to. In the code there is an operand for it in each of these places: the
value that was read, or what the last instruction writes to. As long as no parameter
has the name of a variable in the outermost scope, this operand is the name itself.

## Theorems

* `Gen.names_keep_operands`: Variables and parameters keep their names in the code.
-/

namespace Compiscript.Gen

open Tac

/-- A node reads a name. -/
def Reads (d : Tree) (x : String) : Prop := d.isOf .primaryAtom = true ∧ startName? d = some x

/-- A node writes to a name. -/
def WritesTo (d : Tree) (x : String) : Prop :=
  ∃ e, writeOf? d = some (.name x e) ∨ writeOf? d = some (.target x e)

/-- A node is an occurrence of a name. -/
def Names (d : Tree) (x : String) : Prop := Reads d x ∨ WritesTo d x

/-- The operand for an occurrence in the code between two states: the value that is
    read, or what the last instruction writes to. -/
def TranslatedTo (params : Set String) (g g' : Generator) (d : Tree) (o : Operand) : Prop :=
  ∃ v k k', Later params g k ∧ Gives (generate d) k v k' ∧ Later params k' g' ∧
    if d.isOf .primaryAtom = true then o = v.operand
    else ∃ a, k'.code.getLast? = some (.of .mov a .none o)

/-! ### Operands -/

section Operand

variable {params : Set String} {d : Tree} {x : String} {g g' : Generator} {v : Value}

lemma WritesTo.isOf_eq_false (h : WritesTo d x) : d.isOf .primaryAtom = false := by
  obtain ⟨e, hw⟩ := h
  cases d with
  | node tag start cs =>
    obtain ⟨r, label⟩ := tag
    refine beq_eq_false_iff_ne.2 ?_
    rintro rfl
    rcases hw with hw | hw <;> cases hw
  | leaf tok => rfl
  | bad tok => rfl

lemma Reads.gives (h : Reads d x) (hg : Plain params g) (hgv : Gives (generate d) g v g') :
    v = .text x := by
  rw [generate_startName h.1 h.2] at hgv
  obtain ⟨_, hsf, -⟩ := Hidden.readName x g hg
  exact (hgv.unique hsf).1

lemma WritesTo.gives (h : WritesTo d x) (hg : Plain params g) (hgv : Gives (generate d) g v g') :
    ∃ a, g'.code.getLast? = some (.of .mov a .none (.text x)) := by
  obtain ⟨e, hw | hw⟩ := h
  · have hsto : (Write.name x e).Stored params g g' := stored_of_gives hw hgv
    obtain ⟨w, k, k', -, -, hcode⟩ := hsto
    exact ⟨w.operand, by rw [hcode, List.getLast?_concat]⟩
  · have hsto : (Write.target x e).Stored params g g' := stored_of_gives hw hgv
    obtain ⟨y, w, k, -, -, hcode, hnm⟩ := hsto
    exact ⟨w.operand, by rw [hcode, List.getLast?_concat, hnm hg]⟩

lemma Names.exists_operand (h : Names d x) (hg : Plain params g)
    (hbet : Between params g d g') : ∃ o, TranslatedTo params g g' d o := by
  obtain ⟨v, k, k', hbef, hgv, hafter⟩ := hbet
  rcases h with h | h
  · refine ⟨v.operand, v, k, k', hbef, hgv, hafter, ?_⟩
    rw [if_pos h.1]
  · refine ⟨.text x, v, k, k', hbef, hgv, hafter, ?_⟩
    rw [if_neg (by rw [h.isOf_eq_false]; decide)]
    exact h.gives (hbef.plain hg) hgv

lemma Names.operand_eq (h : Names d x) (hg : Plain params g) {o : Operand}
    (ho : TranslatedTo params g g' d o) : o = .text x := by
  obtain ⟨v, k, k', hbef, hgv, -, ho⟩ := ho
  rcases h with h | h
  · rw [if_pos h.1, h.gives (hbef.plain hg) hgv] at ho
    exact ho
  · rw [if_neg (by rw [h.isOf_eq_false]; decide)] at ho
    obtain ⟨a, ha⟩ := ho
    obtain ⟨b, hb⟩ := h.gives (hbef.plain hg) hgv
    exact congrArg Instr.res (Option.some.inj (ha.symm.trans hb))

end Operand

/-! ### Declarations -/

/-- The rules that declare a variable, a constant or a parameter. -/
def declaring : List Rule :=
  [.variableDeclaration, .constantDeclaration, .parameter, .foreachStatement, .tryCatchStatement]

/-- A node declares a name. -/
def Declares (p : Tree) (x : String) : Prop :=
  (∃ r ∈ declaring, p.isOf r = true) ∧ p.tokenText? .identifier = some x

/-- No name is declared twice. -/
def Unambiguous (t : Tree) : Prop :=
  ∀ p p' x, p.Within t → p'.Within t → Declares p x → Declares p' x → p = p'

variable {t : Tree} {params : Set String} {g : Generator}

lemma Unambiguous.eq_iff {p p' : Tree} {x x' : String} (h : Unambiguous t) (hp : p.Within t)
    (hp' : p'.Within t) (hx : Declares p x) (hx' : Declares p' x') : p = p' ↔ x = x' := by
  constructor
  · rintro rfl
    exact Option.some.inj (hx.2.symm.trans hx'.2)
  · rintro rfl
    exact h p p' x hp hp' hx hx'

/-! ### Programs -/

/-- The occurrences of names in a tree have operands in the code between two states. -/
structure KeepsNames (params : Set String) (t : Tree) (g g' : Generator) : Prop where
  translated {d : Tree} {x : String} (hd : Met d t) (hx : Names d x) :
    ∃ o, TranslatedTo params g g' d o
  same {d d' : Tree} {x x' : String} {o o' : Operand} (hx : Names d x) (hx' : Names d' x')
    (ho : TranslatedTo params g g' d o) (ho' : TranslatedTo params g g' d' o') : o = o' ↔ x = x'
  declared (h : Unambiguous t) {d d' p p' : Tree} {x x' : String} {o o' : Operand}
    (hx : Names d x) (hx' : Names d' x') (hp : p.Within t) (hp' : p'.Within t)
    (hdec : Declares p x) (hdeclares' : Declares p' x')
    (ho : TranslatedTo params g g' d o) (ho' : TranslatedTo params g g' d' o') : o = o' ↔ p = p'

lemma keepsNames_of_between {g' : Generator}
    (hg : Plain params g) (hbet : ∀ d, Met d t → Between params g d g') :
    KeepsNames params t g g' where
  translated hd hx := hx.exists_operand hg (hbet _ hd)
  same hx hx' ho ho' := by
    rw [hx.operand_eq hg ho, hx'.operand_eq hg ho', Operand.text.injEq]
  declared h _ _ _ _ _ _ _ _ hx hx' hp hp' hdec hdeclares' ho ho' := by
    rw [hx.operand_eq hg ho, hx'.operand_eq hg ho', Operand.text.injEq,
      h.eq_iff hp hp' hdec hdeclares']

lemma Plain.mono {params' : Set String} (h : Plain params g)
    (hsub : params' ⊆ params) : Plain params' g := by
  intro t ht x sym hx
  obtain ⟨hnm, hpl⟩ := h t ht x sym hx
  exact ⟨hnm, fun hvar => ⟨(hpl hvar).1, fun hmem => (hpl hvar).2 (hsub hmem)⟩⟩

/-- A text without syntax errors has code, and names keep their operands in it: without symbols, and
    with those of the checker if no parameter has the name of a variable among them. -/
theorem names_keep_operands (source : String) (symbols : Option (Table String Symbol))
    (hparse : (parse source).errors = [])
    (hsymbols : symbols = none ∨ symbols = some (Checker.globals (parse source).tree) ∧
      NoClash (Checker.globals (parse source).tree) (parse source).tree) :
    ∃ v g, Generator.run (parse source).tree (.start symbols) = (.ok v, g) ∧
      KeepsNames (parameterNames (parse source).tree) (parse source).tree (.start symbols) g := by
  have hpl : Plain (parameterNames (parse source).tree) (.start symbols) := by
    rcases hsymbols with rfl | ⟨rfl, hclash⟩
    · exact fun t ht => nomatch ht
    · refine (plain_globals _).mono ?_
      rintro x ⟨p, hp, hof, hx⟩ sym hsym
      exact hclash p hp hof x hx sym hsym
  obtain ⟨v, g, hrun, hbet⟩ := exists_run_between symbols hparse
  exact ⟨v, g, hrun, keepsNames_of_between hpl hbet⟩

/-- A program with a variable and a parameter, and the symbols of the checker. -/
theorem names_keep_operands_adding : (parse adding).errors = [] ∧
      NoClash (Checker.globals (parse adding).tree) (parse adding).tree ∧
      ∃ v g, Generator.run (parse adding).tree
          (.start (some (Checker.globals (parse adding).tree))) = (.ok v, g) ∧
        KeepsNames (parameterNames (parse adding).tree) (parse adding).tree
          (.start (some (Checker.globals (parse adding).tree))) g :=
  ⟨adding_evaluated.1, noClash_adding,
    names_keep_operands adding _ adding_evaluated.1 (.inr ⟨rfl, noClash_adding⟩)⟩

end Compiscript.Gen
