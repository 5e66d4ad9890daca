import Compiscript.Proofs.Check.Silent
import Compiscript.Proofs.Codegen.Ownership

/-!
# Names that are Asked for

An expression that is checked without a complaint may still use a name that is not
declared. Such a name has no type, and whether that is noticed depends on what
stands around it: `print(x)` does not ask for a type, `x < 1` does.

`Tree.uses` lists the names in an expression whose type is asked for: names with a
suffix behind them, and names that are by themselves an operand of a comparison or
of a logical operator, a part of a conditional or an index.
-/

namespace Compiscript

open List Compiscript.Tree

namespace Tree

/-- Nodes with a single child that have the type of that child. -/
def passing : List Tag :=
  [⟨.expression, none⟩, ⟨.assignmentExpr, some .exprNoAssign⟩,
   ⟨.conditionalExpr, some .ternaryExpr⟩,
    ⟨.logicalOrExpr, none⟩, ⟨.logicalAndExpr, none⟩, ⟨.equalityExpr, none⟩, ⟨.relationalExpr, none⟩,
    ⟨.additiveExpr, none⟩, ⟨.multiplicativeExpr, none⟩, ⟨.unaryExpr, none⟩, ⟨.primaryExpr, none⟩,
    ⟨.leftHandSide, none⟩]

/-- The name, or `this`, that is all of an expression. -/
def bare? : Tree → Option String
  | .node ⟨.primaryAtom, some .identifierExpr⟩ _ [.leaf tok] => some tok.text
  | .node ⟨.primaryAtom, some .thisExpr⟩ _ [.leaf tok] => some tok.text
  | .node tag _ [c] => if tag ∈ passing then c.bare? else none
  | _ => none

/-- Whether an expression asks for the types of its parts. -/
def asksParts (tag : Tag) (parts : List Tree) : Bool :=
  match tag with
  | ⟨.conditionalExpr, _⟩ | ⟨.logicalOrExpr, _⟩ | ⟨.logicalAndExpr, _⟩ | ⟨.equalityExpr, _⟩
  | ⟨.relationalExpr, _⟩ => 1 < parts.length
  | ⟨_, some .indexExpr⟩ => true
  | _ => false

/-- The name at the start of a chain with suffixes. -/
def startName : List Tree → List String
  | atom :: _ :: _ => atom.bare?.toList
  | _ => []

mutual

/-- The names in an expression whose types are asked for. -/
def uses : Tree → List String
  | .node ⟨.initializer, _⟩ _ cs => usesOf false cs
  | .node ⟨.leftHandSide, _⟩ _ cs => startName cs ++ usesOf false cs
  | .node ⟨_, some .assignExpr⟩ _ cs => usesOfLast cs
  | .node ⟨_, some .propertyAssignExpr⟩ _ cs => usesOfLast cs
  | .node tag _ cs => if tag.rule.isInExpression then usesOf (asksParts tag cs) cs else []
  | _ => []

/-- The names in several expressions; with `asked`, also those that are all of one. -/
def usesOf (asked : Bool) : List Tree → List String
  | [] => []
  | c :: cs => uses c ++ (if asked then c.bare?.toList else []) ++ usesOf asked cs

/-- The names in the last of several expressions. -/
def usesOfLast : List Tree → List String
  | [] => []
  | c :: cs => if cs.isEmpty then uses c else usesOfLast cs

end

lemma mem_usesOf {asked : Bool} {cs : List Tree} {u : String} :
    u ∈ usesOf asked cs ↔ ∃ c ∈ cs, u ∈ c.uses ∨ (asked = true ∧ c.bare? = some u) := by
  induction cs with
  | nil => simp [usesOf]
  | cons c cs ih => cases asked <;> simp [usesOf, ih, or_assoc]

end Tree

namespace Check

variable {s : Checker}

section Only

variable {tag : Tag} {p : Pos} {c : Tree} {type : Ty}

lemma silent_of_visitAll (hq : OnlyComplains (check c))
    (h : Silent (visitAll fun k : (Tree.node tag p [c]).Sub => check k.tree) s type) :
    Silent (check c) s type := by
  rw [visitAll_check, children_node] at h
  simp only [foldlM_cons, foldlM_nil, bind_pure] at h
  obtain ⟨found, hfd, h⟩ := h.of_bind hq fun _ => .pure _
  have hty : (if found = .unknown then .unknown else found) = type :=
    Except.ok.inj (congrArg Prod.fst h)
  by_cases hunk : found = .unknown
  · rw [if_pos hunk] at hty
    rwa [← hty, ← hunk]
  · rw [if_neg hunk] at hty
    rwa [← hty]

/-- A node with a single child that is passed through. -/
lemma silent_of_only (hq : OnlyComplains (check c)) (htag : tag ∈ Tree.passing)
    (hne : tag.rule ≠ .leftHandSide) (h : Silent (check (.node tag p [c])) s type) :
    Silent (check c) s type := by
  have hkid : ∀ r, ∀ k ∈ (Tree.node tag p [c]).kids r, k.tree = c := fun r k hk =>
    mem_singleton.1 (of_mem_kids hk).1
  have hp : ∀ r (part : Option (Tree.node tag p [c]).Sub),
      (∀ k, part = some k → k ∈ (Tree.node tag p [c]).kids r) →
      Silent (visitPart (fun k : (Tree.node tag p [c]).Sub => check k.tree) part) s type →
      Silent (check c) s type := by
    intro r part hp h
    obtain ⟨k, hk, h⟩ := h.of_visitPart
    rwa [hkid r k (hp k hk)] at h
  have hall : Silent (visitAll fun k : (Tree.node tag p [c]).Sub => check k.tree) s type →
      Silent (check c) s type := silent_of_visitAll hq
  have hopd : ∀ r several, Silent (operands (.node tag p [c]) (check ·.tree) r several) s type →
      Silent (check c) s type := fun r several h =>
    hp r _ (fun k hk => mem_of_getElem? hk) h
  rw [check_node] at h
  simp only [Tree.passing, mem_cons, not_mem_nil, or_false] at htag
  rcases htag with rfl | rfl | rfl | rfl | rfl | rfl | rfl | rfl | rfl | rfl | rfl | rfl
  · exact hall h
  · exact hp _ _ (fun k hk => mem_kids_of_kid? hk) h
  · -- A single child is the condition and not a branch.
    obtain ⟨condition, s', hcond, hrs⟩ := Gives.of_bind h
    obtain ⟨k, hk, -⟩ := Gives.of_need hcond
    have hc : c.isOf .logicalOrExpr = true := by
      rw [← hkid _ k (mem_kids_of_kid? hk)]
      exact isOf_of_kid? hk
    split at hrs
    · obtain ⟨_, _, hfst, -⟩ := Gives.of_bind hrs
      obtain ⟨k', hk', -⟩ := Gives.of_need hfst
      have hmem := mem_of_getElem? hk'
      have hc' : c.isOf .expression = true := by
        rw [← hkid _ k' hmem]
        exact (of_mem_kids hmem).2
      cases hc'.symm.trans (isOf_eq_false hc (by decide))
    · obtain ⟨hty, rfl⟩ := Prod.mk.inj hrs
      cases Except.ok.inj hty
      exact hp _ _ (fun k hk => mem_kids_of_kid? hk) hcond
  iterate 5
    · dsimp only [tagged] at h
      first
      | unfold logical at h
      | unfold equality at h
      | unfold relational at h
      | unfold additive at h
      exact hopd _ _ h
  iterate 3 exact hall h
  · exact absurd rfl hne

end Only

section Bare

variable {P : Token → Prop} {r : Rule} {t : Tree} {u : String} {type : Ty}

variable {p : Pos} {l : Label} {o : Token}

lemma callee?_eq_none {f : Option Symbol}
    (hl : l = .identifierExpr ∨ l = .thisExpr) (hnn : s.scopes.resolve? o.text = none)
    (h : Silent (callee? (.node ⟨.primaryAtom, some l⟩ p [.leaf o])) s f) : f = none := by
  rcases hl with rfl | rfl
  · have hnm : ∀ name, (Tree.node ⟨.primaryAtom, some .identifierExpr⟩ p [.leaf o]).tokenText?
        .identifier = some name → name = o.text := by
      intro name hnm
      obtain ⟨c, hc, rfl⟩ := mem_map.1 (mem_of_head? hnm)
      rw [mem_singleton.1 (mem_of_mem_filter hc)]
      rfl
    rw [callee?] at h
    simp only [tag?, Option.bind_some] at h
    split at h
    · exact (Except.ok.inj (congrArg Prod.fst h)).symm
    · rename_i name hname'
      have hf : (s.scopes.resolve? name).filter _ = f := Except.ok.inj (congrArg Prod.fst h)
      rw [hnm name hname', hnn] at hf
      exact hf.symm
  · exact (Except.ok.inj (congrArg Prod.fst h)).symm

lemma ofText_of_name (ho : o.Is .identifier ∨ o.Is .kwThis) :
    ofText o.text = do
      match ← resolve? o.text with
      | some sym => return sym.type
      | none => return .unknown := by
  rcases ho with ho | ho
  · exact ofText_of_identifier ho
  · rw [ho.lexed.text_eq (s := "this") (by rw [ho.kind]; rfl)]
    exact ofText_of_first (c := 't') (u := ['h', 'i', 's']) rfl (by decide) (by decide) (by decide)

lemma unknown_of_ofText (ho : o.Is .identifier ∨ o.Is .kwThis)
    (hnn : s.scopes.resolve? o.text = none) (h : Silent (ofText o.text) s type) :
    type = .unknown := by
  rw [ofText_of_name ho] at h
  obtain ⟨found, s', hgv, h⟩ := Gives.of_bind h
  obtain ⟨hfd, hs⟩ := Prod.mk.inj hgv
  obtain rfl : s.scopes.resolve? o.text = found := Except.ok.inj hfd
  rw [hnn] at h
  exact (Except.ok.inj (congrArg Prod.fst h)).symm

lemma is_of_atom (hl : l = .identifierExpr ∨ l = .thisExpr)
    (h : Derived r (.node ⟨.primaryAtom, some l⟩ p [.leaf o])) :
    o.Is .identifier ∨ o.Is .kwThis := by
  obtain ⟨e, _, cs, he, hcs, heq⟩ := h
  obtain ⟨htag, -, rfl⟩ := node.inj heq
  injection htag with hr hlab
  subst hr
  rcases mem_three.1 he with rfl | rfl | rfl
  · cases hcs with
    | token ht hk _ => exact .inl ⟨ht, hk⟩
  · rcases hl with rfl | rfl <;> cases hlab
  · cases hcs with
    | token ht hk _ => exact .inr ⟨ht, hk⟩

lemma eq_of_bare {c : Tree} (hc : c.isOf .primaryAtom = true) (hu : c.bare? = some u) :
    ∃ l p o, (l = .identifierExpr ∨ l = .thisExpr) ∧
      c = .node ⟨.primaryAtom, some l⟩ p [.leaf o] ∧ u = o.text := by
  unfold bare? at hu
  split at hu
  · exact ⟨_, _, _, .inl rfl, rfl, (Option.some.inj hu).symm⟩
  · exact ⟨_, _, _, .inr rfl, rfl, (Option.some.inj hu).symm⟩
  · rename_i tag _ _ _ _
    obtain ⟨r, l⟩ := tag
    obtain rfl : r = .primaryAtom := eq_of_beq hc
    rw [if_neg (by simp [passing])] at hu
    cases hu
  · cases hu

/-- A name that is not declared has no type. -/
lemma unknown_of_bare (h : Derived r t) (hr : r.isInExpression = true)
    (hu : t.bare? = some u) (hnn : s.scopes.resolve? u = none)
    (hs : Silent (check t) s type) : type = .unknown := by
  have hat : ∀ {l : Label} {p : Pos} {o : Token} {r : Rule} {type : Ty},
      (l = .identifierExpr ∨ l = .thisExpr) → s.scopes.resolve? o.text = none →
      Derived r (.node ⟨.primaryAtom, some l⟩ p [.leaf o]) →
      Silent (check (.node ⟨.primaryAtom, some l⟩ p [.leaf o])) s type → type = .unknown := by
    intro l p o r type hl hnn h hs
    rw [check_node] at hs
    have hall : Silent (visitAll fun k : (Tree.node ⟨.primaryAtom, some l⟩ p [.leaf o]).Sub =>
        check k.tree) s type := by
      rcases hl with rfl | rfl <;> exact hs
    have hleaf : check (.leaf o) = ofText o.text := check_eq _
    have hsil := silent_of_visitAll (hleaf ▸ onlyComplains.ofText _) hall
    rw [hleaf] at hsil
    exact unknown_of_ofText (is_of_atom hl h) hnn hsil
  fun_induction Tree.bare? t generalizing r type with
  | case1 p o =>
    cases hu
    exact hat (.inl rfl) hnn h hs
  | case2 p o =>
    cases hu
    exact hat (.inr rfl) hnn h hs
  | case3 tag p c hno hno' hpass ih =>
    have hin : c.Within (.node tag p [c]) := .of_mem (.head _)
    obtain ⟨tag', htag'⟩ : ∃ tag', c.tag? = some tag' := by
      cases c with
      | node tag' _ _ => exact ⟨tag', rfl⟩
      | leaf _ => simp [Tree.bare?] at hu
      | bad _ => simp [Tree.bare?] at hu
    have hr' : tag'.rule.isInExpression = true :=
      h.everywhere_rule Rule.closed_isInExpression hr c hin tag' htag'
    have hc := h.of_within hin htag'
    have hq := onlyComplains_of_derives h hin htag' hr'
    by_cases hlhs : tag.rule = .leftHandSide
    · obtain ⟨r', l⟩ := tag
      obtain rfl : r' = .leftHandSide := hlhs
      obtain rfl : l = none := by simpa [Tree.passing] using hpass
      rw [check_node] at hs
      obtain ⟨atom, found, f, result, hatomKid, hfd, hf, hfo, rfl⟩ :=
        silent_of_leftHandSide (fun k hk => onlyComplains.check h hr hk) hs
      have hmem := Tree.of_kid? hatomKid
      have hatomc : atom.tree = c := mem_singleton.1 hmem.1
      rw [hatomc] at hfd hf hmem
      obtain ⟨l', p', o, hl', heq, rfl⟩ := eq_of_bare hmem.2 hu
      -- The atom is the only child, so there are no suffixes.
      have hkd : (Tree.node ⟨.leftHandSide, none⟩ p [c]).kids .suffixOp = [] :=
        kids_eq_nil (by rw [heq]; rfl)
      rw [hkd] at hfo
      cases Except.ok.inj (congrArg Prod.fst hfo)
      rw [heq] at hf
      rw [callee?_eq_none hl' hnn hf]
      exact ih hc hr' hu hfd
    · exact ih hc hr' hu (silent_of_only hq hpass hlhs hs)
  | case4 => cases hu
  | case5 => cases hu

end Bare

section Seen

/-- A tree was checked, and if its type was asked for, it has one. -/
def Seen (s : Checker) (asked : Bool) (c : Tree) : Prop :=
  ∃ type, Silent (check c) s type ∧ (asked = true → type ≠ .unknown)

/-- The names in an expression that was checked are declared, if those in its parts are. -/
structure Sees (s : Checker) (t : Tree) : Prop where
  quiet : ∀ k : t.Sub, k.tree.Within t → OnlyComplains (check k.tree)
  declared : ∀ {asked c u}, c.Within t → sizeOf c < sizeOf t → Seen s asked c →
    c.isOf .suffixOp = false → c.isOf .arguments = false →
    u ∈ c.uses ∨ (asked = true ∧ c.bare? = some u) → s.scopes.resolve? u ≠ none

variable {t : Tree} {type : Ty}

variable {r : Rule} {c : Tree} {a : Bool} {operand : Rule} {asked : Bool} {cs : List Tree}
  {P : Token → Prop} {k : t.Sub}

lemma exists_kid (hc : c ∈ t.children) (hr : c.isOf r = true) : ∃ k ∈ t.kids r, k.tree = c := by
  have hmem : c ∈ (t.kids r).map Sub.tree := by
    rw [kids_map_tree]
    exact mem_filter.2 ⟨hc, hr⟩
  exact mem_map.1 hmem

lemma Sees.of_parts (hse : Sees s t) (h : ∀ c ∈ t.children, (∃ tok, c = .leaf tok) ∨
        (Seen s a c ∧ c.isOf .suffixOp = false ∧ c.isOf .arguments = false)) :
    ∀ u ∈ usesOf a t.children, s.scopes.resolve? u ≠ none := by
  intro u hu
  obtain ⟨c, hc, hu⟩ := mem_usesOf.1 hu
  rcases h c hc with ⟨tok, rfl⟩ | ⟨hseen, hsuf, hargs⟩
  · simp [uses, bare?] at hu
  · exact hse.declared (.of_mem hc) (sizeOf_child_lt hc) hseen hsuf hargs hu

lemma Sees.of_visitAll (hse : Sees s t)
    (hnot : ∀ c ∈ t.children, c.isOf .suffixOp = false ∧ c.isOf .arguments = false)
    (h : Silent (visitAll fun k : t.Sub => check k.tree) s type) :
    ∀ u ∈ usesOf false t.children, s.scopes.resolve? u ≠ none := by
  refine hse.of_parts fun c hc => .inr ⟨?_, hnot c hc⟩
  rw [← subs_map_tree] at hc
  obtain ⟨k, hk, rfl⟩ := mem_map.1 hc
  exact visited_of_visitAll hse.quiet h k hk

lemma Sees.of_kids (hse : Sees s t)
    (hol : ∀ c ∈ t.children, (∃ tok, c = .leaf tok) ∨ c.isOf operand = true)
    (hopd : operand ≠ .suffixOp ∧ operand ≠ .arguments)
    (h : ∀ k ∈ t.kids operand, Seen s asked k.tree) :
    ∀ u ∈ usesOf asked t.children, s.scopes.resolve? u ≠ none := by
  refine hse.of_parts fun c hc => (hol c hc).imp_right fun hof => ?_
  obtain ⟨k, hk, rfl⟩ := exists_kid hc hof
  exact ⟨h k hk, isOf_eq_false hof hopd.1, isOf_eq_false hof hopd.2⟩

lemma Sees.of_chain {p : Pos} (hse : Sees s (.node ⟨r, none⟩ p cs)) (hpass : ⟨r, none⟩ ∈ passing)
    (hne : r ≠ .leftHandSide) (hol : ∀ c ∈ cs, (∃ tok, c = .leaf tok) ∨ c.isOf operand = true)
    (hopd : operand ≠ .suffixOp ∧ operand ≠ .arguments)
    (hs : Silent (check (.node ⟨r, none⟩ p cs)) s type) (hasked : cs.length ≤ 1 → a = false)
    (h : cs.length ≠ 1 → ∀ k ∈ (Tree.node ⟨r, none⟩ p cs).kids operand, Seen s a k.tree) :
    ∀ u ∈ usesOf a cs, s.scopes.resolve? u ≠ none := by
  by_cases hone : cs.length = 1
  · obtain ⟨c, rfl⟩ := length_eq_one_iff.1 hone
    have hlt : sizeOf c < sizeOf (Tree.node ⟨r, none⟩ p [c]) :=
      sizeOf_child_lt (.head _)
    have hqu := hse.quiet ⟨c, hlt⟩ (.of_mem (.head _))
    refine hse.of_kids hol hopd fun k hk => ⟨type, ?_, fun hask => ?_⟩
    · rw [mem_singleton.1 (of_mem_kids hk).1]
      exact silent_of_only hqu hpass hne hs
    · rw [hasked hone.le] at hask
      cases hask
  · exact hse.of_kids hol hopd (h hone)

lemma Seen.mono (h : Seen s true c) : Seen s asked c :=
  h.imp fun _ h => ⟨h.1, fun _ => h.2 rfl⟩

/-- A chain that is not a single operand has at least two. -/
lemma two_le_kids {op : Item} (hop : (∃ k, op = .token k) ∨ ∃ ks, op = .oneOf ks)
    (hprod : production r = chain operand op) (h : Derives P r t) (hone : t.children.length ≠ 1) :
    2 ≤ (t.kids operand).length := by
  have hlen := Gen.length_kids_eq hop hprod h
  rw [← length_map (f := Sub.tree), kids_map_tree] at hlen ⊢
  match hchs : t.children with
  | [] => simp [hchs] at hlen
  | [_] => simp [hchs] at hone
  | a :: b :: rest =>
    rw [hchs, Gen.operators, length_cons] at hlen
    rw [hlen]
    omega

/-- Names stand in the parts of a node. Here these are all of one rule. -/
lemma exists_of_mem_usesOf {items : List Item} {q : Rule}
    (hcs : Parses P items cs) (hol : ∀ r ∈ Rule.all, Item.mentionsIn r items = true → r = q)
    {u : String} (hu : u ∈ usesOf asked cs) :
    ∃ c ∈ cs, c.isOf q = true ∧ (u ∈ c.uses ∨ (asked = true ∧ c.bare? = some u)) := by
  obtain ⟨c, hc, hu⟩ := mem_usesOf.1 hu
  rcases hcs.derives_of_mem hc with ⟨tok, -, rfl⟩ | ⟨r, e, start, cs', -, -, rfl⟩
  · rcases hu with hu | ⟨-, hu⟩ <;> cases hu
  · have hof : (Tree.node ⟨r, e.label⟩ start cs').isOf r = true := beq_self_eq_true _
    cases hol r (Rule.mem_all r) (hcs.mentions_of_mem hc hof)
    exact ⟨_, hc, hof, hu⟩

lemma Sees.of_arguments (hse : Sees s t) {a : Tree} (ha : a.Within t)
    (hlt : sizeOf a ≤ sizeOf t) (h : Derived .arguments a)
    (hseen : ∀ e ∈ a.kids .expression, Seen s false e.tree) :
    ∀ u ∈ a.uses, s.scopes.resolve? u ≠ none := by
  obtain ⟨e, p, cs, he, hcs, rfl⟩ := id h
  cases mem_singleton.1 he
  intro u hu
  obtain ⟨c, hc, hof, hu⟩ := exists_of_mem_usesOf hcs (q := .expression) (by decide)
    (show u ∈ usesOf false cs from hu)
  obtain ⟨k, hk, rfl⟩ := exists_kid (t := .node ⟨.arguments, none⟩ p cs) hc hof
  exact hse.declared ((Within.of_kids hk).trans ha) (lt_of_lt_of_le k.2 hlt)
    (hseen k hk) (isOf_eq_false hof (by decide)) (isOf_eq_false hof (by decide)) hu

/-- The arguments of a node, which it has only once. -/
lemma Sees.of_argumentsIn (hse : Sees s t) {d : Tree} (hd : d.Within t)
    (hlt : sizeOf d ≤ sizeOf t) (h : Derived r d)
    (hone : ∀ e ∈ production r, Item.mostIn .arguments e.body ≤ 1)
    (hseen : ∀ a, d.kid? .arguments = some a → ∀ e ∈ a.tree.kids .expression, Seen s false e.tree)
    (hc : c ∈ d.children) (hof : c.isOf .arguments = true) :
    ∀ u ∈ c.uses, s.scopes.resolve? u ≠ none := by
  obtain ⟨a, ha, rfl⟩ := exists_kid hc hof
  have hin := Within.of_kids ha
  exact hse.of_arguments (hin.trans hd) (a.2.le.trans hlt) (h.of_isOf hin hof)
    (hseen a (h.kid?_of_mem hone ha))

lemma tree_of_kid? (hk : t.kid? r = some k)
    (hc : (t.children.filter (·.isOf r)).head? = some c) : k.tree = c := by
  rw [← kid?_map_tree, hk] at hc
  exact Option.some.inj hc

lemma tree_of_kidAt? {i : Nat} (hk : t.kidAt? r i = some k)
    (hc : (t.children.filter (·.isOf r))[i]? = some c) : k.tree = c := by
  rw [← kids_map_tree, getElem?_map, show (t.kids r)[i]? = some k from hk] at hc
  exact Option.some.inj hc

lemma Sees.of_assignmentExpr (hse : Sees s t) (h : Derived .assignmentExpr t)
    (hs : Silent (check t) s type) : ∀ u ∈ t.uses, s.scopes.resolve? u ≠ none := by
  obtain ⟨e, p, cs, he, hcs, rfl⟩ := h
  rw [check_node] at hs
  have hp : ∀ r c, (cs.filter (·.isOf r)).head? = some c →
      (∀ u ∈ (Tree.node ⟨.assignmentExpr, e.label⟩ p cs).uses, u ∈ c.uses) → c ∈ cs →
      Silent (visitPart (fun k : (Tree.node ⟨.assignmentExpr, e.label⟩ p cs).Sub => check k.tree)
        ((Tree.node ⟨.assignmentExpr, e.label⟩ p cs).kid? r)) s type →
      c.isOf .suffixOp = false → c.isOf .arguments = false →
      ∀ u ∈ (Tree.node ⟨.assignmentExpr, e.label⟩ p cs).uses, s.scopes.resolve? u ≠ none := by
    intro r c hhd huses hc hs hsuf hargs u hu
    obtain ⟨k, hk, hvis⟩ := hs.of_visitPart
    have hseen : Seen s false c := by
      rw [← tree_of_kid? hk hhd]
      exact ⟨type, hvis, fun h => nomatch h⟩
    exact hse.declared (.of_mem hc) (sizeOf_child_lt hc) hseen hsuf hargs
      (.inl (huses u hu))
  rcases mem_three.1 he with rfl | rfl | rfl
  · cases hcs with
    | rule _ _ hcs => cases hcs with
    | token _ _ hcs => cases hcs with
    | rule _ _ hcs => cases hcs with
    | nil => exact hp .assignmentExpr _ rfl (fun _ hu => hu) (by simp) hs rfl rfl
  · cases hcs with
    | rule _ _ hcs => cases hcs with
    | token _ _ hcs => cases hcs with
    | token _ _ hcs => cases hcs with
    | token _ _ hcs => cases hcs with
    | rule _ _ hcs => cases hcs with
    | nil => exact hp .assignmentExpr _ rfl (fun _ hu => hu) (by simp) hs rfl rfl
  · cases hcs with
    | rule _ _ hcs => cases hcs with
    | nil =>
      refine hp .conditionalExpr _ rfl (fun u hu => ?_) (by simp) hs rfl rfl
      obtain ⟨c, hc, hu⟩ := Tree.mem_usesOf.1 hu
      cases mem_singleton.1 hc
      exact hu.resolve_right fun hbare => Bool.false_ne_true hbare.1

lemma Sees.of_conditionalExpr (hse : Sees s t) (h : Derived .conditionalExpr t)
    (hs : Silent (check t) s type) : ∀ u ∈ t.uses, s.scopes.resolve? u ≠ none := by
  obtain ⟨e, p, cs, he, hcs, rfl⟩ := h
  cases mem_singleton.1 he
  cases hcs with
  | @rule _ _ _ _ _ _ _ _ hcs => cases hcs with
  | skip hcs => cases hcs with
    | nil =>
      rename_i body _ _
      have hqu := hse.quiet ⟨_, sizeOf_child_lt (.head _)⟩
        (.of_mem (.head _))
      have hseen := silent_of_only hqu (by decide) (by decide) hs
      refine hse.of_parts (a := false) fun c hc => .inr ?_
      cases mem_singleton.1 hc
      exact ⟨⟨type, hseen, fun h => nomatch h⟩, rfl, rfl⟩
  | take hcs => cases hcs with
  | @token _ o _ _ ho hk hcs => cases hcs with
  | rule _ _ hcs => cases hcs with
  | token _ _ hcs => cases hcs with
  | rule _ _ hcs => cases hcs with
  | nil =>
    have htx : o.text = "?" := ho.text_eq (by rw [hk]; rfl)
    rw [check_node] at hs
    obtain ⟨kc, ka, kb, hkc, hka, hkb, hc, ha, hb⟩ :=
      visited_of_ternary hse.quiet hs (by simp [text, htx])
    have hc' := tree_of_kid? hkc rfl
    have ha' := tree_of_kidAt? hka rfl
    have hb' := tree_of_kidAt? hkb rfl
    refine hse.of_parts (a := true) fun c hmem => ?_
    simp only [children_node, mem_cons, not_mem_nil, or_false] at hmem
    rcases hmem with rfl | rfl | rfl | rfl | rfl
    · exact .inr ⟨hc' ▸ hc, rfl, rfl⟩
    · exact .inl ⟨_, rfl⟩
    · exact .inr ⟨ha' ▸ ha, rfl, rfl⟩
    · exact .inl ⟨_, rfl⟩
    · exact .inr ⟨hb' ▸ hb, rfl, rfl⟩

lemma Sees.of_primaryAtom (hse : Sees s t) (h : Derived .primaryAtom t)
    (hs : Silent (check t) s type) : ∀ u ∈ t.uses, s.scopes.resolve? u ≠ none := by
  obtain ⟨e, p, cs, he, hcs, heq⟩ := id h
  intro u hu
  rw [heq] at hu
  rcases mem_three.1 he with rfl | rfl | rfl
  · cases hcs with
    | token _ _ hcs => cases hcs with
    | nil => exact absurd hu not_mem_nil
  · have hnew : Silent (newObject t (check ·.tree)) s type := by
      rw [check_eq] at hs
      subst heq
      exact hs
    obtain ⟨c, hc, hof, hu⟩ := exists_of_mem_usesOf hcs (q := .arguments) (by decide) hu
    exact hse.of_argumentsIn (.refl t) le_rfl h (by decide)
      (fun a ha => visited_of_newObject hse.quiet hnew ha) (by rw [heq]; exact hc) hof u
      (hu.resolve_right fun hbare => Bool.false_ne_true hbare.1)
  · cases hcs with
    | token _ _ hcs => cases hcs with
    | nil => exact absurd hu not_mem_nil

lemma exists_first_of_suffix (h : Derived .suffixOp t) : ∃ first, t.children.head? = some first ∧
      (first.text = "." ∨ first.text = "(" ∨ first.text = "[") := by
  obtain ⟨e, p, cs, he, hcs, rfl⟩ := h
  rcases mem_three.1 he with rfl | rfl | rfl
  · cases hcs with
    | token ho hk hcs => exact ⟨_, rfl, .inr (.inl (ho.text_eq (by rw [hk]; rfl)))⟩
  · cases hcs with
    | token ho hk hcs => exact ⟨_, rfl, .inr (.inr (ho.text_eq (by rw [hk]; rfl)))⟩
  · cases hcs with
    | token ho hk hcs => exact ⟨_, rfl, .inl (ho.text_eq (by rw [hk]; rfl))⟩

lemma Sees.of_suffix (hse : Sees s t) {op : t.Sub} (hop : op.tree.Within t)
    (h : Derived .suffixOp op.tree) {state r : Chained}
    (hs : Silent (suffix t (check ·.tree) state op) s r) :
    ∀ u ∈ op.tree.uses, s.scopes.resolve? u ≠ none := by
  obtain ⟨e, p, cs, he, hcs, heq⟩ := id h
  intro u hu
  rw [heq] at hu
  rcases mem_three.1 he with rfl | rfl | rfl
  · obtain ⟨c, hc, hof, hu⟩ := exists_of_mem_usesOf hcs (q := .arguments) (by decide) hu
    refine hse.of_argumentsIn hop op.2.le h (by decide) (fun a ha d hd => ?_)
      (by rw [heq]; exact hc) hof u (hu.resolve_right fun hbare => Bool.false_ne_true hbare.1)
    cases hcs with
    | @token _ o _ _ ho hk hcs =>
      have hfst : op.tree.children.head? = some (.leaf o) := by rw [heq]; rfl
      have hmem : op.lift (a.lift d) ∈ arguments op := by
        rw [arguments, ha]
        exact mem_map_of_mem hd
      exact (visited_of_suffix hse.quiet hop hfst hs).1 (ho.text_eq (by rw [hk]; rfl)) _ hmem
  · obtain ⟨c, hc, hof, hu⟩ := exists_of_mem_usesOf hcs (q := .expression) (by decide) hu
    obtain ⟨k, hk, rfl⟩ := exists_kid (t := op.tree) (by rw [heq]; exact hc) hof
    refine hse.declared ((Within.of_kids hk).trans hop) (k.2.trans op.2) ?_
      (isOf_eq_false hof (by decide)) (isOf_eq_false hof (by decide)) hu
    cases hcs with
    | @token _ o _ _ ho ho' hcs =>
      have hfst : op.tree.children.head? = some (.leaf o) := by rw [heq]; rfl
      exact (visited_of_suffix hse.quiet hop hfst hs).2 (ho.text_eq (by rw [ho']; rfl)) k
        (h.kid?_of_mem (by decide) hk)
  · cases hcs with
    | token _ _ hcs => cases hcs with
    | token _ _ hcs => cases hcs with
    | nil => exact absurd hu not_mem_nil

lemma isOf_of_repeated (h : Parses P [.repeated [.rule r]] cs) : ∀ c ∈ cs, c.isOf r = true := by
  have hboth : ∀ items cs, Parses P items cs →
      items = [.repeated [.rule r]] ∨ items = [.rule r, .repeated [.rule r]] →
      ∀ c ∈ cs, c.isOf r = true := by
    intro items cs h
    induction h with
    | nil => simp
    | token | oneOf | skip | take | choice => simp
    | rule _ _ _ _ ih =>
      intro hitems c hc
      simp only [List.cons.injEq, reduceCtorEq, false_and, Item.rule.injEq, false_or] at hitems
      obtain ⟨rfl, rfl⟩ := hitems
      rcases mem_cons.1 hc with rfl | hc
      · exact beq_self_eq_true _
      · exact ih (.inl rfl) c hc
    | stop h ih =>
      intro hitems c hc
      simp only [List.cons.injEq, reduceCtorEq, false_and, or_false, Item.repeated.injEq] at hitems
      obtain ⟨rfl, rfl⟩ := hitems
      cases h
      cases hc
    | more _ ih =>
      intro hitems
      simp only [List.cons.injEq, reduceCtorEq, false_and, or_false, Item.repeated.injEq] at hitems
      obtain ⟨rfl, rfl⟩ := hitems
      exact ih (.inr rfl)
  exact hboth _ cs h (.inl rfl)

lemma Sees.of_leftHandSide (hse : Sees s t) (h : Derived .leftHandSide t)
    (hs : Silent (check t) s type) : ∀ u ∈ t.uses, s.scopes.resolve? u ≠ none := by
  obtain ⟨e, p, cs, he, hcs, heq⟩ := id h
  cases mem_singleton.1 he
  have hlhs : Silent (leftHandSide t (check ·.tree)) s type := by
    rw [check_eq] at hs
    subst heq
    exact hs
  obtain ⟨atom, found, f, result, hat, hfd, hf, hfo, -⟩ :=
    silent_of_leftHandSide hse.quiet hlhs
  have hder : ∀ k ∈ t.kids .suffixOp, Derived .suffixOp k.tree := fun k hk =>
    h.of_isOf (.of_kids hk) (of_mem_kids hk).2
  have hqu : ∀ k ∈ t.kids .suffixOp, ∀ state,
      OnlyComplains (suffix t (check ·.tree) state k) := fun k hk state =>
    onlyComplains.suffix hse.quiet (.of_kids hk) state
  cases hcs with
  | @rule _ e1 p1 body rest _ he1 hbody hrs =>
    have hatomc : atom.tree = .node ⟨.primaryAtom, e1.label⟩ p1 body :=
      tree_of_kid? hat (by rw [heq]; rfl)
    have hmem := of_kid? hat
    have hof := isOf_of_repeated hrs
    intro u hu
    rw [heq] at hu
    rcases mem_append.1 hu with hu | hu
    · -- The first suffix asks for what stands before it.
      cases rest with
      | nil => exact absurd hu not_mem_nil
      | cons c rest =>
        have hbare : atom.tree.bare? = some u := by
          rw [hatomc]
          exact Option.mem_toList.1 hu
        obtain ⟨k, ks, hks, hkc, -⟩ := map_eq_cons_iff.1 (show
          (t.kids .suffixOp).map Sub.tree = c :: rest.filter (·.isOf .suffixOp) by
            rw [kids_map_tree, heq, children_node, filter_cons_of_neg (by
              simp [isOf]), filter_cons_of_pos (hof c mem_cons_self)])
        have hk : k ∈ t.kids .suffixOp := hks ▸ mem_cons_self
        rw [hks, foldlM_cons] at hfo
        obtain ⟨_, hsp, -⟩ := hfo.of_bind (hqu k hk _) fun _ =>
          onlyComplains.foldlM (fun k' hk' => hqu k' (hks ▸ mem_cons_of_mem _ hk')) _
        obtain ⟨first, hfst, htx⟩ := exists_first_of_suffix (hder k hk)
        have hkn := known_of_suffix hse.quiet (.of_kids hk) hfst htx hsp
        intro hnn
        obtain ⟨l, q, o, hl, hatomo, rfl⟩ := eq_of_bare (by rw [hatomc]; rfl) hbare
        rw [hatomo] at hf
        rw [callee?_eq_none hl hnn hf, unknown_of_bare
          (h.of_isOf (.of_mem hmem.1) hmem.2) rfl hbare hnn hfd] at hkn
        exact hkn rfl
    · obtain ⟨c, hc, hu⟩ := mem_usesOf.1 hu
      have hu := hu.resolve_right fun hbare => Bool.false_ne_true hbare.1
      rcases mem_cons.1 hc with rfl | hc
      · rw [← hatomc] at hu
        have hseen : Seen s false atom.tree := ⟨found, hfd, by simp⟩
        exact hse.declared (.of_mem hmem.1) atom.2 hseen
          (by rw [hatomc]; rfl) (by rw [hatomc]; rfl) (.inl hu)
      · obtain ⟨k, hk, rfl⟩ := exists_kid (t := t) (c := c)
          (by rw [heq]; exact .tail _ hc) (hof c hc)
        obtain ⟨state, state', hsp⟩ := hfo.of_foldlM hqu k hk
        exact hse.of_suffix (.of_kids hk) (hder k hk) hsp u hu

lemma Sees.of_derives (hse : Sees s t) (h : Derived r t)
    (hr : r.isInExpression = true) (hvd : r ≠ .suffixOp ∧ r ≠ .arguments)
    (hs : Silent (check t) s type) : ∀ u ∈ t.uses, s.scopes.resolve? u ≠ none := by
  obtain ⟨e, p, cs, he, hcs, rfl⟩ := id h
  have hnot : ∀ q, (∀ e ∈ production r, Item.mentionsIn q e.body = false) → ∀ c ∈ cs,
      c.isOf q = false := by
    intro q hq c hc
    by_contra hof
    rw [Bool.not_eq_false] at hof
    exact Bool.false_ne_true ((hq e he).symm.trans (hcs.mentions_of_mem hc hof))
  have hol : ∀ q, (r.MentionsOnly fun q' => q' = q) →
      ∀ c ∈ cs, (∃ tok, c = .leaf tok) ∨ c.isOf q = true := by
    intro q hq c hc
    cases hof : c.isOf q with
    | true => exact .inr rfl
    | false => exact .inl (h.leaf_of_mem hc hq hof)
  -- Most nodes have all their children visited.
  have hall : (∀ e ∈ production r, Item.mentionsIn .suffixOp e.body = false) →
      (∀ e ∈ production r, Item.mentionsIn .arguments e.body = false) →
      Silent (visitAll fun k : (Tree.node ⟨r, e.label⟩ p cs).Sub => check k.tree) s type →
      ∀ u ∈ usesOf false cs, s.scopes.resolve? u ≠ none := fun hsuf hargs h =>
    hse.of_visitAll (fun c hc => ⟨hnot _ hsuf c hc, hnot _ hargs c hc⟩) h
  have hs' := hs
  rw [check_node] at hs'
  cases r with try cases mem_singleton.1 he
  | expression | multiplicativeExpr =>
    exact hall (by decide) (by decide) hs'
  | assignmentExpr => exact hse.of_assignmentExpr h hs
  | conditionalExpr => exact hse.of_conditionalExpr h hs
  | logicalOrExpr | logicalAndExpr =>
    refine hse.of_chain (by decide) (by decide) (hol _ ?_) ?_ hs (a := decide (1 < cs.length))
      (by simp) fun hone k hk => Seen.mono (visited_of_logical hse.quiet hs' hone k hk) <;> decide
  | equalityExpr =>
    have htwo := two_le_kids (.inr ⟨_, rfl⟩) rfl h
    refine hse.of_chain (by decide) (by decide) (hol .relationalExpr (by decide)) (by decide) hs
      (a := decide (1 < cs.length)) (by simp) fun hone k hk => ?_
    exact Seen.mono (visited_of_equality hse.quiet hs' hone (htwo hone) k hk)
  | relationalExpr =>
    have htwo := two_le_kids (.inr ⟨_, rfl⟩) rfl h
    refine hse.of_chain (by decide) (by decide) (hol .additiveExpr (by decide)) (by decide) hs
      (a := decide (1 < cs.length)) (by simp) fun hone k hk => ?_
    exact Seen.mono (visited_of_relational hse.quiet hs' hone (htwo hone) k hk)
  | additiveExpr =>
    exact hse.of_chain (by decide) (by decide) (hol .multiplicativeExpr (by decide)) (by decide)
      hs (fun _ => rfl) fun hone k hk => visited_of_additive hse.quiet hs' hone k hk
  | unaryExpr =>
    rcases mem_pair.1 he with rfl | rfl <;> exact hall (by decide) (by decide) hs'
  | primaryExpr =>
    rcases mem_three.1 he with rfl | rfl | rfl <;> exact hall (by decide) (by decide) hs'
  | literalExpr =>
    simp only [production, mem_cons, not_mem_nil, or_false] at he
    rcases he with rfl | rfl | rfl | rfl | rfl <;> exact hall (by decide) (by decide) hs'
  | leftHandSide => exact hse.of_leftHandSide h hs
  | primaryAtom => exact hse.of_primaryAtom h hs
  | arrayLiteral =>
    exact hse.of_kids (hol .expression (by decide)) (by decide)
      (visited_of_arrayLiteral hse.quiet hs')
  | suffixOp => exact absurd rfl hvd.1
  | arguments => exact absurd rfl hvd.2
  | _ => cases hr

end Seen

/-- Names that are asked for are declared. -/
lemma declared_of_uses {r : Rule} {t : Tree} {type : Ty} (h : Derived r t)
    (hr : r.isInExpression = true) (hvd : r ≠ .suffixOp ∧ r ≠ .arguments)
    (hs : Silent (check t) s type) : ∀ u ∈ t.uses, s.scopes.resolve? u ≠ none := by
  induction hn : sizeOf t using Nat.strong_induction_on generalizing t r type with
  | _ n ih =>
    subst hn
    refine Sees.of_derives ⟨fun k hk => onlyComplains.check h hr hk, ?_⟩ h hr hvd hs
    rintro asked c u hc hlt ⟨type', hsil, hkn⟩ hsuf hargs hu
    cases c with
    | leaf _ => simp [uses, bare?] at hu
    | bad _ => simp [uses, bare?] at hu
    | node tag p cs =>
      have hc' := h.of_within hc rfl
      have hr' := h.everywhere_rule Rule.closed_isInExpression hr _ hc tag rfl
      rcases hu with hu | ⟨hasked, hbare⟩
      · exact ih _ hlt hc' hr' ⟨beq_eq_false_iff_ne.1 hsuf, beq_eq_false_iff_ne.1 hargs⟩
          hsil rfl u hu
      · intro hnn
        exact hkn hasked (unknown_of_bare hc' hr' hbare hnn hsil)

end Check

end Compiscript
