import Compiscript.Proofs.Codegen.Forms

/-!
# Parts That Are Visited

Which parts of a node the generator goes on with.

It leaves few of them out: what is in a literal, and the operands of `&&` and `||`
behind the second one. The object of a method is found by reading the chain once more
from its start, so that the start may be visited several times.

## Main definitions

* `Gen.partsOf`: The parts of a node that are visited, in the order of their code.
* `Gen.Site`: A place in a program where something is called.
* `Gen.chainPieces`: What the code of a chain is made of, in its order.
* `Gen.Sites`: The calls in a program, in the order of the code.

## Theorems

* `Gen.subset_chainPieces`: No part of a chain is left out.
* `Gen.within_of_mem_partsOf`: Parts are within their node.
-/

namespace Compiscript

open List

namespace Tree

/-- The children that were made by a rule. -/
def every (t : Tree) (r : Rule) : List Tree := t.children.filter (·.isOf r)

/-- The first one of them, if there is one. -/
def first (t : Tree) (r : Rule) : List Tree := (t.every r).take 1

lemma every_eq (t : Tree) (r : Rule) : t.every r = (t.kids r).map Sub.tree :=
  (kids_map_tree t r).symm

variable {t : Tree} {r : Rule}

lemma first_eq_singleton {k : t.Sub} (h : t.kid? r = some k) : t.first r = [k.tree] := by
  obtain ⟨ks, hks⟩ := head?_eq_some_iff.1 h
  rw [first, every_eq, hks]
  rfl

lemma first_eq_nil (h : t.kid? r = none) : t.first r = [] := by
  rw [first, every_eq, head?_eq_none_iff.1 h]
  rfl

variable {c : Tree}

lemma within_of_mem_every (h : c ∈ t.every r) : c.Within t :=
  .of_mem (mem_filter.1 h).1

lemma within_of_mem_first (h : c ∈ t.first r) : c.Within t :=
  within_of_mem_every (mem_of_mem_take h)

end Tree

namespace Gen

/-! ### Parts -/

/-- The arguments of a call, in their order. -/
def argumentsOf (t : Tree) : List Tree :=
  match t.kid? .arguments with
  | none => []
  | some args => (args.tree.kids .expression).map Tree.Sub.tree

/-- The parts of a suffix that are visited. -/
def suffixParts (s : Tree) : List Tree :=
  match suffixOf s with
  | .call => argumentsOf s
  | .index => s.first .expression
  | _ => []

/-- The parts of a node of a kind that are visited, in the order of their code. -/
def partsOf (t : Tree) : Tag → List Tree
  | ⟨.program, _⟩ =>
    (t.every .statement).filter (!isDeclaration ·) ++ (t.every .statement).filter isDeclaration
  | ⟨.variableDeclaration, _⟩ => (t.first .initializer).flatMap (·.first .expression)
  | ⟨.assignment, _⟩ =>
    match t.tokenText? .identifier, t.every .expression with
    | some _, e :: rest => rest.getLast?.toList ++ [e]
    | _, _ => []
  | ⟨.expressionStatement, _⟩ => t.first .expression
  | ⟨.printStatement, _⟩ => t.first .expression
  | ⟨.ifStatement, _⟩ => t.first .expression ++ (t.every .block).take 2
  | ⟨.whileStatement, _⟩ => t.first .expression ++ t.first .block
  | ⟨.returnStatement, _⟩ => t.first .expression
  | ⟨.functionDeclaration, _⟩ => t.first .block
  | ⟨.classDeclaration, _⟩ => t.every .classMember
  | ⟨_, some .assignExpr⟩ => t.first .leftHandSide ++ t.first .assignmentExpr
  | ⟨_, some .propertyAssignExpr⟩ => t.first .leftHandSide ++ t.first .assignmentExpr
  | ⟨_, some .exprNoAssign⟩ => t.first .conditionalExpr
  | ⟨_, some .ternaryExpr⟩ =>
    t.first .logicalOrExpr ++
      match t.every .expression with
      | a :: b :: _ => [a, b]
      | _ => []
  | ⟨.logicalOrExpr, _⟩ => (t.every .logicalAndExpr).take 2
  | ⟨.logicalAndExpr, _⟩ => (t.every .equalityExpr).take 2
  | ⟨.equalityExpr, _⟩ => t.every .relationalExpr
  | ⟨.relationalExpr, _⟩ => t.every .additiveExpr
  | ⟨.additiveExpr, _⟩ => t.every .multiplicativeExpr
  | ⟨.multiplicativeExpr, _⟩ => t.every .unaryExpr
  | ⟨.unaryExpr, _⟩ => (t.every .unaryExpr ++ t.every .primaryExpr).take 1
  | ⟨.primaryExpr, _⟩ =>
    (t.every .literalExpr ++ (t.every .leftHandSide ++ t.every .expression)).take 1
  | ⟨.literalExpr, _⟩ => []
  | ⟨.leftHandSide, _⟩ => t.first .primaryAtom ++ (t.every .suffixOp).flatMap suffixParts
  | ⟨_, some .identifierExpr⟩ => []
  | ⟨_, some .newExpr⟩ => argumentsOf t
  | ⟨_, some .thisExpr⟩ => []
  | _ => t.children

/-! ### Calls and chains -/

/-- A place in a program where something is called. -/
inductive Site where
  /-- A new object. -/
  | new (t : Tree)
  /-- A suffix of a chain, with the suffixes before it. -/
  | call (t : Tree) (before : List t.Sub) (s : t.Sub)

/-- What code is made of. -/
inductive Piece where
  /-- The code of a tree. -/
  | tree (t : Tree)
  /-- An instruction. -/
  | link (op : Op)
  /-- The instruction that calls something. -/
  | call (site : Site)

def Piece.tree? : Piece → Option Tree
  | tree t => some t
  | _ => none

/-- The trees that are visited. -/
def treesOf (is : List Piece) : List Tree := is.filterMap Piece.tree?

lemma treesOf_append (is js : List Piece) : treesOf (is ++ js) = treesOf is ++ treesOf js :=
  filterMap_append

@[simp] lemma treesOf_map (ts : List Tree) : treesOf (ts.map .tree) = ts := by
  rw [treesOf, filterMap_map]
  exact filterMap_some

variable (t atom : Tree)

/-- The fields that are read once more. -/
def fieldPieces : List t.Sub → List Piece
  | [] => []
  | s :: rest =>
    if suffixOf s.tree = .field then .link .getp :: fieldPieces rest else fieldPieces rest

/-- How the object of a method is found, behind the suffixes `before`, the last one first. The one
    at the start of the chain is known. -/
def objectPieces : List t.Sub → List Piece
  | last :: k :: earlier =>
    if suffixOf last.tree = .field then .tree atom :: fieldPieces t (k :: earlier).reverse else []
  | _ => []

/-- A suffix, with the suffixes before it, the last one first. -/
def suffixPieces (before : List t.Sub) (s : t.Sub) : List Piece :=
  match suffixOf s.tree with
  | .field => [.link .getp]
  | .call => (argumentsOf s.tree).map .tree ++
      (objectPieces t atom before ++ [.call (.call t before.reverse s)])
  | .index => (s.tree.first .expression).map .tree ++ [.link .index]
  | .broken => []

def suffixesPieces : List t.Sub → List t.Sub → List Piece
  | _, [] => []
  | before, s :: rest => suffixPieces t atom before s ++ suffixesPieces (s :: before) rest

/-- A chain: its start, and its suffixes one behind the other. -/
def chainPieces : List Piece :=
  (t.first .primaryAtom).flatMap fun atom =>
    .tree atom :: suffixesPieces t atom [] (t.kids .suffixOp)

lemma subset_suffixesPieces (before rest : List t.Sub) :
    (rest.map Tree.Sub.tree).flatMap suffixParts ⊆ treesOf (suffixesPieces t atom before rest) := by
  have hps : ∀ before s, suffixParts (Tree.Sub.tree s) ⊆
      treesOf (suffixPieces t atom before s) := by
    intro before s
    rw [suffixParts, suffixPieces]
    cases suffixOf s.tree with
    | call | index =>
      dsimp only
      rw [treesOf_append, treesOf_map]
      exact subset_append_left _ _
    | field | broken => exact nil_subset _
  induction rest generalizing before with
  | nil => exact nil_subset _
  | cons s rest ih =>
    rw [map_cons, flatMap_cons, suffixesPieces, treesOf_append]
    exact append_subset.2 ⟨fun c hc => mem_append_left _ (hps before s hc),
      fun c hc => mem_append_right _ (ih _ hc)⟩

lemma subset_chainPieces (h : ∃ k, t.kid? .primaryAtom = some k) :
    t.first .primaryAtom ++ (t.every .suffixOp).flatMap suffixParts ⊆ treesOf (chainPieces t) := by
  obtain ⟨start, hst⟩ := h
  rw [chainPieces, Tree.first_eq_singleton hst, flatMap_singleton, Tree.every_eq]
  exact cons_subset_cons _ (subset_suffixesPieces _ _ _ _)

/-- What the code of a node is made of, but for instructions that have nothing to do with calls. -/
def pieces : List Piece :=
  match t.tag? with
  | some ⟨.leftHandSide, none⟩ => chainPieces t
  | some ⟨.primaryAtom, some .newExpr⟩ => (argumentsOf t).map .tree ++ [.link .new, .call (.new t)]
  | some tag => (partsOf t tag).map .tree
  | none => []

/-- The calls that code has in it, in its order. -/
inductive Sites : List Piece → List Site → Prop where
  | nil : Sites [] []
  | tree {t : Tree} {is : List Piece} {ss ss' : List Site} (h : Sites (pieces t) ss)
      (hrest : Sites is ss') : Sites (.tree t :: is) (ss ++ ss')
  | link {op : Op} {is : List Piece} {ss : List Site} (h : Sites is ss) : Sites (.link op :: is) ss
  | call {site : Site} {is : List Piece} {ss : List Site} (h : Sites is ss) :
      Sites (.call site :: is) (site :: ss)

lemma Sites.append {is js : List Piece} {ss ss' : List Site} (h : Sites is ss)
    (h' : Sites js ss') : Sites (is ++ js) (ss ++ ss') := by
  induction h with
  | nil => exact h'
  | tree hsub _ _ ih =>
    rw [append_assoc]
    exact .tree hsub ih
  | link _ ih => exact .link ih
  | call _ ih => exact .call ih

/-! ### Where the parts are -/

variable {c t : Tree}

lemma within_of_mem_argumentsOf (h : c ∈ argumentsOf t) : c.Within t := by
  unfold argumentsOf at h
  split at h
  · cases h
  · rename_i args hargs
    obtain ⟨k, hk, rfl⟩ := mem_map.1 h
    exact (Tree.Within.of_kids hk).trans (.of_kid? hargs)

lemma within_of_mem_suffixParts {s : Tree} (h : c ∈ suffixParts s) : c.Within s := by
  unfold suffixParts at h
  split at h
  · exact within_of_mem_argumentsOf h
  · exact Tree.within_of_mem_first h
  · cases h

lemma within_of_mem_partsOf {tag : Tag} (h : c ∈ partsOf t tag) : c.Within t := by
  have hevery : ∀ {r}, c ∈ t.every r → c.Within t := Tree.within_of_mem_every
  have htake : ∀ {r} (n : Nat), c ∈ (t.every r).take n → c.Within t := fun n h =>
    hevery (mem_of_mem_take h)
  have hf : ∀ {r}, c ∈ t.first r → c.Within t := Tree.within_of_mem_first
  have hex : ∀ {e cs}, t.every .expression = e :: cs → c ∈ e :: cs → c.Within t :=
    fun hcs h => hevery (hcs ▸ h)
  unfold partsOf at h
  split at h
  -- Most parts are children by a rule, or the first ones of them.
  all_goals try first
    | exact hevery h
    | exact hf h
    | exact htake 2 h
    | exact within_of_mem_argumentsOf h
    | exact .of_mem h
    | exact absurd h not_mem_nil
    | exact (mem_append.1 h).elim hf hf
    | exact (mem_append.1 h).elim hf (htake 2)
  · -- A program.
    exact (mem_append.1 h).elim (fun h => hevery (mem_filter.1 h).1) fun h =>
      hevery (mem_filter.1 h).1
  · -- A variable.
    obtain ⟨i, hi, he⟩ := mem_flatMap.1 h
    exact (Tree.within_of_mem_first he).trans (Tree.within_of_mem_first hi)
  · -- An assignment.
    split at h
    · rename_i e rest _ hcs
      rcases mem_append.1 h with h | h
      · exact hex hcs (.tail _ (mem_of_getLast? (Option.mem_toList.1 h)))
      · exact hex hcs (mem_singleton.1 h ▸ .head _)
    · cases h
  · -- A choice.
    rcases mem_append.1 h with h | h
    · exact hf h
    · split at h
      · rename_i a b rest hcs
        rcases mem_pair.1 h with rfl | rfl
        · exact hex hcs (by simp)
        · exact hex hcs (by simp)
      · cases h
  · -- A sign.
    exact (mem_append.1 (mem_of_mem_take h)).elim hevery hevery
  · -- A primary expression.
    rcases mem_append.1 (mem_of_mem_take h) with h | h
    · exact hevery h
    · exact (mem_append.1 h).elim hevery hevery
  · -- A chain.
    rcases mem_append.1 h with h | h
    · exact hf h
    · obtain ⟨s, hs, hp⟩ := mem_flatMap.1 h
      exact (within_of_mem_suffixParts hp).trans (Tree.within_of_mem_every hs)

end Gen

end Compiscript
