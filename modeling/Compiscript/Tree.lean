import Compiscript.Grammar

/-!
# Parse Trees

The tree a parser makes of a text, also of a wrong one.

A node bears the name of its rule or alternative and the place of the first
token the rule saw. Besides tokens a tree has bad tokens: those the parser
skipped on the way out of an error, and those it made up to go on. Nothing is
promised about the children of a node that holds an error; they may be
missing, so all access goes through look-ups that can fail.
-/

namespace Compiscript

/-- A parse tree. -/
inductive Tree where
  | node (tag : Tag) (start : Pos) (children : List Tree)
  | leaf (t : Token)
  /-- A token that was skipped or made up. -/
  | bad (t : Token)
deriving Inhabited, Repr

namespace Tree

/-- The children of a node. -/
def children : Tree → List Tree
  | node _ _ cs => cs
  | _ => []

/-- The place of the first token. -/
def pos : Tree → Pos
  | node _ p _ => p
  | leaf t => t.pos
  | bad t => t.pos

mutual

/-- The texts of all tokens, joined. -/
def text : Tree → String
  | node _ _ cs => textOfAll cs
  | leaf t => t.text
  | bad t => t.text

/-- The texts of all tokens of several trees, joined. -/
def textOfAll : List Tree → String
  | [] => ""
  | c :: cs => c.text ++ textOfAll cs

end

/-- Whether a tree was made by a rule. -/
def isOf (r : Rule) : Tree → Bool
  | node tag _ _ => tag.rule == r
  | _ => false

/-- The token of a leaf, bad ones included. -/
def token? : Tree → Option Token
  | node _ _ _ => none
  | leaf t => some t
  | bad t => some t

/-- Whether a tree is a token of a kind, bad ones included. -/
def isToken (k : Kind) (t : Tree) : Bool :=
  match t.token? with
  | some tok => tok.kind == k
  | none => false

/-- The name of a node; tokens have none. -/
def tag? : Tree → Option Tag
  | node tag _ _ => some tag
  | _ => none

theorem sizeOf_child_lt {t c : Tree} (h : c ∈ t.children) : sizeOf c < sizeOf t := by
  cases t with
  | node tag start cs =>
    have := List.sizeOf_lt_of_mem h
    simp only [children, node.sizeOf_spec] at *
    omega
  | leaf t => simp [children] at h
  | bad t => simp [children] at h

/-- The trees that are smaller than a tree. What a function on trees does with
    a node may depend on what it does with these. -/
def Sub (t : Tree) : Type := { c : Tree // sizeOf c < sizeOf t }

namespace Sub

variable {t : Tree}

/-- The tree itself. -/
abbrev tree (c : t.Sub) : Tree := c.1

/-- A tree below one that is below `t`. -/
def lift (c : t.Sub) (d : c.tree.Sub) : t.Sub := ⟨d.1, Nat.lt_trans d.2 c.2⟩

end Sub

/-- The children of a node. -/
def subs (t : Tree) : List t.Sub :=
  t.children.attach.map fun ⟨c, h⟩ => ⟨c, sizeOf_child_lt h⟩

/-- The children made by a rule. -/
def kids (t : Tree) (r : Rule) : List t.Sub := t.subs.filter (·.tree.isOf r)

/-- The first child made by a rule. -/
def kid? (t : Tree) (r : Rule) : Option t.Sub := (t.kids r).head?

/-- The `i`-th child made by a rule, counted from 0. -/
def kidAt? (t : Tree) (r : Rule) (i : Nat) : Option t.Sub := (t.kids r)[i]?

/-- Whether there is a child made by a rule. -/
def hasKid (t : Tree) (r : Rule) : Bool := t.children.any (·.isOf r)

/-- The texts of the children that are tokens of a kind. -/
def tokenTexts (t : Tree) (k : Kind) : List String :=
  (t.children.filter (·.isToken k)).map text

/-- The text of the first child that is a token of a kind. -/
def tokenText? (t : Tree) (k : Kind) : Option String := (t.tokenTexts k).head?

/-- The text of the `i`-th child, counted from 0. -/
def childText? (t : Tree) (i : Nat) : Option String := t.children[i]?.map text

end Tree

end Compiscript
