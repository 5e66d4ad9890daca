import Compiscript.Grammar

/-!
# The Transition Network

The grammar as a graph of places, so that "how far the parser has come inside a
rule" is a number.

Each item of an alternative becomes a node that knows where to go on afterwards.
Two places of the grammar are always two nodes, also when the same items follow
both: telling apart which alternative led somewhere is what prediction is about.

The node with the number of a rule is the end of that rule.
-/

namespace Compiscript

/-- What kind of group a decision belongs to. -/
inductive Fork where
  /-- One of the alternatives has to be taken. -/
  | choice
  /-- The second branch passes the group by. -/
  | optional
  /-- The second branch leaves the repetition. -/
  | repeated
deriving DecidableEq, Repr, Inhabited

/-- A place in the grammar and the step that leads on from it. -/
inductive Node where
  | token (k : Kind) (next : Nat)
  | oneOf (ks : Kinds) (next : Nat)
  | call (r : Rule) (next : Nat)
  /-- A decision between branches, numbered from 1. -/
  | fork (kind : Fork) (branches : List Nat)
  /-- The way back to the decision of a repeated group. -/
  | again (entry : Nat)
  /-- From here on the node under construction bears this label. -/
  | name (l : Label) (next : Nat)
  /-- The end of a rule. -/
  | stop (r : Rule)
deriving Repr, Inhabited

/-- All places of a grammar, and where each rule begins. -/
structure Network where
  nodes : Array Node
  starts : Array Nat
  /-- The nodes in the form in which they are looked up. -/
  places : List Node := nodes.toList
  places_eq : places = nodes.toList := by rfl

namespace Network

instance : Inhabited Network := ⟨{ nodes := #[], starts := #[] }⟩

/-- The node with a number. Numbers that name no node are treated as the end
    of the first rule. -/
def node (net : Network) (n : Nat) : Node := net.places[n]?.getD (.stop .program)

/-- Where a rule begins. -/
def start (net : Network) (r : Rule) : Nat := net.starts.toList[r.index]?.getD r.index

mutual

/-- Add an item that is followed by node `next`; the result tells where the
    item begins. -/
def addItem (nodes : Array Node) (next : Nat) : Item → Array Node × Nat
  | .token k => (nodes.push (.token k next), nodes.size)
  | .oneOf ks => (nodes.push (.oneOf (.ofList ks) next), nodes.size)
  | .rule r => (nodes.push (.call r next), nodes.size)
  | .optional body =>
    let (nodes, first) := addItems nodes next body
    (nodes.push (.fork .optional [first, next]), nodes.size)
  | .repeated body =>
    -- The body leads back to a node that is not complete before the body is.
    let entry := nodes.size
    let nodes := (nodes.push (.fork .repeated [])).push (.again entry)
    let (nodes, first) := addItems nodes (entry + 1) body
    (nodes.setIfInBounds entry (.fork .repeated [first, next]), entry)
  | .choice alts =>
    let (nodes, firsts) := addBodies nodes next alts
    (nodes.push (.fork .choice firsts), nodes.size)

/-- Add a list of items, the last one first. -/
def addItems (nodes : Array Node) (next : Nat) : List Item → Array Node × Nat
  | [] => (nodes, next)
  | item :: rest =>
    let (nodes, next) := addItems nodes next rest
    addItem nodes next item

/-- Add several lists of items that all lead to the same place. -/
def addBodies (nodes : Array Node) (next : Nat) : List (List Item) → Array Node × List Nat
  | [] => (nodes, [])
  | body :: rest =>
    let (nodes, first) := addItems nodes next body
    let (nodes, firsts) := addBodies nodes next rest
    (nodes, first :: firsts)

end

/-- Add an alternative of a rule, its label first. -/
def addAlternative (nodes : Array Node) (next : Nat) (a : Expansion) : Array Node × Nat :=
  let (nodes, first) := addItems nodes next a.body
  match a.label with
  | some l => (nodes.push (.name l first), nodes.size)
  | none => (nodes, first)

/-- Add several alternatives that all lead to the same place. -/
def addAlternatives (nodes : Array Node) (next : Nat) :
    List Expansion → Array Node × List Nat
  | [] => (nodes, [])
  | a :: rest =>
    let (nodes, first) := addAlternative nodes next a
    let (nodes, firsts) := addAlternatives nodes next rest
    (nodes, first :: firsts)

/-- Add the alternatives of a rule. A rule with a single one takes no
    decision. -/
def addRule (nodes : Array Node) (r : Rule) (alts : List Expansion) : Array Node × Nat :=
  match addAlternatives nodes r.index alts with
  | (nodes, [first]) => (nodes, first)
  | (nodes, firsts) => (nodes.push (.fork .choice firsts), nodes.size)

/-- The network of a grammar. -/
def ofProductions (productions : Rule → List Expansion) : Network :=
  let addNext (net : Network) (r : Rule) : Network :=
    let (nodes, start) := addRule net.nodes r (productions r)
    { nodes, starts := net.starts.push start }
  Rule.all.foldl addNext { nodes := (Rule.all.map Node.stop).toArray, starts := #[] }

end Network

end Compiscript
