import Compiscript.Tree

/-!
# Parts of a Tree

Finding the children of a node by what they are.

The alternatives of a rule say which parts its nodes can have, and whether a
part can stand there more than once. `Tag.parts` reads that off the grammar, so
a part has a meaning for a kind of node before any tree is there: asking a node
for a part that its kind never has is a mistake, while asking for one that this
node lacks gives nothing.
-/

namespace Compiscript

/-- What a child can be: made by a rule, or a token of a class with a name. -/
inductive Part where
  | rule (r : Rule)
  | token (k : Kind)
deriving DecidableEq, Repr, Inhabited

namespace Part

/-- The name a part is asked for by. -/
def name : Part → String
  | rule .typeExpr => "type_"
  | rule r => r.name
  | token .endOfInput => "EOF"
  | token k => k.display

/-- Whether a child is such a part. Bad tokens count as tokens. -/
def fits (p : Part) (t : Tree) : Bool :=
  match p with
  | rule r => t.isOf r
  | token k => t.isToken k

end Part

namespace Item

mutual

/-- The parts of an item, each as often as it can stand there; twice is as
    good as any number. Tokens with a fixed text are no parts. -/
def parts : Item → List Part
  | .token k => if k.spelling?.isNone then [.token k] else []
  | .oneOf ks => (ks.filter (·.spelling?.isNone)).map Part.token
  | .rule r => [.rule r]
  | .optional body => bodyParts body
  | .repeated body => bodyParts body ++ bodyParts body
  | .choice alts => choiceParts alts

/-- The parts of a list of items. -/
def bodyParts : List Item → List Part
  | [] => []
  | item :: rest => item.parts ++ bodyParts rest

/-- The parts of a choice. No part stands in two of its lists. -/
def choiceParts : List (List Item) → List Part
  | [] => []
  | body :: rest => bodyParts body ++ choiceParts rest

end

end Item

namespace Tag

/-- The alternatives a node can have been made by. -/
def expansions (t : Tag) : List Expansion :=
  (production t.rule).filter (·.label == t.label)

/-- Whether a kind of node can have a part. -/
def has (t : Tag) (p : Part) : Bool :=
  t.expansions.any fun e => (Item.bodyParts e.body).contains p

/-- Whether it can have the part more than once. -/
def hasMany (t : Tag) (p : Part) : Bool :=
  t.expansions.any fun e => 1 < (Item.bodyParts e.body).count p

/-- The part of a kind of node that is asked for by a name. -/
def part? (t : Tag) (name : String) : Option Part :=
  (t.expansions.flatMap fun e => Item.bodyParts e.body).find? (·.name == name)

end Tag

/-- What a search came to. -/
inductive Found where
  | nothing
  | one (t : Tree)
  | many (ts : List Tree)
deriving Inhabited

/-- Why a step of a search makes no sense. -/
inductive NoPart where
  /-- A node of this kind never has such a part. -/
  | ofNode (tag : Tag) (name : String)
  /-- A token, bad or not, has no parts. -/
  | ofToken (bad : Bool) (name : String)
  /-- There is nothing to look in. -/
  | ofNothing (name : String)
  /-- A list is not a node. -/
  | ofMany (name : String)
  /-- A part that stands at most once cannot be counted through. -/
  | notCounted (tag : Tag) (name : String)
deriving Repr, Inhabited

namespace Found

/-- The first tree of a list, if there is one. -/
def ofOption : Option Tree → Found
  | some t => .one t
  | none => .nothing

/-- Look for a part. Without a number, a part that can stand there more than
    once gives the list of all, any other the first; with a number it gives
    that one, counted from 0. -/
def select (name : String) (index : Option Int) : Found → Except NoPart Found
  | .nothing => .error (.ofNothing name)
  | .many _ => .error (.ofMany name)
  | .one (.leaf _) => .error (.ofToken false name)
  | .one (.bad _) => .error (.ofToken true name)
  | .one (.node tag _ children) =>
    match tag.part? name with
    | none => .error (.ofNode tag name)
    | some p =>
      let fitting := children.filter p.fits
      match index with
      | some i =>
        if tag.hasMany p then
          .ok (.ofOption (if i < 0 then none else fitting[i.toNat]?))
        else .error (.notCounted tag name)
      | none => .ok (if tag.hasMany p then .many fitting else .ofOption fitting.head?)

/-- Follow a path of steps. -/
def follow (path : List (String × Option Int)) (start : Tree) : Except NoPart Found :=
  path.foldlM (fun found (name, index) => found.select name index) (.one start)

end Found

end Compiscript
