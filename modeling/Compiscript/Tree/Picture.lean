import Compiscript.Tree

/-!
# The Picture of a Tree

A tree as a drawing: numbered boxes with a caption, and arrows.

Boxes are numbered in the order in which a walk from the root first comes to
them, and an arrow is drawn once the whole tree below it has been. The two
lists determine the tree up to its captions.
-/

namespace Compiscript

/-- Numbered boxes with their captions, and arrows between them, each in the
    order of drawing. -/
structure Picture where
  boxes : List (Nat × String)
  arrows : List (Nat × Nat)
deriving DecidableEq, Repr, Inhabited

namespace Picture

def empty : Picture := ⟨[], []⟩

/-- Draw one picture after the other. -/
def append (p q : Picture) : Picture := ⟨p.boxes ++ q.boxes, p.arrows ++ q.arrows⟩

end Picture

namespace Tree

/-- What is written into a box: the name of the rule, or the text of the token
    in quotes. -/
def caption : Tree → String
  | .node tag _ _ => tag.rule.name
  | .leaf t => "'" ++ t.text ++ "'"
  | .bad t => "'" ++ t.text ++ "'"

mutual

/-- Draw a tree with numbers from `next` on; the result also tells the next
    free number. -/
def draw (next : Nat) : Tree → Picture × Nat
  | t@(.node _ _ children) =>
    let (below, free) := drawAll next (next + 1) children
    (Picture.append ⟨[(next, t.caption)], []⟩ below, free)
  | t => (⟨[(next, t.caption)], []⟩, next + 1)

/-- Draw the children of box `parent`. -/
def drawAll (parent next : Nat) : List Tree → Picture × Nat
  | [] => (.empty, next)
  | t :: ts =>
    let (first, free) := draw next t
    let (rest, free) := drawAll parent free ts
    ((first.append ⟨[], [(parent, next)]⟩).append rest, free)

end

/-- The picture of a tree. -/
def picture (t : Tree) : Picture := (t.draw 0).1

end Tree

end Compiscript
