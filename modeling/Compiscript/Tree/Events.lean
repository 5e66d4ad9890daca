import Compiscript.Tree

/-!
# Walking a Tree

A walk from the root, in the order of the text: what is met on the way, with
an event for coming to a node and one for leaving it.
-/

namespace Compiscript

/-- What a walk meets. -/
inductive Event where
  | enter (tag : Tag) (start : Pos)
  | leave (tag : Tag)
  | token (text : String)
  /-- A token that was skipped or made up. -/
  | bad (text : String)
deriving DecidableEq, Repr, Inhabited

namespace Event

/-- One line per event. -/
def display : Event → String
  | enter tag p => "+" ++ tag.name ++ " " ++ toString p.line ++ ":" ++ toString p.column
  | leave tag => "-" ++ tag.name
  | token text => "=" ++ text
  | bad text => "!" ++ text

end Event

namespace Tree

mutual

/-- The events of a tree. -/
def events : Tree → List Event
  | .node tag start children => .enter tag start :: (eventsOf children ++ [.leave tag])
  | .leaf t => [.token t.text]
  | .bad t => [.bad t.text]

/-- The events of a list of trees. -/
def eventsOf : List Tree → List Event
  | [] => []
  | t :: ts => t.events ++ eventsOf ts

end

end Tree

end Compiscript
