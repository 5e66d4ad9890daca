/-!
# Missing Things

What an operation stops at when something it needs is not there. A tree that
holds a syntax error may lack any of its parts, and a name may have no type;
whoever cannot do without it gives up and says what it was.
-/

namespace Compiscript

/-- What was missing. -/
inductive Absent where
  /-- A part of a tree that has to be visited. -/
  | node
  /-- A token whose text is needed. -/
  | text
  /-- A type that another one is compared with. -/
  | type
  /-- Any children of a node. -/
  | children
deriving DecidableEq, Repr, Inhabited

end Compiscript
