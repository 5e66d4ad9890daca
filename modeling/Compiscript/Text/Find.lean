/-!
# Finding Words in a Text

Whether a text begins with or holds another one, and what is left of it
without.
-/

namespace Compiscript.Text

/-- Whether a text begins with a word. -/
def startsWith (word s : String) : Bool := word.toList.isPrefixOf s.toList

/-- Whether a word stands somewhere in a list of characters. -/
def occursIn (word : List Char) : List Char → Bool
  | [] => word.isEmpty
  | c :: rest => word.isPrefixOf (c :: rest) || occursIn word rest

/-- Whether a text holds a word. -/
def holds (word s : String) : Bool := occursIn word.toList s.toList

/-- The characters without any occurrence of a word, found from left to right.
    The first `skip` of them belong to an occurrence that was just found. -/
def strip (word : List Char) : (skip : Nat) → List Char → List Char
  | _, [] => []
  | skip + 1, _ :: rest => strip word skip rest
  | 0, c :: rest =>
    if word.isPrefixOf (c :: rest) then strip word (word.length - 1) rest
    else c :: strip word 0 rest

/-- A text without any occurrence of a word. -/
def without (word s : String) : String := String.ofList (strip word.toList 0 s.toList)

end Compiscript.Text
