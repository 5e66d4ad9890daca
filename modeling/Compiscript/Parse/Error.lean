import Compiscript.Token.Lexer

/-!
# Syntax Errors

What is wrong with a text that is not in the language, and how to say it.
-/

namespace Compiscript

/-- A piece of source text as messages show it: in single quotes, with line
    ends and tabs written as escapes. -/
def quoted (s : String) : String :=
  let escape (c : Char) : String :=
    match c with
    | '\n' => "\\n"
    | '\r' => "\\r"
    | '\t' => "\\t"
    | c => c.toString
  "'" ++ String.join (s.toList.map escape) ++ "'"

/-- What is wrong with a text. Texts of tokens are given as they stand in the
    source. -/
inductive SyntaxFault where
  /-- No token begins like this. -/
  | unrecognized (text : String)
  /-- A token stands where only others can. -/
  | mismatched (found : String) (expected : Kinds)
  /-- The same, but leaving the token out mends it. -/
  | extraneous (found : String) (expected : Kinds)
  /-- The same, but putting a token in front of it mends it. -/
  | missing (expected : Kinds) (found : String)
  /-- No alternative begins like this. -/
  | noAlternative (text : String)
deriving DecidableEq, Repr, Inhabited

namespace SyntaxFault

/-- The wording of a fault. -/
def message : SyntaxFault → String
  | unrecognized text => "token recognition error at: " ++ quoted text
  | mismatched found expected =>
    "mismatched input " ++ quoted found ++ " expecting " ++ expected.display
  | extraneous found expected =>
    "extraneous input " ++ quoted found ++ " expecting " ++ expected.display
  | missing expected found => "missing " ++ expected.display ++ " at " ++ quoted found
  | noAlternative text => "no viable alternative at input " ++ quoted text

end SyntaxFault

/-- A fault and the place it is reported at. -/
structure SyntaxError where
  pos : Pos
  fault : SyntaxFault
deriving DecidableEq, Repr, Inhabited

namespace SyntaxError

/-- An error as it is listed for the user. -/
def display (e : SyntaxError) : String :=
  "[SyntaxError] L" ++ toString e.pos.line ++ ":C" ++ toString e.pos.column ++ " " ++
    e.fault.message

end SyntaxError

/-- The errors of the lexer alone. -/
def lexicalErrors (source : String) : List SyntaxError :=
  (lexicalFaults source).map fun p => ⟨p.pos, .unrecognized (String.ofList p.text)⟩

end Compiscript
