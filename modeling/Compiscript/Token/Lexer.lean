import Compiscript.Token
import Compiscript.Token.Pattern

/-!
# The Lexer

Cutting a source text into tokens.

The text is cut from the left. At each place all lexical rules read on in
parallel; the longest match wins, and of two rules that match equally far the
one listed first. Spellings stand before the classes, so `let` is a keyword and
`lets` an identifier.

Nothing is lost on the way. `cut` gives every piece of the text, the skipped
ones and the faults included, and `tokens` picks from those.
-/

namespace Compiscript

namespace Lexer

/-- Characters that begin an identifier. -/
def isNameStart (c : Char) : Bool := c.isAlpha || c == '_'

/-- Characters that continue an identifier. -/
def isNameRest (c : Char) : Bool := c.isAlphanum || c == '_'

/-- Characters that end a line, as far as strings and comments go. -/
def isLineEnd (c : Char) : Bool := c == '\n' || c == '\r'

def isBlank (c : Char) : Bool := c == ' ' || c == '\t' || c == '\r' || c == '\n'

def integerPattern : Pattern := .some (.one Char.isDigit)

/-- A string reaches to the next quote and stays on its line; there is no way
    to write a quote inside. -/
def stringPattern : Pattern :=
  .seq (.char '"') (.seq (.many (.one fun c => c != '"' && !isLineEnd c)) (.char '"'))

def identifierPattern : Pattern := .seq (.one isNameStart) (.many (.one isNameRest))

def lineCommentPattern : Pattern :=
  .seq (.text "//") (.many (.one fun c => !isLineEnd c))

/-- A block comment ends at the first `*/` behind its opening: its inside is
    made of characters other than a star, and of runs of stars followed by
    something other than a star or a slash. -/
def blockCommentPattern : Pattern :=
  .seq (.text "/*")
    (.seq
      (.many (.alt (.one (· != '*'))
        (.seq (.some (.char '*')) (.one fun c => c != '*' && c != '/'))))
      (.seq (.some (.char '*')) (.char '/')))

/-- What a token of each kind looks like. -/
def patternOf (k : Kind) : Pattern :=
  match k with
  | .endOfInput => .never
  | .literal => .alt integerPattern stringPattern
  | .integerLiteral => integerPattern
  | .stringLiteral => stringPattern
  | .identifier => identifierPattern
  | .blank => .some (.one isBlank)
  | .lineComment => lineCommentPattern
  | .blockComment => blockCommentPattern
  | k => .text (k.spelling?.getD "")

end Lexer

/-- The lexical rules in order of preference. -/
def lexicalRules : List (Kind × Pattern) :=
  (Kind.all.filter (· != .endOfInput)).map fun k => (k, Lexer.patternOf k)

namespace Lexer

/-- The rules that may still match after a character. -/
def readOn (c : Char) (rules : List (Kind × Pattern)) : List (Kind × Pattern) :=
  rules.filterMap fun (k, p) =>
    let q := p.after c
    if q.isDead then none else some (k, q)

/-- The first rule that has matched. -/
def winner? (rules : List (Kind × Pattern)) : Option Kind :=
  (rules.find? (·.2.isDone)).map (·.1)

/-- Let rules read on until none is left. The result is the longest match so
    far, given by its kind and length, and the number of characters looked at,
    the one that ended the race included. -/
def race (rules : List (Kind × Pattern)) (best : Option (Kind × Nat)) (n : Nat) :
    List Char → Option (Kind × Nat) × Nat
  | [] => (best, n)
  | c :: cs =>
    match readOn c rules with
    | [] => (best, n + 1)
    | left =>
      let best := match winner? left with
        | some k => some (k, n + 1)
        | none => best
      race left best (n + 1) cs

end Lexer

/-- What became of a piece of the source. -/
inductive Fate where
  | token (k : Kind)
  /-- No rule matched it. -/
  | fault
deriving DecidableEq, Repr, Inhabited

/-- A piece of the source with the place where it begins. -/
structure Piece where
  fate : Fate
  text : List Char
  pos : Pos
deriving DecidableEq, Repr, Inhabited

/-- The pieces of a text, in order. Every piece has at least one character,
    so cutting comes to an end. -/
def cut (pos : Pos) : List Char → List Piece
  | [] => []
  | c :: cs =>
    let (fate, len) := match Lexer.race lexicalRules none 0 (c :: cs) with
      | (some (k, len), _) => (Fate.token k, len)
      | (none, seen) => (Fate.fault, seen)
    let text := c :: cs.take (len - 1)
    ⟨fate, text, pos⟩ :: cut (pos.afterAll text) (cs.drop (len - 1))
termination_by cs => cs.length
decreasing_by
  simp only [List.length_drop, List.length_cons]
  omega

/-- The tokens of a text that the parser gets to see, and the end of the input
    behind them. -/
def tokens (source : String) : List Token :=
  let cs := source.toList
  let kept := (cut Pos.start cs).filterMap fun p =>
    match p.fate with
    | .token k => if k.isSkipped then none else some ⟨k, String.ofList p.text, p.pos⟩
    | .fault => none
  kept ++ [⟨.endOfInput, "<EOF>", Pos.start.afterAll cs⟩]

/-- The pieces of a text that no rule matched. -/
def lexicalFaults (source : String) : List Piece :=
  (cut Pos.start source.toList).filter (·.fate == .fault)

end Compiscript
