/-!
# Tokens

What the lexer hands to the parser: a kind, the text as it stands in the
source, and the place where the text begins.

Kinds are numbered. The number fixes the order in which a set of kinds is
written out in a message, with the end of the input first, so that two sets
with the same members always read the same.
-/

namespace Compiscript

/-- The kinds of token. The first is the end of the input; the next ones have
    one spelling each; the last seven are classes of spellings, and the three
    at the very end are skipped by the lexer. -/
inductive Kind where
  | endOfInput
  | openBrace
  | closeBrace
  | kwLet
  | kwVar
  | semicolon
  | kwConst
  | assign
  | colon
  | dot
  | kwPrint
  | openParen
  | closeParen
  | kwIf
  | kwElse
  | kwWhile
  | kwDo
  | kwFor
  | kwForeach
  | kwIn
  | kwBreak
  | kwContinue
  | kwReturn
  | kwTry
  | kwCatch
  | kwSwitch
  | kwCase
  | kwDefault
  | kwFunction
  | comma
  | kwClass
  | question
  | orElse
  | andAlso
  | equals
  | differs
  | less
  | lessEq
  | greater
  | greaterEq
  | plus
  | minus
  | times
  | divide
  | modulo
  | bang
  | kwNull
  | kwTrue
  | kwFalse
  | kwNew
  | kwThis
  | openBracket
  | closeBracket
  | kwBoolean
  | kwInteger
  | kwString
  | literal
  | integerLiteral
  | stringLiteral
  | identifier
  | blank
  | lineComment
  | blockComment
deriving DecidableEq, Repr, Inhabited

namespace Kind

/-- The number of a kind. It orders the members of a set. -/
def index (k : Kind) : Nat := k.ctorIdx

/-- All kinds in the order of their numbers. -/
def all : List Kind :=
  [.endOfInput,
   .openBrace, .closeBrace, .kwLet, .kwVar, .semicolon, .kwConst, .assign, .colon, .dot,
   .kwPrint, .openParen, .closeParen, .kwIf, .kwElse, .kwWhile, .kwDo, .kwFor, .kwForeach,
   .kwIn, .kwBreak, .kwContinue, .kwReturn, .kwTry, .kwCatch, .kwSwitch, .kwCase, .kwDefault,
   .kwFunction, .comma, .kwClass, .question, .orElse, .andAlso, .equals, .differs, .less,
   .lessEq, .greater, .greaterEq, .plus, .minus, .times, .divide, .modulo, .bang, .kwNull,
   .kwTrue, .kwFalse, .kwNew, .kwThis, .openBracket, .closeBracket, .kwBoolean, .kwInteger,
   .kwString, .literal, .integerLiteral, .stringLiteral, .identifier, .blank, .lineComment,
   .blockComment]

/-- The one text of a kind that has only one. -/
def spelling? : Kind → Option String
  | .openBrace => some "\x7b"
  | .closeBrace => some "\x7d"
  | .kwLet => some "let"
  | .kwVar => some "var"
  | .semicolon => some ";"
  | .kwConst => some "const"
  | .assign => some "="
  | .colon => some ":"
  | .dot => some "."
  | .kwPrint => some "print"
  | .openParen => some "("
  | .closeParen => some ")"
  | .kwIf => some "if"
  | .kwElse => some "else"
  | .kwWhile => some "while"
  | .kwDo => some "do"
  | .kwFor => some "for"
  | .kwForeach => some "foreach"
  | .kwIn => some "in"
  | .kwBreak => some "break"
  | .kwContinue => some "continue"
  | .kwReturn => some "return"
  | .kwTry => some "try"
  | .kwCatch => some "catch"
  | .kwSwitch => some "switch"
  | .kwCase => some "case"
  | .kwDefault => some "default"
  | .kwFunction => some "function"
  | .comma => some ","
  | .kwClass => some "class"
  | .question => some "?"
  | .orElse => some "||"
  | .andAlso => some "&&"
  | .equals => some "=="
  | .differs => some "!="
  | .less => some "<"
  | .lessEq => some "<="
  | .greater => some ">"
  | .greaterEq => some ">="
  | .plus => some "+"
  | .minus => some "-"
  | .times => some "*"
  | .divide => some "/"
  | .modulo => some "%"
  | .bang => some "!"
  | .kwNull => some "null"
  | .kwTrue => some "true"
  | .kwFalse => some "false"
  | .kwNew => some "new"
  | .kwThis => some "this"
  | .openBracket => some "["
  | .closeBracket => some "]"
  | .kwBoolean => some "boolean"
  | .kwInteger => some "integer"
  | .kwString => some "string"
  | _ => none

/-- A kind as messages write it: its text in quotes if it has only one, else
    the name of the class. -/
def display (k : Kind) : String :=
  match k with
  | .endOfInput => "<EOF>"
  | .literal => "Literal"
  | .integerLiteral => "IntegerLiteral"
  | .stringLiteral => "StringLiteral"
  | .identifier => "Identifier"
  | .blank => "WS"
  | .lineComment => "COMMENT"
  | .blockComment => "MULTILINE_COMMENT"
  | k => "'" ++ k.spelling?.getD "" ++ "'"

/-- Whether the lexer drops tokens of this kind. -/
def isSkipped : Kind → Bool
  | .blank | .lineComment | .blockComment => true
  | _ => false

end Kind

/-- A set of kinds. Bit `i` tells whether the kind with number `i` is in. -/
structure Kinds where
  bits : Nat
deriving DecidableEq, Repr, Inhabited

namespace Kinds

def empty : Kinds := ⟨0⟩

def mem (s : Kinds) (k : Kind) : Bool := s.bits.testBit k.index

def insert (s : Kinds) (k : Kind) : Kinds := ⟨s.bits ||| 1 <<< k.index⟩

def union (s t : Kinds) : Kinds := ⟨s.bits ||| t.bits⟩

def ofList (ks : List Kind) : Kinds := ks.foldl insert empty

/-- The members in the order of their numbers. -/
def toList (s : Kinds) : List Kind := Kind.all.filter s.mem

/-- Whether two sets have no member in common. -/
def isDisjoint (s t : Kinds) : Bool := s.bits &&& t.bits == 0

/-- A set as messages write it: a single member by itself, several in braces
    in the order of their numbers. -/
def display (s : Kinds) : String :=
  match s.toList with
  | [k] => k.display
  | ks => "\x7b" ++ ", ".intercalate (ks.map Kind.display) ++ "\x7d"

theorem mem_insert (s : Kinds) (k j : Kind) :
    (s.insert k).mem j = (s.mem j || decide (k.index = j.index)) := by
  simp only [mem, insert, Nat.testBit_or, Nat.one_shiftLeft, Nat.testBit_two_pow]

theorem mem_union (s t : Kinds) (k : Kind) :
    (s.union t).mem k = (s.mem k || t.mem k) := by
  simp only [mem, union, Nat.testBit_or]

end Kinds

/-- A place in the source: lines count from 1 and columns from 0, both in
    characters, and only a line feed begins a new line. -/
structure Pos where
  line : Nat
  column : Nat
deriving DecidableEq, Repr, Inhabited

namespace Pos

/-- Where a text begins. -/
def start : Pos := ⟨1, 0⟩

/-- The place after a character. -/
def after (p : Pos) (c : Char) : Pos :=
  if c = '\n' then ⟨p.line + 1, 0⟩ else ⟨p.line, p.column + 1⟩

/-- The place after a run of characters. -/
def afterAll (p : Pos) (cs : List Char) : Pos := cs.foldl after p

end Pos

/-- A token: its kind, its text, and where the text begins. -/
structure Token where
  kind : Kind
  text : String
  pos : Pos
deriving DecidableEq, Repr, Inhabited

end Compiscript
