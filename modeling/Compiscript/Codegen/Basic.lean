import Compiscript.Absent
import Compiscript.Frame
import Compiscript.Tac
import Compiscript.Tac.Temps
import Compiscript.Tree

/-!
# Generating Code: the Ground

The state of a code generator, and the small steps it is made of.

Generating code for an expression gives a value: a text that stands for itself
in an instruction, such as a name or a literal, or a temporary that holds the
result. Whoever is done with a temporary gives it back to the pool.

The generator may know the symbols of the program.
-/

namespace Compiscript

/-- What an expression came to. -/
inductive Value where
  | none
  | text (s : String)
  | temp (n : Int)
deriving DecidableEq, Repr, Inhabited

namespace Value

/-- A value as an argument of an instruction. -/
def display : Value → String
  | none => "None"
  | text s => s
  | temp n => Tac.tempName (.int n)

def operand (v : Value) : Operand := .text v.display

end Value

/-- The state of a code generator. -/
structure Generator where
  code : List Instr
  temps : Temps
  frames : Frames
  /-- How many labels were made up. -/
  labels : Nat
  /-- The function that code is being made for. It is forgotten at the end of
      any function, also one declared inside it. -/
  function : Option String
  /-- The class whose members are being read, forgotten in the same way. -/
  inClass : Option String
  /-- The temporary for the result of the function, once there is one. -/
  result : Option Int
  /-- The symbols of the program, if they are known. -/
  symbols : Option (Table String Symbol)
deriving Repr, Inhabited

namespace Generator

/-- Nothing has been generated yet. -/
def start (symbols : Option (Table String Symbol)) : Generator :=
  { code := [], temps := .empty, frames := .empty, labels := 0, function := none, inClass := none,
    result := none, symbols }

end Generator

/-- A step of a code generator. -/
abbrev Gen := ExceptT Absent (StateM Generator)

namespace Gen

/-- Add an instruction. -/
def emit (op : Op) (a1 a2 res : Operand) : Gen Unit :=
  modify fun s => { s with code := s.code ++ [.of op a1 a2 res] }

/-- Put a label here. -/
def label (name : String) : Gen Unit := emit .label (.text name) .none .none

/-- Jump to a label. -/
def jump (name : String) : Gen Unit := emit .jump (.text name) .none .none

/-- Put a value into a variable. -/
def move (v : Value) (name : String) : Gen Unit := emit .mov v.operand .none (.text name)

/-- Make up a label. -/
def freshLabel : Gen String := do
  let n := (← get).labels
  modify fun s => { s with labels := n + 1 }
  return "L" ++ toString n

/-- Take a temporary. -/
def freshTemp : Gen Int := do
  let (n, temps) := (← get).temps.get
  modify fun s => { s with temps }
  return n

/-- Give a value back, if it is a temporary. -/
def release : Value → Gen Unit
  | .temp n => modify fun s => { s with temps := s.temps.release n }
  | _ => pure ()

/-- What a name of the program stands for, if the symbols are known. -/
def resolve? (name : String) : Gen (Option Symbol) := do
  return (← get).symbols.bind (·.get? name)

/-- Write a symbol back. -/
def store (sym : Symbol) : Gen Unit :=
  modify fun s => { s with symbols := s.symbols.map (·.modify sym.name fun _ => sym) }

/-- Place a symbol in the frame of a function, or a variable without a type if
    no symbol is known under the name. -/
def place (add : Frame → Symbol → Frame × Symbol) (function name : String)
    (sym : Option Symbol) : Gen Unit := do
  let frame := (← get).frames.get function
  let (frame, placed) := add frame (sym.getD (.ofVariable name .unknown false false))
  modify fun s => { s with frames := s.frames.set frame }
  if sym.isSome then store placed else pure ()

/-- Go on with something that may be missing. -/
def need {α : Type} (what : Absent) : Option α → Gen α
  | some a => pure a
  | none => throw what

/-- The text of the first token of a kind among the children. -/
def tokenText (t : Tree) (k : Kind) : Gen String := need .text (t.tokenText? k)

section Visit

variable {t : Tree} (visit : t.Sub → Gen Value)

/-- Visit a part that has to be there. -/
def visitPart (part : Option t.Sub) : Gen Value := do visit (← need .node part)

/-- Visit all children. The value of the last one is the result. -/
def visitAll : Gen Value := t.subs.foldlM (fun _ c => visit c) .none

/-- Visit a list of parts. -/
def visitEach (parts : List t.Sub) : Gen (List Value) := parts.mapM visit

end Visit

end Gen

end Compiscript
