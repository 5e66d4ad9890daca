/-!
# Three-Address Code

Instructions with an operation, two arguments and a result, each of which may
be missing.

An operand is nearly always a text: the name of a variable or temporary, a
literal as it was written, or a label. Numbers and truth values occur too, but
have no place in a listing, so the line of an instruction that holds one does
not exist; `NotText` says which part was in the way.

The operations of the code generator are named one by one, so that whoever
works on instructions can tell them apart; any other operation is kept as it
came.
-/

namespace Compiscript

/-- What stands in a place of an instruction. -/
inductive Operand where
  | none
  | text (s : String)
  | int (n : Int)
  | flag (b : Bool)
deriving DecidableEq, Repr, Inhabited

namespace Operand

/-- An operand as a text. -/
def display : Operand → String
  | none => "None"
  | text s => s
  | int n => toString n
  | flag true => "True"
  | flag false => "False"

def isNone : Operand → Bool
  | none => true
  | _ => false

end Operand

/-- The comparisons. -/
inductive Relation where
  | eq
  | ne
  | lt
  | le
  | gt
  | ge
deriving DecidableEq, Repr, Inhabited

/-- The operations. -/
inductive Op where
  | label
  | jump
  /-- Jump if the argument is zero. -/
  | ifz
  /-- Jump if the argument is not zero. -/
  | ifnz
  | add
  | sub
  | mul
  | div
  | mod
  | neg
  | not
  | cmp (r : Relation)
  | mov
  | print
  | enter
  | leave
  | ret
  | param
  | call
  | new
  /-- Read a field. -/
  | getp
  /-- Write a field. -/
  | movp
  | index
  | methodBegin
  /-- Any other operation. -/
  | other (name : Operand)
deriving DecidableEq, Repr, Inhabited

namespace Op

/-- The name of an operation. -/
def operand : Op → Operand
  | label => .text "LABEL"
  | jump => .text "JUMP"
  | ifz => .text "IFZ"
  | ifnz => .text "IFNZ"
  | add => .text "ADD"
  | sub => .text "SUB"
  | mul => .text "MUL"
  | div => .text "DIV"
  | mod => .text "MOD"
  | neg => .text "NEG"
  | not => .text "NOT"
  | cmp .eq => .text "CMP=="
  | cmp .ne => .text "CMP!="
  | cmp .lt => .text "CMP<"
  | cmp .le => .text "CMP<="
  | cmp .gt => .text "CMP>"
  | cmp .ge => .text "CMP>="
  | mov => .text "MOV"
  | print => .text "PRINT"
  | enter => .text "ENTER"
  | leave => .text "LEAVE"
  | ret => .text "RET"
  | param => .text "PARAM"
  | call => .text "CALL"
  | new => .text "NEW"
  | getp => .text "GETP"
  | movp => .text "MOVP"
  | index => .text "INDEX"
  | methodBegin => .text "METHOD_BEGIN"
  | other name => name

/-- The operations with a name of their own. -/
def named : List Op :=
  [label, jump, ifz, ifnz, add, sub, mul, div, mod, neg, not, cmp .eq, cmp .ne, cmp .lt, cmp .le,
    cmp .gt, cmp .ge, mov, print, enter, leave, ret, param, call, new, getp, movp, index,
    methodBegin]

/-- The operation with a given name. -/
def ofOperand (name : Operand) : Op :=
  (named.find? (·.operand = name)).getD (other name)

theorem ofOperand_operand (name : Operand) : (ofOperand name).operand = name := by
  simp only [ofOperand]
  cases h : named.find? (·.operand = name) with
  | none => rfl
  | some op => simpa using List.find?_some h

end Op

/-- An instruction. -/
structure Instr where
  op : Op
  a1 : Operand
  a2 : Operand
  res : Operand
  comment : String
deriving DecidableEq, Repr, Inhabited

/-- A part of an instruction that has no place in a listing, and the place
    where it stands in the line. -/
structure NotText where
  place : Nat
  found : Operand
deriving DecidableEq, Repr, Inhabited

namespace Instr

/-- An instruction without a comment. -/
def of (op : Op) (a1 a2 res : Operand) : Instr := ⟨op, a1, a2, res, ""⟩

/-- The parts of a line: the operation, the result and the arguments, without
    those that are missing. -/
def parts (i : Instr) : List Operand :=
  i.op.operand :: [i.res, i.a1, i.a2].filter (!·.isNone)

/-- The texts of parts, the first of which stands at a given place. -/
def texts (place : Nat) : List Operand → Except NotText (List String)
  | [] => .ok []
  | .text s :: rest => do return s :: (← texts (place + 1) rest)
  | o :: _ => .error ⟨place, o⟩

/-- The line of an instruction. -/
def line (i : Instr) : Except NotText String := do
  let text := " ".intercalate (← texts 0 i.parts)
  return if i.comment.isEmpty then text else text ++ "    # " ++ i.comment

end Instr

/-- Code that is being written, with the number of labels that were made up. -/
structure Tac where
  code : List Instr
  labels : Nat
deriving DecidableEq, Repr, Inhabited

namespace Tac

def empty : Tac := ⟨[], 0⟩

/-- Add an instruction. -/
def emit (p : Tac) (i : Instr) : Tac := { p with code := p.code ++ [i] }

/-- Add a label, with a name of its own if none is given. -/
def label (p : Tac) (name : Operand) : Operand × Tac :=
  match name with
  | .none =>
    let name := Operand.text ("L" ++ toString p.labels)
    (name, { p.emit (.of .label name .none .none) with labels := p.labels + 1 })
  | name => (name, p.emit (.of .label name .none .none))

/-- The name of a temporary. -/
def tempName (number : Operand) : String := "t" ++ number.display

/-- The lines of all instructions. -/
def lines (code : List Instr) : Except NotText (List String) := code.mapM Instr.line

/-- The lines of all instructions in one text. -/
def listing (p : Tac) : Except NotText String := do return "\n".intercalate (← lines p.code)

end Tac

end Compiscript
