import Compiscript.Mips.Registers
import Compiscript.Mips.Strings
import Compiscript.Tac
import Compiscript.Text.Digit
import Compiscript.Text.Find

/-!
# From Three-Address Code to Assembly

Each instruction of three-address code becomes a few of assembly.

An operand is first brought into a register. Literals go to the scratch
register, one after the other, so an instruction with two of them sees the
second one twice. Some names have registers of their own: `this`, three fields
of a fixed name, and the parameters of a function. All other names are
variables.

Besides registers and strings, lowering keeps the operands that wait for a
call, and the variables that hold strings. The latter decide how a value is
printed. A sum with a string in it prints its operands and gives the empty
string.

The start of a function or of the program forgets all of this but the strings.
-/

namespace Compiscript.Mips

/-- The state of lowering. -/
structure Lowering where
  asm : List Asm
  registers : Registers
  strings : Strings
  /-- The operands that wait for a call. -/
  pending : List (Option String)
  /-- The variables that hold strings. -/
  stringVars : List (Option String)
deriving Repr, Inhabited

namespace Lowering

/-- Nothing has been lowered yet. -/
def start : Lowering :=
  { asm := [], registers := .empty, strings := .start, pending := [], stringVars := [] }

end Lowering

/-- Why an instruction cannot be lowered. -/
inductive LowerFault where
  /-- There is no label where one is needed. -/
  | noLabel
  /-- Digits that do not make up a number. -/
  | notNumber (text : String)
deriving DecidableEq, Repr, Inhabited

/-- A step of lowering. -/
abbrev Lower := StateM Lowering

namespace Lower

/-- An operand in a text. -/
def shown (operand : Option String) : String := operand.getD "None"

/-- Whether an operand is an integer, with a minus sign or without. -/
def isLiteral (operand : Option String) : Bool :=
  match operand.map String.toList with
  | none => false
  | some cs =>
    Text.isNumeral cs ||
      (match cs with
        | '-' :: rest => Text.isNumeral rest
        | _ => false)

/-- Whether an operand is a string with its quotes. -/
def isStringLiteral (operand : Option String) : Bool := operand.any isQuoted

def emit (a : Asm) : Lower Unit := modify fun s => { s with asm := s.asm ++ [a] }

def emitAll (as : List Asm) : Lower Unit := modify fun s => { s with asm := s.asm ++ as }

/-- The register of a variable. -/
def registerOf (var : Option String) : Lower Reg := do
  let (r, registers) := (← get).registers.take var
  modify fun s => { s with registers }
  return r

/-- The label of a string. -/
def stringLabel (operand : String) : Lower String := do
  let (l, strings) := (← get).strings.add operand
  modify fun s => { s with strings }
  return l

/-- Whether a variable holds a string. -/
def holdsString (var : Option String) : Lower Bool := do return (← get).stringVars.contains var

/-- Write down that a variable holds a string. -/
def markString (var : Option String) : Lower Unit :=
  modify fun s =>
    { s with stringVars := if s.stringVars.contains var then s.stringVars
        else s.stringVars ++ [var] }

/-- The number of a parameter, for names such as `param2`. -/
def parameter? (name : String) : Option Int :=
  if Text.startsWith "param" name then Text.readInt? (Text.without "param" name) else none

/-- The register a parameter is read from. -/
def parameterRegister (index : Int) : Reg :=
  if index = 0 then .temp 0
  else if index = 1 then .temp 1
  else if index = 2 then .temp 2
  else .arg index

/-- Bring an operand into a register. -/
def ensure (operand : Option String) : Lower Reg := do
  match operand with
  | none =>
    emit (.comment "WARNING: ensure_in_reg llamado con None, usando $zero")
    return .zero
  | some "this" => return .this
  | some "nombre" => return .temp 0
  | some "edad" => return .temp 1
  | some "grado" => return .temp 2
  | some name =>
    if isLiteral (some name) then
      emit (.li .scratch name)
      return .scratch
    else if isQuoted name then
      emit (.la .scratch (← stringLabel name))
      return .scratch
    else if name = "log" then
      emit (.la .scratch (Strings.label 0))
      return .scratch
    else
      match parameter? name with
      | some index => return parameterRegister index
      | none => registerOf (some name)

/-! ### Jumps -/

def placeLabel (label : Option String) : Lower Unit := emit (.label (shown label))

def jump (label : Option String) : Lower Unit := emit (.j (shown label))

/-- Jump if a value is zero. -/
def ifZero (cond label : Option String) : Lower Unit := do
  emit (.beq (← ensure cond) .zero (shown label))

/-- Jump if a value is not zero. -/
def ifNotZero (cond label : Option String) : Lower Unit := do
  emit (.bne (← ensure cond) .zero (shown label))

/-! ### Printing and moving -/

/-- Call the system with a number. -/
def systemCall (number : Nat) : List Asm := [.li .result (toString number), .syscall]

/-- Print a value, as a string if it is known to be one and as an integer
    otherwise. -/
def print (operand : Option String) : Lower Unit := do
  match operand with
  | none => emit (.comment "WARNING: PRINT llamado con None, ignorado")
  | some s =>
    if isQuoted s then
      emitAll (.la (.arg 0) (← stringLabel s) :: systemCall 4)
    else
      let call := if ← holdsString operand then 4 else 1
      emitAll (.move (.arg 0) (← ensure operand) :: systemCall call)

/-- Put a value into a variable. -/
def move (value var : Option String) : Lower Unit := do
  match var, value with
  | none, _ => emit (.comment "WARNING: MOV con destino None ignorado")
  | some _, some s =>
    if isLiteral value then emit (.li (← registerOf var) s)
    else if isQuoted s then
      let rd ← registerOf var
      emit (.la rd (← stringLabel s))
      markString var
    else
      let rs ← ensure value
      emit (.move (← registerOf var) rs)
      if ← holdsString value then markString var
  | some _, none =>
    let rs ← ensure none
    emit (.move (← registerOf var) rs)
    if ← holdsString none then markString var

/-! ### Operators -/

/-- An operation on one operand. -/
def unary (code : Reg → Reg → List Asm) (a res : Option String) : Lower Unit := do
  let r ← ensure a
  let rd ← registerOf res
  emitAll (code rd r)

/-- An operation on two operands. -/
def binary (code : Reg → Reg → Reg → List Asm) (a1 a2 res : Option String) : Lower Unit := do
  let r1 ← ensure a1
  let r2 ← ensure a2
  let rd ← registerOf res
  emitAll (code rd r1 r2)

/-- Whether an operand is or holds a string. -/
def isString (operand : Option String) : Lower Bool := do
  return operand.isSome && (isStringLiteral operand || (← holdsString operand))

/-- The empty string, in a variable. -/
def emptyString (var : Option String) : Lower Unit := do
  if var.isSome then
    let rd ← registerOf var
    emitAll [.la .scratch (Strings.label 0), .move rd .scratch]
    markString var

/-- Print an operand, if there is one. -/
def printAny (operand : Option String) : Lower Unit :=
  if operand.isSome then print operand else pure ()

/-- A sum. With a string in it, its operands are printed and the result is the
    empty string. -/
def add (a1 a2 res : Option String) : Lower Unit := do
  let first ← isString a1
  let second ← isString a2
  if first || second then
    printAny a1
    printAny a2
    emptyString res
  else binary (fun rd r1 r2 => [.addu rd r1 r2]) a1 a2 res

def sub : (a1 a2 res : Option String) → Lower Unit := binary fun rd r1 r2 => [.subu rd r1 r2]

def mul : (a1 a2 res : Option String) → Lower Unit := binary fun rd r1 r2 => [.mul rd r1 r2]

def div : (a1 a2 res : Option String) → Lower Unit :=
  binary fun rd r1 r2 => [.div r1 r2, .mflo rd]

def mod : (a1 a2 res : Option String) → Lower Unit :=
  binary fun rd r1 r2 => [.div r1 r2, .mfhi rd]

def neg : (a res : Option String) → Lower Unit := unary fun rd r => [.subu rd .zero r]

def not : (a res : Option String) → Lower Unit := unary fun rd r => [.sltiu rd r 1]

/-- The code of a comparison. -/
def compareCode (r : Relation) (rd r1 r2 : Reg) : List Asm :=
  match r with
  | .eq => [.xor rd r1 r2, .sltiu rd rd 1]
  | .ne => [.xor rd r1 r2, .sltu rd .zero rd]
  | .lt => [.slt rd r1 r2]
  | .le => [.slt rd r2 r1, .sltiu rd rd 1]
  | .gt => [.slt rd r2 r1]
  | .ge => [.slt rd r1 r2, .sltiu rd rd 1]

def compare (r : Relation) : (a1 a2 res : Option String) → Lower Unit := binary (compareCode r)

/-! ### Objects -/

/-- Where a field lies in its object. -/
def fieldOffset (field : Option String) : Nat :=
  match field with
  | some "edad" => 4
  | some "color" => 8
  | some "grado" => 12
  | _ => 0

/-- A new object: four words, all zero. -/
def newObject (className res : Option String) : Lower Unit := do
  let rd ← registerOf res
  emitAll ([.comment ("NEW " ++ shown className), .li (.arg 0) "16"] ++ systemCall 9 ++
    [.move rd .result, .sw .zero 0 rd, .sw .zero 4 rd, .sw .zero 8 rd, .sw .zero 12 rd])

/-- Read a field. Those at the places of a name and of a colour are strings. -/
def getField (object field res : Option String) : Lower Unit := do
  let base ← ensure object
  let rd ← registerOf res
  let offset := fieldOffset field
  emitAll [.comment ("GETP " ++ shown object ++ "." ++ shown field ++ " -> " ++ shown res),
    .lw rd offset base]
  if offset = 0 || offset = 8 then markString res

/-- Write a field. -/
def setField (value object field : Option String) : Lower Unit := do
  let rv ← ensure value
  let base ← ensure object
  emitAll [.comment ("SETP " ++ shown object ++ "." ++ shown field ++ " = " ++ shown value),
    .sw rv (fieldOffset field) base]

/-! ### Functions -/

/-- The start of a function. The first argument is the object of a method, and
    the next three are its parameters. -/
def enter : Lower Unit :=
  emitAll [.addi .stack .stack (-24), .sw .link 20 .stack, .sw .frame 16 .stack,
    .sw (.arg 0) 12 .stack, .sw (.arg 1) 8 .stack, .sw (.arg 2) 4 .stack, .sw (.arg 3) 0 .stack,
    .move .frame .stack, .comment "Guardar this en $s7 (registro saved)", .move .this (.arg 0),
    .move (.temp 0) (.arg 1), .move (.temp 1) (.arg 2), .move (.temp 2) (.arg 3)]

/-- Give the frame of a function back. -/
def leave : Lower Unit :=
  emitAll [.move .stack .frame, .lw (.arg 3) 0 .stack, .lw (.arg 2) 4 .stack,
    .lw (.arg 1) 8 .stack, .lw (.arg 0) 12 .stack, .lw .frame 16 .stack, .lw .link 20 .stack,
    .addi .stack .stack 24]

/-- Return from a function, with a value if there is one. -/
def ret (value : Option String) : Lower Unit := do
  if value.isSome then emit (.move .result (← ensure value))
  leave
  emit (.jr .link)

/-- Let an operand wait for a call. -/
def param (operand : Option String) : Lower Unit :=
  modify fun s => { s with pending := s.pending ++ [operand] }

/-- Forget the operands that wait for a call. -/
def clearPending : Lower Unit := modify fun s => { s with pending := [] }

/-- A call that prints its argument, which is also the result. -/
def printCall (number : Nat) (stringResult : Bool) (res : Option String) : Lower Unit := do
  match (← get).pending.head?.join with
  | none => pure ()
  | some arg =>
    let r ← ensure (some arg)
    emitAll (.move (.arg 0) r :: systemCall number)
    if res.isSome then
      emit (.move (← registerOf res) (.arg 0))
      if stringResult then markString res

/-- Put arguments into their registers, from number `i` on. -/
def passArguments (i : Nat) : List (Option String) → Lower Unit
  | [] => pure ()
  | none :: rest => passArguments (i + 1) rest
  | some arg :: rest => do
    emit (.move (.arg i) (← ensure (some arg)))
    passArguments (i + 1) rest

/-- Whether a label is that of a constructor. -/
def isConstructor (name : String) : Bool := Text.holds "_constructor" name

/-- The functions whose result is known to be a string. -/
def stringFunctions : List String := ["saludar", "estudiar", "incrementarEdad"]

/-- The result of a call: the object for a constructor, and otherwise what the
    function returned. -/
def callResult (name : String) (res : Option String) : Lower Unit := do
  if res.isSome then
    let rd ← registerOf res
    if isConstructor name then emit (.move rd .this)
    else
      emit (.move rd .result)
      if stringFunctions.contains name then markString res

/-- A call of a function. A constructor finds its object in a register of its
    own. At most four arguments are passed. -/
def callFunction (label name : String) (res : Option String) : Lower Unit := do
  let args := (← get).pending
  match args with
  | object :: _ =>
    if isConstructor name then emit (.move .this (← ensure object))
  | [] => pure ()
  passArguments 0 (args.take 4)
  emit (.jal label)
  callResult name res

/-- The name of a function, from its label. -/
def nameOfLabel (label : String) : String :=
  if Text.startsWith "func_" label then String.ofList (label.toList.drop 5) else label

/-- Call what a label names. Three functions are built in. -/
def call (label : String) (res : Option String) : Lower Unit := do
  let name := nameOfLabel label
  match name with
  | "printString" => printCall 4 true res
  | "printInteger" => printCall 1 false res
  | "toString" => emptyString res
  | name => callFunction label name res
  clearPending

/-! ### Instructions -/

/-- An operand as lowering sees it. -/
def operandText : Operand → Option String
  | .none => none
  | o => some o.display

/-- Forget everything but the code and the strings. -/
def forget : Lower Unit :=
  modify fun s => { s with registers := .empty, pending := [], stringVars := [] }

/-- Whether a label starts a function or the program. -/
def startsAfresh (label : String) : Bool := label = "program_start" || Text.startsWith "func_" label

/-- A label. That of the end of the program stops the machine. -/
def label (name : Option String) : ExceptT LowerFault Lower Unit := do
  placeLabel name
  match name with
  | none => throw .noLabel
  | some name =>
    if startsAfresh name then forget
    if name = "program_end" then
      emitAll ([.blank, .heading "Exit program"] ++ systemCall 10)

/-- The first of two texts that is there and not empty, or the second. -/
def orElseText (a b : Option String) : Option String :=
  match a with
  | some "" => b
  | some s => some s
  | none => b

/-- The start of a function. Its argument is not used, but it has to make
    sense. -/
def enterFunction (size : Option String) : ExceptT LowerFault Lower Unit := do
  match size with
  | some s =>
    if Text.isNumeral s.toList && (Text.readInt? s).isNone then throw (.notNumber s)
  | none => pure ()
  enter

/-- Call a label that may be missing. -/
def callLabel (label res : Option String) : ExceptT LowerFault Lower Unit := do
  match label with
  | some l => call l res
  | none => throw .noLabel

/-- Lower an instruction. -/
def instruction (i : Instr) : ExceptT LowerFault Lower Unit := do
  let a1 := operandText i.a1
  let a2 := operandText i.a2
  let res := operandText i.res
  match i.op with
  | .label => label (orElseText res a1)
  | .jump => jump (orElseText a1 res)
  | .ifz => ifZero a1 res
  | .ifnz => ifNotZero a1 res
  | .add => add a1 a2 res
  | .sub => sub a1 a2 res
  | .mul => mul a1 a2 res
  | .div => div a1 a2 res
  | .mod => mod a1 a2 res
  | .neg => neg a1 res
  | .not => not a1 res
  | .cmp r => compare r a1 a2 res
  | .mov => move a1 res
  | .print => print a1
  | .enter => enterFunction a1
  | .leave => pure ()
  | .ret => ret a1
  | .param => param a1
  | .call => callLabel a1 res
  | .new => newObject a1 res
  | .getp => getField a1 a2 res
  | .movp => setField a1 a2 res
  | op => emit (.comment ("Unsupported TAC op: " ++ op.operand.display))

end Lower

end Compiscript.Mips
