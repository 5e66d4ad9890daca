import Compiscript.Symbol

/-!
# Frames

Where the parameters and local variables of a function live, counted from the
frame pointer.

Parameters lie above it, from offset 8 on, behind the saved return address and
frame pointer; each starts where those before it end. Locals lie below it, and
each starts as far below as all locals so far need together. A local declared a
second time gets a new slot, and the old one stays unused: the frame forgets it
but does not shrink.
-/

namespace Compiscript

/-- The width of a type in bytes. Only classes called after a wide type are
    wide themselves, whatever their capital letters. -/
def sizeOfType (t : Ty) : Int :=
  match (t.name?.getD "").toLower with
  | "float" | "double" | "string" => 8
  | _ => 4

/-- The next multiple of `k` from `n` on, upwards if `k` is positive and
    downwards if it is negative. Zero has no multiples to go to. -/
def alignTo? (n k : Int) : Option Int :=
  if k = 0 then none
  else
    let r := n.fmod k
    some (if r = 0 then n else n + (k - r))

/-- A place in a frame. -/
structure Slot where
  size : Int
  offset : Int
deriving DecidableEq, Repr, Inhabited

/-- The layout of the frame of a function. -/
structure Frame where
  function : String
  params : Table String Slot
  locals : Table String Slot
  paramsSize : Int
  localsSize : Int
  frameSize : Int
deriving Repr, Inhabited

namespace Frame

/-- A frame with nothing in it. -/
def empty (function : String) : Frame := ⟨function, .empty, .empty, 0, 0, 0⟩

/-- The width a symbol takes up. -/
def widthOf (sym : Symbol) : Int :=
  match sym.place.width with
  | some w => if w = 0 then sizeOfType sym.type else w
  | none => sizeOfType sym.type

/-- What a list of slots takes up. -/
def total (slots : List Slot) : Int := (slots.map (·.size)).foldr (· + ·) 0

/-- Place a parameter behind those already there. -/
def addParam (f : Frame) (sym : Symbol) : Frame × Symbol :=
  let offset := 8 + total f.params.values
  let width := widthOf sym
  ({ f with params := f.params.set sym.name ⟨width, offset⟩ },
    { sym with place := ⟨some .param, some width, some offset, some true⟩ })

/-- Place a local variable below those already there. -/
def addLocal (f : Frame) (sym : Symbol) : Frame × Symbol :=
  let width := widthOf sym
  let size := f.localsSize + width
  ({ f with locals := f.locals.set sym.name ⟨width, -size⟩, localsSize := size },
    { sym with place := { sym.place with
        storage := some .local, width := some width, offset := some (-size) } })

/-- Write down the sizes: of the parameters, and of the whole frame with its
    two saved words, in steps of eight bytes. -/
def finalize (f : Frame) : Frame :=
  { f with
    paramsSize := total f.params.values
    frameSize := (alignTo? (f.localsSize + 8) 8).getD 0 }

end Frame

/-- The frames of all functions, in the order in which they were first asked
    for. -/
structure Frames where
  table : Table String Frame
deriving Repr, Inhabited

namespace Frames

def empty : Frames := ⟨.empty⟩

/-- The frame of a function, empty if there is none yet. -/
def get (fs : Frames) (function : String) : Frame :=
  (fs.table.get? function).getD (.empty function)

/-- Write the frame of a function. -/
def set (fs : Frames) (f : Frame) : Frames := ⟨fs.table.set f.function f⟩

/-- Have a frame for a function. -/
def ensure (fs : Frames) (function : String) : Frames := fs.set (fs.get function)

end Frames

end Compiscript
