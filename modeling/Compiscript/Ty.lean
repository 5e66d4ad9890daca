/-!
# Types

The types of the language, as the checker sees them.

Two of them cannot be written in a program. `unknown` is what an expression has
when no type could be found for it, an undeclared name for instance; it may also
be the element type of an array. `any` is compatible with every known type; it
belongs to values that are described without a program.
-/

namespace Compiscript

/-- The types. -/
inductive Ty where
  /-- No type could be found. -/
  | unknown
  /-- Compatible with every known type. -/
  | any
  | integer
  | float
  | string
  | boolean
  | null
  | array (elem : Ty)
  | class (name : String)
deriving DecidableEq, Repr, Inhabited

namespace Ty

/-- A type as messages write it. -/
def display : Ty → String
  | unknown => "None"
  | any => ""
  | integer => "integer"
  | float => "float"
  | string => "string"
  | boolean => "boolean"
  | null => "null"
  | array elem => elem.display ++ "[]"
  | .class name => name

/-- Whether a value of type `b` may stand where one of type `a` is wanted.
    There is no answer if `a`, or an element type of it that has to be looked
    at, is unknown. -/
def accepts? (a b : Ty) : Option Bool :=
  match a, b with
  | unknown, _ => none
  | any, b => some (b != unknown)
  | array x, array y => x.accepts? y
  | .class x, .class y => some (decide (x = y))
  | integer, integer | float, float | string, string | boolean, boolean | null, null => some true
  | _, _ => some false

/-- Whether a type is known in all its parts and can be written. -/
def IsProper : Ty → Prop
  | unknown => False
  | any => False
  | array elem => elem.IsProper
  | _ => True

/-- A type that is known in all its parts accepts itself and nothing else. -/
theorem accepts?_of_isProper {a : Ty} (h : a.IsProper) (b : Ty) :
    a.accepts? b = some (decide (a = b)) := by
  induction a generalizing b with
  | unknown | any => exact h.elim
  | array elem ih =>
    cases b with
    | array elem' => simpa [accepts?] using ih h elem'
    | _ => rfl
  | _ => cases b <;> simp [accepts?]

theorem accepts?_self (a : Ty) (h : a.IsProper) : a.accepts? a = some true := by
  simp [accepts?_of_isProper h]

def isNumeric : Ty → Bool
  | integer | float => true
  | _ => false

/-- The type, or `null` in place of an unknown one. -/
def orNull : Ty → Ty
  | unknown => null
  | t => t

/-- The built-in type with a given name. Capital letters do not matter. -/
def primitive? (name : String) : Option Ty :=
  match name.toLower with
  | "int" | "integer" => some integer
  | "float" | "double" | "number" => some float
  | "string" | "str" => some string
  | "bool" | "boolean" => some boolean
  | "null" | "nil" | "none" => some null
  | _ => none

/-- The type that a text denotes. Only one pair of brackets is an array; what
    stands before it, if it is no built-in name, names a class. -/
def ofName (text : String) : Ty :=
  let cs := text.toList
  if text.isEmpty then null
  else if cs.drop (cs.length - 2) = ['[', ']'] then
    let base := String.ofList (cs.take (cs.length - 2))
    array ((primitive? base).getD (.class base))
  else
    match primitive? text with
    | some t => t
    | none => if text = "void" then null else .class text

/-- The name of a class type; other types have none. -/
def name? : Ty → Option String
  | .class name => some name
  | _ => none

end Ty

end Compiscript
