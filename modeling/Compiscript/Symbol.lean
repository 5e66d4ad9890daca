import Compiscript.Table
import Compiscript.Ty

/-!
# Symbols and Scopes

What a declared name stands for, and where it can be seen.

Every symbol has a name, a type and a placement, the place in a frame that code
generation gave it.

Classes are filled in while their members are being read, and they are reached
by several ways at once: as a symbol of a scope, by name, and as a base of
another class. A class symbol therefore holds a number, and the classes
themselves are kept in a list to which new ones are only ever added.
-/

namespace Compiscript

/-- Where a symbol lives in a frame. -/
inductive Storage where
  | local
  | param
deriving DecidableEq, Repr, Inhabited

namespace Storage

def name : Storage → String
  | .local => "local"
  | .param => "param"

end Storage

/-- A place in a frame, as far as it has been written. -/
structure Placement where
  storage : Option Storage
  width : Option Int
  offset : Option Int
  isParam : Option Bool
deriving DecidableEq, Repr, Inhabited

namespace Placement

/-- Nothing has been written. -/
def none : Placement := ⟨.none, .none, .none, .none⟩

/-- The placement of a variable before code generation. -/
def ofVariable : Placement := ⟨some .local, some 4, some 0, some false⟩

/-- The placement of a parameter before code generation. -/
def ofParameter : Placement := ⟨some .param, some 4, some 0, some true⟩

end Placement

/-- What distinguishes the kinds of symbols. -/
inductive Detail where
  /-- A variable or constant. `declaredParam` tells that it was declared as a
      parameter, `index` is its number as a parameter and −1 otherwise. -/
  | variable (declaredParam const init : Bool) (index : Int)
  /-- A function with the names and types of its parameters and, once code has
      been made for it, its labels. -/
  | function (params : List (String × Ty)) (entry exit : Option String)
  /-- A class, by its number. -/
  | class (id : Nat)
deriving DecidableEq, Repr, Inhabited

/-- What a declared name stands for. -/
structure Symbol where
  name : String
  type : Ty
  place : Placement
  detail : Detail
deriving DecidableEq, Repr, Inhabited

namespace Symbol

/-- A variable or constant. -/
def ofVariable (name : String) (type : Ty) (const init : Bool) : Symbol :=
  ⟨name, type, .ofVariable, .variable false const init (-1)⟩

/-- A parameter. -/
def ofParameter (name : String) (type : Ty) : Symbol :=
  ⟨name, type, .ofParameter, .variable true false false (-1)⟩

/-- A function. -/
def ofFunction (name : String) (type : Ty) (params : List (String × Ty)) : Symbol :=
  ⟨name, type, .none, .function params none none⟩

/-- A class. -/
def ofClass (name : String) (type : Ty) (id : Nat) : Symbol := ⟨name, type, .none, .class id⟩

/-- Whether a symbol is a constant. -/
def isConst (s : Symbol) : Bool :=
  match s.detail with
  | .variable _ const _ _ => const
  | _ => false

/-- A variable that has a value; other symbols stay as they are. -/
def initialized (s : Symbol) : Symbol :=
  match s.detail with
  | .variable p c _ i => { s with detail := .variable p c true i }
  | _ => s

end Symbol

/-- The members of a class, and the class it extends. -/
structure ClassInfo where
  name : String
  fields : Table String Symbol
  methods : Table String Symbol
  base : Option Nat
deriving Repr, Inhabited

/-- All classes. The number of a class is its place in the list. -/
structure Classes where
  all : List ClassInfo
deriving Repr, Inhabited

namespace Classes

def empty : Classes := ⟨[]⟩

def get? (cs : Classes) (id : Nat) : Option ClassInfo := cs.all[id]?

/-- Add a class without members; its number is the second result. -/
def add (cs : Classes) (name : String) : Classes × Nat :=
  (⟨cs.all ++ [⟨name, .empty, .empty, none⟩]⟩, cs.all.length)

/-- Change a class. -/
def modify (cs : Classes) (id : Nat) (f : ClassInfo → ClassInfo) : Classes :=
  ⟨cs.all.modify id f⟩

/-- The first class on the way from `id` through its bases for which `find`
    gives something. -/
def search {α : Type} (cs : Classes) (find : ClassInfo → Option α) (id : Nat) : Option α :=
  go cs.all.length (some id)
where
  go : (fuel : Nat) → Option Nat → Option α
    | 0, _ => none
    | _, none => none
    | fuel + 1, some id =>
      match cs.get? id with
      | none => none
      | some c =>
        match find c with
        | some a => some a
        | none => go fuel c.base

/-- The nearest field of a name. -/
def field? (cs : Classes) (id : Nat) (name : String) : Option Symbol :=
  cs.search (·.fields.get? name) id

/-- The nearest method of a name. -/
def method? (cs : Classes) (id : Nat) (name : String) : Option Symbol :=
  cs.search (·.methods.get? name) id

end Classes

/-- The visible names: one table for the program, and the tables of the blocks
    and functions inside it, the innermost first. -/
structure Scopes where
  inner : List (Table String Symbol)
  global : Table String Symbol
deriving Repr, Inhabited

namespace Scopes

/-- Nothing is declared yet. -/
def empty : Scopes := ⟨[], .empty⟩

/-- The innermost table. -/
def current (s : Scopes) : Table String Symbol := s.inner.headD s.global

/-- Change the innermost table. -/
def modifyCurrent (s : Scopes) (f : Table String Symbol → Table String Symbol) : Scopes :=
  match s.inner with
  | [] => { s with global := f s.global }
  | t :: rest => { s with inner := f t :: rest }

/-- Enter a new innermost scope. -/
def push (s : Scopes) : Scopes := { s with inner := .empty :: s.inner }

/-- Leave the innermost scope; the outermost one cannot be left. -/
def pop (s : Scopes) : Scopes := { s with inner := s.inner.tail }

/-- Add a name to the innermost scope, unless it is there already. -/
def define? (s : Scopes) (sym : Symbol) : Option Scopes :=
  if s.current.contains sym.name then none
  else some (s.modifyCurrent (·.set sym.name sym))

/-- What a name stands for, looked for from the innermost scope outwards. -/
def resolve? (s : Scopes) (name : String) : Option Symbol :=
  (s.inner.findSome? (·.get? name)).or (s.global.get? name)

/-- Change what a name stands for, in the scope where it is found. -/
def update (s : Scopes) (name : String) (f : Symbol → Symbol) : Scopes :=
  match s.inner.findIdx? (·.contains name) with
  | some i => { s with inner := s.inner.modify i (·.modify name f) }
  | none => { s with global := s.global.modify name f }

theorem resolve?_define {s s' : Scopes} {sym : Symbol} (h : s.define? sym = some s') :
    s'.resolve? sym.name = some sym := by
  simp only [define?] at h
  split at h
  · simp at h
  · injection h with h
    subst h
    rcases s with ⟨inner, global⟩
    cases inner with
    | nil => simp [modifyCurrent, resolve?]
    | cons t rest => simp [modifyCurrent, resolve?]

end Scopes

end Compiscript
