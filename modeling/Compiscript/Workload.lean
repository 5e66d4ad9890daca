import Compiscript.Tools
import Compiscript.Workload.Source

/-!
# Workloads

Small jobs that keep one part of the compiler busy, the size of which can be
chosen. Each gives a few figures that sum up what it did.
-/

namespace Compiscript

/-- A figure of a result. -/
inductive Figure where
  | count (n : Int)
  | text (s : String)
  | flag (b : Bool)
deriving DecidableEq, Repr, Inhabited

/-- The jobs. -/
inductive Workload where
  | compilePasses
  | semanticChecker
  | mipsBackend
  | runtimeLayouts
  | scopeResolution
  | tacProgram
  | registerAllocator
  | parseTreeAccept
deriving DecidableEq, Repr, Inhabited

namespace Workload

def all : List Workload :=
  [compilePasses, semanticChecker, mipsBackend, runtimeLayouts, scopeResolution, tacProgram,
    registerAllocator, parseTreeAccept]

def name : Workload → String
  | compilePasses => "compile_passes"
  | semanticChecker => "semantic_checker"
  | mipsBackend => "mips_backend"
  | runtimeLayouts => "runtime_layouts"
  | scopeResolution => "scope_resolution"
  | tacProgram => "tac_program"
  | registerAllocator => "register_allocator"
  | parseTreeAccept => "parse_tree_accept"

/-- The job with a given name. -/
def ofName? (name : String) : Option Workload := all.find? (·.name = name)

/-- The tree of the source; its syntax errors do not matter. -/
def tree (n : Nat) : Tree := (parse (source n)).tree

/-- The state of the checker after the source. -/
def checked (n : Nat) : Checker := (Checker.run (tree n) .start).2

/-- The length of an assembly text, and the number of its lines. -/
def extent (code : List Instr) : Nat × Nat :=
  match Mips.program code with
  | .ok s => (s.length, (s.toList.filter (· = '\n')).length + 1)
  | .error _ => (0, 0)

/-- Check the source, generate its code twice over the same symbols, and
    assemble it. -/
def compileFigures (n : Nat) : List Figure :=
  let t := tree n
  let s := (Checker.run t .start).2
  let first := (Generator.run t (.start (some s.scopes.global))).2
  let second := (Generator.run t (.start first.symbols)).2
  [.count second.code.length, .count second.labels, .count (extent second.code).1]

/-- How many names a symbol brings along: the parameters of a function, and the
    methods of a class. -/
def attached (classes : Classes) (sym : Symbol) : Nat :=
  match sym.detail with
  | .variable .. => 0
  | .function params _ _ => params.length
  | .class id => ((classes.get? id).map (·.methods.keys.length)).getD 0

/-- Check the source. -/
def checkFigures (n : Nat) : List Figure :=
  let s := checked n
  let symbols := s.scopes.global.values
  [.count s.errors.length,
    .count (symbols.length + (symbols.map (attached s.classes)).foldr (· + ·) 0 : Nat),
    .count s.classNames.keys.length]

/-- Instructions of kinds that programs do not lead to: operands that are
    missing, names with registers of their own, and an unknown operation. -/
def oddities : List Instr :=
  [.of .label (.text "func_go") .none .none,
    .of .mov (.text "1") .none .none,
    .of .print .none .none .none,
    .of .neg .none .none (.text "x"),
    .of .mov (.text "nombre") .none (.text "x"),
    .of .mov (.text "edad") .none (.text "x"),
    .of .mov (.text "grado") .none (.text "x"),
    .of .mov (.text "log") .none (.text "y"),
    .of .mov (.text "param0") .none (.text "x"),
    .of .mov (.text "param1") .none (.text "x"),
    .of .mov (.text "param2") .none (.text "x"),
    .of .mov (.text "param3") .none (.text "x"),
    .of .getp (.text "p") (.text "color") (.text "c"),
    .of .call (.text "func_saludar") .none (.text "r"),
    .of .ifnz (.text "x") .none (.text "L"),
    .of .jump .none .none (.text "L"),
    .of (.other (.text "NOP")) .none .none .none,
    .of .div (.text "x") (.text "y") (.text "z"),
    .of .leave .none .none .none,
    .of .ret (.text "z") .none .none]

/-- Assemble the code of the source, with some oddities behind it. -/
def mipsFigures (n : Nat) : List Figure :=
  let code := (Generator.run (tree n) (.start none)).2.code
  let (length, lines) := extent (code ++ oddities)
  [.count length, .count lines]

/-- A frame with two parameters and three locals. -/
def sampleFrame (function : String) : Frame :=
  let param (name : String) (type : Ty) (f : Frame) : Frame :=
    (f.addParam (.ofParameter name type)).1
  let place (name : String) (width : Int) (f : Frame) : Frame :=
    let sym := Symbol.ofVariable name .integer false false
    (f.addLocal { sym with place := { sym.place with width := some width } }).1
  (place "z" 4 (place "y" 8 (place "x" 4
    (param "b" .string (param "a" .integer (.empty function)))))).finalize

/-- Lay out the frames of `n` functions. -/
def frameFigures (n : Nat) : List Figure :=
  let frames := (List.range n).foldl
    (fun fs k => fs.set (sampleFrame ("f" ++ toString k))) Frames.empty
  [.count ((frames.table.values.map (·.frameSize)).foldr (· + ·) 0),
    .count frames.table.keys.length]

/-- Define two names outside and one in each of `n` scopes, one inside the
    other, and look them all up from the innermost one. There has to be a scope
    inside. -/
def scopeFigures? (n : Nat) : Option (List Figure) :=
  let variableNamed (name : String) : Symbol := .ofVariable name .integer false true
  let add (name : String) (s : Scopes) : Scopes := (s.define? (variableNamed name)).getD s
  let outer := add "b" (add "a" .empty)
  let inner := (List.range n).foldl (fun s k => add ("v" ++ toString k) s.push) outer
  if n = 0 then none
  else
    let names := ["a", "b"] ++ (List.range n).map fun k => "v" ++ toString k
    some [.count (names.filter fun x => (inner.resolve? x).isSome).length,
      .flag (outer.define? (variableNamed "a")).isNone,
      .count (sizeOfType .integer), .count (sizeOfType (.class "string"))]

/-- Write `n` instructions down, every fifth one with a comment. -/
def tacFigures (n : Nat) : List Figure :=
  let begun := (Tac.empty.label (.text "program_start")).2.emit
    ⟨.mov, .text "1", .none, .text "x", "init"⟩
  let code := (List.range n).foldl
    (fun p k =>
      let number := toString k
      p.emit ⟨.mov, .text "x", .none, .text ("t" ++ number),
        if k % 5 = 0 then "instruction #" ++ number else ""⟩) begun
  let first := (code.code[1]?.map Instr.line).getD (.ok "")
  [.count (code.listing.toOption.getD "").length, .text (Tac.tempName (.int 3)),
    .count (first.toOption.getD "").length]

/-- Ask for the registers of `n` variables, numbers and strings, of which only
    37 are different. -/
def registerFigures (n : Nat) : List Figure :=
  let ask (k : Nat) : Mips.Lower Unit := do
    let number := toString k
    let _ ← Mips.Lower.registerOf (some ("v" ++ number))
    let _ ← Mips.Lower.ensure (some number)
    let _ ← Mips.Lower.ensure (some ("\"s" ++ toString (k % 37) ++ "\""))
  let all : Mips.Lower Unit := do
    (List.range n).forM ask
    let _ ← Mips.Lower.ensure none
    let _ ← Mips.Lower.ensure (some "log")
  let s := (all.run .start).2
  [.count s.asm.length, .count s.strings.lines.length, .count s.registers.used.length]

mutual

/-- The tags of the nodes of a tree. -/
def tags : Tree → List Tag
  | .node tag _ children => tag :: tagsOf children
  | _ => []

/-- The tags of the nodes of a list of trees. -/
def tagsOf : List Tree → List Tag
  | [] => []
  | t :: rest => tags t ++ tagsOf rest

end

/-- Go through the nodes of the source, and add up the numbers and the lengths
    of the names of their rules. -/
def treeFigures (n : Nat) : List Figure :=
  let found := tags (tree n)
  let size (tag : Tag) : Nat := tag.rule.index + tag.rule.name.length
  [.count ((found.map size).foldr (· + ·) 0 : Nat), .count found.length]

/-- The figures of a job of a given size. -/
def run? (w : Workload) (n : Nat) : Option (List Figure) :=
  match w with
  | compilePasses => some (compileFigures n)
  | semanticChecker => some (checkFigures n)
  | mipsBackend => some (mipsFigures n)
  | runtimeLayouts => some (frameFigures n)
  | scopeResolution => scopeFigures? n
  | tacProgram => some (tacFigures n)
  | registerAllocator => some (registerFigures n)
  | parseTreeAccept => some (treeFigures n)

end Workload

end Compiscript
