import Compiscript.Tac.Columns
import Compiscript.Text.Tenths
import Compiscript.Tools

/-!
# The Page

What a page with an editor shows once its button has been pressed: the errors
of the program, or else its three-address code and its assembly, each to be
looked at and to be taken away, and in any case its tree.

The code generator and the assembler may be missing. One that fails is reported
on the page; if it was the assembler, the first instructions are shown as well.
-/

namespace Compiscript

/-- What a page can show. -/
inductive Widget where
  | success (text : String)
  | error (text : String)
  | warning (text : String)
  | info (text : String)
  | caption (text : String)
  | subheader (text : String)
  | code (text : String)
  /-- A button that gives a text away. -/
  | download (data : String)
  /-- Columns of the same width. -/
  | columns (count : Nat)
  /-- Columns of given widths. -/
  | weightedColumns (weights : List Nat)
  /-- The icon for a program in order. -/
  | icon
  | spinner (text : String)
  | count (label : String) (n : Nat)
  | measure (label value : String)
  | trouble (t : Trouble)
  | expander (text : String)
  | write (text : String)
  /-- A text with the code itself. -/
  | writeCode (text : String)
  | picture (p : Picture)
deriving Repr, Inhabited

/-- Why there is no page at all. -/
inductive PageFault where
  /-- The checker gave up. -/
  | abandoned (a : Absent)
  /-- An instruction that was to be shown has no line. -/
  | unlisted (n : NotText)
deriving Repr, Inhabited

/-- What was chosen on the page. -/
structure Page where
  source : String
  showTac : Bool
  showMips : Bool
  hasIcon : Bool
  /-- Whether there is a code generator. -/
  hasGenerator : Bool
  /-- Whether there is an assembler. -/
  hasAssembler : Bool
deriving Repr, Inhabited

namespace Page

/-- The program in the editor of a new page. -/
def defaultSource : String :=
  "let x: integer = 10;\n" ++
  "const PI: integer = 314;\n" ++
  "function suma(a: integer, b: integer): integer \x7b\n" ++
  "  return a + b;\n" ++
  "\x7d\n" ++
  "let y: integer;\n" ++
  "y = suma(x, 5);\n" ++
  "print(y);\n" ++
  "if (y > 10) \x7b \n" ++
  "  print(1); \n" ++
  "\x7d else \x7b \n" ++
  "  print(0); \n" ++
  "\x7d\n"

/-- Code in columns; all instructions of the generator have an operation. -/
def columns (code : List Instr) : String := (Tac.columns? code).getD ""

/-- Errors under a heading. -/
def errorList (heading : String) (errors : List String) : List Widget :=
  .error heading :: errors.map .code

/-- The generated code, if any, and what is shown of it. -/
def tacPart (p : Page) (tools : Tools) (t : Tree) (symbols : Table String Symbol) :
    List Widget × Option (List Instr) :=
  if p.showTac || p.showMips then
    if p.hasGenerator then
      match tools.generate t (some symbols) with
      | .error e => ([.error "❌ Error al generar TAC", .trouble e], none)
      | .ok code =>
        (if p.showTac then
          [.subheader "📋 Código Intermedio (TAC)", .code (columns code), .download (columns code)]
        else [], some code)
    else ([.warning "⚠️ No se puede generar TAC (ICG no disponible)"], none)
  else ([], none)

/-- The first instructions, one by one. -/
def firstInstructions (code : List Instr) : Except PageFault (List Widget) :=
  (code.take 10).mapIdx (fun n i => (n, i)) |>.mapM fun (n, i) =>
    match i.line with
    | .ok s => .ok (.write (toString n ++ ": " ++ s))
    | .error e => .error (.unlisted e)

/-- What is shown of the assembly. -/
def mipsPart (p : Page) (tools : Tools) (code : List Instr) : Except PageFault (List Widget) :=
  if p.hasAssembler then
    let opening : List Widget :=
      [.subheader "💾 Código Assembly MIPS", .spinner "Generando código MIPS..."]
    match tools.assemble code with
    | .ok asm =>
      let lines := (asm.toList.filter (· = '\n')).length + 1
      .ok (opening ++ [.code asm, .columns 3, .count "Líneas MIPS" lines,
        .count "Instrucciones TAC" code.length,
        .measure "Expansión" (Text.tenths lines (max code.length 1) ++ "x"),
        .columns 2, .download asm, .download (columns code)])
    | .error e => do
      return opening ++ [.error " Error al generar código MIPS", .trouble e,
        .expander "🔍 Información de Debug", .writeCode "TAC Program:",
        .write "Instrucciones TAC:"] ++ (← firstInstructions code)
  else .ok [.warning "⚠️ Generador MIPS no disponible"]

/-- What is shown of a program in order. -/
def acceptedPart (p : Page) (tools : Tools) (t : Tree) (symbols : Table String Symbol) :
    Except PageFault (List Widget) := do
  let (shown, code) := p.tacPart tools t symbols
  let mips ← match code with
    | some code => if p.showMips then p.mipsPart tools code else pure []
    | none => pure []
  return [.success "✅ ANÁLISIS SEMÁNTICO EXITOSO"] ++
    (if p.hasIcon then [.weightedColumns [1, 1, 1], .icon] else []) ++ shown ++ mips

/-- The tree. -/
def treePart (tools : Tools) (t : Tree) : List Widget :=
  .expander "Ver Árbol de Sintaxis (Parse Tree)" ::
    match tools.draw t with
    | .ok p => [.picture p]
    | .error e =>
      [.info "No se pudo renderizar el árbol (¿Graphviz instalado?)",
        .caption ("Error: " ++ e.message)]

/-- What is shown. -/
def widgets (p : Page) (tools : Tools) : Except PageFault (List Widget) := do
  let parsed := parse p.source
  let upper ←
    if parsed.errors.isEmpty then
      match Checker.run parsed.tree .start with
      | (.error a, _) => .error (.abandoned a)
      | (.ok _, s) =>
        if s.errors.isEmpty then p.acceptedPart tools parsed.tree s.scopes.global
        else pure (errorList "Errores Semánticos:" (s.errors.map SemanticError.display))
    else pure (errorList "Errores Sintácticos:" (parsed.errors.map SyntaxError.display))
  return upper ++ treePart tools parsed.tree

end Page

end Compiscript
