import Compiscript.Tac.Columns
import Compiscript.Text.Utf8
import Compiscript.Tools

/-!
# The Compiling Command

A command that reads a file and writes two: one with its three-address code,
with tabs, and one with its assembly. The program is not checked beforehand.
-/

namespace Compiscript

/-- Why a command stopped before its end. -/
inductive CompileFault where
  /-- The file is no text. -/
  | undecodable (f : Utf8.Fault)
  /-- No code could be generated. -/
  | generator (t : Trouble)
deriving Repr, Inhabited

/-- What the command did: what it printed, what it wrote, and why it stopped
    early if it did. -/
structure CompileReport where
  lines : List String
  tac : Option String
  asm : Option String
  fault : Option CompileFault
deriving Repr, Inhabited

/-- Compile the program in a file, given by its name and its bytes. -/
def compileFile (tools : Tools) (name : String) (bytes : List UInt8) : CompileReport :=
  let started := ["Compilando " ++ name ++ "..."]
  match Utf8.decode bytes with
  | .error f => ⟨started, none, none, some (.undecodable f)⟩
  | .ok source =>
    let parsed := parse source
    if parsed.errors.isEmpty then
      match tools.generate parsed.tree none with
      | .error t => ⟨started, none, none, some (.generator t)⟩
      | .ok code =>
        let generated := started ++ ["✅ TAC generado: build/tac.txt"]
        match tools.assemble code with
        | .ok asm =>
          ⟨generated ++ ["✅ ASM MIPS generado: build/output.s"], some (Tac.tabbed code), some asm,
            none⟩
        | .error t =>
          ⟨generated ++ ["⚠️ No se pudo generar MIPS (backend no disponible o error interno).",
            t.message], some (Tac.tabbed code), none, none⟩
    else ⟨started ++ ["❌ Error de sintaxis"], none, none, none⟩

end Compiscript
