import Compiscript.Command.Check
import Compiscript.Command.Compile

/-!
# Command Line

With a file name the program in the file is checked; with `--compile` before
the name it is compiled, and the results are written to the directory `build`.
-/

open Compiscript

/-- Check the program in a file. -/
def runCheck (file : Option String) : IO UInt32 := do
  let bytes ← file.mapM fun name => do return (← IO.FS.readBinFile name).toList
  let report := checkFile .standard bytes
  for line in report.lines do IO.println line
  return report.exitCode?.getD 1

/-- Compile the program in a file. -/
def runCompile (name : String) : IO UInt32 := do
  let report := compileFile .standard name (← IO.FS.readBinFile name).toList
  IO.FS.createDirAll "build"
  for text in report.tac do IO.FS.writeFile "build/tac.txt" text
  for text in report.asm do IO.FS.writeFile "build/output.s" text
  for line in report.lines do IO.println line
  return if report.fault.isSome then 1 else 0

def main (args : List String) : IO UInt32 :=
  match args with
  | ["--compile", name] => runCompile name
  | args => runCheck args.head?
