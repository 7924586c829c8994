import Kaleidoscope.CommandLine

/-!
The program: reads a source from a file or from standard input and reports on every form.
-/

open Kaleidoscope CommandLine

def main (args : List String) : IO UInt32 := do
  match Options.ofArgs? args with
  | none =>
    IO.eprintln "usage: kaleidoscope [--ir] [-O|--optimize] [--no-eval] [FILE]"
    return 2
  | some options =>
    let source ← match options.file with
      | some name => IO.FS.readFile name
      | none => (← IO.getStdin).readToEnd
    let report := CommandLine.run options source
    let stdout ← IO.getStdout
    stdout.write ⟨report.output⟩
    stdout.flush
    IO.eprint report.errors
    return 0
