import Kaleidoscope.Machine.Sink
import Kaleidoscope.Session

/-!
The command line: what a run with given options prints.
-/

namespace Kaleidoscope.CommandLine

structure Options where
  /-- Where the source is; standard input if there is no name. -/
  file : Option String
  /-- Print the module at the end. -/
  listing : Bool
  optimize : Bool
  evaluate : Bool
  deriving DecidableEq

def Options.standard : Options := ⟨none, false, false, true⟩

/-- Takes in one argument. -/
def Options.add? (options : Options) (arg : String) : Option Options :=
  if arg = "--ir" then
    some { options with listing := true }
  else if arg = "-O" ∨ arg = "--optimize" then
    some { options with optimize := true }
  else if arg = "--no-eval" then
    some { options with evaluate := false }
  else if arg.startsWith "-" ∨ options.file.isSome then
    none
  else
    some { options with file := some arg }

def Options.ofArgs? (args : List String) : Option Options := args.foldlM Options.add? .standard

/-- What goes to standard output and to standard error. -/
structure Report where
  output : Array UInt8
  errors : String
  deriving DecidableEq

def bytes (text : String) : Array UInt8 := text.toUTF8.data

/-- The line about one form, after whatever the form itself wrote. -/
def Report.add (report : Report) (event : Session.Event) : Report :=
  let output := report.output ++ event.output
  match event.outcome with
  | .declared name => { report with output := output ++ bytes ("Read extern: " ++ name ++ "\n") }
  | .defined name =>
    { report with output := output ++ bytes ("Read function definition: " ++ name ++ "\n") }
  | .value value => { report with output := output ++ bytes ("Evaluated to " ++ value.text ++ "\n") }
  | .failed reason => ⟨output, report.errors ++ "error: " ++ reason.message ++ "\n"⟩

def run (options : Options) (source : String) : Report :=
  let config := { Config.standard with optimize := options.optimize, evaluate := options.evaluate }
  let (events, session) := (Session.new config Machine.Sink.unbounded).run source
  let report := events.foldl Report.add ⟨#[], ""⟩
  if options.listing then
    { report with output := report.output ++ bytes session.module.listing }
  else
    report

end Kaleidoscope.CommandLine
