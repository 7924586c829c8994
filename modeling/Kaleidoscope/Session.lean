import Kaleidoscope.Error
import Kaleidoscope.Flow.Listing
import Kaleidoscope.Lowering.Form
import Kaleidoscope.Machine.Run

/-!
Sessions: forms are lowered one by one, and bare expressions run at once and are then removed. Definitions and
precedences carry over from one source to the next.
-/

namespace Kaleidoscope

open Kaleidoscope.Flow

structure Config where
  moduleName : String
  /-- Run the standard passes on every finished function. -/
  optimize : Bool
  /-- Run bare expressions. -/
  evaluate : Bool
  limits : Machine.Limits
  deriving DecidableEq

def Config.standard : Config where
  moduleName := "my cool jit"
  optimize := false
  evaluate := true
  limits := ⟨10000000, 1000⟩

structure Session (σ : Type) where
  context : Context
  sink : σ
  table : PrecedenceTable
  evaluate : Bool
  limits : Machine.Limits

namespace Session

/-- What became of a form. -/
inductive Outcome where
  | declared (name : String)
  | defined (name : String)
  | value (value : Double)
  | failed (reason : Error)
  deriving DecidableEq

/-- What became of a form, and what was written meanwhile. -/
structure Event where
  outcome : Outcome
  output : Array UInt8
  deriving DecidableEq

/-- What became of a form that wrote nothing. -/
def Outcome.silent (outcome : Outcome) : Event := ⟨outcome, #[]⟩

variable {σ : Type}

def new (config : Config) (sink : σ) : Session σ where
  context := .new (.new config.moduleName (if config.optimize then Pass.standard else []))
  sink := sink
  table := .standard
  evaluate := config.evaluate
  limits := config.limits

def module (session : Session σ) : Module := session.context.builder.module

def removeFunction (session : Session σ) (id : Nat) : Session σ :=
  { session with
    context := { session.context with builder := session.context.builder.delete id } }

variable [Machine.Output σ]

/-- Runs a function without parameters and removes it, whatever comes of it. -/
def runOnce (session : Session σ) (id : Nat) : Event × Session σ :=
  let run := Machine.runFunction session.module session.limits session.sink id []
  let session := { session with sink := run.sink }.removeFunction id
  match run.result with
  | .ok value => (⟨.value value, run.output⟩, session)
  | .error fault => (⟨.failed (.evaluation fault), run.output⟩, session)

/-- What follows once a form has been lowered to the function `id`. -/
def settle (session : Session σ) (form : Form) (id : Nat) : Event × Session σ :=
  match form with
  | .declaration proto => ((Outcome.declared proto.name).silent, session)
  | .definition proto _ =>
    if !proto.isAnonymous then
      ((Outcome.defined proto.name).silent, session)
    else if session.evaluate then
      session.runOnce id
    else
      ((Outcome.defined (session.module.displayName id)).silent, session)

def handleForm (session : Session σ) (form : Form) : Event × Session σ :=
  let lowered := form.lower session.context session.table
  let session := { session with context := lowered.context, table := lowered.table }
  match lowered.result with
  | .ok id => session.settle form id
  | .error reason => ((Outcome.failed (.lowering reason)).silent, session)

def handle (session : Session σ) (form : Except SyntaxError Form) : Event × Session σ :=
  match form with
  | .ok form => session.handleForm form
  | .error reason => ((Outcome.failed (.reading reason)).silent, session)

/-- Handles every form of a source. -/
def run (session : Session σ) (source : String) : List Event × Session σ :=
  let step (state : List Event × Session σ) (table : PrecedenceTable) (form : Except SyntaxError Form) :=
    let (events, before) := state
    let (event, after) := { before with table := table }.handle form
    ((event :: events, after), after.table)
  let ((events, session), table) :=
    Form.fold step ([], session) session.table (Token.significant source)
  (events.reverse, { session with table := table })

end Session

end Kaleidoscope
