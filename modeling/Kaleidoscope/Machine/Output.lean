/-!
Where running programs write. A sink is anything that takes bytes: it has a state of its own, and it may fail at any
time and work again later.
-/

namespace Kaleidoscope.Machine

/-- What became of bytes that were to be written: all of them got through, or the first `count` did. -/
inductive Written (σ : Type) where
  | all (sink : σ)
  | part (count : Nat) (reason : String) (sink : σ)

namespace Written

variable {σ : Type}

def sink : Written σ → σ
  | all sink => sink
  | part _ _ sink => sink

def failure? : Written σ → Option String
  | all _ => none
  | part _ reason _ => some reason

/-- Those of `bytes` that got through. -/
def passed (bytes : List UInt8) : Written σ → List UInt8
  | all _ => bytes
  | part count _ _ => bytes.take count

end Written

class Output (σ : Type) where
  /-- Writes all of the bytes, in whatever pieces, or fails on the way. -/
  write : σ → List UInt8 → Written σ
  /-- Sends on what may have been held back; tells why that failed, if it did. -/
  flush : σ → Option String × σ

/-- A sink in use, and the bytes that have got through to it. -/
structure Port (σ : Type) where
  sink : σ
  output : Array UInt8

namespace Port

variable {σ : Type} [Output σ]

def new (sink : σ) : Port σ := ⟨sink, #[]⟩

def write (port : Port σ) (bytes : List UInt8) : Option String × Port σ :=
  let written := Output.write port.sink bytes
  (written.failure?, ⟨written.sink, port.output ++ written.passed bytes⟩)

def flush (port : Port σ) : Option String × Port σ :=
  let flushed := Output.flush port.sink
  (flushed.1, { port with sink := flushed.2 })

end Port

end Kaleidoscope.Machine
