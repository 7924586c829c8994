import Kaleidoscope.Machine.Output

/-!
A sink that keeps its bytes in order, up to a capacity if there is one.
-/

namespace Kaleidoscope.Machine

structure Sink where
  written : Array UInt8
  capacity : Option Nat
  flushFails : Bool
  deriving DecidableEq

namespace Sink

def unbounded : Sink := ⟨#[], none, false⟩

/-- How many of `count` bytes the sink still takes. -/
def room (sink : Sink) (count : Nat) : Nat :=
  match sink.capacity with
  | some capacity => min count (capacity - sink.written.size)
  | none => count

instance : Output Sink where
  write sink bytes :=
    let room := sink.room bytes.length
    let after := { sink with written := sink.written ++ bytes.take room }
    if room < bytes.length then .part room "output full" after else .all after
  flush sink := (if sink.flushFails then some "flush failed" else none, sink)

end Sink

end Kaleidoscope.Machine
