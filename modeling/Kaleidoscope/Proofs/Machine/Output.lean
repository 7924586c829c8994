import Kaleidoscope.Machine.Sink

/-!
What becomes of a sink in use: the states it can get to, the failures it can report, and that what has got through to
it stays.
-/

namespace Kaleidoscope.Machine

namespace Output

variable {σ : Type} [Output σ]

/-- The states that writing and flushing can lead a sink to. -/
inductive After (start : σ) : σ → Prop where
  | start : After start start
  | write {sink : σ} (before : After start sink) (bytes : List UInt8) : After start (Output.write sink bytes).sink
  | flush {sink : σ} (before : After start sink) : After start (Output.flush sink).2

theorem After.trans {first second third : σ} (early : After first second) (late : After second third) :
    After first third := by
  induction late with
  | start => exact early
  | write _ bytes ih => exact ih.write bytes
  | flush _ ih => exact ih.flush

/-- A sink whose flush does not fail, whenever it comes. -/
def Flushes (start : σ) : Prop := ∀ sink, After start sink → (Output.flush sink).1 = none

/-- A failure of the sink itself, of a write or of a flush. -/
inductive Fails (start : σ) (reason : String) : Prop where
  | write {sink : σ} (after : After start sink) (bytes : List UInt8)
      (fails : (Output.write sink bytes).failure? = some reason)
  | flush {sink : σ} (after : After start sink) (fails : (Output.flush sink).1 = some reason)

theorem Fails.earlier {start later : σ} {reason : String} (after : After start later) (fails : Fails later reason) :
    Fails start reason := by
  cases fails with
  | write after' bytes fails => exact .write (after.trans after') bytes fails
  | flush after' fails => exact .flush (after.trans after') fails

end Output

namespace Port

variable {σ : Type} [Output σ]

/-- What writing can make of a port. -/
inductive Grows (before : Port σ) : Port σ → Prop where
  | refl : Grows before before
  | write {middle : Port σ} (grows : Grows before middle) (bytes : List UInt8) : Grows before (middle.write bytes).2

variable {before middle after : Port σ}

theorem Grows.trans (first : before.Grows middle) (second : middle.Grows after) : before.Grows after := by
  induction second with
  | refl => exact first
  | write _ bytes ih => exact ih.write bytes

theorem Grows.sink (grows : before.Grows after) : Output.After before.sink after.sink := by
  induction grows with
  | refl => exact .start
  | write _ bytes ih => exact ih.write bytes

/-- What has got through stays. -/
theorem Grows.output (grows : before.Grows after) : before.output.toList <+: after.output.toList := by
  induction grows with
  | refl => exact List.prefix_refl _
  | write _ bytes ih => exact ih.trans (by simp [Port.write])

end Port

namespace Sink

private theorem flushFails_after {start sink : Sink} (after : Output.After start sink) :
    sink.flushFails = start.flushFails := by
  induction after with
  | start => rfl
  | @write sink _ bytes ih =>
    simp only [Output.write]
    split <;> exact ih
  | flush _ ih => exact ih

theorem flushes {sink : Sink} (set : sink.flushFails = false) : Output.Flushes sink := by
  intro later after
  simp [Output.flush, flushFails_after after, set]

private theorem written_write (sink : Sink) (bytes : List UInt8) :
    (Output.write sink bytes).sink.written = sink.written ++ (Output.write sink bytes).passed bytes := by
  simp only [Output.write]
  split
  · rfl
  · next fits => simp [Written.sink, Written.passed, List.take_of_length_le (Nat.le_of_not_lt fits)]

/-- Such a sink keeps the bytes that have got through. -/
theorem written_of_grows {before after : Port Sink} (grows : before.Grows after) :
    ∃ bytes : List UInt8, after.output = before.output ++ bytes ∧
      after.sink.written = before.sink.written ++ bytes := by
  induction grows with
  | refl => exact ⟨[], by simp⟩
  | @write middle _ bytes ih =>
    obtain ⟨passed, output, written⟩ := ih
    refine ⟨passed ++ (Output.write middle.sink bytes).passed bytes, ?_, ?_⟩
    · exact Array.ext' (by simp [Port.write, output])
    · exact Array.ext' (by simp [Port.write, written_write, written])

end Sink

end Kaleidoscope.Machine
