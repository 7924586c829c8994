import Kaleidoscope.Reading

/-!
Readings as plain results: a value and the tokens after it, or an error. For each way of building a reading there is the
equation of its result, a rule for what it takes off the front, and a rule for when it is cut short by deep nesting.
-/

namespace Kaleidoscope

namespace Reading

/-- A value and the tokens left, or why there is none. -/
abbrev Result (α : Type) : Type := Except SyntaxError (α × List Token)

variable {α β : Type} {tokens : List Token}

/-- The reading without the proof that it has made progress. -/
def result (reading : Reading α tokens) : Result α := reading.map fun read => (read.1, read.2.1)

/-- The result with its value changed. -/
def Result.mapping (f : α → β) (read : Result α) : Result β := read.map fun (value, rest) => (f value, rest)

/-- Goes on with `next` where a result ends. -/
def Result.andThen (first : Result α) (next : α → List Token → Result β) : Result β :=
  match first with
  | .error reason => .error reason
  | .ok (value, rest) => next value rest

@[simp]
theorem result_error (reason : SyntaxError) : result (.error reason : Reading α tokens) = .error reason := rfl

@[simp]
theorem result_ok (value : α) (rest : { rest : List Token // rest.length < tokens.length }) :
    result (.ok (value, rest) : Reading α tokens) = .ok (value, rest.1) := rfl

@[simp]
theorem result_under {rest : List Token} (shorter : rest.length < tokens.length) (reading : Reading α rest) :
    (reading.under shorter).result = reading.result := by
  cases reading <;> rfl

@[simp]
theorem result_one (token : Token) (rest : List Token) (value : α) :
    (one token rest value).result = .ok (value, rest) := rfl

@[simp]
theorem result_skipping (token : Token) (reading : Reading α tokens) :
    (reading.skipping token).result = reading.result :=
  result_under _ reading

@[simp]
theorem result_mapping (f : α → β) (reading : Reading α tokens) :
    (reading.mapping f).result = reading.result.mapping f := by
  cases reading <;> rfl

@[simp]
theorem result_returning (value : β) (reading : Reading α tokens) :
    (reading.returning value).result = reading.result.mapping fun _ => value := by
  cases reading <;> rfl

@[simp]
theorem result_andThen (first : Reading α tokens) (next : α → (rest : List Token) → Reading β rest) :
    (first.andThen next).result = first.result.andThen fun value rest => (next value rest).result := by
  cases first with
  | error reason => rfl
  | ok read => exact result_under read.2.2 _

theorem result_eq_ok {reading : Reading α tokens} {value : α} {rest : List Token}
    (read : reading.result = .ok (value, rest)) :
    ∃ shorter : rest.length < tokens.length, reading = .ok (value, ⟨rest, shorter⟩) := by
  cases reading with
  | error reason => contradiction
  | ok whole =>
    cases read
    exact ⟨whole.2.2, rfl⟩

end Reading

open Reading

namespace Token

@[simp]
theorem result_unexpected {α : Type} (tokens : List Token) (expected : List Expectation) :
    (unexpected tokens expected : Reading α tokens).result = .error (.unexpected tokens.head? expected) := rfl

@[simp]
theorem result_expect_self (token : Token) (others : List Expectation) (rest : List Token) :
    (expect token others (token :: rest)).result = .ok ((), rest) := by
  simp [expect]

@[simp]
theorem result_identifier (name : String) (rest : List Token) :
    (identifier (.ident name :: rest)).result = .ok (name, rest) := rfl

end Token

namespace Reading.Result

variable {α β : Type} {tokens : List Token}

@[simp]
theorem mapping_ok (f : α → β) (value : α) (rest : List Token) :
    mapping f (.ok (value, rest)) = .ok (f value, rest) := rfl

@[simp]
theorem mapping_error (f : α → β) (reason : SyntaxError) : mapping f (.error reason) = .error reason := rfl

@[simp]
theorem andThen_ok (value : α) (rest : List Token) (next : α → List Token → Result β) :
    andThen (.ok (value, rest)) next = next value rest := rfl

@[simp]
theorem andThen_error (reason : SyntaxError) (next : α → List Token → Result β) :
    andThen (.error reason) next = .error reason := rfl

/-! What a result takes off the front of the tokens. -/

/-- If something is read, then it is good with the tokens taken and those left. -/
def Takes (read : Result α) (tokens : List Token) (good : α → List Token → List Token → Prop) : Prop :=
  ∀ value rest, read = .ok (value, rest) → ∃ used, tokens = used ++ rest ∧ good value used rest

variable {good : α → List Token → List Token → Prop} {better : β → List Token → List Token → Prop}

theorem Takes.error (reason : SyntaxError) : Takes (.error reason : Result α) tokens good :=
  fun _ _ read => by contradiction

theorem Takes.one {token : Token} {rest : List Token} {value : α} (holds : good value [token] rest) :
    Takes (.ok (value, rest)) (token :: rest) good := by
  intro value' rest' read
  cases read
  exact ⟨[token], rfl, holds⟩

theorem Takes.skipping {read : Result α} {token : Token}
    (takes : read.Takes tokens fun value used rest => good value (token :: used) rest) :
    read.Takes (token :: tokens) good := by
  intro value rest same
  obtain ⟨used, rfl, holds⟩ := takes value rest same
  exact ⟨token :: used, rfl, holds⟩

theorem Takes.mapping {read : Result α} {f : α → β}
    (takes : read.Takes tokens fun value used rest => better (f value) used rest) :
    (read.mapping f).Takes tokens better := by
  intro value rest same
  cases read with
  | error reason => contradiction
  | ok whole =>
    cases same
    exact takes _ _ rfl

theorem Takes.andThen {first : Result α} {next : α → List Token → Result β} (takes : first.Takes tokens good)
    (later : ∀ value used rest, tokens = used ++ rest → good value used rest →
      (next value rest).Takes rest fun value' used' rest' => better value' (used ++ used') rest') :
    (first.andThen next).Takes tokens better := by
  intro value rest same
  cases first with
  | error reason => contradiction
  | ok whole =>
    obtain ⟨value', rest'⟩ := whole
    obtain ⟨used, rfl, holds⟩ := takes _ _ rfl
    obtain ⟨used', rfl, holds'⟩ := later value' used rest' rfl holds value rest same
    exact ⟨used ++ used', (List.append_assoc _ _ _).symm, holds'⟩

theorem Takes.mono {read : Result α} {worse : α → List Token → List Token → Prop} (takes : read.Takes tokens worse)
    (implies : ∀ value used rest, worse value used rest → good value used rest) : read.Takes tokens good := by
  intro value rest same
  obtain ⟨used, split, holds⟩ := takes value rest same
  exact ⟨used, split, implies value used rest holds⟩

/-! Results that need room for nesting. -/

/-- There is a result if there is room enough, and nesting is too deep otherwise. -/
def Within (read : Result α) (enough : Prop) (value : α) (rest : List Token) : Prop :=
  (enough → read = .ok (value, rest)) ∧ (¬ enough → read = .error .nestingTooDeep)

variable {read : Result α} {enough more : Prop} {value : α} {rest : List Token}

theorem Within.congr (within : read.Within enough value rest) (same : more ↔ enough) :
    read.Within more value rest := by
  rwa [propext same]

theorem Within.mapping (within : read.Within enough value rest) (f : α → β) :
    (read.mapping f).Within enough (f value) rest := by
  constructor
  · intro room
    rw [within.1 room, mapping_ok]
  · intro deep
    rw [within.2 deep, mapping_error]

theorem Within.andThen {next : α → List Token → Result β} {value' : β} {rest' : List Token}
    (within : read.Within enough value rest) (later : (next value rest).Within more value' rest') :
    (read.andThen next).Within (enough ∧ more) value' rest' := by
  by_cases room : enough
  · rw [within.1 room, andThen_ok]
    exact later.congr (by simp [room])
  · rw [within.2 room]
    exact ⟨fun both => absurd both.1 room, fun _ => rfl⟩

theorem Within.andThen_eq {next : α → List Token → Result β} {value' : β} {rest' : List Token}
    (within : read.Within enough value rest) (later : next value rest = .ok (value', rest')) :
    (read.andThen next).Within enough value' rest' := by
  refine (within.andThen (⟨fun _ => later, fun never => absurd trivial never⟩ : Within _ True _ _)).congr ?_
  rw [and_true]

end Reading.Result

namespace Token

theorem takes_expect (token : Token) (others : List Expectation) (tokens : List Token) :
    (expect token others tokens).result.Takes tokens fun _ used _ => used = [token] := by
  unfold expect
  split
  · exact .error _
  · split
    · next same =>
      subst same
      exact .one rfl
    · exact .error _

theorem takes_identifier (tokens : List Token) :
    (identifier tokens).result.Takes tokens fun name used _ => used = [.ident name] := by
  unfold identifier
  split
  · exact .one rfl
  · exact .error _

end Token

end Kaleidoscope
