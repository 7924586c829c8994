import Kaleidoscope.Proofs.Lowering.Decides
import Kaleidoscope.Proofs.Lowering.Scope
import Kaleidoscope.Proofs.Session.Registry

/-!
When a definition fails. The outcome is decided by the functions that there are, with their numbers of parameters and
whether they have bodies, and by the prototypes. A function without a name makes one exception: it can be called by the
number that it gets for a name, and so by a number that is not to be seen in the functions that there are.
-/

namespace Kaleidoscope

open Kaleidoscope.Flow

/-- The binary operators in the body of a form. -/
def Form.operators : Form → List Char
  | declaration _ => []
  | definition _ body => body.operators

/-- What can be told of a context without its code: the names in scope, each function that has not been removed with its
number of parameters and whether it has a body, and the prototypes. -/
structure Outline where
  names : List String
  functions : List (String × Nat × Bool)
  prototypes : String → Option Prototype

def Context.outline (c : Context) : Outline where
  names := c.scope.entries.map Prod.fst
  functions := c.builder.module.live.map fun (_, f) => (f.name, f.params.length, !f.isDeclaration)
  prototypes := c.prototype?

namespace Outline

variable (outline : Outline)

/-- The number of parameters of a function and whether it has a body. Nothing has the empty name. -/
def function? (name : String) : Option (Nat × Bool) :=
  if name.isEmpty then none else outline.functions.lookup name

/-- The functions that the body of a definition can call, its own among them. -/
def known (given : String) (count : Nat) (name : String) : Option Nat :=
  match outline.function? name with
  | some (expected, _) => some expected
  | none => if name = given then some count else (outline.prototypes name).map (·.params.length)

variable {outline} in
private theorem known_eq_none {given name : String} {count : Nat} (missing : outline.known given count name = none) :
    name ≠ given ∧ outline.prototypes name = none := by
  unfold known at missing
  cases function : outline.function? name with
  | some entry => simp [function] at missing
  | none =>
    rw [function] at missing
    dsimp only at missing
    split at missing
    · contradiction
    · next other => exact ⟨other, Option.map_eq_none_iff.mp missing⟩

/-- What is wrong with a definition. `number` is the name of its function if it has none of its own. -/
def check (number : String) (proto : Prototype) (body : Expr) : Except LoweringError Unit :=
  let given := if proto.isAnonymous then number else proto.name
  let inner := body.check (outline.known given proto.params.length) proto.params.reverse
  match (if proto.isAnonymous then none else outline.function? proto.name) with
  | some (count, hasBody) =>
    if hasBody then .error (.redefinition proto.name)
    else if count = proto.params.length then inner
    else .error (.conflictingDeclaration proto.name)
  | none => inner

theorem check_finds (number : String) (proto : Prototype) (body : Expr) :
    Expr.Finds (outline.known (if proto.isAnonymous then number else proto.name) proto.params.length)
      (· ∈ body.operators) (outline.check number proto body) := by
  have inner {known : String → Option Nat} :
      Expr.Finds known (· ∈ body.operators) (body.check known proto.params.reverse) :=
    body.check_finds _ fun _ member => member
  unfold check
  generalize (if proto.isAnonymous then number else proto.name) = given
  generalize (if proto.isAnonymous then none else outline.function? proto.name) = existing
  cases existing with
  | none => exact inner
  | some existing =>
    dsimp only
    split
    · exact .error ⟨by simp, by simp⟩
    · split
      · exact inner
      · exact .error ⟨by simp, by simp⟩

end Outline

namespace Flow.Module

private theorem map_live {β : Type} (m : Module) (view : Function → β) :
    m.live.map (fun (_, f) => view f) = (m.functions.toList.filter (!·.removed)).map view := by
  have plain : m.functions.toList.zipIdx.map Prod.fst = m.functions.toList := by simp
  calc m.live.map (fun (_, f) => view f)
    _ = (m.functions.toList.zipIdx.filter (!·.1.removed)).map (view ·.1) := by
      simp [live, List.filter_map, Function.comp_def]
    _ = ((m.functions.toList.zipIdx.map Prod.fst).filter (!·.removed)).map view := by
      rw [List.filter_map, List.map_map]
      rfl
    _ = (m.functions.toList.filter (!·.removed)).map view := by rw [plain]

/-- The first live function of a name, in the list of all of them and by its number. -/
theorem lookup_live {β : Type} (name : String) (view : Function → β) (functions : List Function) :
    ((functions.filter (!·.removed)).map fun f => (f.name, view f)).lookup name =
      ((functions.findIdx? fun f => !f.removed && f.name == name).bind (functions[·]?)).map view := by
  induction functions with
  | nil => rfl
  | cons f functions ih =>
    have behind (found : Option Nat) :
        (found.map (· + 1)).bind ((f :: functions)[·]?) = found.bind (functions[·]?) := by
      cases found <;> rfl
    by_cases live : f.removed = true
    · simp [List.findIdx?_cons, live, ih, behind]
    · by_cases same : f.name = name
      · simp [List.findIdx?_cons, live, same]
      · have other : (name == f.name) = false := by simpa using Ne.symm same
        simp [List.findIdx?_cons, live, same, other, ih, List.lookup_cons, behind]

end Flow.Module

namespace Context

variable {c : Context} {proto : Prototype}

private theorem function?_outline (c : Context) (name : String) :
    c.outline.function? name =
      (c.builder.find? name).map fun id => (c.builder.paramCount id, c.builder.hasBody id) := by
  unfold Outline.function? Builder.find?
  split
  · rfl
  · have live := Module.lookup_live name (fun f => (f.params.length, !f.isDeclaration))
      c.builder.module.functions.toList
    rw [← Module.map_live _ fun f => (f.name, f.params.length, !f.isDeclaration)] at live
    refine live.trans ?_
    rw [show c.builder.module.find? name = _ from List.findIdx?_toArray _ c.builder.module.functions.toList]
    cases found : c.builder.module.functions.toList.findIdx? fun f => !f.removed && f.name == name with
    | none => rfl
    | some id =>
      obtain ⟨inside, _⟩ := List.findIdx?_eq_some_iff_getElem.mp found
      have listed := List.getElem?_eq_getElem inside
      have raw : c.builder.module.raw? id = some c.builder.module.functions.toList[id] :=
        Array.getElem?_toList.symm.trans listed
      simp only [Builder.paramCount, Builder.hasBody, Module.paramCount, Module.hasBody, raw, Option.bind_some, listed,
        Option.map_some]

/-- The contexts that can be had: from a new one on, by lowering forms and expressions, with anything done to the
builder in between. -/
inductive Attainable : Context → Prop where
  | new (builder : Builder) : Attainable (.new builder)
  | form {c : Context} (before : Attainable c) (form : Form) : Attainable (form.lowering c).2
  | expr {c : Context} (before : Attainable c) (e : Expr) : Attainable (Lowering.expr e c).2
  | change {c : Context} (before : Attainable c) (builder : Builder) : Attainable { c with builder := builder }

/-- To register the prototype of a function that is there changes nothing for its callers. -/
theorem arity?_registering (there : proto.isAnonymous = true ∨ c.builder.find? proto.name ≠ none) (name : String) :
    (c.registering proto).arity? name = c.arity? name := by
  unfold arity?
  rw [registering_builder]
  cases found : c.builder.find? name with
  | some id => rfl
  | none =>
    by_cases same : name = proto.name
    · rcases there with anonymous | there
      · rw [registering, if_pos anonymous]
      · exact absurd (same ▸ found) there
    · rw [prototype?_registering_of_ne c same]

end Context

namespace Lowering

open Kaleidoscope.Context (registering_builder)

variable {c d : Context} {known : String → Option Nat} {names : List String} {proto : Prototype} {id : Nat}

/-- The parameters come into scope one after the other. -/
theorem bindParams_shows (id : Nat) (params : List String) (index : Nat) (seen : c.Shows known names) :
    ∃ d, bindParams id params index c = (.ok (), d) ∧ d.Shows known (params.reverse ++ names) := by
  induction params generalizing index c names with
  | nil => exact ⟨c, rfl, seen⟩
  | cons name params ih =>
    obtain ⟨fine, after⟩ := Decides.newVariable id name (.param index) c seen
    rw [bindParams, bind_apply]
    generalize newVariable id name (.param index) c = ran at fine after
    obtain ⟨result, d⟩ := ran
    cases result with
    | error reason => contradiction
    | ok slot =>
      obtain ⟨e, run, last⟩ := ih (index + 1) (after.push name slot)
      exact ⟨e, run, by simpa using last⟩

/-- With its function at hand, a definition comes to what its body comes to. -/
theorem definition_decides (given : functionToDefine proto c = (.ok id, d)) (registered : d.Registered)
    (there : proto.isAnonymous = true ∨ d.builder.find? proto.name ≠ none) (body : Expr) :
    (definition proto body c).1.map (fun _ => ()) = body.check d.arity? proto.params.reverse ∧
      (definition proto body c).2.Registered := by
  have opened : Context.Shows d.arity? []
      { d.registering proto with
        builder := (((d.registering proto).builder.addBlock id "entry").2).positionAt
          ((d.registering proto).builder.addBlock id "entry").1
        scope := .empty } := by
    have heads := ((d.registering proto).builder.steady_addBlock id "entry").heads
    refine ⟨registered.registering proto, rfl, fun name => ?_, fun name => by simp⟩
    rw [← Context.arity?_registering there name]
    simp only [Context.arity?, Builder.find?, Builder.positionAt, Module.find?_congr heads, Builder.paramCount,
      Module.paramCount_congr heads, Context.prototype?]
  obtain ⟨e, binds, ready⟩ := bindParams_shows id proto.params 0 opened
  obtain ⟨verdict, after⟩ := decides_expr body _ e ready
  have run : definition proto body c = finishFunction id (expr body) e := by
    rw [definition, bind_apply, given]
    dsimp only
    rw [bind_apply, register_apply]
    dsimp only
    rw [bind_apply, emit_apply]
    dsimp only
    rw [bind_apply, update_apply]
    dsimp only
    rw [bind_apply]
    show (bindParams id proto.params 0 >>= fun _ => finishFunction id (expr body)) _ = _
    rw [bind_apply, binds]
  rw [run, finishFunction_apply, ← List.append_nil proto.params.reverse, ← verdict]
  generalize expr body e = ran at after
  obtain ⟨result, last⟩ := ran
  cases result with
  | ok value => exact ⟨rfl, after.registered⟩
  | error reason => exact ⟨rfl, after.registered⟩

/-- What a definition sees of the functions once its own has been declared. -/
theorem arity?_declare_outline (c : Context) (proto : Prototype) :
    (c.declare proto).arity? = c.outline.known (c.builder.module.nameFor proto.name) proto.params.length := by
  funext name
  rw [Context.arity?_declare, Outline.known, Context.function?_outline, Context.arity?]
  cases c.builder.find? name with
  | some id => rfl
  | none => simp [Context.outline]

/-- What it sees when its function was there before. -/
theorem arity?_outline {c : Context} {given : String} (there : c.builder.find? given ≠ none) (count : Nat) :
    c.arity? = c.outline.known given count := by
  funext name
  rw [Outline.known, Context.function?_outline, Context.arity?]
  cases found : c.builder.find? name with
  | some id => rfl
  | none =>
    have other : name ≠ given := fun same => there (same ▸ found)
    simp [Context.outline, other]

private theorem definition_verdict (registered : c.Registered) (proto : Prototype) (body : Expr) :
    (definition proto body c).1.map (fun _ => ()) =
        c.outline.check (toString c.builder.module.nextAnonymous) proto body ∧
      (definition proto body c).2.Registered := by
  have chosen := functionToDefine_apply proto c
  by_cases anonymous : proto.isAnonymous = true
  · rw [if_pos anonymous] at chosen
    have decided := definition_decides chosen (registered.declaring [proto]) (.inl anonymous) body
    rw [arity?_declare_outline] at decided
    have given : c.builder.module.nameFor proto.name = toString c.builder.module.nextAnonymous := if_pos anonymous
    simpa [Outline.check, anonymous, given] using decided
  · have given : c.builder.module.nameFor proto.name = proto.name := if_neg anonymous
    rw [if_neg anonymous] at chosen
    rw [Outline.check, if_neg anonymous, if_neg anonymous, Context.function?_outline]
    cases found : c.builder.find? proto.name with
    | none =>
      rw [found] at chosen
      have there : (c.declare proto).builder.find? proto.name ≠ none := by
        rw [Context.find?_declare_new (by simpa using anonymous) found]
        exact Option.some_ne_none _
      have decided := definition_decides chosen (registered.declaring [proto]) (.inr there) body
      rwa [arity?_declare_outline, given] at decided
    | some id =>
      have there : c.builder.find? proto.name ≠ none := by simp [found]
      rw [found] at chosen
      dsimp only [Option.map_some] at chosen ⊢
      have refused (reason : LoweringError) (refuses : functionToDefine proto c = (.error reason, c)) :
          definition proto body c = (.error reason, c) := by
        rw [definition, bind_apply, refuses]
      split at chosen
      · next hasBody =>
        rw [refused _ chosen, if_pos hasBody]
        exact ⟨rfl, registered⟩
      · next bodiless =>
        rw [if_neg bodiless]
        split at chosen
        · next count =>
          rw [if_pos count, ← arity?_outline there]
          exact definition_decides chosen registered (.inr there) body
        · next conflict =>
          rw [refused _ chosen, if_neg conflict]
          exact ⟨rfl, registered⟩

/-- A declaration has nothing to look up. -/
theorem declaration_known (c : Context) (proto : Prototype) (op : Char) :
    (declaration proto c).1 ≠ .error (.unknownBinaryOperator op) := by
  have registers (id : Nat) (d : Context) :
      (register proto >>= fun _ => pure id : Lowering Nat) d = (.ok id, d.registering proto) := by
    rw [bind_apply, register_apply]
    rfl
  rw [declaration, bind_apply, declare_apply]
  cases if proto.isAnonymous then none else c.builder.find? proto.name with
  | none => simp [registers]
  | some id => by_cases count : c.builder.paramCount id = proto.params.length <;> simp [registers, count]

/-- A form with an operator that is not known makes use of it, and the operator is not its own: the prototype of a
definition is registered before its body is lowered, so that the body may use its operator. -/
theorem lowering_misses (registered : c.Registered) {form : Form} {op : Char}
    (failed : (form.lowering c).1 = .error (.unknownBinaryOperator op)) :
    op ∈ form.operators ∧ op ∉ Expr.builtIn ∧
      (c.registering form.proto).prototype? (Prototype.binaryName op) = none := by
  cases form with
  | declaration proto => exact absurd failed (declaration_known c proto op)
  | definition proto body =>
    have finds := c.outline.check_finds (toString c.builder.module.nextAnonymous) proto body
    rw [← (definition_verdict registered proto body).1] at finds
    obtain ⟨used, foreign, missing⟩ := (finds _ (congrArg (Except.map fun _ => ()) failed)).unknown op rfl
    refine ⟨used, foreign, ?_⟩
    obtain ⟨other, absent⟩ := Outline.known_eq_none missing
    by_cases anonymous : proto.isAnonymous = true
    · rw [Form.proto, Context.registering, if_pos anonymous]
      exact absent
    · rw [if_neg anonymous] at other
      rw [Form.proto, Context.prototype?_registering_of_ne c other]
      exact absent

end Lowering

namespace Context

variable {c : Context}

theorem Attainable.registered (attainable : c.Attainable) : c.Registered := by
  induction attainable with
  | new builder => exact fun _ _ found => by contradiction
  | @form c before form ih =>
    cases form with
    | declaration proto =>
      show (Lowering.declaration proto c).2.Registered
      rcases Lowering.declaration_runs c proto with ⟨reason, runs⟩ | ⟨id, protos, _, runs⟩
      · rw [runs c (.refl c)]
        exact ih
      · rw [runs c (.refl c)]
        exact (ih.declaring protos).registering proto
    | definition proto body => exact (Lowering.definition_verdict ih proto body).2
  | @expr c before e ih =>
    unfold Registered prototype?
    rw [(Lowering.restores_expr e c).2]
    exact ih
  | change before builder ih => exact ih

end Context

namespace Form

/-- A definition succeeds or fails as the checker says, which looks at the functions and prototypes there are and at the
number that stands in for a missing name, and at nothing else. -/
theorem lower_definition_eq_check {c : Context} (attainable : c.Attainable) (proto : Prototype) (body : Expr)
    (table : PrecedenceTable) :
    ((definition proto body).lower c table).result.map (fun _ => ()) =
        c.outline.check (toString c.builder.module.nextAnonymous) proto body ∧
      ((definition proto body).lower c table).result ≠ .error .noInsertionPoint := by
  have verdict := (Lowering.definition_verdict attainable.registered proto body).1
  refine ⟨verdict, fun lost => ?_⟩
  have finds := c.outline.check_finds (toString c.builder.module.nextAnonymous) proto body
  rw [← verdict] at finds
  exact (finds _ (congrArg (Except.map fun _ => ()) lost)).placed rfl

theorem lower_definition_unbound :
    ((definition ⟨"f", ["x"], .function, 30⟩ (.binary '+' (.call "f" [.var "x"]) (.var "y"))).lower
      (.new (.new "m" [])) .standard).result.map (fun _ => ()) = .error (.unboundVariable "y") :=
  (lower_definition_eq_check (.new (.new "m" [])) _ _ _).1

/-- The number alone is not to be seen in what is there: a function without a name can call itself by it, and what was
removed before it has used up numbers. -/
theorem outline_undecided : ¬ ∃ verdict : Outline → Prototype → Expr → Except LoweringError Unit,
    ∀ c : Context, c.Attainable → ∀ proto body table,
      ((definition proto body).lower c table).result.map (fun _ => ()) = verdict c.outline proto body := by
  rintro ⟨verdict, right⟩
  have fresh := Context.Attainable.new (.new "m" [])
  have used := fresh.form (.definition .anonymous (.var "y"))
  have first := right _ fresh .anonymous (.call "0" []) .standard
  have second := right _ used .anonymous (.call "0" []) .standard
  have same : (Form.lowering (.definition .anonymous (.var "y")) (.new (.new "m" []))).2.outline =
      (Context.new (.new "m" [])).outline := rfl
  have calls := (Lowering.definition_verdict fresh.registered .anonymous (.call "0" [])).1
  have fails := (Lowering.definition_verdict used.registered .anonymous (.call "0" [])).1
  rw [same] at second fails
  have differ := calls.symm.trans (first.trans (second.symm.trans fails))
  contradiction

end Form

end Kaleidoscope
