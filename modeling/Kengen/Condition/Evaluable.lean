import Kengen.Lib.Runs

/-!
# Compiling and evaluating a condition

An `EvaluableCondition` compiles its expression on first use, inside a `sync.Once`.  What the CEL
library makes of the expression, and how a value is converted to the type of a parameter, are
parameters here.

* `EvaluableCondition.evaluate` — `Evaluate`, with `CastContextToTypedParameters`.
* `step` — calls of `Compile` and `Evaluate` from any number of goroutines.
* **`compilation_stays_failed_iff`** — the calls after the first one do as they should if and only
  if the condition compiles: **the error of the compilation is lost with the first call**.
-/

namespace Kengen.Condition

open List Runs

/-! ### Evaluation -/

/-- The fields of a context. -/
abbrev Context (α : Type) := List (String × α)

/-- What an evaluation in CEL gives. -/
inductive CelValue where
  | unknown
  | bool (b : Bool)
  | other
deriving DecidableEq

/-- The errors of an evaluation. -/
inductive EvaluationErr where
  | compilation
  | noParameters
  | notConverted (parameter : String)
  | evaluation
  | notBool
deriving DecidableEq

/-- A condition.  `compiled` is what `compile` makes of it, if it succeeds. -/
structure EvaluableCondition (τ α β : Type) where
  name : String
  parameters : List (String × τ)
  convert : τ → α → Option β
  compiled : Option (Context β → Option CelValue)

variable {τ α β : Type}

/-- The loop of `CastContextToTypedParameters`. -/
def castParameters (convert : τ → α → Option β) (context : Context α) :
    List (String × τ) → Except EvaluationErr (Context β)
  | [] => .ok []
  | (key, type) :: parameters =>
    match context.lookup key with
    | none => castParameters convert context parameters
    | some value =>
      match convert type value with
      | none => .error (.notConverted key)
      | some converted =>
        (castParameters convert context parameters).map ((key, converted) :: ·)

variable (c : EvaluableCondition τ α β)

/-- `CastContextToTypedParameters`. -/
def EvaluableCondition.castContextToTypedParameters
    (context : Context α) : Except EvaluationErr (Context β) :=
  if context.isEmpty then .ok []
  else if c.parameters.isEmpty then .error .noParameters
  else castParameters c.convert context c.parameters

/-- `Evaluate` after `Compile`, with the program that it finds; without one it panics. -/
def EvaluableCondition.evaluate
    (program : Option (Context β → Option CelValue)) (context : Context α) :
    Option (Except EvaluationErr (Bool × List String)) :=
  match c.castContextToTypedParameters context with
  | .error e => some (.error e)
  | .ok typed =>
    program.map fun program =>
      let missing := (c.parameters.map Prod.fst).filter fun key => (typed.lookup key).isNone
      match program typed with
      | none => .error .evaluation
      | some .unknown => .ok (false, missing)
      | some (.bool b) => .ok (b, missing)
      | some .other => .error .notBool

/-! ### Compilation -/

/-- A call, and what it returns. -/
inductive Call (α : Type) where
  | compile
  | evaluate (context : Context α)

inductive Outcome where
  | compiled
  | compilationErr
  | evaluated (result : Except EvaluationErr (Bool × List String))
  | panicked

/-- `compileOnce` with the program that it leaves behind, the evaluations that are past `Compile`,
and the calls that have returned. -/
structure State (α β : Type) where
  once : Option (Option (Context β → Option CelValue)) := none
  evaluating : List (Context α) := []
  returned : List (Call α × Outcome) := []

/-- A call starts, or an evaluation goes on. -/
inductive Choice (α : Type) where
  | call (call : Call α)
  | resume (i : ℕ)

/-- `Compile` returns an error only to the call that runs the compilation; other calls wait for it
in `compileOnce.Do`. -/
def step (s : State α β) : Choice α → Option (State α β)
  | .call call =>
    let failed := s.once.isNone && c.compiled.isNone
    let s := { s with once := some (s.once.getD c.compiled) }
    match call with
    | .compile =>
      let outcome := if failed then .compilationErr else .compiled
      some { s with returned := (call, outcome) :: s.returned }
    | .evaluate context =>
      if failed then
        some { s with returned := (call, .evaluated (.error .compilation)) :: s.returned }
      else some { s with evaluating := context :: s.evaluating }
  | .resume i =>
    match s.evaluating.drop i with
    | [] => none
    | context :: rest =>
      let outcome :=
        match c.evaluate (s.once.getD none) context with
        | some result => .evaluated result
        | none => .panicked
      some { s with
        evaluating := s.evaluating.take i ++ rest
        returned := (.evaluate context, outcome) :: s.returned }

/-- What a call is to return. -/
def Right (call : Call α) (outcome : Outcome) : Prop :=
  match c.compiled, call with
  | none, .compile => outcome = .compilationErr
  | none, .evaluate _ => ∃ e, outcome = .evaluated (.error e)
  | some _, .compile => outcome = .compiled
  | some program, .evaluate context =>
    ∃ result, c.evaluate (some program) context = some result ∧ outcome = .evaluated result

theorem evaluate_isSome (program : Context β → Option CelValue)
    (context : Context α) : ∃ result, c.evaluate (some program) context = some result := by
  unfold EvaluableCondition.evaluate
  split
  · exact ⟨_, rfl⟩
  · exact ⟨_, rfl⟩

/-- The invariant for a condition that compiles. -/
structure Inv (c : EvaluableCondition τ α β) (program : Context β → Option CelValue)
    (s : State α β) : Prop where
  once : s.once.getD (some program) = some program
  evaluating : s.evaluating ≠ [] → s.once = some (some program)
  returned : ∀ r ∈ s.returned, Right c r.1 r.2

theorem inv_step {c : EvaluableCondition τ α β} {program : Context β → Option CelValue}
    (hc : c.compiled = some program) {s s' : State α β} (choice : Choice α) (h : Inv c program s)
    (hstep : step c s choice = some s') : Inv c program s' := by
  cases choice with
  | call call =>
    simp only [step, hc, h.once, Option.isNone_some, Bool.and_false, Bool.false_eq_true,
      if_false] at hstep
    cases call with
    | compile =>
      cases hstep
      exact ⟨rfl, fun _ => rfl, forall_mem_cons.mpr ⟨by simp [Right, hc], h.returned⟩⟩
    | evaluate =>
      cases hstep
      exact ⟨rfl, fun _ => rfl, h.returned⟩
  | resume =>
    simp only [step] at hstep
    split at hstep
    · cases hstep
    · rename_i context rest hdrop
      have hs := h.evaluating fun hnil => by simp [hnil] at hdrop
      obtain ⟨_, hresult⟩ := evaluate_isSome c program context
      simp only [hs, Option.getD_some, hresult] at hstep
      cases hstep
      exact ⟨rfl, fun _ => rfl, forall_mem_cons.mpr ⟨by simp [Right, hc, hresult], h.returned⟩⟩

/-- **The calls return what they should**, in every order, if and only if the condition
compiles. -/
theorem compilation_stays_failed_iff :
    (∀ choices s, run (step c) {} choices = some s → ∀ r ∈ s.returned, Right c r.1 r.2)
      ↔ c.compiled.isSome := by
  constructor
  · intro h
    by_contra hnone
    have hc : c.compiled = none := by simpa using hnone
    -- the second call does not run the compilation
    have hright := h [.call .compile, .call .compile] _ rfl (.compile, .compiled) (by simp [hc])
    simp [Right, hc] at hright
  · intro hsome choices s hrun
    obtain ⟨_, hc⟩ := Option.isSome_iff_exists.mp hsome
    exact (run_keeps (fun _ choice _ h hstep => inv_step hc choice h hstep)
      ⟨rfl, by simp, by simp⟩ hrun).returned

/-- A condition that does not compile. -/
def malformed : EvaluableCondition Unit ℕ Unit where
  name := "malformed"
  parameters := []
  convert _ _ := none
  compiled := none

/-- **The second call finds no error and the second evaluation panics.** -/
theorem compilation_error_is_lost : ∃ s, run (step malformed) {}
      [.call .compile, .call .compile, .call (.evaluate []), .resume 0] = some s
    ∧ (.compile, .compiled) ∈ s.returned ∧ (.evaluate [], .panicked) ∈ s.returned :=
  ⟨_, rfl, .tail _ (.head _), .head _⟩

end Kengen.Condition
