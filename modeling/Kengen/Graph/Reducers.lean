import Kengen.Lib.Gather
import Kengen.Lib.GatherPair
import Kengen.Iterator.Trace

/-!
# The set operators of the local checker

`union`, `intersection` and `exclusion` reduce the outcomes of their handlers.
The first two start the handlers in a pool and gather all outcomes from one
channel, which a routine of its own closes when the pool is done; `exclusion`
gives each of its two handlers a channel of its own.  Whoever sends an outcome
does so through `TrySendThroughChannel`, which may drop it once the context is
cancelled, and every `select` may take any case that is ready.

* **`reducers_evidence`** — what the outcomes of the handlers are if a reducer answers without an
  error.  A union that finds someone and an exclusion are always right, and the others are as long
  as the context is not cancelled.
* **`dropped_outcomes_allow`** — after a cancellation all outcomes may be dropped and the channel
  closed; an intersection that keeps receiving from it then answers that all handlers allowed.
-/

namespace Kengen.Graph

open Runs List

/-! ### Outcomes -/

/-- `ResolveCheckResponse`. -/
structure Response where
  allowed : Bool
  cycleDetected : Bool := false
deriving DecidableEq, Repr

/-- The errors of a check. -/
inductive CheckErr where
  | context
  | resolutionDepthExceeded
  | unknown (message : String)
  | iterator (e : Err)
deriving DecidableEq, Repr

/-- `checkOutcome`. -/
abbrev Outcome := Except CheckErr Response

/-- The handler returned that the user is allowed, or that it is not. -/
def Outcome.returned (o : Outcome) (allowed : Bool) : Prop :=
  ∃ resp : Response, o = .ok resp ∧ resp.allowed = allowed

/-- The error of an outcome. -/
def Outcome.err : Outcome → Option CheckErr
  | .error e => some e
  | .ok _ => none

def Outcome.cycle : Outcome → Bool
  | .error _ => false
  | .ok resp => resp.cycleDetected

theorem Outcome.exists_of_err {o : Outcome} (h : o.err = none) : ∃ resp, o = .ok resp := by
  cases o with
  | error => cases h
  | ok resp => exact ⟨resp, rfl⟩

/-! ### The reducers -/

/-- `union` returns the first response that allows; it keeps the last error. -/
def unionReducer (concurrencyLimit n : ℕ) : Gather.Reducer Outcome Outcome where
  closes := true
  limit := concurrencyLimit
  expected := n
  stop
    | .error _ => none
    | .ok resp => if resp.allowed then some (.ok resp) else none
  conclude _ received :=
    match (received.filterMap Outcome.err).getLast? with
    | some finalErr => .error finalErr
    | none => .ok { allowed := false, cycleDetected := received.any Outcome.cycle }
  aborted := .error .context

/-- `intersection` returns the first response that does not allow, or that met a cycle; it keeps
the first error. -/
def intersectionReducer (concurrencyLimit n : ℕ) : Gather.Reducer Outcome Outcome where
  closes := true
  limit := concurrencyLimit
  expected := n
  stop
    | .error _ => none
    | .ok resp =>
      if resp.cycleDetected || !resp.allowed then
        some (.ok { allowed := false, cycleDetected := resp.cycleDetected })
      else none
  conclude _ received :=
    match (received.filterMap Outcome.err).head? with
    | some finalErr => .error finalErr
    | none => .ok { allowed := true }
  aborted := .error .context

/-- `exclusion` ends with a base that does not allow and with a subtrahend that does. -/
def exclusionReducer : GatherPair.Reducer Outcome Outcome where
  expected := 2
  onBase _
    | .error _ => none
    | .ok resp =>
      if resp.cycleDetected || !resp.allowed then
        some (.ok { allowed := false, cycleDetected := resp.cycleDetected })
      else none
  onSub
    | .error _ => none
    | .ok resp =>
      if resp.cycleDetected || resp.allowed then
        some (.ok { allowed := false, cycleDetected := resp.cycleDetected })
      else none
  conclude base sub :=
    match base.bind Outcome.err, sub.bind Outcome.err with
    | some baseErr, _ => .error baseErr
    | none, some subErr => .error subErr
    | none, none => .ok { allowed := true }
  aborted := .error .context

/-- `union`, with the outcomes of its handlers and the choices of a schedule; `cancelled` says
whether the context is cancelled when it is called. -/
def union (concurrencyLimit : ℕ) (cancelled : Bool) (handlers : List Outcome)
    (choices : List Gather.Choice) : Option Outcome :=
  let R := unionReducer concurrencyLimit handlers.length
  (run (Gather.step R) (Gather.enter R cancelled [] handlers) choices).bind (·.result)

/-- `intersection`, which needs two operands. -/
def intersection (concurrencyLimit : ℕ) (cancelled : Bool) (handlers : List Outcome)
    (choices : List Gather.Choice) : Option Outcome :=
  let R := intersectionReducer concurrencyLimit handlers.length
  if handlers.length < 2 then
    some (.error (.unknown ("expected at least two rewrite operands for intersection operator, " ++
      "but got '" ++ toString handlers.length ++ "'")))
  else (run (Gather.step R) (Gather.enter R cancelled [] handlers) choices).bind (·.result)

/-- `exclusion`, which needs exactly two operands. -/
def exclusion (cancelled : Bool) (handlers : List Outcome) (choices : List GatherPair.Choice) :
    Option Outcome :=
  match handlers with
  | [base, sub] =>
    (run (GatherPair.step exclusionReducer)
      (GatherPair.enter exclusionReducer cancelled (some base) (some sub)) choices).bind (·.result)
  | _ =>
    some (.error (.unknown ("expected two rewrite operands for exclusion operator, but got '" ++
      toString handlers.length ++ "'")))

/-- Whenever the loop of a reducer takes the channel, there is an outcome in it: the loop never
takes the channel that is closed and empty. -/
def TakesOutcomes (R : Gather.Reducer Outcome Outcome) (cancelled : Bool) (handlers : List Outcome)
    (choices : List Gather.Choice) : Prop :=
  Along (Gather.step R) Gather.TakesOutcome (Gather.enter R cancelled [] handlers) choices

instance (R : Gather.Reducer Outcome Outcome) (cancelled : Bool) (handlers : List Outcome)
    (choices : List Gather.Choice) : Decidable (TakesOutcomes R cancelled handlers choices) :=
  decidableAlong _ _ _ _

/-! ### What ends a reducer -/

variable {limit n : ℕ} {o : Outcome}

theorem unionReducer_stop {o' : Outcome}
    (h : (unionReducer limit n).stop o' = some o) : o = o' ∧ o'.returned true := by
  cases o' with
  | error => cases h
  | ok resp =>
    simp only [unionReducer] at h
    split_ifs at h with hallowed
    cases h
    exact ⟨rfl, resp, rfl, hallowed⟩

/-- **The sum of outcomes none of which allows**: an error, or a response with the cycles of all. -/
theorem unionReducer_sum (limit n : ℕ) (c : Bool) {received : List Outcome}
    (hnone : ∀ o' ∈ received, (unionReducer limit n).stop o' = none)
    (h : o = (unionReducer limit n).conclude c received) :
    (∀ o' ∈ received, ¬ o'.returned true)
      ∧ ((∃ e, o = .error e ∧ ∃ o' ∈ received, ∃ e', o' = .error e')
        ∨ ∃ c, o = .ok { allowed := false, cycleDetected := c }
          ∧ (∀ o' ∈ received, ∃ resp, o' = .ok resp)
          ∧ (c = true ↔ ∃ o' ∈ received, o'.cycle = true)) := by
  refine ⟨?_, ?_⟩
  · rintro _ ho' ⟨resp, rfl, hallowed⟩
    have hstop := hnone _ ho'
    simp [unionReducer, hallowed] at hstop
  · simp only [unionReducer] at h
    split at h
    · rename_i finalErr hlast
      obtain ⟨o', ho', herr⟩ := mem_filterMap.mp (mem_of_getLast? hlast)
      cases o' with
      | ok => cases herr
      | error e => exact .inl ⟨finalErr, h, _, ho', e, rfl⟩
    · rename_i hlast
      have herr := filterMap_eq_nil_iff.mp (List.getLast?_eq_none_iff.mp hlast)
      exact .inr ⟨_, h, fun o' ho' => Outcome.exists_of_err (herr o' ho'), any_eq_true⟩

theorem intersectionReducer_stop {o' : Outcome}
    (h : (intersectionReducer limit n).stop o' = some o) :
    ∃ resp, o' = .ok resp ∧ (resp.cycleDetected = true ∨ resp.allowed = false)
      ∧ o = .ok { allowed := false, cycleDetected := resp.cycleDetected } := by
  cases o' with
  | error => cases h
  | ok resp =>
    simp only [intersectionReducer] at h
    split_ifs at h with hdenied
    exact ⟨resp, rfl, by simpa using hdenied, (Option.some.inj h).symm⟩

/-- **The product of outcomes none of which refutes**: an error, or all of them allow. -/
theorem intersectionReducer_product (limit n : ℕ) (c : Bool) {received : List Outcome}
    (hnone : ∀ o' ∈ received, (intersectionReducer limit n).stop o' = none)
    (h : o = (intersectionReducer limit n).conclude c received) :
    (∀ o' ∈ received, ∀ resp, o' = .ok resp → resp = { allowed := true })
      ∧ ((∃ e, o = .error e ∧ ∃ o' ∈ received, ∃ e', o' = .error e')
        ∨ o = .ok { allowed := true } ∧ ∀ o' ∈ received, o' = .ok { allowed := true }) := by
  have hall : ∀ o' ∈ received, ∀ resp, o' = .ok resp → resp = { allowed := true } := by
    rintro _ ho' ⟨allowed, cycle⟩ rfl
    have hstop := hnone _ ho'
    cases allowed <;> cases cycle <;> simp [intersectionReducer] at hstop ⊢
  refine ⟨hall, ?_⟩
  simp only [intersectionReducer] at h
  split at h
  · rename_i finalErr hhead
    obtain ⟨o', ho', herr⟩ := mem_filterMap.mp (mem_of_mem_head? hhead)
    cases o' with
    | ok => cases herr
    | error e => exact .inl ⟨finalErr, h, _, ho', e, rfl⟩
  · rename_i hhead
    refine .inr ⟨h, fun o' ho' => ?_⟩
    obtain ⟨resp, rfl⟩ := Outcome.exists_of_err
      (filterMap_eq_nil_iff.mp (List.head?_eq_none_iff.mp hhead) o' ho')
    rw [hall _ ho' resp rfl]

/-- **The outcome of operands that must all be as wanted**: one that is not, or met a cycle, refutes;
otherwise all outcomes count. -/
def Products {ι : Type} (want : ι → Bool) (os : ι → Outcome) (got : ι → Prop) (o : Outcome) : Prop :=
  (∃ i resp, got i ∧ os i = .ok resp ∧ (resp.cycleDetected = true ∨ resp.allowed = !want i)
      ∧ o = .ok { allowed := false, cycleDetected := resp.cycleDetected })
    ∨ (∀ i, got i) ∧ (∀ i resp, os i = .ok resp → resp = { allowed := want i })
      ∧ ((∃ e, o = .error e ∧ ∃ i e', os i = .error e')
        ∨ o = .ok { allowed := true } ∧ ∀ i, os i = .ok { allowed := want i })

/-- What belongs to one of the two operands of an exclusion. -/
def ofSide {γ : Type} (base sub : γ) : GatherPair.Side → γ
  | .base => base
  | .sub => sub

/-- **The outcome of an exclusion**, which wants its base to allow and its subtract side not to. -/
theorem exclusion_products {ob osub : Outcome} {s : GatherPair.State Outcome Outcome}
    (hinv : GatherPair.Inv exclusionReducer (some ob) (some osub) s) (hs : s.result = some o) :
    s.cancelled = true ∧ o = .error .context
      ∨ Products (ofSide true false) (ofSide ob osub)
        (fun side => ofSide s.fromBase s.fromSub side = some (ofSide ob osub side)) o := by
  rcases hinv.result o hs
    with ⟨hcancelled, ho⟩ | ⟨o', ho', hstop, -⟩ | ⟨o', ho', hstop⟩ | ⟨hcount, hbase, hsub, hconclude⟩
  · exact .inl ⟨hcancelled, ho⟩
  · obtain rfl := Option.some.inj (hinv.base.got ho')
    cases ob with
    | error => cases hstop
    | ok resp =>
      simp only [exclusionReducer] at hstop
      split_ifs at hstop with hdenied
      refine .inr (.inl ⟨.base, resp, ho', rfl, ?_, (Option.some.inj hstop).symm⟩)
      simpa [ofSide] using hdenied
  · obtain rfl := Option.some.inj (hinv.sub.got ho')
    cases osub with
    | error => cases hstop
    | ok resp =>
      simp only [exclusionReducer] at hstop
      split_ifs at hstop with hdenied
      refine .inr (.inl ⟨.sub, resp, ho', rfl, ?_, (Option.some.inj hstop).symm⟩)
      simpa [ofSide] using hdenied
  · obtain ⟨h₁, h₂⟩ := hinv.all_of_count hcount
    have hall : ∀ side resp, ofSide ob osub side = .ok resp →
        resp = { allowed := ofSide true false side } := by
      rintro (_ | _) ⟨allowed, cycle⟩ (rfl | rfl)
      · obtain ⟨off, hoff⟩ := hbase _ h₁
        cases allowed <;> cases cycle <;> simp [exclusionReducer, ofSide] at hoff ⊢
      · have hsub := hsub _ h₂
        cases allowed <;> cases cycle <;> simp [exclusionReducer, ofSide] at hsub ⊢
    refine .inr (.inr ⟨by rintro (_ | _) <;> assumption, hall, ?_⟩)
    rw [h₁, h₂] at hconclude
    cases ob with
    | error e => exact .inl ⟨e, hconclude, .base, e, rfl⟩
    | ok =>
      cases osub with
      | error e => exact .inl ⟨e, hconclude, .sub, e, rfl⟩
      | ok r₂ =>
        refine .inr ⟨hconclude, ?_⟩
        rintro (_ | _) <;> exact congrArg Except.ok (hall _ _ rfl)

/-! ### Evidence -/

section Evidence

variable {limit : ℕ} {cancelled : Bool} {handlers : List Outcome} {resp : Response}

variable {choices : List Gather.Choice}

/-- **A union that allows** has received an outcome that allows. -/
theorem union_true (h : union limit cancelled handlers choices = some (.ok resp))
    (hresp : resp.allowed = true) : ∃ o ∈ handlers, o.returned true := by
  obtain ⟨s, hrun, hs⟩ := Option.bind_eq_some_iff.mp h
  have hinv := Gather.run_inv hrun
  rcases hinv.result _ hs with ⟨-, h⟩ | ⟨o, ho, hstop⟩ | ⟨c, hconclude, hnone, -⟩
  · cases h
  · exact ⟨o, hinv.mem ho, (unionReducer_stop hstop).2⟩
  · rcases (unionReducer_sum _ _ c hnone hconclude).2 with ⟨e, ⟨⟩, -⟩ | ⟨c, ⟨⟩, -⟩
    cases hresp

/-- **A union that does not allow** has received all outcomes. -/
theorem union_false
    (h : union limit cancelled handlers choices = some (.ok resp)) (hresp : resp.allowed = false)
    (htakes : TakesOutcomes (unionReducer limit handlers.length) cancelled handlers choices) :
    ∀ o ∈ handlers, o.returned false := by
  obtain ⟨s, hrun, hs⟩ := Option.bind_eq_some_iff.mp h
  rcases Gather.run_answer hrun rfl (.inr htakes) hs
    with ⟨-, h⟩ | ⟨o, -, hstop⟩ | ⟨hperm, hnone, c, hconclude⟩
  · cases h
  · obtain ⟨rfl, r, hr, hallowed⟩ := unionReducer_stop hstop
    cases hr
    rw [hallowed] at hresp
    cases hresp
  · intro o ho
    have ho := hperm.mem_iff.mpr ho
    obtain ⟨hdenied, ⟨e, ⟨⟩, -⟩ | ⟨c, ⟨⟩, hok, -⟩⟩ := unionReducer_sum _ _ c hnone hconclude
    obtain ⟨r, hr⟩ := hok o ho
    exact ⟨r, hr, Bool.eq_false_iff.mpr fun hallowed => hdenied o ho ⟨r, hr, hallowed⟩⟩

/-- **An intersection that allows** has received all outcomes. -/
theorem intersection_true
    (h : intersection limit cancelled handlers choices = some (.ok resp))
    (hresp : resp.allowed = true)
    (htakes : TakesOutcomes (intersectionReducer limit handlers.length) cancelled handlers
      choices) :
    ∀ o ∈ handlers, o.returned true := by
  unfold intersection at h
  dsimp only at h
  split at h
  · cases h
  obtain ⟨s, hrun, hs⟩ := Option.bind_eq_some_iff.mp h
  rcases Gather.run_answer hrun rfl (.inr htakes) hs
    with ⟨-, h⟩ | ⟨o, -, hstop⟩ | ⟨hperm, hnone, c, hconclude⟩
  · cases h
  · obtain ⟨r, -, -, ⟨⟩⟩ := intersectionReducer_stop hstop
    cases hresp
  · intro o ho
    obtain ⟨-, ⟨e, ⟨⟩, -⟩ | ⟨-, hok⟩⟩ := intersectionReducer_product _ _ c hnone hconclude
    exact ⟨_, hok o (hperm.mem_iff.mpr ho), rfl⟩

/-- **An exclusion that allows** has received both outcomes: whatever is dropped, it waits. -/
theorem exclusion_true {choices : List GatherPair.Choice}
    (h : exclusion cancelled handlers choices = some (.ok resp)) (hresp : resp.allowed = true) :
    ∃ base sub : Outcome, handlers = [base, sub] ∧ base.returned true
      ∧ sub = .ok { allowed := false, cycleDetected := false } := by
  unfold exclusion at h
  split at h
  · rename_i base sub
    obtain ⟨s, hrun, hs⟩ := Option.bind_eq_some_iff.mp h
    rcases exclusion_products (GatherPair.run_inv hrun) hs with ⟨-, ⟨⟩⟩ | ⟨side, r, -, -, -, ⟨⟩⟩
      | ⟨-, -, ⟨e, ⟨⟩, -⟩ | ⟨⟨⟩, hok⟩⟩
    · cases hresp
    · exact ⟨base, sub, rfl, ⟨_, hok .base, rfl⟩, hok .sub⟩
  · cases h

end Evidence

/-- **No reducer answers without evidence.**  A union allows because some handler does, and does
not allow because no handler does; an intersection allows because all handlers do; an exclusion
allows because its base does and its subtrahend does not and met no cycle.  Where all outcomes are
needed, the loop must not have taken the closed and empty channel for outcomes. -/
theorem reducers_evidence (limit : ℕ) (cancelled : Bool) (handlers : List Outcome)
    (resp : Response) :
    (∀ choices, union limit cancelled handlers choices = some (.ok resp) →
      (resp.allowed = true → ∃ o ∈ handlers, o.returned true)
      ∧ (TakesOutcomes (unionReducer limit handlers.length) cancelled handlers choices →
          resp.allowed = false → ∀ o ∈ handlers, o.returned false))
    ∧ (∀ choices, intersection limit cancelled handlers choices = some (.ok resp) →
        TakesOutcomes (intersectionReducer limit handlers.length) cancelled handlers choices →
        resp.allowed = true → ∀ o ∈ handlers, o.returned true)
    ∧ ∀ choices, exclusion cancelled handlers choices = some (.ok resp) → resp.allowed = true →
        ∃ base sub : Outcome, handlers = [base, sub] ∧ base.returned true
          ∧ sub = .ok { allowed := false, cycleDetected := false } :=
  ⟨fun _ h => ⟨union_true h, fun htakes hresp => union_false h hresp htakes⟩,
    fun _ h htakes hresp => intersection_true h hresp htakes, fun _ h hresp => exclusion_true h hresp⟩

/-- Three handlers in a pool of two, gathered while the last one still runs. -/
def gatherThree : List Gather.Choice :=
  [.start, .start, .finish 1 true, .start, .receive, .finish 0 true, .receive, .finish 0 true,
    .close, .receive, .conclude]

theorem reducers_evidence_three :
    (intersection 2 false [.ok ⟨true, false⟩, .ok ⟨true, false⟩, .ok ⟨true, false⟩] gatherThree
        = some (.ok ⟨true, false⟩)
      ∧ ∀ o ∈ ([.ok ⟨true, false⟩, .ok ⟨true, false⟩, .ok ⟨true, false⟩] : List Outcome),
          o.returned true)
    ∧ (union 2 false [.ok ⟨false, false⟩, .ok ⟨false, true⟩, .ok ⟨false, false⟩] gatherThree
        = some (.ok ⟨false, true⟩)
      ∧ ∀ o ∈ ([.ok ⟨false, false⟩, .ok ⟨false, true⟩, .ok ⟨false, false⟩] : List Outcome),
          o.returned false)
    ∧ (exclusion false [.ok ⟨true, false⟩, .ok ⟨false, false⟩]
          [.send .sub true, .send .base true, .receive .sub, .close .base, .receive .base,
            .conclude] = some (.ok ⟨true, false⟩)
      ∧ ∃ base sub : Outcome, [.ok ⟨true, false⟩, .ok ⟨false, false⟩] = [base, sub]
          ∧ base.returned true ∧ sub = .ok { allowed := false, cycleDetected := false }) := by
  refine ⟨⟨by decide, ?_⟩, ⟨by decide, ?_⟩, by decide, ?_⟩
  · exact (reducers_evidence 2 false _ ⟨true, false⟩).2.1 gatherThree (by decide)
      (by decide) rfl
  · exact ((reducers_evidence 2 false _ ⟨false, true⟩).1 gatherThree (by decide)).2
      (by decide) rfl
  · exact (reducers_evidence 2 false _ ⟨true, false⟩).2.2
      [.send .sub true, .send .base true, .receive .sub, .close .base, .receive .base, .conclude]
      (by decide) rfl

/-- Two handlers that finish after the context is cancelled, whose outcomes are dropped; the loop
then takes the closed channel as often as there are handlers. -/
def dropBoth : List Gather.Choice :=
  [.start, .start, .cancel, .finish 0 false, .finish 0 false, .close, .receive, .receive, .conclude]

/-- **Dropped outcomes allow.**  Two handlers do not allow, and the intersection does; one handler
allows, and the union does not. -/
theorem dropped_outcomes_allow :
    (∃ handlers : List Outcome, intersection 2 false handlers dropBoth = some (.ok ⟨true, false⟩)
      ∧ ¬ ∀ o ∈ handlers, o.returned true)
    ∧ ∃ handlers : List Outcome, union 2 false handlers dropBoth = some (.ok ⟨false, false⟩)
      ∧ ¬ ∀ o ∈ handlers, o.returned false := by
  refine ⟨⟨[.ok ⟨false, false⟩, .ok ⟨false, false⟩], by decide, fun h => ?_⟩,
    ⟨[.ok ⟨true, false⟩, .ok ⟨true, false⟩], by decide, fun h => ?_⟩⟩
  · obtain ⟨resp, hok, hallowed⟩ := h _ mem_cons_self
    cases hok
    cases hallowed
  · obtain ⟨resp, hok, hallowed⟩ := h _ mem_cons_self
    cases hok
    cases hallowed

end Kengen.Graph
