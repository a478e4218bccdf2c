import Kengen.Lib.DispatchPool
import Kengen.Graph.Reducers

/-!
# The local checker and its cache

`LocalChecker.ResolveCheck` looks for the request among the paths visited and otherwise runs
the handlers of the relation's rewrite rule.  The handlers are combined by the set operators
of `Kengen.Graph.Reducers`; userset and tupleset tuples are dispatched, one check for each,
through `CachedCheckResolver`, which answers from its cache or asks the local checker.

* `Handler` — what a `CheckHandlerFunc` does.  A read and the messages of a tuple iterator are
  nondeterministic: the handler says which outcomes and which messages are possible.
* `Evaluates` — the outcomes of a handler, under every schedule of the routines.
* `Cut`, `Occurs` — the handlers that an evaluation starts, those included whose result nobody
  waits for any more: their context is cancelled while they run.
* `History` — the responses that the cache stores, one after the other.
* **`union_answer`**, **`intersection_answer`**, **`exclusion_answer`**, **`dispatch_answer`** — what
  the outcome of a set operator and of the dispatched checks rests on.

Requests are an arbitrary type here; `rewrite` gives each request its handler.
-/

namespace Kengen.Graph

open Runs List

variable {Goal : Type}

/-! ### Handlers -/

/-- `dispatchMsg`. -/
inductive DispatchMsg (Goal : Type) where
  | err (e : Err)
  | shortCircuit
  | dispatchParams (g : Goal)
deriving DecidableEq

/-- What a `CheckHandlerFunc` does: a read, whose possible outcomes are given; opening the reads
that another handler needs; `ResolveCheck` of the local checker or of its delegate; the checks
dispatched for one of the possible lists of messages; a set operator. -/
inductive Handler (Goal : Type) where
  | read (returns : Outcome → Prop)
  | opened (fails : CheckErr → Prop) (handler : Handler Goal)
  | resolveCheck (g : Goal)
  | delegate (g : Goal)
  | dispatch (produces : List (DispatchMsg Goal) → Prop)
  | union {n : ℕ} (child : Fin n → Handler Goal)
  | intersection {n : ℕ} (child : Fin n → Handler Goal)
  | exclusion (base subtract : Handler Goal)

/-- The configuration of a local checker; `rewrite` is what `ResolveCheck` does with a request
that is not on its own path. -/
structure Checker (Goal : Type) where
  concurrencyLimit : ℕ
  maxResolutionDepth : ℕ
  rewrite : Goal → Handler Goal

/-- `consumeDispatches` returns the first response that allows; it keeps the last error. -/
def dispatchConsumer (concurrencyLimit : ℕ) : DispatchPool.Consumer Outcome Outcome where
  limit := concurrencyLimit
  stop
    | .error _ => none
    | .ok resp => if resp.allowed then some (.ok resp) else none
  conclude received :=
    match (received.filterMap Outcome.err).getLast? with
    | some finalErr => .error finalErr
    | none => .ok { allowed := false, cycleDetected := received.any Outcome.cycle }

/-- `processDispatches`: an error and a short circuit are sent on, a check is started. -/
def DispatchMsg.process : DispatchMsg Goal × Outcome → DispatchPool.Message Outcome
  | (.err e, _) => .ready (.error (.iterator e))
  | (.shortCircuit, _) => .ready (.ok { allowed := true })
  | (.dispatchParams _, o) => .check o

/-! ### Evaluation -/

/-- The schedules of a reducer that are considered. -/
abbrev Schedules := Gather.Reducer Outcome Outcome → Bool → List Outcome → List Gather.Choice → Prop

/-- The loop of a reducer has come to the state `s`.  While the context is alive it is not
cancelled. -/
def Gathers (sched : Schedules) (R : Gather.Reducer Outcome Outcome) (alive : Bool)
    (outcomes : List Outcome) (s : Gather.State Outcome Outcome) : Prop :=
  ∃ cancelled choices, run (Gather.step R) (Gather.enter R cancelled [] outcomes) choices = some s
    ∧ sched R cancelled outcomes choices ∧ (alive = true → s.cancelled = false)

/-- The loop of `exclusion` has come to the state `s`. -/
def GathersPair (alive : Bool) (base sub : Outcome) (s : GatherPair.State Outcome Outcome) : Prop :=
  ∃ cancelled choices, run (GatherPair.step exclusionReducer)
      (GatherPair.enter exclusionReducer cancelled (some base) (some sub)) choices = some s
    ∧ (alive = true → s.cancelled = false)

/-- The loop of `consumeDispatches` has come to the state `s`. -/
def Dispatches (concurrencyLimit : ℕ) (checks : List (DispatchMsg Goal × Outcome))
    (s : DispatchPool.State Outcome Outcome) : Prop :=
  ∃ choices, run (DispatchPool.step (dispatchConsumer concurrencyLimit))
    (DispatchPool.enter (checks.map DispatchMsg.process)) choices = some s

/-- The error of an intersection with fewer than two operands. -/
def operandsErr (n : ℕ) : CheckErr :=
  .unknown ("expected at least two rewrite operands for intersection operator, but got '" ++
    toString n ++ "'")

section Evaluation

variable (C : Checker Goal) (sched : Schedules) (cache : List (Goal × Response))

/-- **The outcomes of a handler.**  `alive` says that the context is not cancelled while the handler
runs, `visited` are the requests on the path, `depth` counts the dispatches.  The outcome of an
operand matters only if the loop has received it. -/
inductive Evaluates : Bool → List Goal → ℕ → Handler Goal → Outcome → Prop
  | cancelled {visited depth h} : Evaluates false visited depth h (.error .context)
  | read {alive visited depth} {returns : Outcome → Prop} {o : Outcome} (ho : returns o) :
      Evaluates alive visited depth (.read returns) o
  | openFails {alive visited depth h} {fails : CheckErr → Prop} {e : CheckErr} (he : fails e) :
      Evaluates alive visited depth (.opened fails h) (.error e)
  | opened {alive visited depth h fails o} (ho : Evaluates alive visited depth h o) :
      Evaluates alive visited depth (.opened fails h) o
  | depthExceeded {alive visited depth g} (hdepth : depth = C.maxResolutionDepth) :
      Evaluates alive visited depth (.resolveCheck g) (.error .resolutionDepthExceeded)
  | cycle {alive visited depth g} (hdepth : depth ≠ C.maxResolutionDepth) (hg : g ∈ visited) :
      Evaluates alive visited depth (.resolveCheck g)
        (.ok { allowed := false, cycleDetected := true })
  | rewrite {alive visited depth g o} (hdepth : depth ≠ C.maxResolutionDepth) (hg : g ∉ visited)
      (ho : Evaluates alive (g :: visited) depth (C.rewrite g) o) :
      Evaluates alive visited depth (.resolveCheck g) o
  | hit {alive visited depth g resp} (hresp : (g, resp) ∈ cache) :
      Evaluates alive visited depth (.delegate g) (.ok resp)
  | miss {alive visited depth g o}
      (ho : Evaluates alive visited depth (.resolveCheck g) o) :
      Evaluates alive visited depth (.delegate g) o
  -- `consumeDispatches` looks at its context at the end: it only returns what it received while
  -- the context was alive
  | dispatch {alive visited depth} {produces : List (DispatchMsg Goal) → Prop}
      {checks : List (DispatchMsg Goal × Outcome)} {s o}
      (hproduces : produces (checks.map Prod.fst)) (hrun : Dispatches C.concurrencyLimit checks s)
      (hs : s.result = some o)
      (hchecks : ∀ g o', (.dispatchParams g, o') ∈ checks → o' ∈ s.received →
        Evaluates true visited (depth + 1) (.delegate g) o') :
      Evaluates alive visited depth (.dispatch produces) o
  | union {alive visited depth} {n : ℕ} {child : Fin n → Handler Goal} {os : Fin n → Outcome} {s o}
      (hrun : Gathers sched (unionReducer C.concurrencyLimit n) alive (List.ofFn os) s)
      (hs : s.result = some o)
      (hos : ∀ i, os i ∈ s.received → Evaluates alive visited depth (child i) (os i)) :
      Evaluates alive visited depth (.union child) o
  | fewOperands {alive visited depth} {n : ℕ} {child : Fin n → Handler Goal} (hn : n < 2) :
      Evaluates alive visited depth (.intersection child) (.error (operandsErr n))
  | intersection {alive visited depth} {n : ℕ} {child : Fin n → Handler Goal} {os : Fin n → Outcome}
      {s o} (hn : 2 ≤ n)
      (hrun : Gathers sched (intersectionReducer C.concurrencyLimit n) alive (List.ofFn os) s)
      (hs : s.result = some o)
      (hos : ∀ i, os i ∈ s.received → Evaluates alive visited depth (child i) (os i)) :
      Evaluates alive visited depth (.intersection child) o
  | exclusion {alive visited depth base subtract} {ob osub : Outcome} {s o}
      (hrun : GathersPair alive ob osub s) (hs : s.result = some o)
      (hbase : s.fromBase = some ob → Evaluates alive visited depth base ob)
      (hsub : s.fromSub = some osub → Evaluates alive visited depth subtract osub) :
      Evaluates alive visited depth (.exclusion base subtract) o

/-! ### What an evaluation starts, and what the cache stores -/

/-- The operands of a set operator. -/
inductive Operand : Handler Goal → Handler Goal → Prop
  | opened {fails h} : Operand (.opened fails h) h
  | union {n : ℕ} {child : Fin n → Handler Goal} (i : Fin n) : Operand (.union child) (child i)
  | intersection {n : ℕ} {child : Fin n → Handler Goal} (i : Fin n) (hn : 2 ≤ n) :
      Operand (.intersection child) (child i)
  | base {base subtract} : Operand (.exclusion base subtract) base
  | subtract {base subtract} : Operand (.exclusion base subtract) subtract

/-- **An operand that is short-circuited**: the operator has a result and has not received the
operand's outcome, which then runs on in a cancelled context. -/
inductive Cut : Bool → List Goal → ℕ → Handler Goal → Handler Goal → Prop
  | union {alive visited depth} {n : ℕ} {child : Fin n → Handler Goal} {os : Fin n → Outcome} {s o}
      (hrun : Gathers sched (unionReducer C.concurrencyLimit n) alive (List.ofFn os) s)
      (hs : s.result = some o)
      (hos : ∀ i, os i ∈ s.received → Evaluates C sched cache alive visited depth (child i) (os i))
      (i : Fin n) (hi : os i ∉ s.received) :
      Cut alive visited depth (.union child) (child i)
  | intersection {alive visited depth} {n : ℕ} {child : Fin n → Handler Goal} {os : Fin n → Outcome}
      {s o} (hn : 2 ≤ n)
      (hrun : Gathers sched (intersectionReducer C.concurrencyLimit n) alive (List.ofFn os) s)
      (hs : s.result = some o)
      (hos : ∀ i, os i ∈ s.received → Evaluates C sched cache alive visited depth (child i) (os i))
      (i : Fin n) (hi : os i ∉ s.received) :
      Cut alive visited depth (.intersection child) (child i)
  | base {alive visited depth base subtract} {ob osub : Outcome} {s o}
      (hrun : GathersPair alive ob osub s) (hs : s.result = some o)
      (hsub : s.fromSub = some osub → Evaluates C sched cache alive visited depth subtract osub)
      (hbase : s.fromBase = none) :
      Cut alive visited depth (.exclusion base subtract) base
  | subtract {alive visited depth base subtract} {ob osub : Outcome} {s o}
      (hrun : GathersPair alive ob osub s) (hs : s.result = some o)
      (hbase : s.fromBase = some ob → Evaluates C sched cache alive visited depth base ob)
      (hsub : s.fromSub = none) :
      Cut alive visited depth (.exclusion base subtract) subtract

/-- A dispatched check that is short-circuited. -/
def CutDispatch (visited : List Goal) (depth : ℕ) (produces : List (DispatchMsg Goal) → Prop)
    (g : Goal) : Prop :=
  ∃ (checks : List (DispatchMsg Goal × Outcome)) (s : DispatchPool.State Outcome Outcome)
    (o o' : Outcome), produces (checks.map Prod.fst) ∧ Dispatches C.concurrencyLimit checks s
      ∧ s.result = some o
      ∧ (∀ g o', (.dispatchParams g, o') ∈ checks → o' ∈ s.received →
          Evaluates C sched cache true visited (depth + 1) (.delegate g) o')
      ∧ (.dispatchParams g, o') ∈ checks ∧ o' ∉ s.received

/-- **The handlers that run** for the requests made of `CachedCheckResolver`, none of which is
cancelled by its caller. -/
inductive Occurs : Bool → List Goal → ℕ → Handler Goal → Prop
  | request (g : Goal) : Occurs true [] 0 (.delegate g)
  | miss {alive visited depth g} (h : Occurs alive visited depth (.delegate g)) :
      Occurs alive visited depth (.resolveCheck g)
  | rewrite {alive visited depth g} (h : Occurs alive visited depth (.resolveCheck g))
      (hdepth : depth ≠ C.maxResolutionDepth) (hg : g ∉ visited) :
      Occurs alive (g :: visited) depth (C.rewrite g)
  | operand {alive visited depth h h'} (ho : Occurs alive visited depth h)
      (hop : Operand h h') : Occurs alive visited depth h'
  | cut {alive visited depth h h'} (ho : Occurs alive visited depth h)
      (hcut : Cut C sched cache alive visited depth h h') :
      Occurs false visited depth h'
  | dispatch {alive visited depth} {produces : List (DispatchMsg Goal) → Prop}
      (ho : Occurs alive visited depth (.dispatch produces))
      {messages : List (DispatchMsg Goal)} (hm : produces messages) {g : Goal}
      (hg : .dispatchParams g ∈ messages) :
      Occurs alive visited (depth + 1) (.delegate g)
  | cutDispatch {alive visited depth} {produces : List (DispatchMsg Goal) → Prop}
      (ho : Occurs alive visited depth (.dispatch produces)) {g : Goal}
      (hcut : CutDispatch C sched cache visited depth produces g) :
      Occurs false visited (depth + 1) (.delegate g)

end Evaluation

/-- **The responses stored, the last one first.**  `CachedCheckResolver.ResolveCheck` stores a
response without an error that does not report a cycle; it was computed with what the cache held. -/
inductive History (C : Checker Goal) (sched : Schedules) : List (Goal × Response) → Prop
  | nil : History C sched []
  | store {cache : List (Goal × Response)} {alive visited depth g resp}
      (hcache : History C sched cache)
      (hoccurs : Occurs C sched cache alive visited depth (.delegate g))
      (hresp : Evaluates C sched cache alive visited depth (.resolveCheck g) (.ok resp))
      (hcycle : resp.cycleDetected = false) : History C sched ((g, resp) :: cache)

/-! ### What the outcomes rest on -/

/-- No loop takes a closed and empty channel for outcomes: the context is alive, or the schedules
exclude it. -/
def Safe (sched : Schedules) (alive : Bool) : Prop :=
  alive = true ∨ ∀ R cancelled outcomes choices, sched R cancelled outcomes choices →
    TakesOutcomes R cancelled outcomes choices

theorem safe_alive (sched : Schedules) : Safe sched true := .inl rfl

section Answers

variable {sched : Schedules} {alive : Bool}

/-- What a reducer's result rests on, if no loop takes an empty channel. -/
theorem gathers_answer {R : Gather.Reducer Outcome Outcome} {outcomes : List Outcome}
    {s : Gather.State Outcome Outcome} (hrun : Gathers sched R alive outcomes s)
    (hsafe : Safe sched alive) (hR : R.expected = outcomes.length) {o : Outcome}
    (hs : s.result = some o) :
    alive = false ∧ o = R.aborted ∨ (∃ o' ∈ s.received, R.stop o' = some o)
      ∨ s.received.Perm outcomes ∧ (∀ o' ∈ s.received, R.stop o' = none)
        ∧ ∃ c, o = R.conclude c s.received := by
  obtain ⟨cancelled, choices, hrun, hsched, halive⟩ := hrun
  have htakes : TakesOutcomes R cancelled outcomes choices := by
    rcases hsafe with rfl | hsafe
    · exact Gather.takesOutcome_of_alive hrun hR (halive rfl)
    · exact hsafe R cancelled outcomes choices hsched
  refine (Gather.run_answer hrun hR (.inr htakes) hs).imp_left ?_
  rintro ⟨hcancelled, rfl⟩
  refine ⟨?_, rfl⟩
  cases alive with
  | false => rfl
  | true =>
    rw [halive rfl] at hcancelled
    cases hcancelled

variable {n limit : ℕ} {os : Fin n → Outcome} {s : Gather.State Outcome Outcome} {o : Outcome}

theorem mem_of_perm_ofFn (h : s.received.Perm (List.ofFn os)) (i : Fin n) : os i ∈ s.received :=
  h.mem_iff.mpr (mem_ofFn.mpr ⟨i, rfl⟩)

theorem exists_of_received {R : Gather.Reducer Outcome Outcome}
    (hrun : Gathers sched R alive (List.ofFn os) s) (ho : o ∈ s.received) : ∃ i, os i = o := by
  obtain ⟨c, _, hrun, -⟩ := hrun
  exact mem_ofFn.mp ((Gather.run_inv hrun).mem ho)

/-- **The outcome of a union of operands**, some of which are received: a response that allows, or
the sum of all outcomes. -/
def Sums {ι : Type} (os : ι → Outcome) (got : ι → Prop) (o : Outcome) : Prop :=
  (∃ i resp, got i ∧ os i = .ok resp ∧ resp.allowed = true ∧ o = .ok resp)
    ∨ (∀ i, got i) ∧ (∀ i, ¬ (os i).returned true)
      ∧ ((∃ e, o = .error e ∧ ∃ i e', os i = .error e')
        ∨ ∃ c, o = .ok { allowed := false, cycleDetected := c }
          ∧ (∀ i, ∃ resp, os i = .ok resp) ∧ (c = true ↔ ∃ i, (os i).cycle = true))

theorem sums_of_received (limit n : ℕ) (c : Bool) {ι : Type} {os : ι → Outcome}
    {received : List Outcome} (hmem : ∀ o' ∈ received, ∃ i, os i = o')
    (h : (∃ o' ∈ received, (unionReducer limit n).stop o' = some o)
      ∨ (∀ i, os i ∈ received) ∧ (∀ o' ∈ received, (unionReducer limit n).stop o' = none)
        ∧ o = (unionReducer limit n).conclude c received) : Sums os (os · ∈ received) o := by
  rcases h with ⟨o', ho', hstop⟩ | ⟨hall, hnone, hconclude⟩
  · obtain ⟨rfl, resp, hresp, hallowed⟩ := unionReducer_stop hstop
    obtain ⟨i, hi⟩ := hmem _ ho'
    exact .inl ⟨i, resp, (hi ▸ ho' : os i ∈ received), hi.trans hresp, hallowed, hresp⟩
  · have hmem : ∀ o', o' ∈ received ↔ ∃ i, os i = o' :=
      fun o' => ⟨hmem o', fun ⟨i, hi⟩ => hi ▸ hall i⟩
    have hsum := unionReducer_sum limit n c hnone hconclude
    simp only [hmem, forall_exists_index, forall_apply_eq_imp_iff, exists_exists_eq_and] at hsum
    exact .inr ⟨hall, hsum⟩

theorem union_answer (hrun : Gathers sched (unionReducer limit n) alive (List.ofFn os) s)
    (hsafe : Safe sched alive) (hs : s.result = some o) :
    alive = false ∧ o = .error .context ∨ Sums os (os · ∈ s.received) o := by
  have hmem : ∀ o' ∈ s.received, ∃ i, os i = o' := fun _ => exists_of_received hrun
  rcases gathers_answer hrun hsafe (by simp [unionReducer]) hs
    with h | h | ⟨hperm, hnone, c, hconclude⟩
  · exact .inl h
  · exact .inr (sums_of_received limit n false hmem (.inl h))
  · exact .inr (sums_of_received limit n c hmem
      (.inr ⟨mem_of_perm_ofFn hperm, hnone, hconclude⟩))

/-- An intersection wants all its operands to allow. -/
theorem intersection_answer
    (hrun : Gathers sched (intersectionReducer limit n) alive (List.ofFn os) s)
    (hsafe : Safe sched alive) (hs : s.result = some o) :
    alive = false ∧ o = .error .context
      ∨ Products (fun _ => true) os (os · ∈ s.received) o := by
  have hmem : ∀ o' ∈ s.received, ∃ i, os i = o' := fun _ => exists_of_received hrun
  rcases gathers_answer hrun hsafe (by simp [intersectionReducer]) hs
    with h | ⟨o', ho', hstop⟩ | ⟨hperm, hnone, c, hconclude⟩
  · exact .inl h
  · obtain ⟨i, rfl⟩ := hmem _ ho'
    obtain ⟨resp, hresp⟩ := intersectionReducer_stop hstop
    exact .inr (.inl ⟨i, resp, ho', hresp⟩)
  · have hmem : ∀ o', o' ∈ s.received ↔ ∃ i, os i = o' :=
      fun o' => ⟨hmem o', by rintro ⟨i, rfl⟩; exact mem_of_perm_ofFn hperm i⟩
    have hproduct := intersectionReducer_product limit n c hnone hconclude
    simp only [hmem, forall_exists_index, forall_apply_eq_imp_iff, exists_exists_eq_and] at hproduct
    exact .inr (.inr ⟨mem_of_perm_ofFn hperm, hproduct⟩)

end Answers

variable {o : Outcome}

/-- An exclusion wants its base to allow and its subtract side not to. -/
theorem exclusion_answer {alive : Bool} {ob osub : Outcome} {s : GatherPair.State Outcome Outcome}
    (hrun : GathersPair alive ob osub s) (hs : s.result = some o) :
    alive = false ∧ o = .error .context
      ∨ Products (ofSide true false) (ofSide ob osub)
        (fun side => ofSide s.fromBase s.fromSub side = some (ofSide ob osub side)) o := by
  obtain ⟨_, _, hrun, halive⟩ := hrun
  refine (exclusion_products (GatherPair.run_inv hrun) hs).imp_left ?_
  rintro ⟨hcancelled, ho⟩
  refine ⟨?_, ho⟩
  cases alive with
  | false => rfl
  | true =>
    rw [halive rfl] at hcancelled
    cases hcancelled

variable {checks : List (DispatchMsg Goal × Outcome)}

variable (checks) in
/-- The outcome that a dispatched message leads to. -/
abbrev checkOutcome (check : { check // check ∈ checks }) : Outcome :=
  (DispatchMsg.process check.1).outcome

/-- **The outcome of the dispatched checks** is that of a union of them. -/
theorem dispatch_answer {limit : ℕ} {s : DispatchPool.State Outcome Outcome}
    (hrun : Dispatches limit checks s) (hs : s.result = some o) :
    Sums (checkOutcome checks) (checkOutcome checks · ∈ s.received) o := by
  obtain ⟨_, hrun⟩ := hrun
  refine sums_of_received limit 0 false (fun o' ho' => ?_) ?_
  · have hall := (DispatchPool.run_inv hrun).all.mem_iff.mp
      (by simp [DispatchPool.State.all, ho'] : o' ∈ s.all)
    simpa [checkOutcome] using hall
  · refine (DispatchPool.run_answer hrun hs).imp_right fun hend => ?_
    obtain ⟨hperm, hconclude, hnone⟩ := hend
    refine ⟨fun check => hperm.mem_iff.mpr ?_, hnone, hconclude⟩
    simpa using ⟨_, _, check.2, rfl⟩

/-- A dispatched check has an outcome. -/
theorem exists_check {m : DispatchMsg Goal}
    (hm : m ∈ checks.map Prod.fst) : ∃ o, (m, o) ∈ checks := by
  obtain ⟨⟨_, o⟩, hcheck, rfl⟩ := mem_map.mp hm
  exact ⟨o, hcheck⟩

end Kengen.Graph
