import Kengen.Lib.Runs
import Kengen.CacheKeys.Invariant

/-!
# BatchCheck

`BatchCheckQuery.Execute` groups the checks of a batch by their cache key, evaluates one check of
each group in a pool of goroutines, and gives its outcome to every correlation id of the group.

* `validateCorrelationIDs`, `prepare` — the checks before anything is evaluated, with their
  messages, and the groups.
* `State`, `step` — the pool: `go` starts the next group, `execute` evaluates its check and stores
  the outcome, `finish` adds to the counters, `cancel` cancels the caller's context.
* `fanOut` — the map of results; reading a group without an outcome would panic.
* **`run_stores`** — in every schedule without a cancellation the stored outcomes are those of the
  groups' checks.
* **`run_progress`** — schedules are bounded and none gets stuck.

Both loops over the map of groups go through it in an order that the runtime chooses.
-/

namespace Kengen.BatchCheck

open CacheKeys Runs List

/-! ### Requests and outcomes -/

/-- A `BatchCheckItem`. -/
structure BatchCheckItem where
  correlationId : String
  object : String
  relation : String
  user : String
  contextualTuples : List Tuple
  context : Option Struct

inductive ConsistencyPreference where
  | unspecified
  | minimizeLatency
  | higherConsistency
deriving DecidableEq, Repr

/-- `BatchCheckCommandParams`. -/
structure BatchCheckCommandParams where
  authorizationModelID : String
  checks : List BatchCheckItem
  consistency : ConsistencyPreference
  storeID : String

/-- `CheckCommandParams`. -/
structure CheckCommandParams where
  storeID : String
  object : String
  relation : String
  user : String
  contextualTuples : List Tuple
  context : Option Struct
  consistency : ConsistencyPreference

/-- What the command reads of a `CheckResult`; the default is the empty result. -/
structure CheckResult where
  allowed : Bool := false
  datastoreQueryCount : UInt32 := 0
  datastoreItemCount : UInt64 := 0
  duration : ℤ := 0
  dispatchCount : UInt32 := 0
  dispatchThrottled : Bool := false
  wasThrottled : Bool := false
deriving DecidableEq, Repr

/-- A `BatchCheckOutcome`. -/
structure BatchCheckOutcome (ε : Type) where
  allowed : Bool := false
  datastoreQueryCount : UInt32 := 0
  datastoreItemCount : UInt64 := 0
  duration : ℤ := 0
  err : Option ε := none
deriving DecidableEq, Repr

/-- `BatchCheckMetadata`. -/
structure BatchCheckMetadata where
  dispatchThrottleCount : UInt32 := 0
  dispatchCount : UInt32 := 0
  datastoreQueryCount : UInt32 := 0
  datastoreItemCount : UInt64 := 0
  datastoreThrottleCount : UInt32 := 0
  duplicateCheckCount : ℤ := 0
deriving DecidableEq, Repr

/-- The result and the error that a check returns. -/
abbrev CheckReturn (ε : Type) := Option CheckResult × Option ε

/-- `BatchCheckQuery`. -/
structure BatchCheckQuery (ε : Type) where
  maxChecksAllowed : ℕ
  maxConcurrentChecks : ℕ
  /-- A pool needs a goroutine. -/
  maxConcurrentChecks_pos : 0 < maxConcurrentChecks
  checker : CheckCommandParams → CheckReturn ε

variable {ε : Type}

/-- The check of an item. -/
def checkParams (params : BatchCheckCommandParams) (check : BatchCheckItem) :
    CheckCommandParams where
  storeID := params.storeID
  object := check.object
  relation := check.relation
  user := check.user
  contextualTuples := check.contextualTuples
  context := check.context
  consistency := params.consistency

/-- The outcome of what a check returned. -/
def outcomeOf (ret : CheckReturn ε) : BatchCheckOutcome ε :=
  let res := ret.1.getD {}
  { allowed := res.allowed
    datastoreQueryCount := res.datastoreQueryCount
    datastoreItemCount := res.datastoreItemCount
    duration := res.duration
    err := ret.2 }

/-- **The outcome of checking an item alone.** -/
def BatchCheckQuery.outcome (bq : BatchCheckQuery ε) (params : BatchCheckCommandParams)
    (check : BatchCheckItem) : BatchCheckOutcome ε :=
  outcomeOf (bq.checker (checkParams params check))

/-! ### Before the checks are evaluated -/

/-- `validateCorrelationIDs`; `tupleKeyString` prints the tuple key of an item. -/
def validateCorrelationIDs (tupleKeyString : BatchCheckItem → String) :
    List String → List BatchCheckItem → Except String Unit
  | _, [] => .ok ()
  | seen, check :: checks =>
    if check.correlationId = "" then
      .error ("received empty correlation id for tuple: " ++ tupleKeyString check)
    else if check.correlationId ∈ seen then
      .error ("received duplicate correlation id: " ++ check.correlationId)
    else validateCorrelationIDs tupleKeyString (check.correlationId :: seen) checks

/-- `checkAndCorrelationIDs`, with its key in the map. -/
structure Group where
  key : List UInt8
  check : BatchCheckItem
  correlationIDs : List String

/-- One check is added to the map of groups. -/
def addCheck (key : List UInt8) (check : BatchCheckItem) : List Group → List Group
  | [] => [⟨key, check, [check.correlationId]⟩]
  | group :: groups =>
    if group.key = key then
      { group with correlationIDs := group.correlationIDs ++ [check.correlationId] } :: groups
    else group :: addCheck key check groups

variable (key : BatchCheckItem → List UInt8) (checks : List BatchCheckItem)

/-- The loop that builds `cacheKeyMap`. -/
def cacheKeyMap : List Group :=
  checks.foldl (fun groups check => addCheck (key check) check groups) []

/-- `generateCacheKeyFromCheck`. -/
def generateCacheKeyFromCheck (sum64 : List UInt8 → UInt64) (pdqsort : Pdqsort)
    (storeID authModelID : String) (check : BatchCheckItem) : List UInt8 :=
  checkCacheKey storeID check.object check.relation check.user
    (invariantCacheKey sum64 pdqsort storeID authModelID check.context check.contextualTuples)

/-- What `Execute` does before the pool is opened. -/
def BatchCheckQuery.prepare (bq : BatchCheckQuery ε) (tupleKeyString : BatchCheckItem → String)
    (key : BatchCheckItem → List UInt8) (params : BatchCheckCommandParams) :
    Except String (List Group) :=
  if bq.maxChecksAllowed < params.checks.length then
    .error ("batchCheck received " ++ toString params.checks.length
      ++ " checks, the maximum allowed is " ++ toString bq.maxChecksAllowed)
  else if params.checks.length = 0 then
    .error "batch check requires at least one check to evaluate, no checks were received"
  else
    match validateCorrelationIDs tupleKeyString [] params.checks with
    | .error message => .error message
    | .ok () => .ok (cacheKeyMap key params.checks)

/-! ### The pool -/

/-- A goroutine of the pool, with what its check returned once it is stored. -/
structure Routine (ε : Type) where
  group : Group
  returned : Option (CheckReturn ε) := none

structure State (ε : Type) where
  /-- The groups that the loop has not handed to the pool. -/
  waiting : List Group
  running : List (Routine ε) := []
  resultMap : List UInt8 → Option (BatchCheckOutcome ε) := fun _ => none
  metadata : BatchCheckMetadata := {}
  /-- The error of the caller's context. -/
  ctxErr : Option ε := none

inductive Choice (ε : Type) where
  | go
  | execute (i : ℕ)
  | finish (i : ℕ)
  | cancel (err : ε)

/-- The counters after a check. -/
def BatchCheckMetadata.add (m : BatchCheckMetadata) (res : CheckResult) : BatchCheckMetadata :=
  { m with
    dispatchCount := m.dispatchCount + res.dispatchCount
    dispatchThrottleCount := m.dispatchThrottleCount + if res.dispatchThrottled then 1 else 0
    datastoreQueryCount := m.datastoreQueryCount + res.datastoreQueryCount
    datastoreItemCount := m.datastoreItemCount + res.datastoreItemCount
    datastoreThrottleCount := m.datastoreThrottleCount + if res.wasThrottled then 1 else 0 }

/-- `resultMap.Store`. -/
def store (resultMap : List UInt8 → Option (BatchCheckOutcome ε)) (key : List UInt8)
    (outcome : BatchCheckOutcome ε) : List UInt8 → Option (BatchCheckOutcome ε) :=
  Function.update resultMap key (some outcome)

/-- One step of the pool. -/
def BatchCheckQuery.step (bq : BatchCheckQuery ε) (params : BatchCheckCommandParams)
    (s : State ε) : Choice ε → Option (State ε)
  | .go =>
    match s.waiting with
    | [] => none
    | group :: waiting =>
      -- `pool.Go` blocks while all goroutines are busy
      if s.running.length < bq.maxConcurrentChecks then
        some { s with waiting := waiting, running := s.running ++ [{ group := group }] }
      else none
  | .execute i =>
    match s.running[i]? with
    | some ⟨group, none⟩ =>
      match s.ctxErr with
      | some err => some { s with
          running := s.running.eraseIdx i
          resultMap := store s.resultMap group.key { err := some err } }
      | none =>
        let ret := bq.checker (checkParams params group.check)
        some { s with
          running := s.running.set i ⟨group, some ret⟩
          resultMap := store s.resultMap group.key (outcomeOf ret) }
    | _ => none
  | .finish i =>
    match s.running[i]? with
    | some ⟨_, some ret⟩ => some { s with
        running := s.running.eraseIdx i
        metadata := s.metadata.add (ret.1.getD {}) }
    | _ => none
  | .cancel err => some { s with ctxErr := some err }

/-- `pool.Wait` returns. -/
def State.Done (s : State ε) : Prop := s.waiting = [] ∧ s.running = []

/-! ### The results -/

/-- The loop over the groups behind the pool. -/
def fanOut (resultMap : List UInt8 → Option (BatchCheckOutcome ε)) :
    List Group → (String → Option (BatchCheckOutcome ε)) →
      Option (String → Option (BatchCheckOutcome ε))
  | [], results => some results
  | group :: groups, results =>
    match resultMap group.key with
    | none => none
    | some outcome => fanOut resultMap groups
        (group.correlationIDs.foldl (fun results id => Function.update results id (some outcome))
          results)

/-- What `Execute` returns behind the pool. -/
def State.returns (s : State ε) (params : BatchCheckCommandParams) (groups : List Group) :
    Option ((String → Option (BatchCheckOutcome ε)) × BatchCheckMetadata) :=
  (fanOut s.resultMap groups fun _ => none).map fun results =>
    (results, { s.metadata with duplicateCheckCount := params.checks.length - groups.length })

/-! ### The groups -/

/-- What holds of the groups before a check is added, of the group it joins and of a new group,
holds of all groups behind it. -/
theorem addCheck_forall {P : Group → Prop} {key : List UInt8} {check : BatchCheckItem}
    {groups : List Group} (hgroups : ∀ group ∈ groups, P group)
    (hjoin : ∀ group, P group → group.key = key →
      P { group with correlationIDs := group.correlationIDs ++ [check.correlationId] })
    (hnew : P ⟨key, check, [check.correlationId]⟩) :
    ∀ group ∈ addCheck key check groups, P group := by
  induction groups with
  | nil => simpa [addCheck] using hnew
  | cons group groups ih =>
    obtain ⟨hhead, htail⟩ := forall_mem_cons.mp hgroups
    rw [addCheck]
    split
    · rename_i hkey
      exact forall_mem_cons.mpr ⟨hjoin group hhead hkey, htail⟩
    · exact forall_mem_cons.mpr ⟨hhead, ih htail⟩

/-- The ids of the groups stay when a check is added, and its own id joins them. -/
theorem addCheck_ids (key : List UInt8) (check : BatchCheckItem) (groups : List Group) :
    ((addCheck key check groups).flatMap Group.correlationIDs).Perm
      (check.correlationId :: groups.flatMap Group.correlationIDs) := by
  induction groups with
  | nil => exact .refl _
  | cons group groups ih =>
    rw [addCheck]
    split
    · simp only [flatMap_cons, append_assoc, singleton_append]
      exact perm_middle
    · exact (ih.append_left _).trans perm_middle

theorem addCheck_length_le (key : List UInt8) (check : BatchCheckItem) (groups : List Group) :
    (addCheck key check groups).length ≤ groups.length + 1 := by
  induction groups with
  | nil => simp [addCheck]
  | cons group groups ih =>
    rw [addCheck]
    split
    · simp
    · simpa using ih

/-- **What the groups of some checks are**: a group has the key of its check, its ids belong to
checks with this key, and every check is in a group. -/
structure Groups (key : BatchCheckItem → List UInt8) (checks : List BatchCheckItem)
    (groups : List Group) : Prop where
  check : ∀ group ∈ groups, group.check ∈ checks ∧ key group.check = group.key
  ids : ∀ group ∈ groups, ∀ id ∈ group.correlationIDs,
    ∃ check ∈ checks, check.correlationId = id ∧ key check = group.key
  complete : ∀ check ∈ checks, ∃ group ∈ groups, check.correlationId ∈ group.correlationIDs
  length_le : groups.length ≤ checks.length

theorem groups_nil : Groups key [] [] :=
  ⟨nofun, nofun, nofun, le_rfl⟩

theorem groups_addCheck {key : BatchCheckItem → List UInt8} {checks : List BatchCheckItem}
    {groups : List Group} (h : Groups key checks groups) (check : BatchCheckItem) :
    Groups key (checks ++ [check]) (addCheck (key check) check groups) := by
  have hlast : check ∈ checks ++ [check] := mem_append_right _ (mem_singleton_self _)
  constructor
  · refine addCheck_forall (fun group hgroup => ?_) (fun group hgroup _ => hgroup) ⟨hlast, rfl⟩
    exact ⟨mem_append_left _ (h.check group hgroup).1, (h.check group hgroup).2⟩
  · refine addCheck_forall (fun group hgroup id hid => ?_) (fun group hgroup hkey id hid => ?_)
      (fun id hid => ⟨check, hlast, (mem_singleton.mp hid).symm, rfl⟩)
    · obtain ⟨check', hcheck', hprops⟩ := h.ids group hgroup id hid
      exact ⟨check', mem_append_left _ hcheck', hprops⟩
    · rcases mem_append.mp hid with hid | hid
      · exact hgroup id hid
      · exact ⟨check, hlast, (mem_singleton.mp hid).symm, hkey.symm⟩
  · intro check' hcheck'
    refine mem_flatMap.mp ((addCheck_ids (key check) check groups).mem_iff.mpr ?_)
    rcases mem_append.mp hcheck' with hcheck' | hcheck'
    · exact mem_cons_of_mem _ (mem_flatMap.mpr (h.complete check' hcheck'))
    · rw [mem_singleton.mp hcheck']
      exact mem_cons_self
  · have hlength := addCheck_length_le (key check) check groups
    have hle := h.length_le
    rw [length_append, length_singleton]
    omega

/-- **The map of groups.** -/
theorem groups_cacheKeyMap :
    Groups key checks (cacheKeyMap key checks) := by
  have hloop : ∀ (rest before : List BatchCheckItem) (groups : List Group),
      Groups key before groups → Groups key (before ++ rest)
        (rest.foldl (fun groups check => addCheck (key check) check groups) groups) := by
    intro rest
    induction rest with
    | nil => exact fun before groups h => by simpa using h
    | cons check rest ih =>
      intro before groups h
      have hnext := ih (before ++ [check]) _ (groups_addCheck h check)
      rwa [append_assoc] at hnext
  exact hloop checks [] [] (groups_nil key)

theorem Groups.of_perm {key : BatchCheckItem → List UInt8} {checks : List BatchCheckItem}
    {groups order : List Group} (h : Groups key checks groups) (hperm : order.Perm groups) :
    Groups key checks order where
  check group hgroup := h.check group (hperm.mem_iff.mp hgroup)
  ids group hgroup := h.ids group (hperm.mem_iff.mp hgroup)
  complete check hcheck := by
    obtain ⟨group, hgroup, hid⟩ := h.complete check hcheck
    exact ⟨group, hperm.mem_iff.mpr hgroup, hid⟩
  length_le := hperm.length_eq ▸ h.length_le

/-! ### Schedules without a cancellation -/

section Schedule

variable (bq : BatchCheckQuery ε) (params : BatchCheckCommandParams) (order : List Group)

/-- What holds while the context is alive: outcomes are those of the groups' checks, and a group
without an outcome is waiting or running. -/
structure Inv (s : State ε) : Prop where
  alive : s.ctxErr = none
  stored : ∀ key outcome, s.resultMap key = some outcome →
    ∃ group ∈ order, group.key = key ∧ outcome = bq.outcome params group.check
  covered : ∀ group ∈ order, group ∈ s.waiting ∨ ⟨group, none⟩ ∈ s.running
    ∨ s.resultMap group.key ≠ none
  waiting : ∀ group ∈ s.waiting, group ∈ order
  running : ∀ routine ∈ s.running, routine.group ∈ order

/-- The choice is not a cancellation. -/
def Choice.Keeps : Choice ε → Prop
  | .cancel _ => False
  | _ => True

theorem inv_init : Inv bq params order { waiting := order } :=
  ⟨rfl, nofun, fun _ hgroup => .inl hgroup, fun _ hgroup => hgroup, nofun⟩

variable {bq params order}

theorem inv_step {s s' : State ε} {choice : Choice ε} (hinv : Inv bq params order s)
    (hkeeps : choice.Keeps) (h : bq.step params s choice = some s') : Inv bq params order s' := by
  cases choice with
  | go =>
    simp only [BatchCheckQuery.step] at h
    split at h
    · cases h
    rename_i group waiting hwaiting
    split_ifs at h
    cases h
    refine ⟨hinv.alive, hinv.stored, fun g hg => ?_, fun g hg => ?_, fun routine hr => ?_⟩
    · rcases hinv.covered g hg with hw | hr | hs
      · rw [hwaiting] at hw
        rcases mem_cons.mp hw with rfl | hw
        · exact .inr (.inl (mem_append_right _ (mem_singleton_self _)))
        · exact .inl hw
      · exact .inr (.inl (mem_append_left _ hr))
      · exact .inr (.inr hs)
    · exact hinv.waiting g (hwaiting ▸ mem_cons_of_mem _ hg)
    · rcases mem_append.mp hr with hr | hr
      · exact hinv.running routine hr
      · rw [mem_singleton.mp hr]
        exact hinv.waiting group (hwaiting ▸ mem_cons_self)
  | execute i =>
    simp only [BatchCheckQuery.step, hinv.alive] at h
    split at h
    · rename_i group hi
      cases h
      have hgroup : group ∈ order := hinv.running _ (mem_of_getElem? hi)
      refine ⟨rfl, fun key outcome hstored => ?_, fun g hg => ?_, hinv.waiting,
        fun routine hr => ?_⟩
      · simp only [store, Function.update_apply] at hstored
        split at hstored
        · rename_i hkey
          exact ⟨group, hgroup, hkey.symm, (Option.some.inj hstored).symm⟩
        · exact hinv.stored key outcome hstored
      · rcases hinv.covered g hg with hw | hr | hs
        · exact .inl hw
        · by_cases heq : g = group
          · subst heq
            refine .inr (.inr ?_)
            simp [store]
          · refine .inr (.inl ?_)
            obtain ⟨j, hj⟩ := mem_iff_getElem?.mp hr
            have hne : i ≠ j := by
              rintro rfl
              rw [hi] at hj
              exact heq (congrArg Routine.group (Option.some.inj hj)).symm
            exact mem_iff_getElem?.mpr ⟨j, by rw [getElem?_set_ne hne, hj]⟩
        · refine .inr (.inr ?_)
          simp only [store, Function.update_apply]
          split
          · exact Option.some_ne_none _
          · exact hs
      · rcases mem_or_eq_of_mem_set hr with hr | rfl
        · exact hinv.running routine hr
        · exact hgroup
    · cases h
  | finish =>
    simp only [BatchCheckQuery.step] at h
    split at h
    · rename_i group ret hi
      cases h
      refine ⟨hinv.alive, hinv.stored, fun g hg => ?_, hinv.waiting, fun routine hr => ?_⟩
      · rcases hinv.covered g hg with hw | hr | hs
        · exact .inl hw
        · refine .inr (.inl ?_)
          -- the goroutine that ends has stored its outcome
          obtain ⟨j, hj⟩ := mem_iff_getElem?.mp hr
          refine mem_eraseIdx_iff_getElem?.mpr ⟨j, ?_, hj⟩
          rintro rfl
          rw [hi] at hj
          cases hj
        · exact .inr (.inr hs)
      · exact hinv.running routine (mem_of_mem_eraseIdx hr)
    · cases h
  | cancel => exact absurd hkeeps id

/-- **In every schedule without a cancellation** the stored outcomes are those of the groups'
checks. -/
theorem run_stores {choices : List (Choice ε)} {s : State ε}
    (hkeeps : ∀ choice ∈ choices, choice.Keeps)
    (h : run (bq.step params) { waiting := order } choices = some s) : Inv bq params order s :=
  run_invariant (P := fun _ choice => choice.Keeps) (fun _ _ _ => inv_step)
    (inv_init bq params order) (along_of_forall (fun _ => hkeeps) _) h

/-! ### Progress -/

/-- The steps that a goroutine has left. -/
def Routine.work (routine : Routine ε) : ℕ :=
  match routine.returned with
  | none => 2
  | some _ => 1

/-- The steps that are left. -/
def State.work (s : State ε) : ℕ := 3 * s.waiting.length + (s.running.map Routine.work).sum

/-- The work of one goroutine is part of the work of all. -/
theorem work_eraseIdx {running : List (Routine ε)} {i : ℕ} {routine : Routine ε}
    (hi : running[i]? = some routine) :
    (running.map Routine.work).sum
      = routine.work + ((running.eraseIdx i).map Routine.work).sum := by
  obtain ⟨hlt, rfl⟩ := List.getElem?_eq_some_iff.mp hi
  rw [← List.sum_cons, ← List.map_cons]
  exact ((getElem_cons_eraseIdx_perm hlt).map Routine.work).sum_eq.symm

theorem step_work {s s' : State ε} {choice : Choice ε} (halive : s.ctxErr = none)
    (hkeeps : choice.Keeps) (h : bq.step params s choice = some s') : s'.work < s.work := by
  cases choice with
  | go =>
    simp only [BatchCheckQuery.step] at h
    split at h
    · cases h
    rename_i group waiting hwaiting
    split_ifs at h
    cases h
    simp only [State.work, hwaiting, length_cons, map_append, sum_append,
      map_singleton, sum_singleton, Routine.work]
    omega
  | execute i =>
    simp only [BatchCheckQuery.step, halive] at h
    split at h
    · rename_i group hi
      cases h
      obtain ⟨hlt, -⟩ := List.getElem?_eq_some_iff.mp hi
      have hset : ((s.running.set i ⟨group, some (bq.checker (checkParams params group.check))⟩).map
          Routine.work).sum = 1 + ((s.running.eraseIdx i).map Routine.work).sum :=
        ((set_perm_cons_eraseIdx hlt _).map Routine.work).sum_eq
      have hbefore := work_eraseIdx hi
      simp only [State.work, hset, hbefore, Routine.work]
      omega
    · cases h
  | finish =>
    simp only [BatchCheckQuery.step] at h
    split at h
    · rename_i group ret hi
      cases h
      simp only [State.work, work_eraseIdx hi, Routine.work]
      omega
    · cases h
  | cancel => exact absurd hkeeps id

/-- **Schedules are bounded and none gets stuck.** -/
theorem run_progress {choices : List (Choice ε)} {s : State ε}
    (hkeeps : ∀ choice ∈ choices, choice.Keeps)
    (h : run (bq.step params) { waiting := order } choices = some s) :
    choices.length ≤ 3 * order.length
      ∧ (¬ s.Done → ∃ choice : Choice ε, choice.Keeps ∧ (bq.step params s choice).isSome) := by
  constructor
  · have hle := run_length_le_along (P := fun _ choice => choice.Keeps)
      (I := Inv bq params order) (μ := State.work)
      (fun s c s' hinv hc hstep => ⟨inv_step hinv hc hstep, step_work hinv.alive hc hstep⟩)
      (inv_init bq params order) (along_of_forall (fun _ => hkeeps) _) h
    have hinit : ({ waiting := order } : State ε).work = 3 * order.length := rfl
    omega
  · intro hdone
    have halive := (run_stores hkeeps h).alive
    cases hrunning : s.running with
    | cons routine =>
      obtain ⟨group, returned⟩ := routine
      cases returned with
      | none => exact ⟨.execute 0, trivial, by simp [BatchCheckQuery.step, hrunning, halive]⟩
      | some ret => exact ⟨.finish 0, trivial, by simp [BatchCheckQuery.step, hrunning]⟩
    | nil =>
      cases hwaiting : s.waiting with
      | nil => exact absurd ⟨hwaiting, hrunning⟩ hdone
      | cons =>
        refine ⟨.go, trivial, ?_⟩
        simp [BatchCheckQuery.step, hwaiting, hrunning, bq.maxConcurrentChecks_pos]

end Schedule

end Kengen.BatchCheck
