import Kengen.BatchCheck.Execute

/-!
# What a batch answers

Items with one cache key are checked once.  They ask the same question in the same context with the
same contextual tuples, but the tuples may stand in another order.

* `Interchangeable` — items that differ in the order of their contextual tuples at most, or in
  writing an empty context as none.
* **`interchangeable_of_key`** — items with one key are interchangeable.
* `AnswersAlone` — every item of a batch gets the outcome of checking it alone, in every schedule
  without a cancellation.
* **`batch_answers_alone`** — this holds for every check function if and only if items with one key
  ask for the same check.
* **`reordered_item_gets_other_outcome`** — a check that looks at the order is answered for one item
  only.
-/

namespace Kengen.BatchCheck

open CacheKeys Runs

variable {ε : Type}

/-! ### Valid correlation ids -/

theorem validateCorrelationIDs_ok (tupleKeyString : BatchCheckItem → String) (seen : List String)
    {checks : List BatchCheckItem} (hids : ∀ check ∈ checks, check.correlationId ≠ "")
    (hdistinct : (checks.map BatchCheckItem.correlationId).Nodup)
    (hseen : ∀ check ∈ checks, check.correlationId ∉ seen) :
    validateCorrelationIDs tupleKeyString seen checks = .ok () := by
  induction checks generalizing seen with
  | nil => rfl
  | cons check checks ih =>
    rw [List.map_cons, List.nodup_cons] at hdistinct
    rw [validateCorrelationIDs, if_neg (hids check List.mem_cons_self),
      if_neg (hseen check List.mem_cons_self)]
    refine ih _ (fun c hc => hids c (List.mem_cons_of_mem _ hc)) hdistinct.2 fun c hc hmem => ?_
    rcases List.mem_cons.mp hmem with heq | hmem
    · exact hdistinct.1 (heq ▸ List.mem_map_of_mem hc)
    · exact hseen c (List.mem_cons_of_mem _ hc) hmem

/-- A batch within the limit with valid and distinct ids. -/
structure ValidBatch (bq : BatchCheckQuery ε) (params : BatchCheckCommandParams) : Prop where
  nonempty : params.checks ≠ []
  limit : params.checks.length ≤ bq.maxChecksAllowed
  ids : ∀ check ∈ params.checks, check.correlationId ≠ ""
  distinct : (params.checks.map BatchCheckItem.correlationId).Nodup

theorem prepare_ok {bq : BatchCheckQuery ε} {params : BatchCheckCommandParams}
    (h : ValidBatch bq params) (tupleKeyString : BatchCheckItem → String)
    (key : BatchCheckItem → List UInt8) :
    bq.prepare tupleKeyString key params = .ok (cacheKeyMap key params.checks) := by
  have hlength : params.checks.length ≠ 0 := fun hzero => h.nonempty (List.length_eq_zero_iff.mp hzero)
  have hvalid := validateCorrelationIDs_ok tupleKeyString [] h.ids h.distinct
    (fun _ _ => List.not_mem_nil)
  rw [BatchCheckQuery.prepare, if_neg (Nat.not_lt.mpr h.limit), if_neg hlength, hvalid]

/-! ### Fanning out -/

/-- The results behind one group. -/
theorem foldl_update {outcome : BatchCheckOutcome ε} (ids : List String)
    (results : String → Option (BatchCheckOutcome ε)) (id : String) :
    (ids.foldl (fun results id => Function.update results id (some outcome)) results) id
      = if id ∈ ids then some outcome else results id := by
  induction ids generalizing results with
  | nil => simp
  | cons first ids ih =>
    rw [List.foldl_cons, ih, Function.update_apply]
    by_cases hmem : id ∈ ids
    · simp [hmem]
    · by_cases heq : id = first <;> simp [hmem, heq]

/-- **The map of results**, if the groups of an id agree on its outcome. -/
theorem fanOut_spec {resultMap : List UInt8 → Option (BatchCheckOutcome ε)}
    {target : String → Option (BatchCheckOutcome ε)} {groups : List Group}
    (h : ∀ group ∈ groups, ∃ outcome, resultMap group.key = some outcome
      ∧ ∀ id ∈ group.correlationIDs, target id = some outcome)
    (results : String → Option (BatchCheckOutcome ε)) :
    ∃ final, fanOut resultMap groups results = some final
      ∧ (∀ group ∈ groups, ∀ id ∈ group.correlationIDs, final id = target id)
      ∧ ∀ id, (∀ group ∈ groups, id ∉ group.correlationIDs) → final id = results id := by
  induction groups generalizing results with
  | nil => exact ⟨results, rfl, nofun, fun _ _ => rfl⟩
  | cons group groups ih =>
    obtain ⟨outcome, hstored, htarget⟩ := h group List.mem_cons_self
    obtain ⟨final, hfinal, hin, hout⟩ := ih (fun g hg => h g (List.mem_cons_of_mem _ hg))
      (group.correlationIDs.foldl (fun results id => Function.update results id (some outcome))
        results)
    refine ⟨final, ?_, fun g hg id hid => ?_, fun id hid => ?_⟩
    · rw [fanOut, hstored]
      exact hfinal
    · by_cases hrest : ∃ g' ∈ groups, id ∈ g'.correlationIDs
      · obtain ⟨g', hg', hid'⟩ := hrest
        exact hin g' hg' id hid'
      · -- no later group has this id, so it keeps the outcome of the first one
        have hfirst : id ∈ group.correlationIDs := by
          rcases List.mem_cons.mp hg with rfl | hg
          · exact hid
          · exact absurd ⟨g, hg, hid⟩ hrest
        rw [hout id (fun g' hg' hid' => hrest ⟨g', hg', hid'⟩), foldl_update, if_pos hfirst,
          htarget id hfirst]
    · rw [hout id (fun g' hg' => hid g' (List.mem_cons_of_mem _ hg')), foldl_update,
        if_neg (hid group List.mem_cons_self)]

/-! ### Items with one key -/

/-- **Items that differ in the order of their contextual tuples at most**, or in writing an empty
context as none. -/
structure Interchangeable (a b : BatchCheckItem) : Prop where
  object : a.object = b.object
  relation : a.relation = b.relation
  user : a.user = b.user
  context : newStructValue a.context = newStructValue b.context
  contextualTuples : (a.contextualTuples.map Tuple.content).Perm
    (b.contextualTuples.map Tuple.content)

/-- The bytes that the hash of an item is taken of. -/
def itemBytes (pdqsort : Pdqsort) (params : BatchCheckCommandParams) (check : BatchCheckItem) :
    List UInt8 :=
  invariantBytes pdqsort params.storeID params.authorizationModelID check.context
    check.contextualTuples

/-- The key of an item of a batch. -/
def itemKey (sum64 : List UInt8 → UInt64) (pdqsort : Pdqsort) (params : BatchCheckCommandParams)
    (check : BatchCheckItem) : List UInt8 :=
  generateCacheKeyFromCheck sum64 pdqsort params.storeID params.authorizationModelID check

theorem interchangeable_of_key {sum64 : List UInt8 → UInt64} {pdqsort : Pdqsort}
    {params : BatchCheckCommandParams} {a b : BatchCheckItem}
    (hcollision : sum64 (itemBytes pdqsort params a) = sum64 (itemBytes pdqsort params b) →
      itemBytes pdqsort params a = itemBytes pdqsort params b)
    (hkey : itemKey sum64 pdqsort params a = itemKey sum64 pdqsort params b) :
    Interchangeable a b := by
  obtain ⟨-, hobject, hrelation, huser, hinvariant⟩ := checkCacheKey_inj hkey
  obtain ⟨-, -, hcontext, hperm⟩ := invariantBytes_inj (hcollision hinvariant)
  exact ⟨hobject, hrelation, huser, hcontext, hperm⟩

/-! ### The answers of a batch -/

/-- An item is found by its id. -/
theorem find_item {checks : List BatchCheckItem} {check : BatchCheckItem} (hcheck : check ∈ checks)
    (hdistinct : (checks.map BatchCheckItem.correlationId).Nodup) :
    (checks.find? fun c => decide (c.correlationId = check.correlationId)) = some check := by
  cases hfind : checks.find? fun c => decide (c.correlationId = check.correlationId) with
  | none => exact absurd (List.find?_eq_none.mp hfind check hcheck) (by simp)
  | some found =>
    have hid : found.correlationId = check.correlationId := by simpa using List.find?_some hfind
    rw [List.inj_on_of_nodup_map hdistinct (List.mem_of_find?_eq_some hfind) hcheck hid]

section Done

variable {bq : BatchCheckQuery ε} {params : BatchCheckCommandParams}
  {key : BatchCheckItem → List UInt8} {order order' : List Group} {s : State ε}

/-- The group of an item has its key. -/
theorem Groups.exists_group (h : Groups key params.checks order)
    (hdistinct : (params.checks.map BatchCheckItem.correlationId).Nodup) {check : BatchCheckItem}
    (hcheck : check ∈ params.checks) :
    ∃ group ∈ order, check.correlationId ∈ group.correlationIDs ∧ key check = group.key := by
  obtain ⟨group, hgroup, hmem⟩ := h.complete check hcheck
  obtain ⟨check', hcheck', hid, hkey⟩ := h.ids group hgroup _ hmem
  obtain rfl := List.inj_on_of_nodup_map hdistinct hcheck' hcheck hid
  exact ⟨group, hgroup, hmem, hkey⟩

/-- **What a finished pool has stored for an item**: the outcome of an item with its key. -/
theorem stored_of_done (hdistinct : (params.checks.map BatchCheckItem.correlationId).Nodup)
    (horder : Groups key params.checks order) (hinv : Inv bq params order s) (hdone : s.Done)
    {check : BatchCheckItem} (hcheck : check ∈ params.checks) :
    ∃ check' ∈ params.checks, key check' = key check
      ∧ s.resultMap (key check) = some (bq.outcome params check') := by
  obtain ⟨group, hgroup, -, hkey⟩ := horder.exists_group hdistinct hcheck
  have hstored : s.resultMap group.key ≠ none := by
    rcases hinv.covered group hgroup with hw | hr | hs
    · rw [hdone.1] at hw
      cases hw
    · rw [hdone.2] at hr
      cases hr
    · exact hs
  obtain ⟨outcome, houtcome⟩ := Option.ne_none_iff_exists'.mp hstored
  obtain ⟨group', hgroup', hkey', rfl⟩ := hinv.stored _ _ houtcome
  obtain ⟨hcheck', hkeycheck⟩ := horder.check group' hgroup'
  refine ⟨group'.check, hcheck', hkeycheck.trans (hkey'.trans hkey.symm), ?_⟩
  rw [hkey, houtcome]

/-- The results of a finished pool: what is stored under the keys of the items. -/
theorem results_of_done (hdistinct : (params.checks.map BatchCheckItem.correlationId).Nodup)
    (horder : Groups key params.checks order) (horder' : Groups key params.checks order')
    (hinv : Inv bq params order s) (hdone : s.Done) :
    ∃ results, fanOut s.resultMap order' (fun _ => none) = some results
      ∧ (∀ check ∈ params.checks, results check.correlationId = s.resultMap (key check))
      ∧ ∀ id, results id ≠ none → ∃ check ∈ params.checks, check.correlationId = id := by
  -- an id gets what is stored under the key of its item
  let target : String → Option (BatchCheckOutcome ε) := fun id =>
    (params.checks.find? fun c => decide (c.correlationId = id)).bind fun c => s.resultMap (key c)
  have htarget : ∀ check ∈ params.checks,
      target check.correlationId = s.resultMap (key check) := by
    intro check hcheck
    show Option.bind _ _ = _
    rw [find_item hcheck hdistinct]
    rfl
  have hgroups : ∀ group ∈ order', ∃ outcome, s.resultMap group.key = some outcome
      ∧ ∀ id ∈ group.correlationIDs, target id = some outcome := by
    intro group hgroup
    obtain ⟨hcheck, hkey⟩ := horder'.check group hgroup
    obtain ⟨check', -, -, hstored⟩ := stored_of_done hdistinct horder hinv hdone hcheck
    refine ⟨bq.outcome params check', hkey ▸ hstored, fun id hid => ?_⟩
    obtain ⟨check, hcheck, rfl, hkeyid⟩ := horder'.ids group hgroup id hid
    rw [htarget check hcheck, hkeyid, ← hkey, hstored]
  obtain ⟨results, hresults, hin, hout⟩ := fanOut_spec hgroups fun _ => none
  refine ⟨results, hresults, fun check hcheck => ?_, fun id hid => ?_⟩
  · obtain ⟨group, hgroup, hmem⟩ := horder'.complete check hcheck
    rw [hin group hgroup _ hmem, htarget check hcheck]
  · by_contra hnone
    refine hid (hout id fun group hgroup hmem => hnone ?_)
    obtain ⟨check, hcheck, heq, -⟩ := horder'.ids group hgroup id hmem
    exact ⟨check, hcheck, heq⟩

variable (bq params) in
/-- One group after the other: a schedule that finishes. -/
theorem exists_done (hrunning : s.running = []) (halive : s.ctxErr = none) :
    ∃ (choices : List (Choice ε)) (s' : State ε), (∀ choice ∈ choices, choice.Keeps)
      ∧ run (bq.step params) s choices = some s' ∧ s'.Done := by
  obtain ⟨waiting, running, resultMap, metadata, ctxErr⟩ := s
  cases hrunning
  cases halive
  induction waiting generalizing resultMap metadata with
  | nil => exact ⟨[], _, nofun, rfl, rfl, rfl⟩
  | cons group waiting ih =>
    have hpool := bq.maxConcurrentChecks_pos
    obtain ⟨choices, s', hkeeps, hrun, hdone⟩ := ih
      (store resultMap group.key (outcomeOf (bq.checker (checkParams params group.check))))
      (metadata.add ((bq.checker (checkParams params group.check)).1.getD {}))
    refine ⟨.go :: .execute 0 :: .finish 0 :: choices, s', ?_, ?_, hdone⟩
    · simpa [Choice.Keeps] using hkeeps
    · simpa [run, BatchCheckQuery.step, hpool] using hrun

end Done

/-- **Every item gets the outcome of checking it alone**: whatever order the groups are started and
read in, every schedule without a cancellation is bounded and does not get stuck, and the results at
its end have one entry for each id, the outcome of its own item. -/
def AnswersAlone (bq : BatchCheckQuery ε) (params : BatchCheckCommandParams)
    (tupleKeyString : BatchCheckItem → String) (key : BatchCheckItem → List UInt8) : Prop :=
  ∃ groups, bq.prepare tupleKeyString key params = .ok groups
    ∧ ∀ order order', order.Perm groups → order'.Perm groups →
      ∀ (choices : List (Choice ε)) (s : State ε), (∀ choice ∈ choices, choice.Keeps) →
      run (bq.step params) { waiting := order } choices = some s →
        choices.length ≤ 3 * params.checks.length
        ∧ (¬ s.Done → ∃ choice : Choice ε, choice.Keeps ∧ (bq.step params s choice).isSome)
        ∧ (s.Done → ∃ results metadata, s.returns params order' = some (results, metadata)
          ∧ (∀ check ∈ params.checks, results check.correlationId = some (bq.outcome params check))
          ∧ ∀ id, results id ≠ none → ∃ check ∈ params.checks, check.correlationId = id)

section Same

variable {bq : BatchCheckQuery ε} {params : BatchCheckCommandParams}
  {tupleKeyString : BatchCheckItem → String} {key : BatchCheckItem → List UInt8}

/-- Items with one key that have the same outcome. -/
theorem answersAlone_of_same (hvalid : ValidBatch bq params)
    (hsame : ∀ a ∈ params.checks, ∀ b ∈ params.checks, key a = key b →
      bq.outcome params a = bq.outcome params b) :
    AnswersAlone bq params tupleKeyString key := by
  have hgroups := groups_cacheKeyMap key params.checks
  refine ⟨_, prepare_ok hvalid tupleKeyString _, ?_⟩
  intro order order' horder horder' choices s hkeeps hrun
  obtain ⟨hlength, hprogress⟩ := run_progress hkeeps hrun
  refine ⟨?_, hprogress, fun hdone => ?_⟩
  · have hle := (hgroups.of_perm horder).length_le
    omega
  · have hinv := run_stores hkeeps hrun
    obtain ⟨results, hresults, hstored, honly⟩ := results_of_done hvalid.distinct
      (hgroups.of_perm horder) (hgroups.of_perm horder') hinv hdone
    refine ⟨results, { s.metadata with duplicateCheckCount := params.checks.length - order'.length },
      ?_, fun check hcheck => ?_, honly⟩
    · rw [State.returns, hresults]
      rfl
    · obtain ⟨check', hcheck', hkey, houtcome⟩ :=
        stored_of_done hvalid.distinct (hgroups.of_perm horder) hinv hdone hcheck
      rw [hstored check hcheck, houtcome, hsame check' hcheck' check hcheck hkey]

/-- Items with one key share one entry, so they have the same outcome if each gets its own. -/
theorem same_of_answersAlone (hvalid : ValidBatch bq params)
    (h : AnswersAlone bq params tupleKeyString key) {a b : BatchCheckItem}
    (ha : a ∈ params.checks) (hb : b ∈ params.checks) (hkey : key a = key b) :
    bq.outcome params a = bq.outcome params b := by
  have hgroups := groups_cacheKeyMap key params.checks
  obtain ⟨groups, hprepare, hruns⟩ := h
  rw [prepare_ok hvalid] at hprepare
  cases hprepare
  obtain ⟨choices, s, hkeeps, hrun, hdone⟩ := exists_done bq params
    (s := { waiting := cacheKeyMap key params.checks }) rfl rfl
  obtain ⟨results, _, hreturns, halone, -⟩ :=
    (hruns _ _ (List.Perm.refl _) (List.Perm.refl _) choices s hkeeps hrun).2.2 hdone
  obtain ⟨results', hfanOut, hstored, -⟩ :=
    results_of_done hvalid.distinct hgroups hgroups (run_stores hkeeps hrun) hdone
  rw [State.returns, hfanOut] at hreturns
  cases hreturns
  have hentry : results a.correlationId = results b.correlationId := by
    rw [hstored a ha, hstored b hb, hkey]
  rw [halone a ha, halone b hb] at hentry
  exact Option.some.inj hentry

end Same

/-- **A batch is answered item by item, whatever the check function is, if and only if** items with
one key ask for the same check. -/
theorem batch_answers_alone (bq : BatchCheckQuery ε) (params : BatchCheckCommandParams)
    (sum64 : List UInt8 → UInt64) (pdqsort : Pdqsort) (tupleKeyString : BatchCheckItem → String)
    (hvalid : ValidBatch bq params) :
    (∀ checker : CheckCommandParams → CheckReturn ε, AnswersAlone { bq with checker := checker }
        params tupleKeyString (itemKey sum64 pdqsort params))
      ↔ ∀ a ∈ params.checks, ∀ b ∈ params.checks,
        itemKey sum64 pdqsort params a = itemKey sum64 pdqsort params b →
          checkParams params a = checkParams params b := by
  have hvalid' : ∀ checker : CheckCommandParams → CheckReturn ε,
      ValidBatch { bq with checker := checker } params := fun checker =>
    ⟨hvalid.nonempty, hvalid.limit, hvalid.ids, hvalid.distinct⟩
  refine ⟨fun h a ha b hb hkey => ?_, fun h checker => ?_⟩
  · -- a check function that tells the two requests apart
    by_contra hne
    classical
    let checker : CheckCommandParams → CheckReturn ε := fun p =>
      (some { allowed := decide (p = checkParams params a) }, none)
    have hsame := same_of_answersAlone (hvalid' checker) (h checker) ha hb hkey
    have hallowed := congrArg BatchCheckOutcome.allowed hsame
    simp [BatchCheckQuery.outcome, outcomeOf, checker, Ne.symm hne] at hallowed
  · refine answersAlone_of_same (hvalid' checker) fun a ha b hb hkey => ?_
    rw [BatchCheckQuery.outcome, BatchCheckQuery.outcome, h a ha b hb hkey]

/-! ### A check that looks at the order -/

namespace Reordered

/-- The tuple `doc:1#viewer@user:anne` with a condition. -/
def assigned (condition : String) : Tuple where
  object := "doc:1"
  relation := "viewer"
  user := "user:anne"
  condition := some ⟨condition, none⟩

def item (correlationId : String) (contextualTuples : List Tuple) : BatchCheckItem where
  correlationId := correlationId
  object := "doc:1"
  relation := "viewer"
  user := "user:anne"
  contextualTuples := contextualTuples
  context := none

def params (checks : List BatchCheckItem) : BatchCheckCommandParams where
  authorizationModelID := "model"
  checks := checks
  consistency := .unspecified
  storeID := "store"

/-- The first contextual tuple decides: its condition `a` is true, `b` is false. -/
def query : BatchCheckQuery String where
  maxChecksAllowed := 50
  maxConcurrentChecks := 50
  maxConcurrentChecks_pos := by decide
  checker p := (some { allowed := (p.contextualTuples.map Tuple.conditionName).head? == some "a" },
    none)

/-- The two items, with the tuples in both orders. -/
def first : BatchCheckItem := item "1" [assigned "a", assigned "b"]

def second : BatchCheckItem := item "2" [assigned "b", assigned "a"]

theorem itemBytes_eq (pdqsort : Pdqsort) :
    itemBytes pdqsort (params [first, second]) first
      = itemBytes pdqsort (params [first, second]) second := by
  have hsort : sortTuples pdqsort [assigned "a", assigned "b"]
      = sortTuples pdqsort [assigned "b", assigned "a"] := by
    have hab : (assigned "a").less (assigned "b") = true := by decide
    have hba : (assigned "b").less (assigned "a") = false := by decide
    simp [sortTuples, insertionSort, insertTuple, hab, hba]
  simp only [itemBytes, first, second, item, invariantBytes, hsort]
  rfl

theorem itemKey_eq (sum64 : List UInt8 → UInt64) (pdqsort : Pdqsort) :
    itemKey sum64 pdqsort (params [first, second]) first
      = itemKey sum64 pdqsort (params [first, second]) second :=
  congrArg (fun bytes => checkCacheKey "store" "doc:1" "viewer" "user:anne" (sum64 bytes))
    (itemBytes_eq pdqsort)

/-- One request with two ids. -/
def twice : BatchCheckCommandParams := params [first, { first with correlationId := "2" }]

/-- The one group of both items. -/
def group (key : List UInt8) : Group := ⟨key, first, ["1", "2"]⟩

/-- The pool runs one goroutine. -/
def schedule : List (Choice String) := [.go, .execute 0, .finish 0]

/-- The pool at the end of the schedule, and what the command returns. -/
theorem schedule_returns (key : List UInt8) :
    ∃ s results metadata,
      run (query.step (params [first, second])) { waiting := [group key] } schedule = some s
        ∧ s.Done ∧ s.returns (params [first, second]) [group key] = some (results, metadata)
        ∧ results "2" = some (query.outcome (params [first, second]) first) := by
  refine ⟨{ waiting := [],
            resultMap := store (fun _ => none) key (query.outcome (params [first, second]) first) },
    Function.update (Function.update (fun _ => none) "1"
      (some (query.outcome (params [first, second]) first))) "2"
      (some (query.outcome (params [first, second]) first)),
    { duplicateCheckCount := 1 }, rfl, ⟨rfl, rfl⟩, ?_, by simp⟩
  simp [State.returns, fanOut, store, group, params]

end Reordered

open Reordered in
/-- **An item gets the outcome of another one**: both items have one key, the first one is checked
and allowed, and the second one alone would be denied. -/
theorem reordered_item_gets_other_outcome :
    ValidBatch query (params [first, second])
      ∧ (∀ pdqsort, itemBytes pdqsort (params [first, second]) first
        = itemBytes pdqsort (params [first, second]) second)
      ∧ ∀ sum64 pdqsort tupleKeyString, ∃ groups s results metadata,
        query.prepare tupleKeyString (itemKey sum64 pdqsort (params [first, second]))
            (params [first, second]) = .ok groups
          ∧ run (query.step (params [first, second])) { waiting := groups } schedule = some s
          ∧ s.Done ∧ s.returns (params [first, second]) groups = some (results, metadata)
          ∧ (results "2").map BatchCheckOutcome.allowed = some true
          ∧ (query.outcome (params [first, second]) second).allowed = false := by
  have hvalid : ValidBatch query (params [first, second]) :=
    ⟨by simp [params], by decide, by decide, by decide⟩
  refine ⟨hvalid, itemBytes_eq, fun sum64 pdqsort tupleKeyString => ?_⟩
  have hgroups : cacheKeyMap (itemKey sum64 pdqsort (params [first, second])) [first, second]
      = [group (itemKey sum64 pdqsort (params [first, second]) first)] := by
    simp only [cacheKeyMap, List.foldl_cons, List.foldl_nil, addCheck,
      itemKey_eq sum64 pdqsort, if_true]
    rfl
  obtain ⟨s, results, metadata, hrun, hdone, hreturns, hresult⟩ :=
    schedule_returns (itemKey sum64 pdqsort (params [first, second]) first)
  refine ⟨_, s, results, metadata,
    (prepare_ok hvalid tupleKeyString _).trans (congrArg _ hgroups), hrun, hdone, hreturns, ?_, ?_⟩
  · rw [hresult]
    decide
  · decide

open Reordered in
/-- One request with two ids is answered for every check function, the two orders are not. -/
theorem batch_answers_alone_reordered :
    (∀ checker : CheckCommandParams → CheckReturn String,
        AnswersAlone { query with checker := checker } twice BatchCheckItem.object
          (itemKey (fun _ => 0) ⟨id, List.Perm.refl⟩ twice))
      ∧ ¬ ∀ checker : CheckCommandParams → CheckReturn String,
        AnswersAlone { query with checker := checker } (params [first, second])
          BatchCheckItem.object
          (itemKey (fun _ => 0) ⟨id, List.Perm.refl⟩ (params [first, second])) := by
  constructor
  · refine (batch_answers_alone query twice _ _ _
      ⟨by simp [twice, params], by decide, by decide, by decide⟩).mpr ?_
    have hfirst : ∀ a ∈ twice.checks, checkParams twice a = checkParams twice first := by
      simp [twice, params, checkParams]
    exact fun a ha b hb _ => (hfirst a ha).trans (hfirst b hb).symm
  · intro h
    have hsame := (batch_answers_alone query _ _ _ _
      ⟨by simp [params], by decide, by decide, by decide⟩).mp h first (by simp [params]) second
      (by simp [params]) (itemKey_eq _ _)
    have htuples := congrArg (fun p => p.contextualTuples.map Tuple.conditionName) hsame
    exact absurd htuples (by decide)

end Kengen.BatchCheck
