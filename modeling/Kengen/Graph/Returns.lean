import Kengen.Lib.InOrder
import Kengen.Graph.LocalChecker

/-!
# The local checker returns

The loops of the set operators and of the dispatched checks return if their operands do: they
can be worked through in order.  A dispatched check is one level deeper and a computed userset
visits a new relation of the object, so every check comes to an end.

* **`exists_gathers`** — a reducer can take its operands in order.
* `resolveOutcome`, **`evaluates_of_outcome`** — a whole check in order, as a function.
* **`exists_evaluation`**, **`resolveCheck_returns`** — `ResolveCheck` returns, for every request,
  model and tuple set.
-/

namespace Kengen.Graph

open List

variable {Goal : Type}

/-- The schedules in question include those that never meet an empty channel. -/
def Admits (sched : Schedules) : Prop :=
  ∀ R outcomes choices, TakesOutcomes R false outcomes choices → sched R false outcomes choices

/-- Every schedule. -/
def anySchedule : Schedules := fun _ _ _ _ => True

theorem admits_any : Admits anySchedule := fun _ _ _ _ => trivial

theorem admits_takesOutcomes : Admits TakesOutcomes := fun _ _ _ h => h

/-! ### Operands in order -/

theorem exists_gathers {sched : Schedules} {alive : Bool} (hsched : Admits sched)
    (R : Gather.Reducer Outcome Outcome) (hlimit : 0 < R.limit) (outcomes : List Outcome)
    (hexpected : R.expected = outcomes.length) :
    ∃ s, Gathers sched R alive outcomes s ∧ s.result = some (Gather.inOrder R [] outcomes) := by
  obtain ⟨choices, s, hrun, halive, hresult⟩ := Gather.exists_inOrder R hlimit outcomes hexpected
  exact ⟨s, ⟨false, choices, hrun, hsched _ _ _ (Gather.takesOutcome_of_alive hrun hexpected halive),
    fun _ => halive⟩, hresult⟩

/-! ### An evaluation in order -/

/-- The outcomes of all operands. -/
def outcomes {n : ℕ} (f : Fin n → Option Outcome) : Option (Fin n → Outcome) :=
  if h : ∀ i, (f i).isSome then some fun i => (f i).get (h i) else none

theorem of_outcomes {n : ℕ} {f : Fin n → Option Outcome} {os : Fin n → Outcome}
    (h : outcomes f = some os) (i : Fin n) : f i = some (os i) := by
  unfold outcomes at h
  split at h
  · cases h
    simp
  · cases h

namespace LocalChecker

section Executable

variable {κ : Type} (c : LocalChecker κ) (trace : List TupleKey → Trace TupleKey)
  (resolve : String → Option Outcome) (delegate : Request κ → Option Outcome) (req : Request κ)

/-- The dispatched checks of messages. -/
def dispatchOutcome (messages : List (DispatchMsg (Request κ))) : Option Outcome :=
  (outcomes fun i : Fin messages.length =>
    match messages.get i with
    | .dispatchParams g => delegate g
    | _ => some (.error .context)).map fun os =>
      DispatchPool.inOrder (dispatchConsumer c.concurrencyLimit) []
        ((List.ofFn fun i => (messages.get i, os i)).map DispatchMsg.process)

def usersetOutcome (usersets : List RelationReference) : Option Outcome :=
  c.dispatchOutcome delegate (produceDispatches (usersetMessage req) (filtered (c.env req)
    (trace ((c.env req).readUsersetTuples req.object req.relation usersets))))

def unionOutcome {n : ℕ} (f : Fin n → Option Outcome) : Option Outcome :=
  (outcomes f).map fun os => Gather.inOrder (unionReducer c.concurrencyLimit n) [] (List.ofFn os)

def funcOutcome : CheckFunc → Option Outcome
  | .directUserTuple => some (c.directUserTuple req)
  | .publicAssignable => some (firstNext (filtered (c.env req) (trace (c.publicTuples req))))
  | .directUsersetTuples =>
    if c.readsTogether req then c.usersetOutcome trace delegate req (c.directlyRelatedUsersets req)
    else c.unionOutcome fun i : Fin (c.usersetGroups req).length =>
      c.usersetOutcome trace delegate req ((c.usersetGroups req).get i)

/-- What a rule gives if its reads return the traces and its operands come in order. -/
def rewriteOutcome : Rewrite → Option Outcome
  | .this => c.unionOutcome fun i : Fin (c.checkFuncs req).length =>
      c.funcOutcome trace delegate req ((c.checkFuncs req).get i)
  | .computedUserset relation => resolve relation
  | .tupleToUserset tupleset computedUserset => c.dispatchOutcome delegate (produceDispatches
      (c.ttuMessage req computedUserset) (filtered (c.env req)
        (trace ((c.env req).read req.object tupleset))))
  | .union child => c.unionOutcome fun i => rewriteOutcome (child i)
  | .intersection (n := n) child =>
    if n < 2 then some (.error (operandsErr n))
    else (outcomes fun i => rewriteOutcome (child i)).map fun os =>
      Gather.inOrder (intersectionReducer c.concurrencyLimit n) [] (List.ofFn os)
  | .difference base subtract =>
    match rewriteOutcome base, rewriteOutcome subtract with
    | some ob, some osub => some (GatherPair.inOrder exclusionReducer ob osub)
    | _, _ => none

/-- What becomes of a request that is not on its own path. -/
def requestOutcome : Option Outcome :=
  if isSelfDefining req then some (.ok { allowed := true })
  else
    match (c.env req).typesystem.getRelation req.object.type req.relation with
    | .error _ => some (.error (relationErr req))
    | .ok r =>
      match c.pathExists req.invariant req.user req.relation req.object.type with
      | .error e => some (.error e)
      | .ok false => some (.ok { allowed := false })
      | .ok true => c.rewriteOutcome trace resolve delegate req r.rewrite

/-- **`ResolveCheck` in order**, for so many requests on the path. -/
def resolveOutcome [DecidableEq κ] : ℕ → List (Request κ) → ℕ → Request κ → Option Outcome
  | 0, _, _, _ => none
  | fuel + 1, visited, depth, req =>
    if depth = c.maxResolutionDepth then some (.error .resolutionDepthExceeded)
    else if req ∈ visited then some (.ok { allowed := false, cycleDetected := true })
    else c.requestOutcome trace (fun relation => resolveOutcome fuel (req :: visited) depth
      { req with relation }) (resolveOutcome fuel (req :: visited) (depth + 1)) req

end Executable

end LocalChecker

section Sound

variable {κ : Type} {c : LocalChecker κ} {trace : List TupleKey → Trace TupleKey} {sched : Schedules}
  {cache : List (Request κ × Response)} {visited : List (Request κ)} {depth : ℕ}
  {resolve : String → Option Outcome} {delegate : Request κ → Option Outcome} {req : Request κ}
  {o : Outcome} (hsched : Admits sched) (htrace : ∀ tuples, Returns c.fails tuples (trace tuples))
  (hdelegate : ∀ q o, delegate q = some o →
    Evaluates c.checker sched cache true visited (depth + 1) (.resolveCheck q) o)
  (hresolve : ∀ relation o, resolve relation = some o →
    Evaluates c.checker sched cache true visited depth (.resolveCheck { req with relation }) o)

include hdelegate in
theorem evaluates_of_dispatch {produces : List (DispatchMsg (Request κ)) → Prop}
    {messages : List (DispatchMsg (Request κ))} (hproduces : produces messages)
    (h : c.dispatchOutcome delegate messages = some o) :
    Evaluates c.checker sched cache true visited depth (.dispatch produces) o := by
  obtain ⟨os, hos, rfl⟩ := Option.map_eq_some_iff.mp h
  obtain ⟨choices, s, hrun, hresult⟩ := DispatchPool.exists_inOrder
    (dispatchConsumer c.concurrencyLimit) c.concurrencyLimit_pos
    ((List.ofFn fun i => (messages.get i, os i)).map DispatchMsg.process)
  refine .dispatch ?_ ⟨choices, hrun⟩ hresult fun g o' hmem _ => ?_
  · rwa [List.map_ofFn, show Prod.fst ∘ (fun i => (messages.get i, os i)) = messages.get from rfl,
      List.ofFn_get]
  · obtain ⟨i, hi⟩ := (List.mem_ofFn' _ _).mp hmem
    obtain ⟨hg, rfl⟩ := Prod.mk.inj hi
    have hcall := of_outcomes hos i
    rw [hg] at hcall
    exact .miss (hdelegate g _ hcall)

include hsched in
theorem evaluates_of_union {n : ℕ} {child : Fin n → Handler (Request κ)} {f : Fin n → Option Outcome}
    (hchild : ∀ i o, f i = some o → Evaluates c.checker sched cache true visited depth (child i) o)
    (h : c.unionOutcome f = some o) :
    Evaluates c.checker sched cache true visited depth (.union child) o := by
  obtain ⟨os, hos, rfl⟩ := Option.map_eq_some_iff.mp h
  obtain ⟨s, hgathers, hresult⟩ := exists_gathers hsched (unionReducer c.concurrencyLimit n)
    c.concurrencyLimit_pos (List.ofFn os) (by simp [unionReducer])
  exact .union hgathers hresult fun i _ => hchild i _ (of_outcomes hos i)

include hsched htrace hdelegate

theorem evaluates_of_func (f : LocalChecker.CheckFunc)
    (h : c.funcOutcome trace delegate req f = some o) :
    Evaluates c.checker sched cache true visited depth (c.checkFunc req f) o := by
  cases f with
  | directUserTuple =>
    cases h
    exact .opened (.read rfl)
  | publicAssignable =>
    cases h
    exact .opened (.read ⟨_, htrace _, rfl⟩)
  | directUsersetTuples =>
    refine .opened ?_
    have husersets : ∀ usersets o, c.usersetOutcome trace delegate req usersets = some o →
        Evaluates c.checker sched cache true visited depth (c.defaultUserset req usersets) o :=
      fun usersets o h => evaluates_of_dispatch hdelegate ⟨_, htrace _, rfl⟩ h
    rw [LocalChecker.funcOutcome] at h
    split_ifs at h ⊢
    · exact husersets _ _ h
    · exact evaluates_of_union hsched (fun i o => husersets _ o) h

include hresolve

/-- **A rule evaluates to its outcome in order**, if its requests do. -/
theorem evaluates_of_rewrite {rewrite : Rewrite}
    (h : c.rewriteOutcome trace resolve delegate req rewrite = some o) :
    Evaluates c.checker sched cache true visited depth (c.checkRewrite req rewrite) o := by
  induction rewrite generalizing o with
  | this =>
    exact evaluates_of_union hsched (fun i o => evaluates_of_func hsched htrace hdelegate _) h
  | computedUserset => exact hresolve _ _ h
  | tupleToUserset =>
    exact .opened (evaluates_of_dispatch hdelegate ⟨_, htrace _, rfl⟩ h)
  | union child ih => exact evaluates_of_union hsched (fun i o => ih i) h
  | @intersection n child ih =>
    simp only [LocalChecker.rewriteOutcome] at h
    split_ifs at h with hn
    · cases h
      exact .fewOperands hn
    · obtain ⟨os, hos, rfl⟩ := Option.map_eq_some_iff.mp h
      obtain ⟨s, hgathers, hresult⟩ := exists_gathers hsched
        (intersectionReducer c.concurrencyLimit n) c.concurrencyLimit_pos (List.ofFn os)
        (by simp [intersectionReducer])
      exact .intersection (Nat.le_of_not_lt hn) hgathers hresult fun i _ => ih i (of_outcomes hos i)
  | difference base subtract ihb ihs =>
    simp only [LocalChecker.rewriteOutcome] at h
    split at h <;> cases h
    rename_i ob osub hb hs
    obtain ⟨choices, s, hrun, halive, hresult⟩ :=
      GatherPair.exists_inOrder exclusionReducer rfl ob osub
    exact .exclusion ⟨false, choices, hrun, fun _ => halive⟩ hresult (fun _ => ihb hb)
      fun _ => ihs hs

theorem evaluates_of_request
    (h : c.requestOutcome trace resolve delegate req = some o) :
    Evaluates c.checker sched cache true visited depth (c.resolve req) o := by
  rw [LocalChecker.requestOutcome] at h
  rw [LocalChecker.resolve]
  split_ifs at h ⊢
  · exact .read (Option.some.inj h).symm
  cases hrelation : (c.env req).typesystem.getRelation req.object.type req.relation with
  | error => exact .read (by simpa [hrelation] using h.symm)
  | ok =>
    rcases hpath : c.pathExists req.invariant req.user req.relation req.object.type with e | _ | _
    all_goals simp only [hrelation, hpath] at h ⊢
    · exact .read (Option.some.inj h).symm
    · exact .read (Option.some.inj h).symm
    · exact evaluates_of_rewrite hsched htrace hdelegate hresolve h

omit hdelegate hresolve in
/-- **A request evaluates to its outcome in order.** -/
theorem evaluates_of_outcome [DecidableEq κ] (fuel : ℕ)
    (h : c.resolveOutcome trace fuel visited depth req = some o) :
    Evaluates c.checker sched cache true visited depth (.resolveCheck req) o := by
  induction fuel generalizing visited depth req o with
  | zero => cases h
  | succ fuel ih =>
    rw [LocalChecker.resolveOutcome] at h
    split_ifs at h with hdepth hvisited
    · cases h
      exact .depthExceeded hdepth
    · cases h
      exact .cycle hdepth hvisited
    · exact .rewrite hdepth hvisited
        (evaluates_of_request hsched htrace (fun _ _ => ih) (fun _ _ => ih) h)

omit hdelegate hresolve in
theorem evaluates_of_rewriteOutcome [DecidableEq κ] (fuel : ℕ) {rewrite : Rewrite}
    (h : c.rewriteOutcome trace (fun relation => c.resolveOutcome trace fuel visited depth
      { req with relation }) (c.resolveOutcome trace fuel visited (depth + 1)) req rewrite = some o) :
    Evaluates c.checker sched cache true visited depth (c.checkRewrite req rewrite) o :=
  evaluates_of_rewrite hsched htrace (fun _ _ => evaluates_of_outcome hsched htrace fuel)
    (fun _ _ => evaluates_of_outcome hsched htrace fuel) h

end Sound

/-! ### Every request returns -/

theorem outcomes_isSome {n : ℕ} {f : Fin n → Option Outcome} (h : ∀ i, (f i).isSome) :
    (outcomes f).isSome := by
  simp [outcomes, h]

namespace LocalChecker

theorem mem_store_of_read {env : Environment} {object : Object} {relation : String} {t : TupleKey}
    (h : t ∈ env.read object relation) : t ∈ env.store.tuples :=
  (mem_filter.mp h).1

variable {κ : Type} {c : LocalChecker κ} {trace : List TupleKey → Trace TupleKey}
  {resolve : String → Option Outcome} {delegate : Request κ → Option Outcome} {req : Request κ}

theorem dispatchOutcome_isSome (hdelegate : ∀ q, (delegate q).isSome)
    (messages : List (DispatchMsg (Request κ))) : (c.dispatchOutcome delegate messages).isSome := by
  rw [dispatchOutcome, Option.isSome_map]
  refine outcomes_isSome fun i => ?_
  split
  · exact hdelegate _
  · rfl

theorem unionOutcome_isSome {n : ℕ} {f : Fin n → Option Outcome} (h : ∀ i, (f i).isSome) :
    (c.unionOutcome f).isSome := by
  rw [unionOutcome, Option.isSome_map]
  exact outcomes_isSome h

/-- A rule returns if the requests that it calls do. -/
theorem rewriteOutcome_isSome (hresolve : ∀ relation, (resolve relation).isSome)
    (hdelegate : ∀ q, (delegate q).isSome) (rewrite : Rewrite) :
    (c.rewriteOutcome trace resolve delegate req rewrite).isSome := by
  induction rewrite with
  | this =>
    refine unionOutcome_isSome fun i => ?_
    cases (c.checkFuncs req).get i with
    | directUserTuple | publicAssignable => rfl
    | directUsersetTuples =>
      rw [funcOutcome]
      split
      · exact dispatchOutcome_isSome hdelegate _
      · exact unionOutcome_isSome fun j => dispatchOutcome_isSome hdelegate _
  | computedUserset relation => exact hresolve relation
  | tupleToUserset => exact dispatchOutcome_isSome hdelegate _
  | union child ih => exact unionOutcome_isSome ih
  | intersection child ih =>
    rw [rewriteOutcome]
    split
    · rfl
    · rw [Option.isSome_map]
      exact outcomes_isSome ih
  | difference base subtract ihb ihs =>
    obtain ⟨_, hb⟩ := Option.isSome_iff_exists.mp ihb
    obtain ⟨_, hs⟩ := Option.isSome_iff_exists.mp ihs
    simp [rewriteOutcome, hb, hs]

theorem requestOutcome_isSome (hresolve : ∀ r, (c.env req).typesystem.getRelation req.object.type
      req.relation = .ok r → ∀ relation, (resolve relation).isSome)
    (hdelegate : ∀ q, (delegate q).isSome) : (c.requestOutcome trace resolve delegate req).isSome := by
  rw [requestOutcome]
  split
  · rfl
  split
  · rfl
  split
  · rfl
  · rfl
  · exact rewriteOutcome_isSome (hresolve _ ‹_›) hdelegate _

/-- **A request returns.**  A dispatched check is one level deeper, up to the maximum, and a
computed userset visits a new relation of the object. -/
theorem exists_evaluation {sched : Schedules} (hsched : Admits sched) (levels : ℕ)
    (visited : List (Request κ)) (depth : ℕ) (hlevels : depth + levels = c.maxResolutionDepth)
    (req : Request κ) : ∃ o, Evaluates c.checker sched [] true visited depth (.resolveCheck req) o := by
  classical
  induction levels generalizing visited depth req with
  | zero => exact ⟨_, .depthExceeded hlevels⟩
  | succ levels ihl =>
    have hdepth : depth ≠ c.maxResolutionDepth := by omega
    -- the relations of the object that the path has not visited
    induction hk : ((c.env req).typesystem.relationNames.toFinset.filter
        fun relation => { req with relation } ∉ visited).card using Nat.strongRecOn
      generalizing req visited with
    | _ k ih =>
      by_cases hvisited : req ∈ visited
      · exact ⟨_, .cycle hdepth hvisited⟩
      choose delegate hdelegate using fun q => ihl (req :: visited) (depth + 1) (by omega) q
      obtain ⟨resolve, hresolve, hsome⟩ : ∃ resolve : String → Option Outcome,
          (∀ relation o, resolve relation = some o → Evaluates c.checker sched [] true
            (req :: visited) depth (.resolveCheck { req with relation }) o)
          ∧ ∀ r, (c.env req).typesystem.getRelation req.object.type req.relation = .ok r →
            ∀ relation, (resolve relation).isSome := by
        cases hrelation : (c.env req).typesystem.getRelation req.object.type req.relation with
        | error => exact ⟨fun _ => none, nofun, nofun⟩
        | ok =>
          have hfewer : ((c.env req).typesystem.relationNames.toFinset.filter
              fun relation => { req with relation } ∉ req :: visited).card < k := by
            rw [← hk]
            refine Finset.card_lt_card (Finset.ssubset_iff_of_subset ?_ |>.mpr ⟨req.relation, ?_, ?_⟩)
            · exact Finset.monotone_filter_right _ fun _ _ h => (not_or.mp (mt mem_cons.mpr h)).2
            · simp [hvisited, relation_mem_relationNames hrelation]
            · simp
          choose resolve hresolve using fun relation =>
            ih _ hfewer (req :: visited) { req with relation } rfl
          exact ⟨some ∘ resolve, fun relation o ho => Option.some.inj ho ▸ hresolve relation,
            fun _ _ _ => rfl⟩
      have hreturns : (c.requestOutcome okTrace resolve (some ∘ delegate) req).isSome :=
        requestOutcome_isSome hsome fun _ => rfl
      obtain ⟨o, ho⟩ := Option.isSome_iff_exists.mp hreturns
      refine ⟨o, .rewrite hdepth hvisited (evaluates_of_request hsched (returns_okTrace _) ?_
        hresolve ho)⟩
      exact fun q o ho => Option.some.inj ho ▸ hdelegate q

/-- **`ResolveCheck` returns.** -/
theorem resolveCheck_returns (c : LocalChecker κ) {sched : Schedules} (hsched : Admits sched)
    (req : Request κ) : ∃ o, Evaluates c.checker sched [] true [] 0 (.resolveCheck req) o :=
  exists_evaluation hsched c.maxResolutionDepth [] 0 (Nat.zero_add _) req

end LocalChecker

end Kengen.Graph
