import Kengen.Graph.Returns

/-!
# The check cache is transparent

`CachedCheckResolver` stores every response without an error that does not report a cycle.
The responses that it stores over a whole history of requests are compared with an
evaluation of the same request from scratch: nothing visited, nothing cached.

* **`cached_response_transparent`** — they agree, for requests of any number of users and
  contexts, if no loop of a set operator takes a closed and empty channel for outcomes, and no
  request below a subtract side depends on itself.
* **`dropped_outcomes_stored`** — without the first condition they do not.  A union that has found
  its answer cancels its other operands.  An intersection below one of them may then lose all its
  outcomes, answer that the user is allowed, and this answer is stored.
-/

namespace Kengen.Graph

open Decisions Runs

variable {κ : Type}

/-! ### Transparency -/

/-- **A cached response is the answer from scratch.**  The datastore raises no errors; the history is
one of any requests, in which every receive of a set operator's loop finds an outcome. -/
theorem cached_response_transparent (c : LocalChecker κ) (hfails : ∀ e, ¬ c.fails e)
    (hacyclic : SubtractAcyclic c.requestFormula) {cache : List (Request κ × Response)}
    (hcache : History c.checker TakesOutcomes cache) {req : Request κ} {resp : Response}
    (hmem : (req, resp) ∈ cache) :
    resp.cycleDetected = false
      ∧ (∃ o, Evaluates c.checker anySchedule [] true [] 0 (.resolveCheck req) o)
      ∧ ∀ resp', Evaluates c.checker anySchedule [] true [] 0 (.resolveCheck req) (.ok resp') →
          resp.allowed = resp'.allowed := by
  have hfollows : c.checker.Follows c.requestFormula :=
    LocalChecker.follows fun e he => absurd he (hfails e)
  refine ⟨(history_decides hfollows (fun _ _ _ _ h => h) hcache req resp hmem).1,
    c.resolveCheck_returns admits_any req, ?_⟩
  intro resp' hresp'
  exact history_transparent hfollows hacyclic (fun _ _ _ _ h => h) hcache hmem hresp'

/-! ### Running the loops -/

/-- A run of a set operator's loop, by what can be seen of its last state. -/
theorem gathers_of_run {sched : Schedules} {R : Gather.Reducer Outcome Outcome} {alive : Bool}
    {outcomes received : List Outcome} {o : Outcome} (cancelled : Bool)
    (choices : List Gather.Choice)
    (hrun : (run (Gather.step R) (Gather.enter R false [] outcomes) choices).map
      (fun s => (s.result, s.received, s.cancelled)) = some (some o, received, cancelled))
    (hsched : sched R false outcomes choices) (halive : alive = true → cancelled = false) :
    ∃ s, Gathers sched R alive outcomes s ∧ s.result = some o ∧ s.received = received := by
  obtain ⟨s, hs, heq⟩ := Option.map_eq_some_iff.mp hrun
  obtain ⟨hresult, hreceived, hcancelled⟩ : s.result = some o ∧ s.received = received
      ∧ s.cancelled = cancelled := by simpa using heq
  exact ⟨s, ⟨false, choices, hs, hsched, fun h => hcancelled.trans (halive h)⟩, hresult, hreceived⟩

/-! ### A group that nobody is in -/

/-- The members of a group are active and invited; a document is viewed by users and by the members
of groups. -/
def sharedModel : TypeSystem where
  types := [("user", []),
    ("group", [
      ("member", ⟨.intersection ![.computedUserset "active", .computedUserset "invited"], none⟩),
      ("active", ⟨.this, some [⟨"user", .object, noCond⟩]⟩),
      ("invited", ⟨.this, some [⟨"user", .object, noCond⟩]⟩)]),
    ("doc", [("viewer", ⟨.this, some [⟨"user", .object, noCond⟩,
      ⟨"group", .relation "member", noCond⟩]⟩)])]

/-- Anne views the document, and so do the members of the group, in which there is nobody. -/
def sharedEnvironment : Environment where
  typesystem := sharedModel
  store := ⟨[⟨⟨"doc", "1"⟩, "viewer", .object ⟨"user", "anne"⟩, ⟨noCond, ""⟩⟩,
    ⟨⟨"doc", "1"⟩, "viewer", .userset ⟨"group", "1"⟩ "member", ⟨noCond, ""⟩⟩], by decide⟩
  cel := fun _ _ => .ok true

/-- A checker over one environment. -/
def checkerOf (env : Environment) (fails : Err → Prop := fun _ => False) : LocalChecker Unit where
  concurrencyLimit := 2
  concurrencyLimit_pos := by decide
  maxResolutionDepth := 25
  environment := fun _ => env
  pathExists := fun _ _ _ _ => .ok true
  usersetUseRecursiveResolver := fun _ _ _ _ => false
  usersetUseWeight2Resolver := fun _ _ _ _ _ => true
  fails := fails

def sharedChecker : LocalChecker Unit := checkerOf sharedEnvironment

/-- The request for a relation of Anne to an object. -/
def ofAnne (object : Object) (relation : String) : Request Unit :=
  ⟨(), .object ⟨"user", "anne"⟩, object, relation⟩

def docRequest : Request Unit := ofAnne ⟨"doc", "1"⟩ "viewer"

def groupRequest (relation : String) : Request Unit := ofAnne ⟨"group", "1"⟩ relation

theorem resolve_doc : sharedChecker.checker.rewrite docRequest
    = .union ![sharedChecker.checkDirectUserTuple docRequest,
      sharedChecker.checkDirectUsersetTuples docRequest] :=
  congrArg Handler.union (funext (Fin.forall_fin_two.mpr ⟨rfl, rfl⟩))

theorem resolve_member : sharedChecker.checker.rewrite (groupRequest "member")
    = .intersection ![.resolveCheck (groupRequest "active"),
      .resolveCheck (groupRequest "invited")] :=
  congrArg Handler.intersection (funext (Fin.forall_fin_two.mpr ⟨rfl, rfl⟩))

/-- Anne's own tuple allows, before the group is looked at: the group's check is cut. -/
theorem group_check_cut : Occurs sharedChecker.checker anySchedule [] false [docRequest] 1
    (.delegate (groupRequest "member")) := by
  have hdoc : Occurs sharedChecker.checker anySchedule [] true [docRequest] 0
      (sharedChecker.checker.rewrite docRequest) :=
    (Occurs.request docRequest).miss.rewrite (by decide) (by simp)
  rw [resolve_doc] at hdoc
  obtain ⟨s, hgathers, hresult, hreceived⟩ : ∃ s, Gathers anySchedule (unionReducer 2 2) true
      (List.ofFn ![(.ok ⟨true, false⟩ : Outcome), .error .context]) s
      ∧ s.result = some (.ok ⟨true, false⟩) ∧ s.received = [.ok ⟨true, false⟩] :=
    gathers_of_run false [.start, .start, .finish 1 true, .receive] (by decide) trivial
      (fun _ => rfl)
  have husersets : Occurs sharedChecker.checker anySchedule [] false [docRequest] 0
      (sharedChecker.checkDirectUsersetTuples docRequest) := by
    refine hdoc.cut (.union hgathers hresult ?_ 1 (by simp [hreceived]))
    rw [hreceived]
    refine Fin.forall_fin_two.mpr ⟨fun _ => ?_, fun h => by simp at h⟩
    exact .opened (.read (by decide))
  -- the one userset tuple of the document
  have husersetsGroup := (husersets.operand .opened).operand (.union ⟨0, by decide⟩)
  refine husersetsGroup.dispatch ⟨_, returns_okTrace _ _, rfl⟩ ?_
  decide

/-- **Both outcomes of the cancelled intersection are dropped**, and it allows. -/
theorem member_dropped : Evaluates sharedChecker.checker anySchedule [] false [docRequest] 1
    (.resolveCheck (groupRequest "member")) (.ok ⟨true, false⟩) := by
  refine .rewrite (by decide) (by decide) ?_
  rw [resolve_member]
  obtain ⟨s, hgathers, hresult, hreceived⟩ : ∃ s, Gathers anySchedule (intersectionReducer 2 2) false
      (List.ofFn ![(.ok ⟨false, false⟩ : Outcome), .ok ⟨false, false⟩]) s
      ∧ s.result = some (.ok ⟨true, false⟩) ∧ s.received = [] :=
    gathers_of_run true dropBoth (by decide) trivial (fun h => nomatch h)
  exact .intersection (by decide) hgathers hresult fun i hi => by simp [hreceived] at hi

/-- From scratch Anne is not a member. -/
theorem member_denied : Evaluates sharedChecker.checker anySchedule [] true [] 0
    (.resolveCheck (groupRequest "member")) (.ok ⟨false, false⟩) :=
  evaluates_of_outcome admits_any (returns_okTrace _) 2 (by decide)

/-- **A cached answer that is wrong.**  After the check of the document the cache holds that Anne is
a member of the group; every evaluation from scratch that returns says otherwise, and one does. -/
theorem dropped_outcomes_stored : ∃ (c : LocalChecker Unit) (cache : List (Request Unit × Response))
    (req : Request Unit), (∀ e, ¬ c.fails e) ∧ History c.checker anySchedule cache
      ∧ (req, ⟨true, false⟩) ∈ cache
      ∧ Evaluates c.checker anySchedule [] true [] 0 (.resolveCheck req) (.ok ⟨false, false⟩)
      ∧ ∀ resp', Evaluates c.checker anySchedule [] true [] 0 (.resolveCheck req) (.ok resp') →
          resp'.allowed = false := by
  have hfollows : sharedChecker.checker.Follows sharedChecker.requestFormula :=
    LocalChecker.follows fun _ he => absurd he id
  have hempty : Decided sharedChecker.requestFormula [] :=
    fun _ _ hmem => absurd hmem List.not_mem_nil
  refine ⟨sharedChecker, _, groupRequest "member", fun _ h => h,
    .store .nil group_check_cut member_dropped rfl, List.mem_cons_self, member_denied, ?_⟩
  intro resp' hresp'
  by_contra hallowed
  have hfalse := (evaluates_decides hfollows hempty member_denied (safe_alive _) rfl rfl).2 rfl
  have htrue := (evaluates_decides hfollows hempty hresp' (safe_alive _) rfl rfl).allowed
    (by simpa using hallowed)
  exact Bool.noConfusion (decides_unique hfalse htrue)

/-! ### Groups that are members of each other -/

/-- The members of a group are its users and the members of its groups, but not those banned. -/
def circleModel : TypeSystem where
  types := [("user", []),
    ("group", [
      ("member", ⟨.difference .this (.computedUserset "banned"), some [⟨"user", .object, noCond⟩,
        ⟨"group", .relation "member", noCond⟩]⟩),
      ("banned", ⟨.this, some [⟨"user", .object, noCond⟩]⟩)])]

/-- Two groups are members of each other, and Anne is one of the second. -/
def circleEnvironment : Environment where
  typesystem := circleModel
  store := ⟨[⟨⟨"group", "1"⟩, "member", .userset ⟨"group", "2"⟩ "member", ⟨noCond, ""⟩⟩,
    ⟨⟨"group", "2"⟩, "member", .userset ⟨"group", "1"⟩ "member", ⟨noCond, ""⟩⟩,
    ⟨⟨"group", "2"⟩, "member", .object ⟨"user", "anne"⟩, ⟨noCond, ""⟩⟩], by decide⟩
  cel := fun _ _ => .ok true

def circleChecker : LocalChecker Unit := checkerOf circleEnvironment

def memberOf (group : String) : Request Unit := ofAnne ⟨"group", group⟩ "member"

/-- Only banned users are subtracted, and who is banned refers to nothing. -/
theorem circle_subtractAcyclic : SubtractAcyclic circleChecker.requestFormula := by
  have hmentions : ∀ p q : Request Unit, p.relation = "banned" →
      ¬ (circleChecker.requestFormula p).Mentions q := fun p q hp =>
    LocalChecker.requestFormula_mentions (P := fun _ => False)
      (hp ▸ (by decide : ∀ t ∈ circleEnvironment.store.tuples, t.relation = "banned" →
        ∀ name ∈ t.user.usersetRelations, False))
      (hp ▸ (by decide : ∀ entry ∈ circleModel.types, ∀ r ∈ entry.2, r.1 = "banned" →
        ∀ name ∈ r.2.rewrite.references, False))
  intro root g hg
  have hbanned : g.relation = "banned" := by
    induction hg with
    | reach hp h ih => exact absurd h (hmentions _ _ ih)
    | side hp h =>
      rcases LocalChecker.requestFormula_eq circleChecker _ with ⟨v, heq⟩ | ⟨_, he, r, hr, -, heq⟩
      · rw [heq] at h
        exact absurd h id
      rw [heq] at h
      have hrules : ∀ entry ∈ circleModel.types, ∀ r ∈ entry.2, r.2.rewrite = .this
          ∨ r.2.rewrite = .difference .this (.computedUserset "banned") := by
        simp [circleModel, -Prod.forall]
      rcases hrules _ he r hr with hthis | hdifference
      · rw [hthis] at h
        exact absurd h LocalChecker.thisFormula_not_subtracts
      · rw [hdifference] at h
        rcases h with h | rfl
        · exact absurd h LocalChecker.thisFormula_not_subtracts
        · rfl
  intro hcycle
  obtain ⟨q, hq, -⟩ := Relation.TransGen.head'_iff.mp hcycle
  exact hmentions g q hbanned hq

theorem resolve_circle (group : String) : circleChecker.checker.rewrite (memberOf group)
    = .exclusion (.union ![circleChecker.checkDirectUserTuple (memberOf group),
        circleChecker.checkDirectUsersetTuples (memberOf group)])
      (.resolveCheck (ofAnne ⟨"group", group⟩ "banned")) :=
  congrArg (Handler.exclusion · _)
    (congrArg Handler.union (funext (Fin.forall_fin_two.mpr ⟨rfl, rfl⟩)))

/-- The check of the first group asks for the second. -/
theorem second_group_occurs (sched : Schedules) : Occurs circleChecker.checker sched [] true
    [memberOf "1"] 1 (.delegate (memberOf "2")) := by
  have hgroup : Occurs circleChecker.checker sched [] true [memberOf "1"] 0
      (circleChecker.checker.rewrite (memberOf "1")) :=
    (Occurs.request _).miss.rewrite (by decide) (by simp)
  rw [resolve_circle] at hgroup
  have husersets := (hgroup.operand .base).operand (.union 1)
  have husersetsGroup := (husersets.operand .opened).operand (.union ⟨0, by decide⟩)
  refine husersetsGroup.dispatch ⟨_, returns_okTrace _ _, rfl⟩ ?_
  decide

/-- **A response stored below another request**: the check of the first group asks for the second,
whose tuples lead back to the first. -/
theorem cached_response_transparent_circle :
    ∃ cache, History circleChecker.checker TakesOutcomes cache
      ∧ (memberOf "2", ⟨true, false⟩) ∈ cache
      ∧ (∃ o, Evaluates circleChecker.checker anySchedule [] true [] 0
          (.resolveCheck (memberOf "2")) o)
      ∧ ∀ resp', Evaluates circleChecker.checker anySchedule [] true [] 0
          (.resolveCheck (memberOf "2")) (.ok resp') → true = resp'.allowed := by
  have hcache : History circleChecker.checker TakesOutcomes [(memberOf "2", ⟨true, false⟩)] :=
    .store .nil (second_group_occurs _)
      (evaluates_of_outcome admits_takesOutcomes (returns_okTrace _) 3 (by decide)) rfl
  exact ⟨_, hcache, List.mem_cons_self,
    (cached_response_transparent circleChecker (fun _ h => h) circle_subtractAcyclic hcache
      List.mem_cons_self).2⟩

end Kengen.Graph
