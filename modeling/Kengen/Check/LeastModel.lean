import Kengen.Check.Tuples

/-!
# The default strategy and the least model

The answers of the resolver without a cache, compared with the least model of
the stored and contextual tuples whose condition is true.

`leastFacts` are these tuples; what is derivable from them is the meaning of the
model graph over them.  The resolver agrees with it in every run in which a
tuple with a true condition is dropped only while the userset it names is being
resolved, unless its lookups miss a tuple: a contextual tuple hides another
tuple of its key, or a userset is asked about through an edge that is not
followed.

* **`related_iff_derivable`** — what the resolver reads has the same least model.
* **`check_least_model`** — every answer in every such run is right.
* **`answers_agree`** — no two such runs answer a request differently.
* **`false_condition_marks_userset`** — a run in which a tuple with a false condition marks a
  userset as visited, so that the tuple with a true condition is dropped.
-/

namespace Kengen

open TaskMachine

/-! ### The least model of the tuples -/

/-- A tuple of the request: stored or contextual. -/
def IsTuple (r : Resolver) (req : Request) (t : TupleKey) : Prop :=
  t ∈ r.datastore.tuples ∨ t ∈ req.contextualTuples

/-- The tuples with a true condition, as facts about the user of the request. -/
def leastFacts (r : Resolver) (req : Request) : Facts where
  assigned e o := e.relationDefinition.1 = o.type ∧ e.edgeType = .direct
    ∧ ∃ u ∈ assignedAs req e, ∃ t, IsTuple r req t ∧ t.key = (o, e.relationDefinition.2, u)
      ∧ Passes r req e.conditions t
  linked e o o' := e.relationDefinition.1 = o.type
    ∧ ∃ conditions ∈ linkConditions r.model e, ∃ t, IsTuple r req t ∧ t.object = o
      ∧ t.relation = e.linkRelation ∧ e.leadsFrom t.user o' ∧ Passes r req conditions t

/-- The node is derivable on the object for the user of the request. -/
def Derivable (r : Resolver) (hg : r.model.NoOperatorCycle) (req : Request) (n : Node)
    (o : Object) : Prop :=
  (r.model.semantics hg (leastFacts r req)).Holds (n, o)

/-! ### When the lookups miss nothing -/

/-- The objects that tuples with a true condition lead to from the request's object: no other object
is looked up. -/
def Looked (r : Resolver) (req : Request) : Object → Prop :=
  Relation.ReflTransGen (fun o o' => ∃ e ∈ r.model.edges, (leastFacts r req).linked e o o') req.object

/-- No contextual tuple of an object that is looked up hides a tuple with a true condition: not from
the lookup of a key that assigns the user, nor another contextual tuple of its key from the lookups
of links. -/
structure NothingHidden (r : Resolver) (req : Request) : Prop where
  assigned : ∀ e ∈ r.model.edges, e.edgeType = .direct → ∀ u ∈ assignedAs req e, ∀ t,
    IsTuple r req t → Looked r req t.object →
    e.relationDefinition = (t.object.type, t.relation) → t.user = u → Passes r req e.conditions t →
    ∀ t' ∈ req.contextualTuple t.object t.relation u, Passes r req e.conditions t'
  linked : ∀ e ∈ r.model.edges, ∀ conditions ∈ linkConditions r.model e,
    ∀ t ∈ req.contextualTuples, Looked r req t.object → e.relationDefinition.1 = t.object.type →
    t.relation = e.linkRelation → Passes r req conditions t →
    ∃ t', Readable r req t.object t.relation t' ∧ t'.user = t.user ∧ Passes r req conditions t'

/-- No object that is looked up and that the user's own userset type is asked about, through an edge
off all cycles, has a tuple to a userset in which the user is derivable. -/
def OwnUsersetsSettled (r : Resolver) (hg : r.model.NoOperatorCycle) (req : Request) : Prop :=
  ∀ e ∈ r.model.edges, e.edgeType = .direct → e.toNode.isUserType req.userType → e.onCycle = false →
    ∀ o o', Looked r req o → (leastFacts r req).linked e o o' → ¬ Derivable r hg req e.toNode o'

variable {r : Resolver} {req : Request} {o : Object}

theorem IsTuple.of_readTuple {relation : String} {u : User} {t : TupleKey}
    (h : readTuple r req o relation u = some t) : IsTuple r req t ∧ t.key = (o, relation, u) := by
  rcases Option.or_eq_some_iff.mp h with h | ⟨-, h⟩
  · obtain ⟨hkey, hmem⟩ := Request.contextualTuple_key h
    exact ⟨.inr hmem, hkey⟩
  · obtain ⟨hmem, hkey⟩ := readUserTuple_eq_some.mp h
    exact ⟨.inl hmem, hkey⟩

variable {e : Edge}

/-- The lookup of a key finds a tuple that passes if there is one. -/
theorem NothingHidden.readTuple (h : NothingHidden r req) (he : e ∈ r.model.edges)
    (hdirect : e.edgeType = .direct) {u : User} (hu : u ∈ assignedAs req e)
    (htype : e.relationDefinition.1 = o.type) (ho : Looked r req o) {t : TupleKey}
    (ht : IsTuple r req t)
    (hkey : t.key = (o, e.relationDefinition.2, u)) (hpass : Passes r req e.conditions t) :
    ∃ t' ∈ Kengen.readTuple r req o e.relationDefinition.2 u, Passes r req e.conditions t' := by
  rw [TupleKey.key, Prod.mk.injEq, Prod.mk.injEq] at hkey
  obtain ⟨rfl, hrel, huser⟩ := hkey
  unfold Kengen.readTuple
  rcases hctx : req.contextualTuple t.object e.relationDefinition.2 u with _ | t'
  · -- without a contextual tuple of the key the tuple is the stored one
    have hstored : t ∈ r.datastore.tuples := by
      refine ht.resolve_right fun hmem => ?_
      have := List.find?_eq_none.mp hctx t hmem
      simp [TupleKey.key, hrel, huser] at this
    refine ⟨t, ?_, hpass⟩
    rw [Option.none_or]
    exact readUserTuple_eq_some.mpr ⟨hstored, by rw [TupleKey.key, hrel, huser]⟩
  · refine ⟨t', rfl, h.assigned e he hdirect u hu t ht ho (by rw [hrel, ← htype]) huser hpass t' ?_⟩
    rw [hrel]
    exact hctx

variable {hg : r.model.NoOperatorCycle}

/-- **What the resolver reads has the same least model**, on the objects that are looked up. -/
theorem related_iff_derivable (hr : r.model.RecursionMarked) (hd : r.model.Defined)
    (hctx : ContextualValid r req) (hhidden : NothingHidden r req)
    (hown : OwnUsersetsSettled r hg req) (n : Node) (o : Object) (ho : Looked r req o) :
    Related r hg req (n, o) ↔ Derivable r hg req n o := by
  refine holds_iff_of_links (fun e he o o' ho h => ho.tail ⟨e, he, h⟩) (fun e he o ho => ?_)
    (fun e he o o' _ h => ?_) (fun e he o o' ho h => ?_) (n, o) ho
  · show _ ∧ codeAssigned r (req.cloneWithTupleKey o "") e ↔ _
    rw [@codeAssigned_iff r (req.cloneWithTupleKey o "") hctx.proper]
    refine and_congr_right fun htype => and_congr_right fun hdirect => exists_congr fun u =>
      and_congr_right fun hu => ?_
    constructor
    · rintro ⟨t, ht, hpass⟩
      obtain ⟨htuple, hkey⟩ := IsTuple.of_readTuple ht
      exact ⟨t, htuple, hkey, hpass⟩
    · rintro ⟨t, ht, hkey, hpass⟩
      exact hhidden.readTuple he hdirect hu htype ho ht hkey hpass
  · obtain ⟨htype, -, conditions, hcond, t, hread, hleads, hpass⟩ :=
      (codeLinked_iff hctx hr hd he o o').mp h
    refine ⟨htype, conditions, hcond, t, ?_⟩
    rcases hread with ⟨hmem, ho, hrel⟩ | hfirst
    · exact ⟨.inl hmem, ho, hrel, hleads, hpass⟩
    · obtain ⟨hmem, ho, hrel⟩ := contextualTuple_iff hfirst
      exact ⟨.inr hmem, ho, hrel, hleads, hpass⟩
  · by_cases hguard : e.edgeType = .direct → e.toNode.isUserType req.userType → e.onCycle
    · refine .inl ((codeLinked_iff hctx hr hd he o o').mpr ⟨h.1, hguard, ?_⟩)
      obtain ⟨htype, conditions, hcond, t, ht, rfl, hrel, hleads, hpass⟩ := h
      rcases ht with hmem | hmem
      · exact ⟨conditions, hcond, t, .inl ⟨hmem, rfl, hrel⟩, hleads, hpass⟩
      · obtain ⟨t', hread, huser, hpass'⟩ := hhidden.linked e he conditions hcond t hmem ho htype
          hrel hpass
        rw [hrel] at hread
        exact ⟨conditions, hcond, t', hread, by rw [huser]; exact hleads, hpass'⟩
    · push Not at hguard
      obtain ⟨hdirect, huser, hoff⟩ := hguard
      exact .inr (hown e he hdirect huser (by simpa using hoff) o o' ho h)

/-! ### Runs without a cache -/

/-- Nothing is cached, and a tuple with a true condition is dropped only while a task resolves the
object or userset it names. -/
def CacheFree (r : Resolver) (entry : Call → Prop) (cfg : Config Call VisitedKey EdgeCacheKey Err)
    (choice : Choice Call Err) : Prop :=
  (∀ c, choice = .request c → entry c) ∧ (∀ i, choice ≠ .put i)
    ∧ ∀ c, Drops (expand r) cfg choice c → Started cfg c

/-- A call of `ResolveCheck`. -/
def Call.isCheck : Call → Prop
  | .resolveCheck _ => True
  | _ => False

instance (c : Call) : Decidable c.isCheck := by
  unfold Call.isCheck
  split <;> infer_instance

/-- How the condition of a step is checked. -/
theorem cacheFree_of {entry : Call → Prop} [DecidablePred entry]
    {cfg : Config Call VisitedKey EdgeCacheKey Err} {choice : Choice Call Err}
    (h : (match choice with
        | .request c => decide (entry c)
        | .put _ => false
        | _ => true) = true
      ∧ ∀ c ∈ dropped (expand r) cfg choice, c ∈ cfg.tasks.map Task.call) :
    CacheFree r entry cfg choice := by
  refine ⟨?_, ?_, fun c hc => ?_⟩
  · rintro c rfl
    exact of_decide_eq_true h.1
  · rintro i rfl
    exact absurd h.1 (by simp)
  · obtain ⟨t, ht, rfl⟩ := List.mem_map.mp (h.2 c (dropped_of_drops hc))
    obtain ⟨id, hid⟩ := List.mem_iff_getElem?.mp ht
    exact ⟨id, by rw [Config.callOf, hid]; rfl⟩

/-- **Without a cache the answers outside of a recursion are right.** -/
theorem cacheFree_right (hg : r.model.NoOperatorCycle) (hw : r.model.Weighted)
    (hr : r.model.RecursionMarked) (hd : r.model.Defined) {entry : Call → Prop}
    (hentry : ∀ c, entry c → CallValid r c ∧ c.mapOf = none) {choices : List (Choice Call Err)}
    {cfg : Config Call VisitedKey EdgeCacheKey Err}
    (hsteps : Along (expand r) (CacheFree r entry) {} choices)
    (hrun : run (expand r) {} choices = some cfg) {i : ℕ} {c : Call} {b : Bool}
    (hcall : cfg.callOf i = some c) (hans : cfg.answerOf i = some (.ok b)) (hmap : c.mapOf = none) :
    b = true ↔ callTruth r (Related r hg) c := by
  obtain ⟨t, ht, rfl⟩ := Option.map_eq_some_iff.mp hcall
  have hans' : t.answer = some (.ok b) := by
    rw [Config.answerOf, ht] at hans
    exact hans
  have hsteps' := hsteps.imp fun cfg choice h =>
    (⟨fun c hc => hentry c (h.1 c hc), h.2⟩ :
      (∀ c, choice = .request c → (checkMeaning hg hw hr hd).valid c
        ∧ (checkRegions r).mapOf c = none) ∧ _)
  exact run_regions (checkMeaning hg hw hr hd) (checkRegions r) (checkMeaning_founded hg hw hr hd)
    choices cfg hsteps' hrun i t b ht hmap hans'

theorem isCheck_entry (c : Call) (h : c.isCheck) : CallValid r c ∧ c.mapOf = none := by
  cases c <;> first | exact ⟨trivial, rfl⟩ | exact absurd h id

/-- **The default strategy computes the least model.** -/
theorem check_least_model (r : Resolver) (hg : r.model.NoOperatorCycle) (hw : r.model.Weighted)
    (hr : r.model.RecursionMarked) (hd : r.model.Defined) (choices : List (Choice Call Err))
    (cfg : Config Call VisitedKey EdgeCacheKey Err)
    (hsteps : Along (expand r) (CacheFree r Call.isCheck) {} choices)
    (hrun : run (expand r) {} choices = some cfg) (i : ℕ) (req : Request) (b : Bool)
    (hcall : cfg.callOf i = some (.resolveCheck req)) (hans : cfg.answerOf i = some (.ok b))
    (hctx : ContextualValid r req) (hhidden : NothingHidden r req)
    (hown : OwnUsersetsSettled r hg req) :
    b = true ↔
      Derivable r hg req (.specificTypeAndRelation req.object.type req.relation) req.object := by
  rw [cacheFree_right hg hw hr hd isCheck_entry hsteps hrun hcall hans rfl,
    ← related_iff_derivable hr hd hctx hhidden hown _ _ .refl]
  rfl

/-- **Answers agree** in all runs without a cache, whatever else is asked in them. -/
theorem answers_agree (r : Resolver) (hg : r.model.NoOperatorCycle) (hw : r.model.Weighted)
    (hr : r.model.RecursionMarked) (hd : r.model.Defined) (req : Request)
    (choices choices' : List (Choice Call Err)) (cfg cfg' : Config Call VisitedKey EdgeCacheKey Err)
    (hsteps : Along (expand r) (CacheFree r Call.isCheck) {} choices)
    (hsteps' : Along (expand r) (CacheFree r Call.isCheck) {} choices')
    (hrun : run (expand r) {} choices = some cfg) (hrun' : run (expand r) {} choices' = some cfg')
    (i i' : ℕ) (b b' : Bool) (hcall : cfg.callOf i = some (.resolveCheck req))
    (hcall' : cfg'.callOf i' = some (.resolveCheck req)) (hans : cfg.answerOf i = some (.ok b))
    (hans' : cfg'.answerOf i' = some (.ok b')) : b = b' := by
  rw [Bool.eq_iff_iff, cacheFree_right hg hw hr hd isCheck_entry hsteps hrun hcall hans rfl,
    cacheFree_right hg hw hr hd isCheck_entry hsteps' hrun' hcall' hans' rfl]

/-! ### A tuple with a false condition marks its userset -/

namespace FalseFirst

/-- The relation `group#member: [user, group#member, group#member with c]`. -/
def member : Node := .specificTypeAndRelation "group" "member"

def userEdge : Edge where
  edgeType := .direct
  fromNode := member
  toNode := .specificType "user"
  relationDefinition := ("group", "member")
  weights := [(.type "user", 1)]

def groupEdge : Edge where
  edgeType := .direct
  fromNode := member
  toNode := member
  relationDefinition := ("group", "member")
  conditions := [noCond, "c"]
  weights := [(.type "user", 2147483647), (.userset "group" "member", 2147483647)]
  recursiveRelation := some member

def model : ModelGraph where
  nodes := [{ node := member
              weights := [(.type "user", 2147483647), (.userset "group" "member", 2147483647)]
              recursiveRelation := some member }]
  edges := [userEdge, groupEdge]

def group (id : String) : Object := ⟨"group", id⟩

def contains (id sub : String) (condition : String) : TupleKey where
  object := group id
  relation := "member"
  user := .userset (group sub) "member"
  condition := ⟨condition, ""⟩

/-- `group:1` contains `group:3` under a false condition and `group:2`; `group:2` contains
`group:3`, which contains the user. -/
def resolver : Resolver where
  model := model
  datastore := ⟨[contains "1" "3" "c", contains "1" "2" "", contains "2" "3" "",
    { object := group "3", relation := "member", user := .object ⟨"user", "a"⟩ }], by decide⟩
  cel := fun _ _ => .ok false

def request (id : String) : Request where
  object := group id
  relation := "member"
  user := .object ⟨"user", "a"⟩

/-- The tuple to `group:3` is read first; the tuple of `group:2` to `group:3` is dropped. -/
def schedule : List (Choice Call Err) :=
  [.request (.resolveCheck (request "1")), .look 0 none, .look 1 none, .look 2 none, .look 2 none,
    .look 3 none, .finish 5 (.ok false), .finish 3 (.ok false),
    .look 4 none, .look 6 none, .look 6 none,
    .look 7 none, .look 7 none, .look 8 none, .finish 10 (.ok false), .finish 8 (.ok false),
    .look 9 none, .look 11 none, .finish 11 (.ok false), .finish 9 (.ok false),
    .finish 7 (.ok false), .finish 6 (.ok false), .finish 4 (.ok false), .finish 2 (.ok false),
    .finish 1 (.ok false), .finish 0 (.ok false)]

/-- The answer for `group:2`, which is right. -/
def rightSchedule : List (Choice Call Err) :=
  [.request (.resolveCheck (request "2")), .look 0 none, .look 1 none, .look 2 none, .look 2 none,
    .look 4 none, .look 5 none, .look 6 none, .look 7 none, .finish 8 (.ok true),
    .finish 7 (.ok true), .finish 6 (.ok true), .finish 5 (.ok true), .finish 4 (.ok true),
    .finish 2 (.ok true), .finish 1 (.ok true), .finish 0 (.ok true)]

/-- The same, where the user's own tuples are looked at first. -/
def otherSchedule : List (Choice Call Err) :=
  [.request (.resolveCheck (request "2")), .look 0 none, .look 1 none, .look 2 none, .look 2 none,
    .look 3 none, .finish 5 (.ok false), .finish 3 (.ok false),
    .look 4 none, .look 6 none, .look 7 none, .look 8 none, .finish 9 (.ok true),
    .finish 8 (.ok true), .finish 7 (.ok true), .finish 6 (.ok true), .finish 4 (.ok true),
    .finish 2 (.ok true), .finish 1 (.ok true), .finish 0 (.ok true)]

theorem noOperatorCycle : model.NoOperatorCycle := by
  intro e he hstrict
  have : ∀ e ∈ model.edges, e.fromNode.isStrict = false := by decide
  rw [this e he] at hstrict
  cases hstrict

theorem recursionMarked : model.RecursionMarked :=
  ⟨by decide, by decide, by decide⟩

theorem defined : model.Defined :=
  ⟨by decide, by decide, by decide, by decide, by decide⟩

end FalseFirst

theorem nothingHidden_of_no_contextual (h : req.contextualTuples = []) : NothingHidden r req := by
  refine ⟨fun e _ _ u _ t _ _ _ _ _ t' ht' => ?_, fun e _ conditions _ t ht => ?_⟩
  · rw [Request.contextualTuple, h] at ht'
    cases ht'
  · rw [h] at ht
    cases ht

/-- A tuple that assigns the user or leads to a derivable object. -/
theorem Derivable.of_tuple (he : e ∈ r.model.edges) (hn : e.fromNode.isStrict = false)
    (htuple : e.isTupleEdge) (h : (leastFacts r req).assigned e o
      ∨ ∃ o', (leastFacts r req).linked e o o' ∧ Derivable r hg req e.toNode o') :
    Derivable r hg req e.fromNode o := by
  refine (holds_union hn o).mpr ⟨e, ModelGraph.mem_getEdgesFromNode.mpr ⟨he, rfl⟩, ?_⟩
  rwa [edgeBody, if_pos htuple]

open FalseFirst in
/-- **The user is derivable in `group:1`, and the answer is false.** -/
theorem false_condition_marks_userset :
    model.Weighted ∧ model.RecursionMarked ∧ model.Defined
      ∧ (run (expand resolver) {} schedule).bind (fun cfg => cfg.answerOf 0) = some (.ok false)
      ∧ Derivable resolver noOperatorCycle (request "1") member (group "1") := by
  refine ⟨by decide, recursionMarked, defined, by decide, ?_⟩
  have hlink : ∀ id sub, contains id sub "" ∈ resolver.datastore.tuples →
      (leastFacts resolver (request "1")).linked groupEdge (group id) (group sub) := by
    intro id sub h
    exact ⟨rfl, [noCond, "c"], rfl, contains id sub "", .inl h, rfl, rfl, ⟨rfl, rfl⟩, rfl⟩
  have huser : Derivable resolver noOperatorCycle (request "1") member (group "3") :=
    .of_tuple (e := userEdge) (by decide) rfl rfl
      (.inl ⟨rfl, rfl, .object ⟨"user", "a"⟩, rfl,
        { object := group "3", relation := "member", user := .object ⟨"user", "a"⟩ },
        .inl (by decide), rfl, rfl⟩)
  have hgroup : Derivable resolver noOperatorCycle (request "1") member (group "2") :=
    .of_tuple (e := groupEdge) (by decide) rfl rfl (.inr ⟨_, hlink "2" "3" (by decide), huser⟩)
  exact .of_tuple (e := groupEdge) (by decide) rfl rfl (.inr ⟨_, hlink "1" "2" (by decide), hgroup⟩)

open FalseFirst in
/-- A run in which every step meets the condition. -/
theorem check_least_model_chain :
    ∃ cfg, run (expand resolver) {} rightSchedule = some cfg ∧ cfg.answerOf 0 = some (.ok true)
      ∧ Derivable resolver noOperatorCycle (request "2") member (group "2") := by
  have hrun : (run (expand resolver) {} rightSchedule).map (fun cfg => (cfg.callOf 0, cfg.answerOf 0))
      = some (some (.resolveCheck (request "2")), some (.ok true)) := by decide
  obtain ⟨cfg, hcfg, hfacts⟩ := Option.map_eq_some_iff.mp hrun
  rw [Prod.mk.injEq] at hfacts
  refine ⟨cfg, hcfg, hfacts.2, ?_⟩
  have hsteps : Along (expand resolver) (CacheFree resolver Call.isCheck) {} rightSchedule :=
    Along.imp (fun _ _ => cacheFree_of) (by decide)
  exact (check_least_model resolver noOperatorCycle (by decide) recursionMarked defined rightSchedule
    cfg hsteps hcfg 0 (request "2") true hfacts.1 hfacts.2 (by intro t ht; cases ht)
    (nothingHidden_of_no_contextual rfl) (by intro _ _ _ huser; cases huser)).mp rfl

open FalseFirst in
/-- Two runs of one check, with the tasks in another order. -/
theorem answers_agree_chain :
    ∃ cfg cfg', run (expand resolver) {} rightSchedule = some cfg
      ∧ run (expand resolver) {} otherSchedule = some cfg'
      ∧ cfg.tasks.length ≠ cfg'.tasks.length ∧ cfg.answerOf 0 = some (.ok true)
      ∧ ∀ b, cfg'.answerOf 0 = some (.ok b) → b = true := by
  have hrun : (run (expand resolver) {} rightSchedule).map
        (fun cfg => (cfg.tasks.length, cfg.callOf 0, cfg.answerOf 0))
      = some (9, some (.resolveCheck (request "2")), some (.ok true)) := by decide
  have hrun' : (run (expand resolver) {} otherSchedule).map
        (fun cfg => (cfg.tasks.length, cfg.callOf 0, cfg.answerOf 0))
      = some (10, some (.resolveCheck (request "2")), some (.ok true)) := by decide
  obtain ⟨cfg, hcfg, hfacts⟩ := Option.map_eq_some_iff.mp hrun
  obtain ⟨cfg', hcfg', hfacts'⟩ := Option.map_eq_some_iff.mp hrun'
  simp only [Prod.mk.injEq] at hfacts hfacts'
  refine ⟨cfg, cfg', hcfg, hcfg', by omega, hfacts.2.2, fun b hb => ?_⟩
  exact (answers_agree resolver noOperatorCycle (by decide) recursionMarked defined (request "2")
    rightSchedule otherSchedule cfg cfg' (Along.imp (fun _ _ => cacheFree_of) (by decide))
    (Along.imp (fun _ _ => cacheFree_of) (by decide)) hcfg hcfg' 0 0 true b hfacts.2.1
    hfacts'.2.1 hfacts.2.2 hb).symm

end Kengen
