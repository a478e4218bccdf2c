import Kengen.Graph.Dispatches

/-!
# The handlers of the local checker

`LocalChecker.ResolveCheck` and the handlers it builds from a rewrite rule, with the default
resolvers: every userset and tupleset tuple is dispatched as a check of its own.

* `Request` — what identifies a check: the tuple key, and the model, context and contextual tuples
  that the cache key calls invariant.
* `LocalChecker` — the configuration, the environment of each invariant, and the errors that the
  datastore may raise.  What the checker asks of the model's graph (`PathExists` and the choice of
  the faster resolvers, which only splits the userset reads here) is a parameter.
* `LocalChecker.checkRewrite` and the handlers below it follow `check.go` one by one.
* `LocalChecker.requestFormula` — what the handlers of a request evaluate.
* **`follows`** — the handlers evaluate that formula, unless the datastore raises errors that look
  like cancellations.
* **`subtractAcyclic_of_ranked`** — in a model whose relations can be ranked no request depends on
  itself.
-/

namespace Kengen

open List

/-! ### What the checker asks of the model -/

variable (ts : TypeSystem) (objectType relation : String)

/-- The type restrictions of a relation. -/
def TypeSystem.getDirectlyRelatedUserTypes :
    List RelationReference :=
  match ts.getRelation objectType relation with
  | .ok r => r.typeInfo.getD []
  | .error _ => []

/-- `DirectlyRelatedUsersets`: the restrictions to usersets. -/
def TypeSystem.directlyRelatedUsersets :
    List RelationReference :=
  (ts.getDirectlyRelatedUserTypes objectType relation).filter fun ref =>
    match ref.relationOrWildcard with
    | .relation _ => true
    | _ => false

/-- `IsDirectlyRelated`, for the reference that `shouldCheckDirectTuple` builds of a user: a
typed wildcard gives the reference of its type. -/
def TypeSystem.isDirectlyRelated (user : User) :
    Bool :=
  (ts.getDirectlyRelatedUserTypes objectType relation).any fun ref =>
    decide (ref.type = user.objectType ∧ ref.relationOrWildcard =
      match user with
      | .userset _ r => .relation r
      | _ => .object)

/-- `IsPubliclyAssignable`. -/
def TypeSystem.isPubliclyAssignable (ts : TypeSystem) (objectType relation userType : String) :
    Bool :=
  (ts.getDirectlyRelatedUserTypes objectType relation).any fun ref =>
    decide (ref.type = userType ∧ ref.relationOrWildcard = .wildcard)

/-- `ReadUsersetTuples` with the allowed type restrictions, through `FilterInvalidTuples`. -/
def Environment.readUsersetTuples (env : Environment) (object : Object) (relation : String)
    (allowed : List RelationReference) : List TupleKey :=
  (env.read object relation).filter fun t => allowed.any fun ref =>
    decide (ref.type = t.user.objectType ∧ ref.relationOrWildcard = t.user.facet)

/-- The object of `SplitObjectRelation`. -/
def User.splitObjectRelation : User → Object
  | .object o => o
  | .userset o _ => o
  | .wildcard t => ⟨t, "*"⟩

namespace Graph

open Decisions

variable {κ : Type}

/-- A `ResolveCheckRequest` as far as the cache key tells requests apart. -/
structure Request (κ : Type) where
  invariant : κ
  user : User
  object : Object
  relation : String
deriving DecidableEq

/-- A local checker over the environments of the requests. -/
structure LocalChecker (κ : Type) where
  concurrencyLimit : ℕ
  /-- A pool needs a routine. -/
  concurrencyLimit_pos : 0 < concurrencyLimit
  maxResolutionDepth : ℕ
  environment : κ → Environment
  pathExists : κ → User → String → String → Except CheckErr Bool
  usersetUseRecursiveResolver : κ → String → String → String → Bool
  usersetUseWeight2Resolver : κ → String → String → String → RelationReference → Bool
  /-- The errors that the datastore may raise. -/
  fails : Err → Prop

namespace LocalChecker

variable (c : LocalChecker κ) (req : Request κ)

/-- The environment of a request. -/
def env : Environment := c.environment req.invariant

/-! ### Direct assignments -/

/-- A call of the datastore fails. -/
def openErr (e : CheckErr) : Prop := ∃ e', c.fails e' ∧ e = .iterator e'

/-- The outcome of `checkDirectUserTuple` if its read succeeds. -/
def directUserTuple : Outcome :=
  match (c.env req).store.readUserTuple req.object req.relation req.user with
  | none => .ok { allowed := false }
  | some t =>
    if (c.env req).typesystem.validateTupleForRead t then
      match (c.env req).conditionMet t with
      | .error e => .error (.iterator e)
      | .ok met => .ok { allowed := met }
    else .ok { allowed := false }

/-- `checkDirectUserTuple`. -/
def checkDirectUserTuple : Handler (Request κ) :=
  .opened c.openErr (.read (· = c.directUserTuple req))

/-- The tuples that assign the typed wildcard of the user's type. -/
def publicTuples : List TupleKey :=
  (c.env req).readUsersetTuples req.object req.relation
    [{ type := req.user.objectType, relationOrWildcard := .wildcard }]

/-- The outcome of the first `Next` in `checkPublicAssignable`. -/
def firstNext : Trace TupleKey → Outcome
  | [] => .ok { allowed := false }
  | .error e :: _ => .error (.iterator e)
  | .ok _ :: _ => .ok { allowed := true }

/-- `checkPublicAssignable`. -/
def checkPublicAssignable : Handler (Request κ) :=
  .opened c.openErr (.read fun o => ∃ trace, Returns c.fails (c.publicTuples req) trace
    ∧ o = firstNext (filtered (c.env req) trace))

/-- The message of `produceUsersetDispatches` for a tuple. -/
def usersetMessage (t : TupleKey) : Option (DispatchMsg (Request κ)) :=
  match t.user with
  | .wildcard wildcardType =>
    if wildcardType = req.user.objectType then some .shortCircuit else none
  | .userset usersetObject usersetRelation =>
    some (.dispatchParams { req with object := usersetObject, relation := usersetRelation })
  | .object _ => none

variable (usersets : List RelationReference)

/-- `defaultUserset` over the tuples of some type restrictions. -/
def defaultUserset : Handler (Request κ) :=
  .dispatch fun messages => ∃ trace,
    Returns c.fails ((c.env req).readUsersetTuples req.object req.relation usersets) trace
      ∧ messages = produceDispatches (usersetMessage req) (filtered (c.env req) trace)

/-- The type restrictions that have a userset. -/
def directlyRelatedUsersets : List RelationReference :=
  (c.env req).typesystem.directlyRelatedUsersets req.object.type req.relation

/-- The usersets are read together if the user is a userset or the relation is recursive. -/
def readsTogether : Bool :=
  req.user.isObjectRelation || c.usersetUseRecursiveResolver req.invariant req.object.type
    req.relation req.user.objectType

/-- The restrictions that are read separately otherwise: those that a faster resolver could take
over, one by one, and the remaining ones. -/
def usersetGroups : List (List RelationReference) :=
  let weight2 := fun ref => c.usersetUseWeight2Resolver req.invariant req.object.type req.relation
    req.user.objectType ref
  let remaining := (c.directlyRelatedUsersets req).filter fun ref => !weight2 ref
  ((c.directlyRelatedUsersets req).filter weight2).map (fun ref => [ref])
    ++ if remaining.isEmpty then [] else [remaining]

/-- `checkDirectUsersetTuples` with the default resolver. -/
def checkDirectUsersetTuples : Handler (Request κ) :=
  .opened c.openErr
    (if c.readsTogether req then c.defaultUserset req (c.directlyRelatedUsersets req)
    else .union fun i : Fin (c.usersetGroups req).length =>
      c.defaultUserset req ((c.usersetGroups req).get i))

/-- The handlers of `checkDirect`. -/
inductive CheckFunc where
  | directUserTuple
  | publicAssignable
  | directUsersetTuples

/-- The handlers that `checkDirect` runs for a request. -/
def checkFuncs : List CheckFunc :=
  (if (c.env req).typesystem.isDirectlyRelated req.object.type req.relation req.user then
      [.directUserTuple] else [])
    ++ (if !req.user.isObjectRelation && (c.env req).typesystem.isPubliclyAssignable req.object.type
        req.relation req.user.objectType then [.publicAssignable] else [])
    ++ if (c.directlyRelatedUsersets req).isEmpty then [] else [.directUsersetTuples]

def checkFunc : CheckFunc → Handler (Request κ)
  | .directUserTuple => c.checkDirectUserTuple req
  | .publicAssignable => c.checkPublicAssignable req
  | .directUsersetTuples => c.checkDirectUsersetTuples req

/-- `checkDirect`. -/
def checkDirect : Handler (Request κ) :=
  .union fun i : Fin (c.checkFuncs req).length => c.checkFunc req ((c.checkFuncs req).get i)

/-! ### Rewrite rules -/

/-- The message of `produceTTUDispatches` for a tuple: a computed relation that the type does not
have is skipped. -/
def ttuMessage (computedRelation : String) (t : TupleKey) : Option (DispatchMsg (Request κ)) :=
  match (c.env req).typesystem.getRelation t.user.splitObjectRelation.type computedRelation with
  | .error .relationUndefined => none
  | _ => some (.dispatchParams { req with
      object := t.user.splitObjectRelation, relation := computedRelation })

/-- `checkTTU` with the default resolver. -/
def checkTTU (tupleset computedRelation : String) : Handler (Request κ) :=
  .opened c.openErr (.dispatch fun messages => ∃ trace,
    Returns c.fails ((c.env req).read req.object tupleset) trace
      ∧ messages = produceDispatches (c.ttuMessage req computedRelation)
        (filtered (c.env req) trace))

/-- `CheckRewrite`. -/
def checkRewrite : Rewrite → Handler (Request κ)
  | .this => c.checkDirect req
  | .computedUserset relation => .resolveCheck { req with relation := relation }
  | .tupleToUserset tupleset computedUserset => c.checkTTU req tupleset computedUserset
  | .union child => .union fun i => checkRewrite (child i)
  | .intersection child => .intersection fun i => checkRewrite (child i)
  | .difference base subtract => .exclusion (checkRewrite base) (checkRewrite subtract)

/-- `IsSelfDefining`. -/
def isSelfDefining : Bool := decide (req.user = .userset req.object req.relation)

/-- The error of a relation that the model does not have. -/
def relationErr : CheckErr :=
  .unknown ("relation '" ++ req.relation ++ "' undefined for object type '" ++ req.object.type
    ++ "'")

/-- What `ResolveCheck` does with a request that is not on its own path. -/
def resolve : Handler (Request κ) :=
  if isSelfDefining req then .read (· = .ok { allowed := true })
  else
    match (c.env req).typesystem.getRelation req.object.type req.relation with
    | .error _ => .read (· = .error (relationErr req))
    | .ok r =>
      match c.pathExists req.invariant req.user req.relation req.object.type with
      | .error e => .read (· = .error e)
      | .ok false => .read (· = .ok { allowed := false })
      | .ok true => c.checkRewrite req r.rewrite

/-- The checker of all requests. -/
def checker : Checker (Request κ) where
  concurrencyLimit := c.concurrencyLimit
  maxResolutionDepth := c.maxResolutionDepth
  rewrite := c.resolve

/-! ### What the handlers evaluate -/

/-- The answer of the tuple of the request itself. -/
def directValue : Option Bool :=
  match c.directUserTuple req with
  | .ok resp => some resp.allowed
  | .error _ => none

/-- The answer of the tuples of the typed wildcard. -/
def publicValue : Option Bool :=
  if (c.publicTuples req).any (isPass (c.env req).conditionMet) then some true
  else if (c.publicTuples req).any (isFailure (c.env req).conditionMet) then none
  else some false

/-- The formula of the userset tuples of some type restrictions. -/
def usersetFormula : Formula (Request κ) :=
  readFormula (c.env req) (usersetMessage req)
    ((c.env req).readUsersetTuples req.object req.relation usersets)

def checkFuncFormula : CheckFunc → Formula (Request κ)
  | .directUserTuple => .value (c.directValue req)
  | .publicAssignable => .value (c.publicValue req)
  | .directUsersetTuples =>
    if c.readsTogether req then c.usersetFormula req (c.directlyRelatedUsersets req)
    else .any fun i : Fin (c.usersetGroups req).length =>
      c.usersetFormula req ((c.usersetGroups req).get i)

/-- The formula of a rewrite rule. -/
def rewriteFormula : Rewrite → Formula (Request κ)
  | .this => .any fun i : Fin (c.checkFuncs req).length =>
      c.checkFuncFormula req ((c.checkFuncs req).get i)
  | .computedUserset relation => .goal { req with relation := relation }
  | .tupleToUserset tupleset computedUserset =>
    readFormula (c.env req) (c.ttuMessage req computedUserset) ((c.env req).read req.object tupleset)
  | .union child => .any fun i => rewriteFormula (child i)
  | .intersection child => .all fun i => rewriteFormula (child i)
  | .difference base subtract => .butNot (rewriteFormula base) (rewriteFormula subtract)

/-- **The formula of a request.** -/
def requestFormula : Formula (Request κ) :=
  if isSelfDefining req then .value (some true)
  else
    match (c.env req).typesystem.getRelation req.object.type req.relation with
    | .error _ => .value none
    | .ok r =>
      match c.pathExists req.invariant req.user req.relation req.object.type with
      | .error _ => .value none
      | .ok false => .value (some false)
      | .ok true => c.rewriteFormula req r.rewrite

/-! ### The handlers evaluate the formulas -/

section Follows

variable {c} {req}

theorem read_follows (o : Outcome) (v : Option Bool)
    (h : ∀ resp, o = .ok resp → resp.cycleDetected = false ∧ v = some resp.allowed) :
    (Handler.read (· = o) : Handler (Request κ)).Follows (.value v) := by
  intro resp hresp
  obtain ⟨hc, rfl⟩ := h resp hresp.symm
  exact ⟨hc, rfl⟩

theorem directUserTuple_unflagged {resp : Response} (h : c.directUserTuple req = .ok resp) :
    resp.cycleDetected = false := by
  simp only [directUserTuple] at h
  split at h
  · cases h
    rfl
  · split at h
    · split at h
      · cases h
      · cases h
        rfl
    · cases h
      rfl

theorem checkDirectUserTuple_follows :
    (c.checkDirectUserTuple req).Follows (.value (c.directValue req)) := by
  refine read_follows _ _ fun resp hresp => ⟨directUserTuple_unflagged hresp, ?_⟩
  rw [directValue, hresp]

theorem firstNext_eq_ok {trace : Trace TupleKey} {resp : Response} (h : firstNext trace = .ok resp) :
    trace = [] ∧ resp = { allowed := false }
      ∨ (∃ t, .ok t ∈ trace) ∧ resp = { allowed := true } := by
  rcases trace with _ | ⟨r, _⟩
  · exact .inl ⟨rfl, (Except.ok.inj h).symm⟩
  · rcases r with e | t
    · cases h
    · exact .inr ⟨⟨t, mem_cons_self⟩, (Except.ok.inj h).symm⟩

theorem checkPublicAssignable_follows :
    (c.checkPublicAssignable req).Follows (.value (c.publicValue req)) := by
  rintro resp ⟨_, hreturns, hresp⟩
  rcases firstNext_eq_ok hresp.symm with ⟨hempty, rfl⟩ | ⟨⟨t, ht⟩, rfl⟩
  · have hfalse := filtered_empty hreturns hempty
    have hpass : (c.publicTuples req).any (isPass (c.env req).conditionMet) = false :=
      any_eq_false.mpr fun t ht => by simp [isPass, hfalse t ht]
    have hfailure : (c.publicTuples req).any (isFailure (c.env req).conditionMet) = false :=
      any_eq_false.mpr fun t ht => by simp [isFailure, hfalse t ht]
    exact ⟨rfl, by simp [publicValue, hpass, hfailure]⟩
  · obtain ⟨htrace, hmet⟩ := mem_filterTrace.mp ht
    refine ⟨rfl, ?_⟩
    have hany : (c.publicTuples req).any (isPass (c.env req).conditionMet) = true :=
      any_eq_true.mpr ⟨t, returns_mem hreturns htrace, by simp [isPass, hmet]⟩
    simp [publicValue, hany]

section Clean

variable (hfails : ∀ e, c.fails e → e.isCancelled = false)

include hfails

/-- The messages of a read follow its formula. -/
theorem dispatch_follows (tuples : List TupleKey)
    (message : TupleKey → Option (DispatchMsg (Request κ))) :
    (Handler.dispatch fun messages => ∃ trace, Returns c.fails tuples trace
        ∧ messages = produceDispatches message (filtered (c.env req) trace)).Follows
      (readFormula (c.env req) message tuples) := by
  refine ⟨_, _, rfl, ?_⟩
  rintro messages ⟨trace, hreturns, rfl⟩
  exact produceDispatches_messagesOf message hfails hreturns

theorem checkDirectUsersetTuples_follows :
    (c.checkDirectUsersetTuples req).Follows (c.checkFuncFormula req .directUsersetTuples) := by
  show (if c.readsTogether req then _ else _ : Handler (Request κ)).Follows
    (if c.readsTogether req then _ else _)
  split
  · exact dispatch_follows hfails _ _
  · exact ⟨_, rfl, fun i => dispatch_follows hfails _ _⟩

theorem checkFunc_follows (f : CheckFunc) :
    (c.checkFunc req f).Follows (c.checkFuncFormula req f) := by
  cases f with
  | directUserTuple => exact checkDirectUserTuple_follows
  | publicAssignable => exact checkPublicAssignable_follows
  | directUsersetTuples => exact checkDirectUsersetTuples_follows hfails

theorem checkRewrite_follows (rewrite : Rewrite) :
    (c.checkRewrite req rewrite).Follows (c.rewriteFormula req rewrite) := by
  induction rewrite with
  | this => exact ⟨_, rfl, fun i => checkFunc_follows hfails _⟩
  | computedUserset => rfl
  | tupleToUserset => exact dispatch_follows hfails _ _
  | union child ih | intersection child ih => exact ⟨_, rfl, ih⟩
  | difference base subtract ihb ihs => exact ⟨_, _, rfl, ihb, ihs⟩

/-- **The handlers evaluate the formulas of the requests.** -/
theorem follows : c.checker.Follows c.requestFormula := by
  intro req
  show (c.resolve req).Follows (c.requestFormula req)
  rw [resolve, requestFormula]
  split
  · refine read_follows _ _ fun resp hresp => ?_
    cases hresp
    exact ⟨rfl, rfl⟩
  · split
    · exact read_follows _ _ fun resp hresp => nomatch hresp
    · rename_i r _
      split
      · exact read_follows _ _ fun resp hresp => nomatch hresp
      · refine read_follows _ _ fun resp hresp => ?_
        cases hresp
        exact ⟨rfl, rfl⟩
      · exact checkRewrite_follows hfails r.rewrite

end Clean

end Follows

/-! ### What the formulas refer to -/

section References

variable {c} {req}

variable {q : Request κ}

section Read

variable {env : Environment} {message : TupleKey → Option (DispatchMsg (Request κ))}
  {tuples : List TupleKey}

/-- The formula of a tuple is a value or the request that is dispatched for it. -/
theorem tupleFormula_eq (t : TupleKey) :
    (∃ v, tupleFormula env message tuples t = .value v)
      ∨ ∃ g, message t = some (.dispatchParams g)
        ∧ tupleFormula env message tuples t = .goal g := by
  rw [tupleFormula]
  split
  · rcases hm : message t with _ | m
    · exact .inl ⟨_, rfl⟩
    · cases m with
      | err | shortCircuit => exact .inl ⟨_, rfl⟩
      | dispatchParams g => exact .inr ⟨g, rfl, rfl⟩
  · exact .inl ⟨_, rfl⟩
  · split <;> exact .inl ⟨_, rfl⟩

theorem readFormula_mentions (h : (readFormula env message tuples).Mentions q) :
    ∃ t ∈ tuples, message t = some (.dispatchParams q) := by
  obtain ⟨i, hi⟩ := h
  change (tupleFormula env message tuples (tuples.get i)).Mentions q at hi
  rcases tupleFormula_eq (tuples.get i) with ⟨v, heq⟩ | ⟨g, hm, heq⟩
  · rw [heq] at hi
    exact absurd hi id
  · rw [heq] at hi
    obtain rfl : g = q := hi
    exact ⟨_, get_mem tuples i, hm⟩

/-- A read subtracts nothing. -/
theorem readFormula_not_subtracts : ¬ (readFormula env message tuples).Subtracts q := by
  rintro ⟨i, hi⟩
  change (tupleFormula env message tuples (tuples.get i)).Subtracts q at hi
  rcases tupleFormula_eq (tuples.get i) with ⟨v, heq⟩ | ⟨g, -, heq⟩
  · rwa [heq] at hi
  · rwa [heq] at hi

end Read

/-- Direct assignment subtracts nothing. -/
theorem thisFormula_not_subtracts : ¬ (c.rewriteFormula req .this).Subtracts q := by
  rintro ⟨i, hi⟩
  change (c.checkFuncFormula req ((c.checkFuncs req).get i)).Subtracts q at hi
  generalize (c.checkFuncs req).get i = f at hi
  cases f with
  | directUserTuple | publicAssignable => exact hi
  | directUsersetTuples =>
    simp only [checkFuncFormula] at hi
    split at hi
    · exact readFormula_not_subtracts hi
    · obtain ⟨j, hj⟩ := hi
      exact readFormula_not_subtracts hj

-- a property of the relations that the tuples and the rules of a relation refer to
variable {P : String → Prop}
  (htuples : ∀ t ∈ (c.env req).store.tuples, t.relation = req.relation →
    ∀ name ∈ t.user.usersetRelations, P name)
include htuples

theorem usersetFormula_mentions {usersets : List RelationReference}
    (hq : (c.usersetFormula req usersets).Mentions q) : P q.relation := by
  obtain ⟨t, ht, hm⟩ := readFormula_mentions hq
  have hread := (mem_filter.mp ht).1
  simp only [Environment.read, mem_filter, Bool.and_eq_true, decide_eq_true_eq] at hread
  have hnames := htuples t hread.1 hread.2.1.2
  simp only [usersetMessage] at hm
  split at hm
  · split at hm
    · cases hm
    · cases hm
  · rename_i o r huser
    obtain rfl := DispatchMsg.dispatchParams.inj (Option.some.inj hm)
    exact hnames r (by simp [huser, User.usersetRelations])
  · cases hm

theorem rewriteFormula_mentions {rewrite : Rewrite} (hrefs : ∀ name ∈ rewrite.references, P name)
    (hq : (c.rewriteFormula req rewrite).Mentions q) : P q.relation := by
  induction rewrite with
  | this =>
    obtain ⟨i, hi⟩ := hq
    change (c.checkFuncFormula req ((c.checkFuncs req).get i)).Mentions q at hi
    generalize (c.checkFuncs req).get i = f at hi
    cases f with
    | directUserTuple | publicAssignable => exact absurd hi id
    | directUsersetTuples =>
      simp only [checkFuncFormula] at hi
      split at hi
      · exact usersetFormula_mentions htuples hi
      · obtain ⟨j, hj⟩ := hi
        exact usersetFormula_mentions htuples hj
  | computedUserset =>
    obtain rfl := hq
    exact hrefs _ (mem_singleton.mpr rfl)
  | tupleToUserset =>
    obtain ⟨t, -, hm⟩ := readFormula_mentions hq
    simp only [ttuMessage] at hm
    split at hm
    · cases hm
    · obtain rfl := DispatchMsg.dispatchParams.inj (Option.some.inj hm)
      exact hrefs _ (mem_singleton.mpr rfl)
  | union child ih | intersection child ih =>
    obtain ⟨i, hi⟩ := hq
    refine ih i (fun name hname => hrefs name ?_) hi
    exact mem_flatMap.mpr ⟨i, mem_finRange i, hname⟩
  | difference base subtract ihb ihs =>
    rcases hq with hb | hs
    · exact ihb (fun name hname => hrefs name (mem_append_left _ hname)) hb
    · exact ihs (fun name hname => hrefs name (mem_append_right _ hname)) hs

omit htuples in
/-- The formula of a request is a value, or that of the rule of its relation. -/
theorem requestFormula_eq (c : LocalChecker κ) (req : Request κ) :
    (∃ v, c.requestFormula req = .value v)
      ∨ ∃ entry ∈ (c.env req).typesystem.types, ∃ r ∈ entry.2, r.1 = req.relation
        ∧ c.requestFormula req = c.rewriteFormula req r.2.rewrite := by
  rw [requestFormula]
  split
  · exact .inl ⟨_, rfl⟩
  split
  · exact .inl ⟨_, rfl⟩
  · rename_i r hr
    obtain ⟨_, hentry, hmem⟩ := getRelation_mem hr
    split
    · exact .inl ⟨_, rfl⟩
    · exact .inl ⟨_, rfl⟩
    · exact .inr ⟨_, hentry, _, hmem, rfl, rfl⟩

theorem requestFormula_mentions
    (hrefs : ∀ entry ∈ (c.env req).typesystem.types, ∀ r ∈ entry.2, r.1 = req.relation →
      ∀ name ∈ r.2.rewrite.references, P name)
    (hq : (c.requestFormula req).Mentions q) : P q.relation := by
  rcases requestFormula_eq c req with ⟨v, heq⟩ | ⟨entry, hentry, r, hr, hname, heq⟩
  · rw [heq] at hq
    exact absurd hq id
  · rw [heq] at hq
    exact rewriteFormula_mentions htuples (hrefs entry hentry r hr hname) hq

omit htuples in
/-- **In a ranked model no request depends on itself.** -/
theorem subtractAcyclic_of_ranked (c : LocalChecker κ) (rank : String → ℕ)
    (h : ∀ k, (c.environment k).Ranked rank) : SubtractAcyclic c.requestFormula := by
  refine fun _ g _ => not_transGen_of_rank (fun q => rank q.relation) (fun p q hq => ?_) g
  obtain ⟨hrules, hassigned⟩ := h p.invariant
  refine requestFormula_mentions (P := (rank · < rank p.relation)) (fun t ht hname => ?_)
    (fun entry he r hr hname => ?_) hq
  · exact hname ▸ hassigned t ht
  · exact hname ▸ hrules entry he r hr

end References

end LocalChecker

end Graph

end Kengen
