import Kengen.Lib.TaskMachine
import Kengen.BottomUp.Resolve
import Kengen.Model.Guarantees

/-!
# The top-down resolver

`Resolver` of `check.go` with the default strategy (`default.go`), as calls of the
task machine.  A call is one of the resolver's functions with its arguments;
`expand` says what the function does: which calls it starts and how it combines
their answers.  `visited` is the map of visited usersets and objects that the
calls of a recursion share.

`ResolveUnion` opens such a map when it enters a recursive relation or a tuple
cycle without one.  `buildIterator` filters the tuples of a scan by the map
first and by their condition afterwards.
-/

namespace Kengen

open TaskMachine List

/-- The keys of a map of visited usersets and objects: `usersetDedupKey`, which is also the form
of the first entry, and `ttuDedupKey`. -/
inductive VisitedKey where
  | userset (user : User)
  | ttu (user : User) (tuplesetRelation computedRelation : String)
deriving DecidableEq, Repr

/-- `EdgeCacheKey`: the fields it encodes.  The invariant part of a request is a hash of its
contextual tuples and its context. -/
structure EdgeCacheKey where
  object : Object
  user : User
  relationDefinition : String × String
  edgeType : EdgeType
  toNode : Node
  tuplesetRelation : String × String
  contextualTuples : List TupleKey
  context : String
deriving DecidableEq, Repr

def edgeCacheKey (req : Request) (e : Edge) : EdgeCacheKey where
  object := req.object
  user := req.user
  relationDefinition := e.relationDefinition
  edgeType := e.edgeType
  toNode := e.toNode
  tuplesetRelation := e.tuplesetRelation
  contextualTuples := req.contextualTuples
  context := req.context

/-- The functions of the resolver. -/
inductive Call where
  | resolveCheck (req : Request)
  | resolveUnion (req : Request) (n : Node) (visited : Option ℕ)
  | resolveUnionEdges (req : Request) (edges : List Edge) (visited : Option ℕ)
  /-- The second goroutine of `ResolveRecursive`, with its own use of the cache. -/
  | recursiveBranch (req : Request) (e : Edge) (visited : Option ℕ)
  /-- `resolveRecursiveUserset` and `resolveRecursiveTTU` with the default strategy. -/
  | resolveRecursiveEdge (req : Request) (e : Edge) (visited : Option ℕ)
  | resolveEdge (req : Request) (e : Edge) (visited : Option ℕ)
  | resolveIntersection (req : Request) (n : Node)
  | resolveExclusion (req : Request) (n : Node)
deriving DecidableEq, Repr

abbrev CheckPlan := Plan Call VisitedKey EdgeCacheKey Err

/-! ### Reading tuples -/

/-- `specificType`: the contextual tuple of the key, else the stored one. -/
def specificType (r : Resolver) (req : Request) (e : Edge) : Except Err Bool :=
  let relation := e.relationDefinition.2
  -- the source searches the sorted index by bisection
  let ctxTuple := (req.byUser req.user relation req.object.type).find? fun t =>
    decide (t.object = req.object)
  match ctxTuple.or (r.datastore.readUserTuple req.object relation req.user) with
  | none => .ok false
  | some t => evaluateCondition r.cel e.conditions t req.context

/-- `specificTypeWildcard`: the first contextual tuple of a typed wildcard, else the first stored
one. -/
def specificTypeWildcard (r : Resolver) (req : Request) (e : Edge) : Except Err Bool :=
  let relation := e.relationDefinition.2
  let ctxTuple := (req.byObject req.object relation req.userType).find? fun t =>
    t.user.isTypedWildcard
  let stored := match req.userType with
    | .type t => (r.datastore.readWildcardTuples req.object relation t e.conditions).head?
    | .userset _ _ => none
  match ctxTuple.or stored with
  | none => .ok false
  | some t => evaluateCondition r.cel e.conditions t req.context

/-- `SplitObjectRelation` of a tuple's user. -/
def User.split : User → Object × String
  | .object o => (o, "")
  | .userset o relation => (o, relation)
  | .wildcard t => (⟨t, "*"⟩, "")

/-- The condition filter of `buildIterator`, which is left out when no condition is allowed. -/
def tupleCondition (r : Resolver) (req : Request) (conditions : List String) (t : TupleKey) :
    Except Err Bool :=
  if needsConditionFilter conditions then evaluateCondition r.cel conditions t req.context
  else .ok true

/-- What `buildIterator` goes through for usersets: the contextual tuples, then the stored ones. -/
def usersetTuples (r : Resolver) (req : Request) (e : Edge) (relation : String) : List TupleKey :=
  match e.toNode with
  | .specificTypeAndRelation t userRelation =>
    req.byObject req.object relation (.userset t userRelation)
      ++ r.datastore.readUsersetTuples req.object relation t userRelation e.conditions
  | _ => []

/-- `DefaultStrategy.userset` on the filtered iterator: each userset is checked. -/
def usersetItems (r : Resolver) (req : Request) (e : Edge) (relation : String)
    (visited : Option ℕ) : List (Item Call VisitedKey Err) :=
  (usersetTuples r req e relation).map fun t =>
    let (object, userRelation) := t.user.split
    { key := .userset t.user
      cond := tupleCondition r req e.conditions t
      call := .resolveUnion (req.cloneWithTupleKey object userRelation)
        (.specificTypeAndRelation object.type userRelation) visited }

/-- `GetDirectEdgeFromNodeForUserType`. -/
def ModelGraph.getDirectEdgeFromNodeForUserType (g : ModelGraph) (objectRelation : String × String)
    (userType : String) : Option Edge :=
  (g.getEdgesFromNode (.specificTypeAndRelation objectRelation.1 objectRelation.2)).find? fun e =>
    decide (e.toNode = .specificType userType)

/-- What `buildIterator` goes through for a tuple-to-userset edge. -/
def ttuTuples (r : Resolver) (req : Request) (tuplesetRelation subjectType : String)
    (conditions : List String) : List TupleKey :=
  req.byObject req.object tuplesetRelation (.type subjectType)
    ++ r.datastore.read req.object tuplesetRelation subjectType conditions

/-- `DefaultStrategy.ttu` on the filtered iterator: the computed relation of each object. -/
def ttuItems (r : Resolver) (req : Request) (tuplesetRelation subjectType computedRelation : String)
    (conditions : List String) (visited : Option ℕ) : List (Item Call VisitedKey Err) :=
  (ttuTuples r req tuplesetRelation subjectType conditions).map fun t =>
    let object := t.user.split.1
    { key := .ttu t.user tuplesetRelation computedRelation
      cond := tupleCondition r req conditions t
      call := .resolveUnion (req.cloneWithTupleKey object computedRelation)
        (.specificTypeAndRelation object.type computedRelation) visited }

/-- `ttu` with the default strategy. -/
def ttuPlan (r : Resolver) (req : Request) (e : Edge) (visited : Option ℕ) : CheckPlan :=
  match e.toNode with
  | .specificTypeAndRelation subjectType computedRelation =>
    match r.model.getDirectEdgeFromNodeForUserType e.tuplesetRelation subjectType with
    | none => .ret (.error .panicRequest)
    | some tuplesetEdge =>
      .scan visited (ttuItems r req e.tuplesetRelation.2 subjectType computedRelation
        tuplesetEdge.conditions visited)
  | _ => .ret (.error .panicRequest)

/-! ### Recursion -/

/-- One edge of `canApplyRecursiveOptimization`: the recursive edge found so far, and whether all
other edges are terminal. -/
def searchEdge (recursiveRelation : Node) (userType : UserType) (below : Node → Option Edge × Bool)
    (acc : Option Edge × Bool) (e : Edge) : Option Edge × Bool :=
  if e.recursiveRelation ≠ some recursiveRelation then
    if (e.weight userType).any (1 < ·) then (acc.1, false) else acc
  else if e.isTupleEdge then (some e, acc.2)
  else ((below e.toNode).1.or acc.1, acc.2 && (below e.toNode).2)

/-- `canApplyRecursiveOptimization`; `depth` bounds the walk. -/
def canApplyRecursiveOptimization (g : ModelGraph) (recursiveRelation : Node)
    (userType : UserType) : ℕ → Node → Option Edge × Bool
  | 0, _ => (none, false)
  | depth + 1, node =>
    match g.getEdgesFromNode node, userType with
    | [], _ => (none, false)
    | _, .userset _ _ => (none, false)
    | edges, .type _ =>
      edges.foldl (searchEdge recursiveRelation userType
        (canApplyRecursiveOptimization g recursiveRelation userType depth)) (none, true)

/-- `CanApplyRecursion`: the recursive edge of a relation that is recursive through one edge. -/
def canApplyRecursion (g : ModelGraph) (i : NodeInfo) (userType : UserType) (newStrategy : Bool) :
    Option Edge × Bool :=
  match userType with
  | .userset _ _ => (none, false)
  | .type _ =>
    if i.recursiveRelation = some i.node ∧ i.tupleCycle = false then
      let res := canApplyRecursiveOptimization g i.node userType (g.nodes.length + 1) i.node
      (res.1, res.2 && newStrategy)
    else (none, false)

/-! ### What each function does -/

/-- `ResolveUnion` after the map of visited objects is settled. -/
def unionPlan (r : Resolver) (req : Request) (i : NodeInfo) (visited : Option ℕ) : CheckPlan :=
  let ut := req.userType
  match (canApplyRecursion r.model i ut visited.isNone).1 with
  | some e =>
    -- `ResolveRecursive`
    match flattenNode r.model ut req.isTypedWildcard e.recursiveRelation e.toNode with
    | .error _ => .ret (.error .panicRequest)
    | .ok edges =>
      .any [(none, .resolveUnionEdges req edges visited), (none, .recursiveBranch req e visited)]
  | none =>
    match flattenNode r.model ut req.isTypedWildcard none i.node with
    | .error _ => .ret (.error .panicRequest)
    | .ok edges => .any (edges.map fun e => (some (edgeCacheKey req e), .resolveEdge req e visited))

/-- `ResolveUnion` opens a map for a recursive relation or a tuple cycle. -/
def opensMap (i : NodeInfo) (visited : Option ℕ) : Bool :=
  match visited, i.node with
  | none, .specificTypeAndRelation _ _ =>
    decide (i.recursiveRelation = some i.node ∨ i.tupleCycle = true)
  | _, _ => false

/-- An edge on a cycle hands the map on. -/
def Edge.passedMap (e : Edge) (visited : Option ℕ) : Option ℕ :=
  if e.tupleCycle ∨ e.recursiveRelation ≠ none then visited else none

/-- The node is the user type of the request, a userset. -/
def Node.isUserType (n : Node) : UserType → Bool
  | .userset t relation => decide (n = .specificTypeAndRelation t relation)
  | .type _ => false

/-- `ResolveEdge`, with `specificTypeAndRelation` and `ResolveRewrite`. -/
def edgePlan (r : Resolver) (req : Request) (e : Edge) (visited : Option ℕ) : CheckPlan :=
  let visited := e.passedMap visited
  match e.edgeType with
  | .direct =>
    match e.toNode with
    | .specificType _ => .ret (specificType r req e)
    | .specificTypeWildcard _ => .ret (specificTypeWildcard r req e)
    | .specificTypeAndRelation _ _ =>
      let expandUsersets : CheckPlan :=
        .scan visited (usersetItems r req e e.relationDefinition.2 visited)
      if e.toNode.isUserType req.userType then
        match specificType r req e with
        | .error err => .ret (.error err)
        | .ok true => .ret (.ok true)
        | .ok false =>
          if e.recursiveRelation = none ∧ e.tupleCycle = false then .ret (.ok false)
          else expandUsersets
      else expandUsersets
    | _ => .ret (.error .panicRequest)
  | .directLogical => .any [(none, .resolveUnion req e.toNode visited)]
  | .ttuLogical => .any [(none, .resolveUnion req e.toNode visited)]
  | .computed => .any [(none, .resolveUnion req e.toNode visited)]
  | .ttu => ttuPlan r req e visited
  | .rewrite =>
    match e.toNode with
    | .specificTypeAndRelation _ _ => .any [(none, .resolveUnion req e.toNode visited)]
    | .operatorNode .union _ => .any [(none, .resolveUnion req e.toNode visited)]
    | .operatorNode .intersection _ => .any [(none, .resolveIntersection req e.toNode)]
    | .operatorNode .exclusion _ =>
      if req.isTypedWildcard then .ret (.error .wildcardInvalidRequest)
      else .any [(none, .resolveExclusion req e.toNode)]
    | _ => .ret (.error .panicRequest)

/-- **What each function of the resolver does.** -/
def expand (r : Resolver) : Call → CheckPlan
  | .resolveCheck req =>
    match r.model.getNodeByID (.specificTypeAndRelation req.object.type req.relation) with
    | none => .ret (.error .panicRequest)
    | some i =>
      if req.userType ∉ i.weights.map Prod.fst then .ret (.ok false)
      else if req.isTypedWildcard ∧ ∀ t ∈ i.wildcards, req.userType ≠ .type t then .ret (.ok false)
      else .any [(none, .resolveUnion req i.node none)]
  | .resolveUnion req n visited =>
    match r.model.getNodeByID n with
    | none => .ret (.error .graphError)
    | some i =>
      if opensMap i visited then
        .fresh (.userset (.userset req.object req.relation)) fun m => .resolveUnion req n (some m)
      else unionPlan r req i visited
  | .resolveUnionEdges req edges visited =>
    .any (edges.map fun e => (some (edgeCacheKey req e), .resolveEdge req e visited))
  | .recursiveBranch req e visited =>
    .any [(some (edgeCacheKey req e), .resolveRecursiveEdge req e visited)]
  | .resolveRecursiveEdge req e visited =>
    match e.edgeType, e.toNode with
    | .direct, .specificTypeAndRelation _ userRelation =>
      -- the user relation of a recursive userset is the relation itself
      .scan visited (usersetItems r req e userRelation visited)
    | .ttu, _ => ttuPlan r req e visited
    | _, _ => .ret (.error .panicRequest)
  | .resolveEdge req e visited => edgePlan r req e visited
  | .resolveIntersection req n =>
    match r.model.getEdgesFromNode n with
    | [] => .ret (.error .panicRequest)
    | edges =>
      if req.isTypedWildcard && edges.any (fun e => !e.hasWildcard req.userType) then .ret (.ok false)
      else if edges.any (fun e => (e.weight req.userType).isNone) then .ret (.error .panicRequest)
      else .every (edges.map fun e => .resolveEdge req e none)
  | .resolveExclusion req n =>
    match r.model.getEdgesFromNode n with
    | base :: sub :: _ =>
      if (base.weight req.userType).isNone then .ret (.error .panicRequest)
      else if (sub.weight req.userType).isNone && req.user.isObjectRelation then
        .ret (.error .usersetInvalidRequest)
      else .butNot (.resolveEdge req base none)
        (if (sub.weight req.userType).isNone then none else some (.resolveEdge req sub none))
    | _ => .ret (.error .panicRequest)

/-- **The plans of an edge**: an answer, a scan of usersets or of a tupleset, or one call about the
node that the edge leads to. -/
inductive EdgePlan (r : Resolver) (req : Request) (e : Edge) (visited : Option ℕ) : CheckPlan → Prop
  | ret (a : Except Err Bool) : EdgePlan r req e visited (.ret a)
  | usersets (relation : String) :
      EdgePlan r req e visited (.scan visited (usersetItems r req e relation visited))
  | ttu (tupleset subjectType computed : String) (conditions : List String) : EdgePlan r req e visited
      (.scan visited (ttuItems r req tupleset subjectType computed conditions visited))
  | union (hflat : e.canFlatten) :
      EdgePlan r req e visited (.any [(none, .resolveUnion req e.toNode visited)])
  | intersection (uid : ℕ) (hkind : e.edgeType = .rewrite)
      (hto : e.toNode = .operatorNode .intersection uid) :
      EdgePlan r req e visited (.any [(none, .resolveIntersection req e.toNode)])
  | exclusion (uid : ℕ) (hkind : e.edgeType = .rewrite)
      (hto : e.toNode = .operatorNode .exclusion uid) (hwild : req.isTypedWildcard = false) :
      EdgePlan r req e visited (.any [(none, .resolveExclusion req e.toNode)])

/-- **The plans of a call**: an answer, or the calls it starts with what is known of them. -/
inductive Expands (r : Resolver) : Call → CheckPlan → Prop
  | fails {c : Call} (e : Err) : Expands r c (.ret (.error e))
  | denied (req : Request) : Expands r (.resolveCheck req) (.ret (.ok false))
  | check (req : Request) : Expands r (.resolveCheck req)
      (.any [(none, .resolveUnion req (.specificTypeAndRelation req.object.type req.relation) none)])
  | fresh (req : Request) (n : Node) : Expands r (.resolveUnion req n none)
      (.fresh (.userset (.userset req.object req.relation)) fun m => .resolveUnion req n (some m))
  | recursion {req i visited e edges} (hi : i ∈ r.model.nodes)
      (hrec : (canApplyRecursion r.model i req.userType visited.isNone).1 = some e)
      (hflat : flattenNode r.model req.userType req.isTypedWildcard e.recursiveRelation e.toNode
        = .ok edges) : Expands r (.resolveUnion req i.node visited)
      (.any [(none, .resolveUnionEdges req edges visited), (none, .recursiveBranch req e visited)])
  | flat {req i visited edges} (hi : i ∈ r.model.nodes)
      (hflat : flattenNode r.model req.userType req.isTypedWildcard none i.node = .ok edges) :
      Expands r (.resolveUnion req i.node visited)
        (.any (edges.map fun e => (some (edgeCacheKey req e), .resolveEdge req e visited)))
  | edges (req : Request) (edges : List Edge) (visited : Option ℕ) :
      Expands r (.resolveUnionEdges req edges visited)
        (.any (edges.map fun e => (some (edgeCacheKey req e), .resolveEdge req e visited)))
  | branch (req : Request) (e : Edge) (visited : Option ℕ) :
      Expands r (.recursiveBranch req e visited)
        (.any [(some (edgeCacheKey req e), .resolveRecursiveEdge req e visited)])
  | recursiveEdge {req e visited plan} (h : EdgePlan r req e visited plan) :
      Expands r (.resolveRecursiveEdge req e visited) plan
  | edge {req e visited plan} (h : EdgePlan r req e (e.passedMap visited) plan) :
      Expands r (.resolveEdge req e visited) plan
  | deniedAll (req : Request) (n : Node) : Expands r (.resolveIntersection req n) (.ret (.ok false))
  | intersection {req n} (hleads : ∀ e ∈ r.model.getEdgesFromNode n,
        e.leadsTo req.userType req.isTypedWildcard) : Expands r (.resolveIntersection req n)
      (.every ((r.model.getEdgesFromNode n).map fun e => .resolveEdge req e none))
  | exclusion {req n base sub} (hedges : ∀ c ∈ base :: sub.toList,
      ∃ e ∈ r.model.getEdgesFromNode n, (e.weight req.userType).isSome ∧ c = .resolveEdge req e none) :
      Expands r (.resolveExclusion req n) (.butNot base sub)

section

variable (r : Resolver) (req : Request)
include r req

variable (e : Edge) (visited : Option ℕ)

theorem edgePlan_ttuPlan : EdgePlan r req e visited (ttuPlan r req e visited) := by
  unfold ttuPlan
  split
  · split
    · exact .ret _
    · exact .ttu _ _ _ _
  · exact .ret _

theorem edgePlan_cases : EdgePlan r req e (e.passedMap visited) (edgePlan r req e visited) := by
  unfold edgePlan
  simp only
  split
  · split
    · exact .ret _
    · exact .ret _
    · split
      · split
        · exact .ret _
        · exact .ret _
        · split
          · exact .ret _
          · exact .usersets _
      · exact .usersets _
    · exact .ret _
  · exact .union (by simp [Edge.canFlatten, *])
  · exact .union (by simp [Edge.canFlatten, *])
  · exact .union (by simp [Edge.canFlatten, *])
  · exact edgePlan_ttuPlan r req e _
  · split
    · exact .union (by simp [Edge.canFlatten, *])
    · exact .union (by simp [Edge.canFlatten, *])
    · exact .intersection _ ‹_› ‹_›
    · split
      · exact .ret _
      · rename_i hwild
        exact .exclusion _ ‹_› ‹_› (by simpa using hwild)
    · exact .ret _

theorem expand_resolveRecursiveEdge :
    EdgePlan r req e visited (expand r (.resolveRecursiveEdge req e visited)) := by
  unfold expand
  simp only
  split
  · exact .usersets _
  · exact edgePlan_ttuPlan r req e visited
  · exact .ret _

end

/-- **What each function of the resolver does**, case by case. -/
theorem expands (r : Resolver) (c : Call) : Expands r c (expand r c) := by
  cases c with
  | resolveCheck req =>
    simp only [expand]
    split
    · exact .fails _
    rename_i i hi
    have hnode : i.node = .specificTypeAndRelation req.object.type req.relation := by
      simpa using find?_some hi
    split
    · exact .denied req
    split
    · exact .denied req
    · rw [hnode]
      exact .check req
  | resolveUnion req n =>
    simp only [expand, unionPlan]
    split
    · exact .fails _
    rename_i i hi
    obtain rfl : i.node = n := by simpa using find?_some hi
    have hmem := mem_of_find?_eq_some hi
    split
    · rename_i hopens
      unfold opensMap at hopens
      split at hopens
      · exact .fresh req _
      · cases hopens
    split
    · split
      · exact .fails _
      · exact .recursion hmem ‹_› ‹_›
    · split
      · exact .fails _
      · exact .flat hmem ‹_›
  | resolveUnionEdges req edges visited => exact .edges req edges visited
  | recursiveBranch req e visited => exact .branch req e visited
  | resolveRecursiveEdge req e visited =>
    exact .recursiveEdge (expand_resolveRecursiveEdge r req e visited)
  | resolveEdge req e visited => exact .edge (edgePlan_cases r req e visited)
  | resolveIntersection req n =>
    simp only [expand]
    split
    · exact .fails _
    split
    · exact .deniedAll req n
    rename_i hwild
    split
    · exact .fails _
    rename_i hweight
    refine .intersection fun e he => ?_
    simp only [any_eq_true, not_exists, not_and, Bool.not_eq_true,
      Option.isNone_eq_false_iff] at hweight
    simp only [Bool.and_eq_true, any_eq_true, not_and, not_exists] at hwild
    exact Edge.leadsTo_iff.mpr ⟨Edge.weight_isSome.mp (hweight e he),
      fun hw => by simpa using hwild hw e he⟩
  | resolveExclusion =>
    simp only [expand]
    split
    · rename_i base sub rest hes
      split
      · exact .fails _
      rename_i hbase
      split
      · exact .fails _
      refine .exclusion fun c hc => ?_
      rcases mem_cons.mp hc with rfl | hc
      · exact ⟨base, by simp [hes], by simpa [Option.isSome_iff_ne_none] using hbase, rfl⟩
      · split at hc
        · cases hc
        · rename_i hsub
          exact ⟨sub, by simp [hes], by simpa [Option.isSome_iff_ne_none] using hsub,
            mem_singleton.mp hc⟩
    · exact .fails _

end Kengen
