import Kengen.ClassicExpand.Edges
import Kengen.Lib.WorklistMaps
import Kengen.Lib.Once

/-!
# Classic reverse expansion

`reverse_expand.go` without the weighted graph: which objects of a type does the user have a relation
with?  The query starts at the user and goes up: the relationship edges say to which relations the
user may lead, a read gives the tuples along an edge, and each object that is found is the userset
that the query goes on with.  An object of the target type that is found with the target relation is
sent, with a status that says whether all edges on the way were certain.

* `Query`, `Task` — a task is a call of `execute`.
* `Query.found` — `readTuplesAndExecute`: the objects along an edge.
* `Query.search` — all calls as a traversal; a userset is visited once for each edge.
* `sent` — what `trySendCandidate` sends of the candidates, in the order they come.
* `evaluate` — `ListObjectsQuery.evaluate`: the candidates that are not certain go through Check.
* `Environment.RelatedTo` — what Check means, for users of all three kinds.

The goroutines of the source may run in any order, so pending tasks are taken in any order.  No limit
is set, and no read and no condition fails.
-/

namespace Kengen

/-! ### What Check means -/

/-- A tuple assigns the user: by itself, or the wildcard of its type. -/
def User.AssignedBy (user assigned : User) : Prop :=
  assigned = user ∨ ∃ o, user = .object o ∧ assigned = .wildcard o.type

/-- One rewrite rule for `user`, given the relations `related` of the depth below. -/
def Environment.HoldsFor (env : Environment) (user : User) (related : Object → String → Prop)
    (object : Object) (relation : String) : Rewrite → Prop
  | .this => ∃ t ∈ env.passing object relation,
      user.AssignedBy t.user ∨ ∃ o r, t.user = .userset o r ∧ related o r
  | .computedUserset r => related object r
  | .tupleToUserset tupleset computed =>
      ∃ t ∈ env.passing object tupleset, related t.user.splitObject computed
  | .union child => ∃ i, env.HoldsFor user related object relation (child i)
  | .intersection (n := n) child =>
      0 < n ∧ ∀ i, env.HoldsFor user related object relation (child i)
  | .difference base subtract =>
      env.HoldsFor user related object relation base
        ∧ ¬ env.HoldsFor user related object relation subtract

/-- Check with a limited depth.  A userset has its own relation. -/
def Environment.checkFor (env : Environment) (user : User) : ℕ → Object → String → Prop
  | 0, _, _ => False
  | depth + 1, object, relation =>
    match env.typesystem.getRelation object.type relation with
    | .error _ => False
    | .ok r => user = .userset object relation
        ∨ env.HoldsFor user (env.checkFor user depth) object relation r.rewrite

/-- **The semantics of Check** for a user of any kind: the answer of every large enough depth. -/
def Environment.RelatedTo (env : Environment) (user : User) (object : Object) (relation : String) :
    Prop :=
  ∃ depth, ∀ deeper, depth ≤ deeper → env.checkFor user deeper object relation

namespace ClassicExpand

/-! ### Requests -/

/-- A query: the target relation and the user, in an environment. -/
structure Query where
  env : Environment
  user : User
  objectType : String
  relation : String
  involves : String → String → Bool

inductive ConditionalResultStatus where
  | requiresFurtherEval
  | noFurtherEval
deriving DecidableEq, Repr

/-- A call of `execute`: the user of the request, the edge it was found along, and whether an edge
on the way was marked. -/
structure Task where
  user : User
  edge : Option RelationshipEdge
  intersectionOrExclusionInPreviousEdges : Bool
deriving DecidableEq, Repr

/-- The key of a userset and an edge (`visitedUsersetsMap`). -/
abbrev Key := Object × RelationshipEdgeType × RelationKey × String

namespace Query

variable (q : Query)

def target : RelationKey := (q.objectType, q.relation)

/-- `sourceUserRef`. -/
def source (user : User) : Source := ⟨q.env.typesystem, user.objectType, user.facet, q.involves⟩

/-! ### Reads -/

/-- `ReadStartingWithUser`: the objects of the valid tuples, with their condition met, that assign
one of the users. -/
def readStartingWithUser (objectType relation : String) (users : List User) : List Object :=
  (q.env.store.tuples.filter fun t =>
    decide (t.object.type = objectType ∧ t ∈ q.env.passing t.object relation ∧ t.user ∈ users)).map
      TupleKey.object

/-- `IsPubliclyAssignable`. -/
def isPubliclyAssignable (k : RelationKey) (type : String) : Bool :=
  (directlyRelatedUserTypes q.env.typesystem k).any fun ref =>
    decide (ref.type = type ∧ ref.relationOrWildcard = .wildcard)

/-- The user filter of a direct edge. -/
def userFilter (user : User) (e : RelationshipEdge) : List User :=
  match user with
  | .userset o r => [.userset o r]
  | .object o => (if q.isPubliclyAssignable e.targetReference o.type then [.wildcard o.type] else [])
      ++ [.object o]
  | .wildcard type => if q.isPubliclyAssignable e.targetReference type then [.wildcard type] else []

/-- The objects along an edge (`readTuplesAndExecute`).  Computed usersets and tuplesets have a
userset as their source; for other users there are no such edges. -/
def found (user : User) (e : RelationshipEdge) : List Object :=
  match e.type, user with
  | .direct, user =>
    q.readStartingWithUser e.targetReference.1 e.targetReference.2 (q.userFilter user e)
  | .computedUserset, .userset o _ => [o]
  | .tupleToUserset, .userset o _ =>
    q.readStartingWithUser e.targetReference.1 e.tuplesetRelation [.object o]
  | _, _ => []

/-! ### The traversal -/

variable (t : Task)

/-- The calls along an edge. -/
def along (e : RelationshipEdge) : List Task :=
  (q.found t.user e).map fun o => ⟨.userset o e.targetReference.2, some e,
    t.intersectionOrExclusionInPreviousEdges || e.targetReferenceInvolvesIntersectionOrExclusion⟩

/-- The calls of a call; `none` is an error. -/
def children : Option (List Task) :=
  match getPrunedRelationshipEdges (q.source t.user) q.target with
  | .error _ => none
  | .ok es => some (es.flatMap (q.along t))

def key : Option Key :=
  match t.user, t.edge with
  | .userset o _, some e => some (o, e.string)
  | _, _ => none

def status (flagged : Bool) : ConditionalResultStatus :=
  if flagged then .requiresFurtherEval else .noFurtherEval

/-- The candidate of a call: a userset of the target. -/
def results : List (Object × ConditionalResultStatus) :=
  match t.user with
  | .userset o r => if r = q.relation ∧ o.type = q.objectType then
      [(o, status t.intersectionOrExclusionInPreviousEdges)] else []
  | _ => []

/-- `execute` with everything it starts, on one map of visited usersets. -/
def search : Worklist.Search Task Key (Object × ConditionalResultStatus) where
  key := key
  children := q.children
  results := q.results

/-- The first call of `execute`. -/
def start : List Task := [⟨q.user, none, false⟩]

/-- The runs of the query: the scheduler takes pending tasks by their position. -/
def run (choices : List ℕ) :
    Option (Worklist.State Task Key (Object × ConditionalResultStatus)) :=
  Runs.run q.search.step (Worklist.Search.init q.start) choices

end Query

/-- What `trySendCandidate` has sent: the first candidate of each object. -/
def sent (s : Worklist.State Task Key (Object × ConditionalResultStatus)) :
    List (Object × ConditionalResultStatus) :=
  (Once.offerAll Prod.fst s.emitted).sent

/-- `ListObjectsQuery.evaluate`: candidates that are not certain go through Check. -/
def evaluate (check : Object → Bool) (sent : List (Object × ConditionalResultStatus)) :
    List Object :=
  (sent.filter fun r => decide (r.2 = .noFurtherEval) || check r.1).map Prod.fst

end ClassicExpand

end Kengen
