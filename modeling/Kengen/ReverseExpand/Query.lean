import Kengen.Lib.Worklist
import Kengen.Model.Graph
import Kengen.Typesystem.Rewrites

/-!
# Reverse expansion over the weighted graph

`reverse_expand_weighted.go`: which objects of a type does the user have a relation
with?  The query walks the weighted graph from the target relation down to the
edges that assign the user, and remembers on a stack the relations it came
through.  At such an edge it reads the tuples of the user and climbs the stack
back: each object found is looked up as the user of the next relation.

Intersections and exclusions are not expanded on all sides.  One edge gives
candidates, and a candidate that passes Check on the other edges goes on.  Its
expansion runs on a stack with the top entry only; the rest of the stack is
climbed after Check.  Such a pending Check is a `Frame` here, and an expansion
inside an expansion has a list of them.

* `Query`, `Entry`, `Frame`, `Task` — a task is one edge in the loop of `loopOverEdges`,
  with its request.
* `Query.constructUserset` — the rewrite rule that Check is called with.
* `Query.intersectionHandler`, `Query.exclusionHandler`, `Query.expandEdge` — the tasks
  that a task leads to.
* `Query.results` — `queryForTuples`: what a task at the end of a path sends.
* `Query.search` — all of it as a traversal whose tasks share one map of visited keys.

The goroutines of the source may run in any order, so a pending task is taken in any
order.  No limit is set, no read and no condition fails, and Check answers.  The
source sends an object once on each channel; here it may stand in the output
several times.
-/

namespace Kengen.ReverseExpand

/-! ### Requests -/

/-- `weightedGraph.Infinite`: the weight of a relation on a cycle. -/
def infinite : ℕ := 2147483647

/-- The user of a query.  A query for a userset does not use the weighted graph. -/
inductive UserRef where
  | object (o : Object)
  | typedWildcard (type : String)
deriving DecidableEq, Repr

/-- `sourceUserType`. -/
def UserRef.type : UserRef → String
  | .object o => o.type
  | .typedWildcard t => t

/-- A query: the target relation and the user, in an environment.  `check` is
`CheckRewrite` of the local checker for this user. -/
structure Query where
  graph : ModelGraph
  env : Environment
  user : UserRef
  objectType : String
  relation : String
  check : Rewrite → String → Object → Bool

/-- One step of the path from the target (`typeRelEntry`). -/
structure Entry where
  type : String
  relation : String
  usersetRelation : String := ""
deriving DecidableEq, Repr

/-- Candidates have to pass a Check of these edges and then climb the stack
(`checkCandidateInfo`). -/
structure Frame where
  edges : List Edge
  relation : String
  isAllowed : Bool
  relationStack : List Entry
deriving DecidableEq, Repr

/-- One edge of `loopOverEdges`, with the stack of its request and the Checks that its
results go through. -/
structure Task where
  edge : Edge
  relationStack : List Entry
  frames : List Frame
deriving DecidableEq, Repr

namespace Query

variable (q : Query)

def userType : UserType := .type q.user.type

/-! ### The graph as the type system offers it -/

/-- `hasPathTo` of an edge. -/
def hasPathTo (e : Edge) : Bool := (e.weight q.userType).isSome

/-- `GetWeight` of a node. -/
def nodeWeight (i : NodeInfo) : Option ℕ :=
  (i.weights.find? fun w => decide (w.1 = q.userType)).map Prod.snd

/-- `TypeSystem.GetEdgesFromNode`: no edges for a node that does not lead to the user
type, an error for a node without edges. -/
def getEdgesFromNode (n : Node) : Option (List Edge) :=
  match q.graph.getNodeByID n with
  | none => none
  | some i =>
    if (q.nodeWeight i).isNone then some []
    else match q.graph.getEdgesFromNode n with
      | [] => none
      | e :: es => some (e :: es)

/-- `GetConnectedEdges`. -/
def getConnectedEdges (n : Node) : Option (List Edge) :=
  (q.getEdgesFromNode n).map fun es => es.filter q.hasPathTo

/-- `GetInternalEdges`: the edges of a logical grouping, or the edge itself. -/
def getInternalEdges (e : Edge) : Option (List Edge) :=
  match e.edgeType with
  | .directLogical => q.getConnectedEdges e.toNode
  | .ttuLogical => q.getConnectedEdges e.toNode
  | _ => some [e]

/-! ### The edge that gives candidates -/

structure IntersectionEdges where
  lowestWeight : ℕ
  lowestEdge : Option Edge
  siblingEdges : List Edge

/-- One round of the loop in `GetEdgesForIntersection`; a missing weight counts as 0. -/
def lowestStep (found : IntersectionEdges) (e : Edge) : IntersectionEdges :=
  if (e.weight q.userType).getD 0 < found.lowestWeight then
    ⟨(e.weight q.userType).getD 0, some e, found.siblingEdges ++ found.lowestEdge.toList⟩
  else { found with siblingEdges := found.siblingEdges ++ [e] }

variable (edges : List Edge)

/-- `GetEdgesForIntersection`. -/
def getEdgesForIntersection : Option IntersectionEdges :=
  if edges.length < 2 then none
  else some (edges.foldl q.lowestStep ⟨infinite, none, []⟩)

/-- `GetEdgesForExclusion`: the base, and the excluded edge if it leads to the user type. -/
def getEdgesForExclusion : Option (Edge × Option Edge) :=
  match edges with
  | [base, excluded] =>
    if q.hasPathTo base then
      some (base, if q.hasPathTo excluded then some excluded else none)
    else none
  | _ => none

/-! ### The rule that is checked -/

/-- All results of a fallible function, or none. -/
def all {α β : Type} (f : α → Option β) : List α → Option (List β)
  | [] => some []
  | x :: xs =>
    match f x with
    | none => none
    | some y => (all f xs).map (y :: ·)

/-- `SplitObjectRelation` of a node's label. -/
def typeRel : Node → String × String
  | .specificTypeAndRelation t relation => (t, relation)
  | .specificType t => (t, "")
  | .specificTypeWildcard t => (t ++ ":*", "")
  | _ => ("", "")

/-- `ConstructUserset`, with a bound on the depth.  A union or an intersection needs
the rules of all its edges, also of those that do not lead to the user type. -/
def constructUserset : ℕ → Edge → Option Rewrite
  | 0, _ => none
  | depth + 1, e =>
    match e.toNode with
    | .specificType _ => some .this
    | .specificTypeWildcard _ => some .this
    | .logicalDirectGrouping _ => some .this
    | .logicalTTUGrouping uid =>
      match q.getEdgesFromNode (.logicalTTUGrouping uid) with
      | some (first :: _) => constructUserset depth first
      | _ => none
    | .specificTypeAndRelation _ relation =>
      match e.edgeType with
      | .direct => some .this
      | .rewrite => some (.computedUserset relation)
      | .computed => some (.computedUserset relation)
      | .ttu => some (.tupleToUserset e.tuplesetRelation.2 relation)
      | _ => none
    | .operatorNode .exclusion uid =>
      match q.getEdgesForExclusion (q.graph.getEdgesFromNode (.operatorNode .exclusion uid)) with
      | none => none
      | some (base, none) => constructUserset depth base
      | some (base, some excluded) =>
        match constructUserset depth base, constructUserset depth excluded with
        | some b, some s => some (.difference b s)
        | _, _ => none
    | .operatorNode .intersection uid =>
      if (q.graph.getEdgesFromNode (.operatorNode .intersection uid)).length < 2 then none
      else (all (constructUserset depth)
        (q.graph.getEdgesFromNode (.operatorNode .intersection uid))).map fun us =>
          .intersection us.get
    | .operatorNode .union uid =>
      if (q.graph.getEdgesFromNode (.operatorNode .union uid)).length < 2 then none
      else (all (constructUserset depth)
        (q.graph.getEdgesFromNode (.operatorNode .union uid))).map fun us => .union us.get

/-- Rules of operands are nested no deeper than there are edges. -/
def maxDepth : ℕ := q.graph.edges.length + 2

/-- The rule of one or several edges. -/
def userset : Option Rewrite :=
  match all (q.constructUserset q.maxDepth) edges with
  | none => none
  | some [] => none
  | some [u] => some u
  | some us => some (.intersection us.get)

/-! ### Steps down the graph -/

/-- The tasks of the next `loopOverEdges` over the edges of a node; an error of
`GetConnectedEdges` is ignored. -/
def dispatch (n : Node) (relationStack : List Entry) (frames : List Frame) : List Task :=
  ((q.getConnectedEdges n).getD []).map fun e => ⟨e, relationStack, frames⟩

/-- The entry of a node on the stack. -/
def entry (n : Node) : Entry := ⟨(typeRel n).1, (typeRel n).2, ""⟩

variable (t : Task)

/-- `findCandidatesForLowestWeightEdge`: expand one edge on the top of the stack. -/
def findCandidates (e : Edge) (checked : List Edge) (relation : String)
    (isAllowed : Bool) : Option (List Task) :=
  (q.getInternalEdges e).map fun es => es.map fun e' =>
    ⟨e', t.relationStack.take 1, ⟨checked, relation, isAllowed, t.relationStack.drop 1⟩ :: t.frames⟩

/-- `intersectionHandler`. -/
def intersectionHandler (n : Node) : Option (List Task) :=
  match (q.getEdgesFromNode n).bind q.getEdgesForIntersection with
  | none => none
  | some found =>
    match found.lowestEdge, found.siblingEdges with
    | some lowest, sibling :: siblings =>
      if (q.userset (sibling :: siblings)).isSome
          ∧ ∀ e ∈ siblings, e.relationDefinition.2 = sibling.relationDefinition.2 then
        q.findCandidates t lowest (sibling :: siblings) sibling.relationDefinition.2 true
      else none
    | _, _ => none

/-- `exclusionHandler`. -/
def exclusionHandler (n : Node) : Option (List Task) :=
  match (q.getEdgesFromNode n).bind q.getEdgesForExclusion with
  | none => none
  | some (base, none) =>
    (q.getInternalEdges base).map fun es => es.map fun e => ⟨e, t.relationStack, t.frames⟩
  | some (base, some excluded) =>
    if (q.userset [excluded]).isSome then
      q.findCandidates t base [excluded] excluded.relationDefinition.2 false
    else none

/-- Replace the top of the stack by the node of the edge, and go on there. -/
def replaceTop : Option (List Task) :=
  match t.relationStack with
  | [] => none
  | _ :: rest => some (q.dispatch t.edge.toNode (entry t.edge.toNode :: rest) t.frames)

/-- One edge of `loopOverEdges`; `none` is an error. -/
def expandEdge : Option (List Task) :=
  match t.edge.edgeType with
  | .direct =>
    match t.relationStack with
    | [] => none
    | top :: rest =>
      match t.edge.toNode with
      | .specificTypeAndRelation type relation =>
        some (q.dispatch (.specificTypeAndRelation type relation)
          (⟨type, relation, ""⟩ :: { top with usersetRelation := relation } :: rest) t.frames)
      | _ => some []
  | .computed =>
    match t.edge.toNode with
    | .operatorNode op uid => some (q.dispatch (.operatorNode op uid) t.relationStack t.frames)
    | _ => q.replaceTop t
  | .ttu =>
    match t.relationStack with
    | [] => none
    | _ :: rest => some (q.dispatch t.edge.toNode (entry t.edge.toNode
        :: ⟨t.edge.tuplesetRelation.1, t.edge.tuplesetRelation.2, ""⟩ :: rest) t.frames)
  | .rewrite =>
    match t.edge.toNode with
    | .operatorNode .intersection uid =>
      q.intersectionHandler t (.operatorNode .intersection uid)
    | .operatorNode .exclusion uid => q.exclusionHandler t (.operatorNode .exclusion uid)
    | .operatorNode .union uid =>
      some (q.dispatch (.operatorNode .union uid) t.relationStack t.frames)
    | _ => q.replaceTop t
  | .directLogical => some (q.dispatch t.edge.toNode t.relationStack t.frames)
  | .ttuLogical => some (q.dispatch t.edge.toNode t.relationStack t.frames)

/-! ### Steps up the tuples -/

/-- `buildFilteredIterator`: the objects of the valid tuples, with their condition met,
that assign one of the users. -/
def readStartingWithUser (objectType relation : String) (users : List User) : List Object :=
  (q.env.store.tuples.filter fun t =>
    decide (t.object.type = objectType ∧ t ∈ q.env.passing t.object relation ∧ t.user ∈ users)).map
      TupleKey.object

/-- `buildUserFilter` with an object that was found. -/
def foundFilter (e : Entry) (found : Object) : User :=
  if e.usersetRelation = "" then .object found else .userset found e.usersetRelation

/-- `queryForTuples` with an object that was found: climb the stack. -/
def climb : List Entry → Object → List Object
  | [], o => [o]
  | e :: rest, o =>
    (q.readStartingWithUser e.type e.relation [foundFilter e o]).flatMap (climb rest)

/-- `callCheckForCandidate`: the answer of Check is the one that is wanted. -/
def passes (f : Frame) (o : Object) : Bool :=
  match q.userset f.edges with
  | none => false
  | some u => q.check u f.relation o == f.isAllowed

/-- What becomes of a candidate: a Check and a climb for each frame. -/
def deliver : List Frame → Object → List Object
  | [], o => [o]
  | f :: frames, o =>
    if q.passes f o then (q.climb f.relationStack o).flatMap (deliver frames) else []

/-- `buildUserFilter` at the end of a path. -/
def leafFilter : Node → List User
  | .specificType t =>
    match q.user with
    | .object o => [.object ⟨t, o.id⟩]
    | .typedWildcard _ => []
  | .specificTypeWildcard t => [.wildcard t]
  | _ => []

/-- `queryForTuples` at the end of a path. -/
def results : List Object :=
  match t.edge.edgeType, t.relationStack with
  | .direct, top :: rest =>
    (q.readStartingWithUser top.type top.relation (q.leafFilter t.edge.toNode)).flatMap fun o =>
      (q.climb rest o).flatMap (q.deliver t.frames)
  | _, _ => []

/-! ### The traversal -/

/-- `GetUniqueLabel`. -/
def uniqueLabel : Node → String
  | .specificType t => t
  | .specificTypeWildcard t => t ++ ":*"
  | .specificTypeAndRelation t relation => t ++ "#" ++ relation
  | .operatorNode .union uid => "union:" ++ toString uid
  | .operatorNode .intersection uid => "intersection:" ++ toString uid
  | .operatorNode .exclusion uid => "exclusion:" ++ toString uid
  | .logicalDirectGrouping uid => "direct:" ++ toString uid
  | .logicalTTUGrouping uid => "ttu:" ++ toString uid

/-- A relation of a type as a string. -/
def relationString (r : String × String) : String :=
  if r.2 = "" then r.1 else r.1 ++ "#" ++ r.2

/-- `stack.String`, top first. -/
def stackString : List Entry → String
  | [] => ""
  | e :: rest =>
    "\x7b" ++ relationString (e.type, e.relation) ++ " " ++ e.usersetRelation ++ "\x7d"
      ++ stackString rest

/-- The key in the map of visited usersets: the edge's ends, its tupleset and the stack.
Neither the kind of the edge nor the Checks that are pending are part of it. -/
def key : Option String :=
  match t.edge.toNode with
  | .specificTypeAndRelation _ _ =>
    some (uniqueLabel t.edge.fromNode ++ uniqueLabel t.edge.toNode
      ++ relationString t.edge.tuplesetRelation ++ stackString t.relationStack)
  | _ => none

/-- `loopOverEdges` with everything it starts, on one map of visited usersets. -/
def search : Worklist.Search Task String Object where
  key := key
  children := q.expandEdge
  results := q.results

/-- The node of the target relation. -/
def target : Node := .specificTypeAndRelation q.objectType q.relation

/-- The weighted graph is used: the target is a node of it and not on a cycle. -/
def usesWeightedGraph : Bool :=
  match q.graph.getNodeByID q.target with
  | none => false
  | some i => decide (q.nodeWeight i ≠ some infinite)

/-- The first call of `execute`. -/
def start : List Task := q.dispatch q.target [⟨q.objectType, q.relation, ""⟩] []

/-- The runs of the query: the scheduler takes pending tasks by their position. -/
def run (choices : List ℕ) : Option (Worklist.State Task String Object) :=
  Runs.run q.search.step (Worklist.Search.init q.start) choices

end Query

end Kengen.ReverseExpand
