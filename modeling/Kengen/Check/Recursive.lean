import Kengen.Lib.PoolAnswers
import Kengen.Lib.PoolProgress
import Kengen.Check.LeastModel

/-!
# The recursive strategy

`Recursive.Userset` and `Recursive.TTU` (`recursive.go`) answer a relation that
refers to itself through one edge.  The left side is the bottom-up evaluation of
the relation without that edge: the objects that have the user directly.  The
right side are the objects that the request's object leads to.  Both are loaded
side by side; if they do not meet, `recursiveMatch` searches on from the right
side with a pool of goroutines, which is an instance of `PoolSearch`.

* `buildTupleMapperForID` — what the iterator of one object goes through.
* `rightIter` — the iterator of the first level, which the resolver builds.
* `Recursive.step` — one step of `execute`, of `recursiveMatch` or of one of its goroutines.

An id is the user of a tuple in the form in which the strategy compares it: an
object for a userset, the user itself for a tuple of a tupleset.
-/

namespace Kengen

open PoolSearch

/-- `RecursiveType`. -/
inductive RecursiveType where
  | userset
  | ttu
deriving DecidableEq, Repr

/-- `MapUserset` and `MapTTU`. -/
def RecursiveType.mapTuple : RecursiveType → TupleKey → User
  | .userset, t => .object t.user.split.1
  | .ttu, t => t.user

/-- `usersetDedupKey` and `ttuDedupKey`. -/
def RecursiveType.dedupKey (e : Edge) : RecursiveType → TupleKey → VisitedKey
  | .userset, t => .userset t.user
  | .ttu, t =>
    match e.toNode with
    | .specificTypeAndRelation _ computedRelation =>
      .ttu t.user e.tuplesetRelation.2 computedRelation
    | _ => .userset t.user

/-- The type of a recursive edge, and the edge with its tuples. -/
def recursiveEdge (g : ModelGraph) (e : Edge) : Option (RecursiveType × Edge) :=
  match e.edgeType, e.toNode with
  | .direct, .specificTypeAndRelation _ _ => some (.userset, e)
  | .ttu, .specificTypeAndRelation subjectType _ =>
    (g.getDirectEdgeFromNodeForUserType e.tuplesetRelation subjectType).map fun edge => (.ttu, edge)
  | _, _ => none

variable (r : Resolver) (req : Request)

/-- The tuples of an object that a recursive edge goes through: contextual ones, then stored ones. -/
def recursiveTuples (kind : RecursiveType) (edge : Edge) :
    List TupleKey :=
  match kind, edge.fromNode, edge.toNode with
  -- the relation of a recursive userset is the one that it leads to
  | .userset, _, .specificTypeAndRelation _ userRelation => usersetTuples r req edge userRelation
  | .ttu, .specificTypeAndRelation _ relation, .specificType subjectType =>
    ttuTuples r req relation subjectType edge.conditions
  | _, _, _ => []

/-- `buildTupleMapperForID`, before its filters: the ids and the outcome of the condition. -/
def buildTupleMapperForID (kind : RecursiveType) (edge : Edge) :
    User → List (User × Except Err Bool)
  | .object o =>
    (recursiveTuples r (req.cloneWithTupleKey o req.relation) kind edge).map fun t =>
      (kind.mapTuple t, tupleCondition r req edge.conditions t)
  | _ => []

/-- `BuildUniqueTupleKeyFilter`: an entry passes if its key is not in the map, which it then is. -/
def uniqueEntries {α : Type} (visited : List VisitedKey) : List (VisitedKey × α) → List α
  | [] => []
  | (key, entry) :: rest =>
    if key ∈ visited then uniqueEntries visited rest
    else entry :: uniqueEntries (key :: visited) rest

/-- The iterator that `resolveRecursiveUserset` and `resolveRecursiveTTU` build: the request itself
is in the map of visited usersets, and keys are marked before conditions are evaluated. -/
def rightIter (e : Edge) : Trace User :=
  match recursiveEdge r.model e with
  | none => []
  | some (kind, edge) =>
    let entries := (recursiveTuples r req kind edge).map fun t =>
      (kind.dedupKey e t, kind.mapTuple t, tupleCondition r req edge.conditions t)
    let unique := uniqueEntries [.userset (.userset req.object req.relation)] entries
    (filterTrace (fun p => p.2) none false (okTrace unique)).map (Except.map Prod.fst)

/-! ### `execute` and `recursiveMatch` -/

namespace Recursive

/-- The loading of the two sides; a channel that was closed is `none`. -/
structure Bootstrap where
  left : Option (List (Msg String))
  right : Option (Trace User)
  idsFromUser : List String := []
  idsFromObject : List User := []
  err : Option Err := none

/-- The state of the strategy. -/
inductive State where
  | bootstrap (b : Bootstrap)
  | matching (b : Bootstrap) (s : PoolSearch.State User Err)
  | returned (res : Except Err Bool)

/-- The choices: which channel is ready, in which order a map is gone through, which goroutine
moves, and whether the caller gives up. -/
inductive Choice where
  | left
  | right
  | startMatch (order : List User)
  | search (c : PoolSearch.Choice)
  | cancel
deriving DecidableEq

/-- A refusal with the error met on the way. -/
def refuse : Option Err → Except Err Bool
  | none => .ok false
  | some e => .error e

/-- The values of one iterator of the left side, until one is known from the right side. -/
def drainLeft (b : Bootstrap) : Trace String → Option Bootstrap
  | [] => some b
  | .error e :: _ => some (if e.isCancelled then b else { b with err := some e })
  | .ok t :: rest =>
    if t ∈ b.idsFromObject.map User.str then none
    else drainLeft { b with idsFromUser := t :: b.idsFromUser } rest

variable (b : Bootstrap)

/-- A message of the left side, or its end. -/
def takeLeft : List (Msg String) → State
  | [] =>
    if b.idsFromUser = [] then .returned (refuse b.err) else .bootstrap { b with left := none }
  | .err e :: rest =>
    if b.idsFromUser = [] then .returned (.error e)
    else .bootstrap { b with left := some rest, err := some e }
  | .iter t :: rest =>
    match drainLeft { b with left := some rest } t with
    | none => .returned (.ok true)
    | some b => .bootstrap b

/-- A message of the right side, or its end. -/
def takeRight : Trace User → State
  | [] =>
    if b.idsFromObject = [] then .returned (refuse b.err) else .bootstrap { b with right := none }
  | .error e :: rest => .bootstrap { b with right := some rest, err := some e }
  | .ok v :: rest =>
    if v.str ∈ b.idsFromUser then .returned (.ok true)
    else .bootstrap { b with right := some rest, idsFromObject := v :: b.idsFromObject }

/-- The search of `recursiveMatch`. -/
def searchFor (limit : ℕ) (kind : RecursiveType) (edge : Edge)
    (idsFromUser : List String) : Search User Err where
  read := buildTupleMapperForID r req kind edge
  target := fun u => decide (u.str ∈ idsFromUser)
  quiet := Err.isCancelled
  limit := limit

/-- What `execute` makes of the result of `recursiveMatch`. -/
def finish (err : Option Err) : Except Err Bool → Except Err Bool
  | .error e => .error e
  | .ok true => .ok true
  | .ok false => refuse err

/-- `execute` returns as soon as `recursiveMatch` does. -/
def searched (s : PoolSearch.State User Err) : State :=
  match s.result with
  | none => .matching b s
  | some res => .returned (finish b.err res)

/-- **One step of the strategy.** -/
def step (limit : ℕ) (e : Edge) : State → Choice → Option State
  | .bootstrap b, .left => b.left.map (takeLeft b)
  | .bootstrap b, .right => b.right.map (takeRight b)
  | .bootstrap b, .startMatch order =>
    if b.left.isNone ∧ b.right.isNone ∧ order.Perm b.idsFromObject.dedup then
      match recursiveEdge r.model e with
      | none => some (.returned (.error .panicRequest))
      | some _ => some (.matching b { pending := order })
    else none
  | .matching b s, .search c =>
    (recursiveEdge r.model e).bind fun p =>
      (PoolSearch.step (searchFor r req limit p.1 p.2 b.idsFromUser) s c).map (searched b)
  | .bootstrap _, .cancel => some (.returned (.error .canceled))
  | .matching _ _, .cancel => some (.returned (.error .canceled))
  | _, _ => none

/-- `Recursive.Userset` and `Recursive.TTU` up to `execute`; `fuel` bounds the depth of the
bottom-up evaluation. -/
def start (e : Edge) (fuel : ℕ) : State :=
  match e.toNode with
  | .specificTypeAndRelation objectType relation =>
    match resolveRewrite r .recursive (req.cloneWithTupleKey ⟨objectType, "ignore"⟩ relation) fuel
        e.toNode with
    | .error err => .returned (.error err)
    | .ok left => .bootstrap { left := some left, right := some (untilCancelled (rightIter r req e)) }
  | _ => .returned (.error .panicRequest)

/-- The values of an iterator before its first error. -/
def valuesBefore {α : Type} : Trace α → List α
  | [] => []
  | .error _ :: _ => []
  | .ok x :: rest => x :: valuesBefore rest

/-- The ids that messages bring. -/
def messageIds : List (Msg String) → List String
  | [] => []
  | .err _ :: rest => messageIds rest
  | .iter t :: rest => valuesBefore t ++ messageIds rest

/-- The ids that the left side produces. -/
def leftIds (e : Edge) (fuel : ℕ) : List String :=
  match start r req e fuel with
  | .bootstrap b => messageIds (b.left.getD [])
  | _ => []

/-- The left side, read as one iterator. -/
def State.leftTrace : State → Option (Trace String)
  | .bootstrap b => some (fromChannel (b.left.getD []))
  | _ => none

/-- In a search, an entry with a true condition is passed over only if its object has been taken
up. -/
def Settled : State → Choice → Prop
  | .matching _ s, .search c => PoolSearch.Settled s c
  | _, _ => True

instance (s : State) (c : Choice) : Decidable (Settled s c) := by
  unfold Settled
  split <;> infer_instance

/-- The search is jammed. -/
def Jammed (limit : ℕ) (e : Edge) : State → Prop
  | .matching b s => ∀ p ∈ recursiveEdge r.model e,
    PoolSearch.Jammed (searchFor r req limit p.1 p.2 b.idsFromUser) s
  | _ => False

end Recursive

end Kengen
