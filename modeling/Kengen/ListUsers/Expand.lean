import Kengen.Lib.Channels
import Kengen.ClassicExpand.Edges

/-!
# ListUsers: the expansion of a userset into found users

`ListUsers` expands the requested userset into a stream of messages.  A message
says of one user that it has the relation, or that it explicitly does not have
it, and may carry a list of excluded users; every set operator reads the
messages of its operands and sends its own.

The model has two parts.

* `expand` walks the model and the tuples, with the depth limit and the path of
  visited usersets of the source, and builds the `Expansion` of the request: the
  tree of reads, dispatches and set operators that the goroutines work on.
  Which reads and dispatches are made does not depend on the schedule.
* `Expansion.Sends` says which message lists an expansion may send.  Senders on
  one channel are merged in any order, and a Go map is iterated in any order, so
  one expansion has many message lists.

A request has one user filter.  A found user is an object of the filter's type,
the wildcard of that type, or a userset: `UserKey` has just these, so a key of
another type cannot be built.

Sends go through `TrySendThroughChannel`, which may drop a message once the
context is done.  `Loss` says where messages may be lost: nowhere, outside the
operands of intersections and exclusions, or anywhere.  A read that stops early
is the loss of all it would still have sent.

A request whose filter no path of the model leads to is answered with no users
before anything is expanded (`doesHavePossibleEdges`).  Throttling and the result
limit are not modelled.
-/

namespace Kengen.ListUsers

open Channels

/-! ### Messages -/

/-- The key of a found user, relative to the type of the user filter. -/
inductive UserKey where
  | user (id : String)
  | wildcard
  | userset (object : Object) (relation : String)
deriving DecidableEq, Repr

/-- `userRelationshipStatus`. -/
inductive RelationshipStatus where
  | hasRelationship
  | noRelationship
deriving DecidableEq, Repr

/-- `foundUser`. -/
structure FoundUser where
  user : UserKey
  excludedUsers : List UserKey := []
  relationshipStatus : RelationshipStatus := .hasRelationship
deriving DecidableEq, Repr

variable (messages : List FoundUser) (key : UserKey)

/-- The map `key ↦ foundUser` filled from a channel. -/
def foundUsersMap : Option FoundUser :=
  latest FoundUser.user messages key

/-- The key was sent with the status `HasRelationship`. -/
def Has : Prop :=
  ∃ m ∈ messages, m.user = key ∧ m.relationshipStatus = .hasRelationship

/-- The key was sent with the status `NoRelationship`. -/
def HasNot : Prop :=
  ∃ m ∈ messages, m.user = key ∧ m.relationshipStatus = .noRelationship

/-- The key is in the list of excluded users of some message. -/
def Excluded : Prop :=
  ∃ m ∈ messages, key ∈ m.excludedUsers

instance : Decidable (Has messages key) :=
  inferInstanceAs (Decidable (∃ m ∈ messages, _))

instance : Decidable (HasNot messages key) :=
  inferInstanceAs (Decidable (∃ m ∈ messages, _))

instance : Decidable (Excluded messages key) :=
  inferInstanceAs (Decidable (∃ m ∈ messages, _))

/-! ### The set operators on messages -/

section Operators

variable {n : ℕ}

variable (outs : Fin n → List FoundUser)

/-- How often a key stands in the excluded users of all the messages. -/
def excludedUsersCount (key : UserKey) : ℕ :=
  ((List.finRange n).map fun i =>
    ((outs i).map fun m => m.excludedUsers.count key).sum).sum

/-- `expandUnion`: every key some operand found, with the users whose exclusions
were counted once for each operand.  `keys` and `excludedUsers` are the orders
in which the maps are iterated. -/
def UnionSends (sent : List FoundUser) : Prop :=
  ∃ keys excludedUsers, Enumerates keys (fun k => ∃ i, Has (outs i) k)
    ∧ Enumerates excludedUsers
        (fun k => 0 < excludedUsersCount outs k ∧ excludedUsersCount outs k = n)
    ∧ sent = keys.map fun k => { user := k, excludedUsers := excludedUsers }

/-- The operands that found the wildcard. -/
def wildcardCount : ℕ :=
  (List.finRange n).countP fun i => decide (Has (outs i) .wildcard)

/-- The operands that found the key but not the wildcard. -/
def foundUsersCount (key : UserKey) : ℕ :=
  (List.finRange n).countP fun i =>
    decide (Has (outs i) key ∧ ¬ Has (outs i) .wildcard)

/-- `expandIntersection`: the keys that every operand found, itself or by the
wildcard, unless some operand excluded them. -/
def IntersectionSends (sent : List FoundUser) : Prop :=
  ∃ keys excludedUsers, Enumerates keys (fun k => ∃ i, Has (outs i) k)
    ∧ Enumerates excludedUsers (fun k => ∃ i, Excluded (outs i) k)
    ∧ sent = (keys.filter fun k => decide (k ∉ excludedUsers
        ∧ foundUsersCount outs k + wildcardCount outs = n)).map
        fun k => { user := k, excludedUsers := excludedUsers }

/-- One round of the inner loop of `expandExclusion` over the subtract side, when
the base has the wildcard: `userKey` is the base's user of this round. -/
def subtractedSends (subtract : UserKey → Option FoundUser) (userKey subtractedUserKey : UserKey) :
    List FoundUser :=
  if subtractedUserKey = .wildcard then
    if (subtract userKey).isSome then [] else [⟨userKey, [], .noRelationship⟩]
  else match subtract subtractedUserKey with
    | none => []
    | some subtractedFu =>
      match subtractedFu.relationshipStatus with
      | .noRelationship => [⟨subtractedUserKey, [], .hasRelationship⟩]
      | .hasRelationship => [⟨subtractedUserKey, [subtractedUserKey], .noRelationship⟩]

/-- The status of the map entry of a key, or the zero value `HasRelationship`. -/
def statusOf : Option FoundUser → RelationshipStatus
  | none => .hasRelationship
  | some m => m.relationshipStatus

/-- The other status. -/
def RelationshipStatus.negate : RelationshipStatus → RelationshipStatus
  | .hasRelationship => .noRelationship
  | .noRelationship => .hasRelationship

variable (base subtract : UserKey → Option FoundUser)

/-- One round of the outer loop of `expandExclusion`, for the entry `fu` of the
base map; `order` is the order in which the inner loop visits the subtract map. -/
def exclusionRound (order : List UserKey)
    (userKey : UserKey) (fu : FoundUser) : List FoundUser :=
  if (base .wildcard).isSome then
    (if (subtract userKey).isSome ∨ (subtract .wildcard).isSome then []
      else [⟨userKey, fu.excludedUsers, fu.relationshipStatus⟩])
    ++ order.flatMap (subtractedSends subtract userKey)
  else if (subtract .wildcard).isSome ∨ (subtract userKey).isSome then
    [⟨userKey, [], (statusOf (subtract userKey)).negate⟩]
  else [⟨userKey, [], fu.relationshipStatus⟩]

/-- A round for a key of the base map. -/
def exclusionRoundOf
    (order : UserKey → List UserKey) (userKey : UserKey) : List FoundUser :=
  match base userKey with
  | none => []
  | some fu => exclusionRound base subtract (order userKey) userKey fu

/-- `expandExclusion`, when the subtract side met no cycle. -/
def ExclusionSends (base subtract : List FoundUser) (sent : List FoundUser) : Prop :=
  ∃ keys order, Enumerates keys (fun k => (foundUsersMap base k).isSome = true)
    ∧ (∀ k, Enumerates (order k) (fun j => (foundUsersMap subtract j).isSome = true))
    ∧ sent = keys.flatMap (exclusionRoundOf (foundUsersMap base) (foundUsersMap subtract) order)

end Operators

/-! ### Expansions -/

/-- Errors of an expansion. -/
inductive ExpandErr where
  | resolutionDepthExceeded
  | objectTypeUndefined
  | condition (e : Err)
deriving DecidableEq, Repr

/-- The work of a request: what is read and dispatched, and how it is combined. -/
inductive Expansion where
  /-- Fails, and sends nothing. -/
  | error (e : ExpandErr)
  /-- A userset that is already on the path. -/
  | cycle
  /-- A relation that the type does not have. -/
  | undefined
  /-- A userset; it is sent itself if it is what the filter asks for. -/
  | relation (matched : Option (Object × String)) (rewrite : Expansion)
  /-- The tuples of one read: the users found and the usersets dispatched, all
  into one channel.  Only a direct relation hands on a cycle. -/
  | tuples {n : ℕ} (direct : Bool) (found : List UserKey) (dispatched : Fin n → Expansion)
  | union {n : ℕ} (operands : Fin n → Expansion)
  | intersection {n : ℕ} (operands : Fin n → Expansion)
  | exclusion (base subtract : Expansion)

/-- The user filter of a request. -/
structure UserFilter where
  type : String
  relation : String := ""

/-- The user of a tuple without a relation, if the filter is of its type. -/
def UserFilter.found (filter : UserFilter) : User → Option UserKey
  | .object o => if o.type = filter.type then some (.user o.id) else none
  | .wildcard t => if t = filter.type then some .wildcard else none
  | .userset _ _ => none

/-- The userset itself, if the filter asks for its type and relation. -/
def UserFilter.matched (filter : UserFilter) (object : Object) (relation : String) :
    Option (Object × String) :=
  if object.type = filter.type ∧ relation = filter.relation then some (object, relation)
  else none

/-- The message about a matched userset. -/
def matchedMessages (matched : Option (Object × String)) : List FoundUser :=
  matched.toList.map fun q => { user := .userset q.1 q.2 }

variable (env : Environment) (dispatch : Object → String → Expansion)

/-- One tuple of `expandDirect`: a failed condition, or a userset to dispatch. -/
def directDispatch (t : TupleKey) :
    Option Expansion :=
  match env.conditionMet t with
  | .error e => some (.error (.condition e))
  | .ok false => none
  | .ok true =>
    match t.user with
    | .userset o r => some (dispatch o r)
    | _ => none

/-- `expandDirect`. -/
def expandDirect (env : Environment) (filter : UserFilter)
    (dispatch : Object → String → Expansion) (object : Object) (relation : String) : Expansion :=
  .tuples true ((env.passing object relation).filterMap fun t => filter.found t.user)
    ((env.read object relation).filterMap (directDispatch env dispatch)).get

/-- One tuple of `expandTTU`. -/
def ttuDispatch
    (computedRelation : String) (t : TupleKey) : Option Expansion :=
  match env.conditionMet t with
  | .error e => some (.error (.condition e))
  | .ok false => none
  | .ok true => some (dispatch t.user.splitObject computedRelation)

/-- `expandTTU`. -/
def expandTTU (object : Object)
    (tuplesetRelation computedRelation : String) : Expansion :=
  .tuples false []
    ((env.read object tuplesetRelation).filterMap
      (ttuDispatch env dispatch computedRelation)).get

/-- `expandRewrite`. -/
def expandRewrite (env : Environment) (filter : UserFilter)
    (dispatch : Object → String → Expansion) (object : Object) (relation : String) :
    Rewrite → Expansion
  | .this => expandDirect env filter dispatch object relation
  | .computedUserset r => dispatch object r
  | .tupleToUserset tupleset computed => expandTTU env dispatch object tupleset computed
  | .union child => .union fun i => expandRewrite env filter dispatch object relation (child i)
  | .intersection child =>
      .intersection fun i => expandRewrite env filter dispatch object relation (child i)
  | .difference base subtract =>
      .exclusion (expandRewrite env filter dispatch object relation base)
        (expandRewrite env filter dispatch object relation subtract)

/-- `expand`, with the depth that is left under `resolveNodeLimit` and the usersets
on the path. -/
def expand (env : Environment) (filter : UserFilter) :
    ℕ → List (Object × String) → Object → String → Expansion
  | 0, _, _, _ => .error .resolutionDepthExceeded
  | depth + 1, visited, object, relation =>
    if (object, relation) ∈ visited then .cycle
    else .relation (filter.matched object relation)
      (match env.typesystem.getRelation object.type relation with
      | .error .relationUndefined => .undefined
      | .error .objectTypeUndefined => .error .objectTypeUndefined
      | .ok r => expandRewrite env filter (expand env filter depth ((object, relation) :: visited))
          object relation r.rewrite)

namespace Expansion

/-- `expandResponse.hasCycle`. -/
def hasCycle : Expansion → Bool
  | .cycle => true
  | .relation _ rewrite => rewrite.hasCycle
  | .tuples (n := n) true _ dispatched => (List.finRange n).any fun i => (dispatched i).hasCycle
  | _ => false

/-- `expandResponse.err` is set.  An exclusion whose subtract side met a cycle
reports no error. -/
def fails : Expansion → Bool
  | .error _ => true
  | .cycle => false
  | .undefined => false
  | .relation _ rewrite => rewrite.fails
  | .tuples (n := n) _ _ dispatched => (List.finRange n).any fun i => (dispatched i).fails
  | .union (n := n) operands => (List.finRange n).any fun i => (operands i).fails
  | .intersection (n := n) operands => (List.finRange n).any fun i => (operands i).fails
  | .exclusion base subtract => !subtract.hasCycle && (base.fails || subtract.fails)

end Expansion

/-! ### Message lists -/

/-- Where messages may be lost. -/
inductive Loss where
  | nowhere
  | outsideOperands
  | anywhere
deriving DecidableEq, Repr

/-- What may be lost below an operand of an intersection or of an exclusion. -/
def Loss.inOperand : Loss → Loss
  | .nowhere => .nowhere
  | .outsideOperands => .nowhere
  | .anywhere => .anywhere

/-- What arrives of the messages that were to be sent. -/
def Loss.Keeps (loss : Loss) (messages arrived : List FoundUser) : Prop :=
  match loss with
  | .nowhere => arrived = messages
  | _ => arrived.Sublist messages

/-- The message lists that an expansion may send. -/
def Expansion.Sends (loss : Loss) : Expansion → List FoundUser → Prop
  | .error _, sent => sent = []
  | .cycle, sent => sent = []
  | .undefined, sent => sent = []
  | .relation matched rewrite, sent =>
      ∃ own rest, loss.Keeps (matchedMessages matched) own
        ∧ rewrite.Sends loss rest ∧ sent = own ++ rest
  | .tuples (n := n) _ found dispatched, sent =>
      ∃ (own : List FoundUser) (outs : Fin n → List FoundUser),
        loss.Keeps (found.map fun k => { user := k }) own
        ∧ (∀ i, (dispatched i).Sends loss (outs i))
        ∧ Received (own :: List.ofFn outs) sent
  | .union (n := n) operands, sent =>
      ∃ (outs : Fin n → List FoundUser) (messages : List FoundUser),
        (∀ i, (operands i).Sends loss (outs i))
        ∧ UnionSends outs messages ∧ loss.Keeps messages sent
  | .intersection (n := n) operands, sent =>
      ∃ (outs : Fin n → List FoundUser) (messages : List FoundUser),
        (∀ i, (operands i).Sends loss.inOperand (outs i))
        ∧ IntersectionSends outs messages ∧ loss.Keeps messages sent
  | .exclusion base subtract, sent =>
      (subtract.hasCycle = true ∧ sent = [])
      ∨ ((subtract.hasCycle = false ∨ loss = .anywhere)
        ∧ ∃ outBase outSubtract messages, base.Sends loss.inOperand outBase
          ∧ subtract.Sends loss.inOperand outSubtract
          ∧ ExclusionSends outBase outSubtract messages ∧ loss.Keeps messages sent)

/-! ### The response -/

/-- A ListUsers request. -/
structure Request where
  object : Object
  relation : String
  userFilter : UserFilter
  resolveNodeLimit : ℕ

/-- The expansion of a request. -/
def Request.expansion (req : Request) (env : Environment) : Expansion :=
  expand env req.userFilter req.resolveNodeLimit [] req.object req.relation

/-- The users of a response: the keys whose last message says that they have the
relation. -/
def Reported : Prop :=
  ∃ m, foundUsersMap messages key = some m ∧ m.relationshipStatus = .hasRelationship

instance : Decidable (Reported messages key) :=
  match h : foundUsersMap messages key with
  | none => isFalse fun ⟨_, hm, _⟩ => by rw [h] at hm; cases hm
  | some m =>
    if hs : m.relationshipStatus = .hasRelationship then isTrue ⟨m, h, hs⟩
    else isFalse fun ⟨m', hm, hs'⟩ => by rw [h] at hm; cases hm; exact hs hs'

/-- What the filter asks for: users of the type, or usersets. -/
def UserFilter.facet (filter : UserFilter) : Facet :=
  if filter.relation = "" then .object else .relation filter.relation

section Responses

variable (req : Request) (env : Environment)

/-- `doesHavePossibleEdges`.  The marks of the edges do not matter. -/
def Request.doesHavePossibleEdges : Except ClassicExpand.EdgeErr Bool :=
  (ClassicExpand.getPrunedRelationshipEdges
    ⟨env.typesystem, req.userFilter.type, req.userFilter.facet, fun _ _ => false⟩
    (req.object.type, req.relation)).map fun edges => !edges.isEmpty

/-- Whether `ListUsers` expands at all: a userset that the filter asks for is always expanded. -/
def Request.expands : Except ClassicExpand.EdgeErr Bool :=
  if (req.userFilter.matched req.object req.relation).isSome then .ok true
  else req.doesHavePossibleEdges env

/-- The answers to the message lists that may arrive.  Without a loss the expansion must not have
failed; after the deadline its error is skipped. -/
def Request.RespondsTo (arrive : List FoundUser → Prop) (loss : Loss) (users : List UserKey) :
    Prop :=
  match req.expands env with
  | .error _ => False
  | .ok false => users = []
  | .ok true => (loss = .nowhere → (req.expansion env).fails = false)
      ∧ ∃ messages, arrive messages ∧ Enumerates users (Reported messages)

/-- **`ListUsers` may answer with `users`.** -/
def Request.Responds (loss : Loss) (users : List UserKey) : Prop :=
  req.RespondsTo env ((req.expansion env).Sends loss) loss users

end Responses

end Kengen.ListUsers
