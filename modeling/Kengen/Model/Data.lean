import Mathlib

/-!
# Relationship tuples, the tuple store and check requests

The data every resolver of the repository reads.

* Objects and users are the parsed form of the strings `type:id`,
  `type:id#relation` and `type:*`; `Object.str` is the string form, which is
  what the object streams carry and compare.
* A stored tuple set is a `Store`: at most one tuple for each key
  (object, relation, user), as the datastore's primary key enforces.
* The datastore reads are the ones of the SQL backends.  The memory backend
  differs in `ReadUsersetTuples`: it looks at the condition of a tuple after
  it has kept it, so its filter does nothing.  The reverse read
  `readStartingWithUser` sorts by object id, as every backend does.
* Evaluating a condition is the work of a third-party expression language.
  It is a parameter `cel` here, which may answer or fail.

Main facts:

* **`Object.str_le_iff`** — among objects of one type, the order of the strings
  is the order of the ids, so the sorted reads are sorted streams of strings.
* **`Store.find_unique`** — a store holds at most one tuple of a key.
-/

namespace Kengen

/-- Error values as far as the resolvers tell them apart. -/
inductive Err where
  | canceled
  | deadlineExceeded
  | evaluation (message : String)
  | storage (message : String)
  | panicRequest
  | wildcardInvalidRequest
  | usersetInvalidRequest
  | graphError
deriving DecidableEq, Repr

/-- `IterIsDoneOrCancelled` on an error other than `ErrIteratorDone`, which is
the end of a trace here. -/
def Err.isCancelled : Err → Bool
  | .canceled => true
  | .deadlineExceeded => true
  | _ => false

/-- An object `type:id`. -/
structure Object where
  type : String
  id : String
deriving DecidableEq, Repr

/-- `BuildObject`. -/
def Object.str (o : Object) : String := o.type ++ (":" ++ o.id)

/-- A tuple's user: an object, a userset `type:id#relation` or a typed wildcard `type:*`. -/
inductive User where
  | object (o : Object)
  | userset (o : Object) (relation : String)
  | wildcard (type : String)
deriving DecidableEq, Repr

/-- The user type of a request: `user`, or `group#member` when the user is a userset. -/
inductive UserType where
  | type (t : String)
  | userset (t relation : String)
deriving DecidableEq, Repr

/-- `GetUserType`: a typed wildcard has the type it ranges over. -/
def User.userType : User → UserType
  | .object o => .type o.type
  | .userset o r => .userset o.type r
  | .wildcard t => .type t

/-- `IsTypedWildcard`. -/
def User.isTypedWildcard : User → Bool
  | .wildcard _ => true
  | _ => false

/-- `IsObjectRelation`. -/
def User.isObjectRelation : User → Bool
  | .userset _ _ => true
  | _ => false

/-- A tuple's condition; the name is empty when the tuple has none. -/
structure RelationshipCondition where
  name : String
  context : String
deriving DecidableEq, Repr

/-- The empty condition name (`NoCond`). -/
def noCond : String := ""

/-- A relationship tuple. -/
structure TupleKey where
  object : Object
  relation : String
  user : User
  condition : RelationshipCondition := ⟨noCond, ""⟩
deriving DecidableEq, Repr

/-- What identifies a tuple in the datastore. -/
def TupleKey.key (t : TupleKey) : Object × String × User := (t.object, t.relation, t.user)

/-- Evaluation of a tuple's condition in a request's context, with the text of a failure. -/
abbrev Cel := RelationshipCondition → String → Except String Bool

/-- `EvaluateTupleCondition`: a tuple without a condition passes, a failure is
wrapped in an evaluation error. -/
def evaluateTupleCondition (cel : Cel) (t : TupleKey) (context : String) : Except Err Bool :=
  if t.condition.name = "" then .ok true
  else match cel t.condition context with
    | .ok b => .ok b
    | .error message => .error (.evaluation message)

/-- `evaluateCondition`: a condition that the edge does not list never passes. -/
def evaluateCondition (cel : Cel) (conditions : List String) (t : TupleKey)
    (context : String) : Except Err Bool :=
  if t.condition.name ∈ conditions then evaluateTupleCondition cel t context else .ok false

/-! ### The tuple store -/

/-- A finite set of stored tuples, one for each key. -/
structure Store where
  tuples : List TupleKey
  nodup : (tuples.map TupleKey.key).Nodup

/-- **A store holds at most one tuple of a key.** -/
theorem Store.find_unique (s : Store) {t t' : TupleKey} (ht : t ∈ s.tuples)
    (ht' : t' ∈ s.tuples) (hk : t.key = t'.key) : t = t' :=
  List.inj_on_of_nodup_map s.nodup ht ht' hk

variable (s : Store) (object : Object)

/-- `ReadUserTuple`: the tuple of a key. -/
def Store.readUserTuple (relation : String) (user : User) :
    Option TupleKey :=
  s.tuples.find? fun t => decide (t.key = (object, relation, user))

/-- `ReadStartingWithUser`: the tuples that assign one of `users` to an object of
`objectType`, sorted by object id. -/
def Store.readStartingWithUser (s : Store) (objectType relation : String) (users : List User)
    (conditions : List String) : List TupleKey :=
  (s.tuples.filter fun t =>
    decide (t.object.type = objectType ∧ t.relation = relation ∧ t.user ∈ users
      ∧ t.condition.name ∈ conditions)).insertionSort fun a b => a.object.id ≤ b.object.id

/-- `ReadUsersetTuples` restricted to the usersets `userType:_#userRelation`. -/
def Store.readUsersetTuples (relation userType userRelation : String)
    (conditions : List String) : List TupleKey :=
  s.tuples.filter fun t =>
    match t.user with
    | .userset o r => decide (t.object = object ∧ t.relation = relation ∧ o.type = userType
        ∧ r = userRelation ∧ t.condition.name ∈ conditions)
    | _ => false

/-- `ReadUsersetTuples` restricted to the typed wildcard `userType:*`. -/
def Store.readWildcardTuples (relation userType : String)
    (conditions : List String) : List TupleKey :=
  s.tuples.filter fun t => decide (t.object = object ∧ t.relation = relation
    ∧ t.user = .wildcard userType ∧ t.condition.name ∈ conditions)

/-- `Read` with the user filter `userType:`, which every user of that type meets. -/
def Store.read (relation userType : String)
    (conditions : List String) : List TupleKey :=
  s.tuples.filter fun t => decide (t.object = object ∧ t.relation = relation
    ∧ t.condition.name ∈ conditions) && match t.user with
      | .object o => o.type == userType
      | .userset o _ => o.type == userType
      | .wildcard w => w == userType

/-! ### The order of object strings -/

theorem Object.str_ne_empty (o : Object) : o.str ≠ "" := by
  intro h
  have := congrArg String.toList h
  simp [Object.str] at this

section

variable {a b : Object} (h : a.type = b.type)
include h

theorem Object.str_lt_of_id_lt (hlt : a.id < b.id) :
    a.str < b.str := by
  simp only [Object.str, h, String.lt_iff_toList_lt, String.toList_append] at hlt ⊢
  exact List.append_left_lt (List.append_left_lt hlt)

theorem Object.str_lt_iff : a.str < b.str ↔ a.id < b.id := by
  refine ⟨fun hlt => ?_, Object.str_lt_of_id_lt h⟩
  rcases lt_trichotomy a.id b.id with hid | hid | hid
  · exact hid
  · exact absurd hlt (by simp [Object.str, h, hid])
  · exact absurd hlt (lt_asymm (Object.str_lt_of_id_lt h.symm hid))

/-- **Among objects of one type the strings are ordered as the ids.** -/
theorem Object.str_le_iff : a.str ≤ b.str ↔ a.id ≤ b.id := by
  rw [← not_lt, ← not_lt, Object.str_lt_iff h.symm]

theorem Object.str_injective (hs : a.str = b.str) : a = b := by
  have hid : a.id = b.id :=
    le_antisymm ((Object.str_le_iff h).mp hs.le) ((Object.str_le_iff h.symm).mp hs.ge)
  cases a; cases b; simp_all

end

end Kengen
