import Mathlib

/-!
# The strings of tuple keys

The source keeps the object and the user of a tuple key as one string each: `type:id`, and
`type:id#relation` for a userset.  The cached iterators split them, store the parts and put them
together again.  Strings are lists of characters here.

* `splitObject`, `buildObject`, `splitObjectRelation`, `toUserParts`, `fromUserParts` — of
  `tuple.go`.
* `newRelationshipCondition` — a condition without a name is no condition, and a context is never
  missing.
* **`buildObject_splitObject`** — an object with a type survives.
* **`toUserParts_fromUserParts`** — so do the users of well formed tuple keys.
-/

namespace Kengen.Storage

/-- A string. -/
abbrev Text := List Char

/-- The parts before and behind the first occurrence of a character. -/
def splitFirst (c : Char) (text : Text) : Option (Text × Text) :=
  match text.dropWhile (· ≠ c) with
  | [] => none
  | _ :: rest => some (text.takeWhile (· ≠ c), rest)

/-- The parts before and behind the last occurrence of a character. -/
def splitLast (c : Char) (text : Text) : Option (Text × Text) :=
  (splitFirst c text.reverse).map fun (behind, before) => (before.reverse, behind.reverse)

def splitObject (object : Text) : Text × Text :=
  match splitFirst ':' object with
  | none => ([], object)
  | some (objectType, objectID) => (objectType, objectID)

def buildObject (objectType objectID : Text) : Text := objectType ++ ':' :: objectID

def splitObjectRelation (objectRelation : Text) : Text × Text :=
  match splitLast '#' objectRelation with
  | none => (objectRelation, [])
  | some (object, relation) => (object, relation)

def toUserParts (user : Text) : Text × Text × Text :=
  let (userObject, userRelation) := splitObjectRelation user
  let (userObjectType, userObjectID) := splitObject userObject
  (userObjectType, userObjectID, userRelation)

def fromUserParts (userObjectType userObjectID userRelation : Text) : Text :=
  (if userObjectType = [] then [] else userObjectType ++ [':']) ++ userObjectID
    ++ (if userRelation = [] then [] else '#' :: userRelation)

/-! ### Tuple keys -/

/-- A condition; `S` are the contexts, which may be missing. -/
structure RelationshipCondition (S : Type) where
  name : Text
  context : Option S
deriving DecidableEq, Repr

structure TupleKey (S : Type) where
  object : Text
  relation : Text
  user : Text
  condition : Option (RelationshipCondition S)
deriving DecidableEq, Repr

/-- `newRelationshipCondition`; the default is the empty context. -/
def newRelationshipCondition {S : Type} [Inhabited S] (name : Text) (context : Option S) :
    Option (RelationshipCondition S) :=
  if name = [] then none else some ⟨name, some (context.getD default)⟩

/-- The name of the condition, empty if there is none. -/
def TupleKey.conditionName {S : Type} (t : TupleKey S) : Text :=
  match t.condition with
  | none => []
  | some condition => condition.name

def TupleKey.conditionContext {S : Type} (t : TupleKey S) : Option S :=
  t.condition.bind (·.context)

/-- A user `type:id` or `type:id#relation`. -/
structure UserParts (user : Text) where
  objectType : Text
  objectID : Text
  relation : Text
  typed : objectType ≠ []
  noColon : ':' ∉ objectType
  noHash : '#' ∉ objectType ++ ':' :: objectID
  noHash' : '#' ∉ relation
  eq : user = fromUserParts objectType objectID relation

/-- **A tuple key as the datastores build it**: the user has a type, and the condition is one of
`newRelationshipCondition`. -/
structure WellFormed {S : Type} [Inhabited S] (t : TupleKey S) : Prop where
  object : ':' ∈ t.object
  user : Nonempty (UserParts t.user)
  condition : ∃ name context, t.condition = newRelationshipCondition name context

/-! ### Round trips -/

theorem splitFirst_append {c : Char} {text rest : Text} (h : c ∉ text) :
    splitFirst c (text ++ c :: rest) = some (text, rest) := by
  have hne : ∀ a ∈ text, decide (a ≠ c) = true :=
    fun a ha => decide_eq_true fun hac => h (hac ▸ ha)
  unfold splitFirst
  rw [List.dropWhile_append_of_pos hne, List.takeWhile_append_of_pos hne]
  simp

theorem splitFirst_of_not_mem {c : Char} {text : Text} (h : c ∉ text) :
    splitFirst c text = none := by
  have hne : ∀ a ∈ text, decide (a ≠ c) = true :=
    fun a ha => decide_eq_true fun hac => h (hac ▸ ha)
  unfold splitFirst
  rw [List.dropWhile_eq_nil_iff.mpr hne]

theorem splitLast_append {c : Char} {text rest : Text} (h : c ∉ rest) :
    splitLast c (text ++ c :: rest) = some (text, rest) := by
  have hreverse : (text ++ c :: rest).reverse = rest.reverse ++ c :: text.reverse := by simp
  rw [splitLast, hreverse, splitFirst_append (by simpa using h)]
  simp

theorem splitLast_of_not_mem {c : Char} {text : Text} (h : c ∉ text) : splitLast c text = none := by
  rw [splitLast, splitFirst_of_not_mem (by simpa using h)]
  rfl

/-- **An object with a type is put together again.** -/
theorem buildObject_splitObject {object : Text} (h : ':' ∈ object) :
    buildObject (splitObject object).1 (splitObject object).2 = object := by
  obtain ⟨_, _, rfl, hnot⟩ := List.eq_append_cons_of_mem h
  rw [splitObject, splitFirst_append hnot]
  rfl

/-- **A user is put together again.** -/
theorem toUserParts_fromUserParts {user : Text} (parts : UserParts user) :
    toUserParts user = (parts.objectType, parts.objectID, parts.relation) := by
  obtain ⟨objectType, objectID, relation, typed, noColon, noHash, noHash', rfl⟩ := parts
  have hobject : splitObject (objectType ++ ':' :: objectID) = (objectType, objectID) := by
    rw [splitObject, splitFirst_append noColon]
  have hrelation : splitObjectRelation (fromUserParts objectType objectID relation)
      = (objectType ++ ':' :: objectID, relation) := by
    have hprefix : (objectType ++ [':']) ++ objectID = objectType ++ ':' :: objectID := by simp
    rw [splitObjectRelation, fromUserParts, if_neg typed, hprefix]
    by_cases hnil : relation = []
    · rw [if_pos hnil, List.append_nil, splitLast_of_not_mem noHash, hnil]
    · rw [if_neg hnil, splitLast_append noHash']
  simp only [toUserParts, hrelation, hobject]

end Kengen.Storage
