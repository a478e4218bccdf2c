import Kengen.Tuple.Messages

/-!
# The records of the memory backend

The memory backend keeps the tuples of a store as a list of records and finds them by `match`,
which compares a record with a possibly incomplete key: an empty field is ignored, an object
without an identifier is compared by its type and a user without an identifier is the start of
the record's user.

* `matchTuple` — the comparison as the code makes it;
* `matchTuple_eq_true` — the same by fields: what each field of the key asks of the record;
* `matchTuple_iff` — a record written from a well-formed key is matched by a well-formed key
  exactly when it is the record of that key;
* `any_matchTuple` — what a lookup says about the keys of the records.
-/

namespace Kengen.Memory

open Strings Kengen.Tuple

/-- `storage.TupleRecord`, as far as the memory backend fills it. -/
structure TupleRecord where
  objectType : Str
  objectID : Str
  relation : Str
  user : Str
  conditionName : Str
  conditionContext : Option Struct
deriving DecidableEq

/-- `TupleRecord.AsTuple`: the key of the tuple. -/
def TupleRecord.asTuple (t : TupleRecord) : Tuple.TupleKey :=
  newTupleKeyWithCondition (buildObject t.objectType t.objectID) t.relation t.user
    t.conditionName t.conditionContext

/-- The object, the relation and the user of a record. -/
def TupleRecord.key (t : TupleRecord) : TupleKeyWithoutCondition :=
  t.asTuple.toTupleKeyWithoutCondition

/-- The record that `Write` appends for a tuple key. -/
def newRecord (t : Tuple.TupleKey) : TupleRecord where
  objectType := (splitObject t.object).1
  objectID := (splitObject t.object).2
  relation := t.relation
  user := t.user
  conditionName := t.conditionName
  conditionContext := t.conditionContext

/-- The first test of `match`: the object is given and differs. -/
def objectDiffers (t : TupleRecord) (object : Str) : Bool :=
  if object ≠ [] then
    let split := splitObject object
    if split.2 = [] then decide (split.1 ≠ t.objectType)
    else decide (split.1 ≠ t.objectType) || decide (split.2 ≠ t.objectID)
  else false

/-- The last test of `match`: the user is given and differs. -/
def userDiffers (t : TupleRecord) (user : Str) : Bool :=
  if user ≠ [] then
    let parts := toUserParts user
    if parts.2.1 ≠ [] ∧ t.user ≠ user then true
    else decide (parts.2.1 = []) && !(parts.1 ++ [byte ':']).isPrefixOf t.user
  else false

/-- `match`. -/
def matchTuple (t : TupleRecord) (target : TupleKeyWithoutCondition) : Bool :=
  if objectDiffers t target.object then false
  else if target.relation ≠ [] ∧ t.relation ≠ target.relation then false
  else if userDiffers t target.user then false
  else true

/-- `find`: the first record that matches. -/
def find (records : List TupleRecord) (target : TupleKeyWithoutCondition) : Option TupleRecord :=
  records.find? fun t => matchTuple t target

/-! ### What the fields of a key ask for -/

/-- The record is of the object, or of the object type where the identifier is left out. -/
def TupleRecord.OfObject (t : TupleRecord) (object : Str) : Prop :=
  object = [] ∨ ((splitObject object).1 = t.objectType
    ∧ ((splitObject object).2 = [] ∨ (splitObject object).2 = t.objectID))

/-- The record is of the relation. -/
def TupleRecord.OfRelation (t : TupleRecord) (relation : Str) : Prop :=
  relation = [] ∨ t.relation = relation

/-- The record is of the user, or of the user type where the identifier is left out. -/
def TupleRecord.OfUser (t : TupleRecord) (user : Str) : Prop :=
  user = [] ∨ (toUserParts user).2.1 ≠ [] ∧ t.user = user
    ∨ (toUserParts user).2.1 = [] ∧ (toUserParts user).1 ++ [byte ':'] <+: t.user

instance (t : TupleRecord) (object : Str) : Decidable (t.OfObject object) :=
  inferInstanceAs (Decidable (_ ∨ _ ∧ (_ ∨ _)))

instance (t : TupleRecord) (relation : Str) : Decidable (t.OfRelation relation) :=
  inferInstanceAs (Decidable (_ ∨ _))

instance (t : TupleRecord) (user : Str) : Decidable (t.OfUser user) :=
  inferInstanceAs (Decidable (_ ∨ _ ∧ _ ∨ _ ∧ _))

variable {t : TupleRecord}

theorem objectDiffers_iff {object : Str} : objectDiffers t object = true ↔ ¬ t.OfObject object := by
  by_cases hobject : object = []
  · simp [objectDiffers, TupleRecord.OfObject, hobject]
  · by_cases hid : (splitObject object).2 = []
    · simp [objectDiffers, TupleRecord.OfObject, hobject, hid]
    · simp [objectDiffers, TupleRecord.OfObject, hobject, hid, imp_iff_not_or]

theorem userDiffers_iff {user : Str} : userDiffers t user = true ↔ ¬ t.OfUser user := by
  rw [TupleRecord.OfUser, ← List.isPrefixOf_iff_prefix]
  by_cases huser : user = []
  · simp [userDiffers, huser]
  · by_cases hid : (toUserParts user).2.1 = []
    · simp only [userDiffers, huser, hid, ne_eq, not_false_eq_true, not_true_eq_false, false_and,
        if_true, if_false, decide_true, Bool.true_and, false_or, true_and, Bool.not_eq_true']
      exact (Bool.not_eq_true _).symm.to_iff
    · simp [userDiffers, huser, hid]

variable {target : TupleKeyWithoutCondition}

/-- **`match` asks for every field of the key.** -/
theorem matchTuple_eq_true :
    matchTuple t target = true
      ↔ t.OfObject target.object ∧ t.OfRelation target.relation ∧ t.OfUser target.user := by
  have hrelation : (target.relation ≠ [] ∧ t.relation ≠ target.relation)
      ↔ ¬ t.OfRelation target.relation := by
    rw [TupleRecord.OfRelation, not_or]
  simp only [matchTuple, objectDiffers_iff, hrelation, userDiffers_iff]
  by_cases h1 : t.OfObject target.object
  · by_cases h2 : t.OfRelation target.relation
    · by_cases h3 : t.OfUser target.user <;> simp [h1, h2, h3]
    · simp [h2]
  · simp [h1]

/-! ### Records of well-formed keys -/

/-- A record that was written from a well-formed key. -/
def TupleRecord.Written (t : TupleRecord) : Prop :=
  ∃ tk : Tuple.TupleKey, tk.WellFormed ∧ t = newRecord tk

theorem newRecord_key {tk : Tuple.TupleKey} (h : tk.WellFormed) :
    (newRecord tk).key = tk.toTupleKeyWithoutCondition := by
  have hobject : buildObject (splitObject tk.object).1 (splitObject tk.object).2 = tk.object :=
    (splitObject_of_isValidObject h.object).2.2
  simp only [TupleRecord.key, TupleRecord.asTuple, newTupleKeyWithCondition, newRecord, hobject]

/-- **A well-formed key matches the record of that key and no other.** -/
theorem matchTuple_iff (ht : t.Written)
    (htarget : target.WellFormed) : matchTuple t target = true ↔ t.key = target := by
  obtain ⟨tk, htk, rfl⟩ := ht
  obtain ⟨-, hid, -⟩ := splitObject_of_isValidObject htarget.object
  have hobject : (newRecord tk).OfObject target.object ↔ tk.object = target.object := by
    have hne : target.object ≠ [] := fun h => hid (by rw [h]; rfl)
    simp only [TupleRecord.OfObject, newRecord, hne, hid, false_or]
    constructor
    · rintro ⟨htype, hobjectID⟩
      exact splitObject_injective htk.object htarget.object (Prod.ext htype.symm hobjectID.symm)
    · rintro h
      rw [h]
      exact ⟨rfl, rfl⟩
  have hrelation : (newRecord tk).OfRelation target.relation ↔ tk.relation = target.relation := by
    have hne : target.relation ≠ [] := fun h => absurd htarget.relation (by rw [h]; decide)
    simp only [TupleRecord.OfRelation, newRecord, hne, false_or]
  have huser : (newRecord tk).OfUser target.user ↔ tk.user = target.user := by
    have hid := userID_of_isValidUser htarget.user
    have hne : target.user ≠ [] := fun h => hid (by rw [h]; rfl)
    simp [TupleRecord.OfUser, newRecord, hne, hid]
  rw [matchTuple_eq_true, newRecord_key htk, hobject, hrelation, huser]
  constructor
  · rintro ⟨h1, h2, h3⟩
    obtain ⟨object, relation, user⟩ := target
    obtain ⟨⟨_, _, _⟩, _⟩ := tk
    exact TupleKeyWithoutCondition.mk.injEq .. ▸ ⟨h1, h2, h3⟩
  · rintro rfl
    exact ⟨rfl, rfl, rfl⟩

theorem any_matchTuple {records : List TupleRecord} (h : ∀ t ∈ records, t.Written)
    (htarget : target.WellFormed) :
    records.any (fun t => matchTuple t target) = true
      ↔ target ∈ records.map TupleRecord.key := by
  simp only [List.any_eq_true, List.mem_map]
  refine exists_congr fun t => and_congr_right fun ht => ?_
  rw [matchTuple_iff (h t ht) htarget]

end Kengen.Memory
