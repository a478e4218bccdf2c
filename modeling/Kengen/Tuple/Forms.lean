import Kengen.Tuple.Messages

/-!
# The string forms of tuples and users

A tuple key is written `object#relation@user`, a user message as `type:id`, `type:*` or
`type:id#relation`.  The parsers cut at the first or at the last separator, and the validators of
the parts differ in the separators they refuse: a user may contain `@`, a relation may not.

* **`string_forms_invertible`** — on valid parts every parser undoes its formatter.
* **`isValidUserset_objectRelation`** — `IsValidUserset` accepts an object, a hash and a name.  The
  name is one that `IsValidUserID` accepts, so it may contain the `@` that `IsValidRelation` refuses.
-/

namespace Kengen.Tuple

open Strings List

/-! ### Formatters and parsers -/

/-- `TupleKeyToString`. -/
def tupleKeyToString (tk : TupleKeyWithoutCondition) : Str :=
  tk.object ++ byte '#' :: (tk.relation ++ byte '@' :: tk.user)

/-- `ParseTupleString`. -/
def parseTupleString (s : Str) : Except Str TupleKey :=
  match cut (byte '#') s with
  | none => .error (str "expected at least one '#' separating the object and relation")
  | some (object, rhs) =>
    if ! isValidObject object then .error (str "invalid tuple 'object' field format")
    else
      match cut (byte '@') rhs with
      | none => .error (str "expected at least one '@' separating the relation and user")
      | some (relation, user) =>
        if ! isValidRelation relation then .error (str "invalid tuple 'relation' field format")
        else if ! isValidUser user then .error (str "invalid tuple 'user' field format")
        else .ok (newTupleKey object relation user)

/-- `openfgav1.User`. -/
inductive UserProto where
  | wildcard (type : Str)
  | userset (type id relation : Str)
  | object (type id : Str)
deriving DecidableEq

/-- `UserProtoToString`. -/
def userProtoToString : UserProto → Str
  | .wildcard type => buildObject type wildcard
  | .userset type id relation => toObjectRelationString (buildObject type id) relation
  | .object type id => buildObject type id

/-- `StringToUserProto`. -/
def stringToUserProto (userKey : Str) : UserProto :=
  let (userObj, userRel) := splitObjectRelation userKey
  let (userObjType, userObjID) := splitObject userObj
  if userRel = [] ∧ userObjID = wildcard then .wildcard userObjType
  else if userRel = [] then .object userObjType userObjID
  else .userset userObjType userObjID userRel

/-- `FromUserParts`. -/
def fromUserParts (userObjectType userObjectID userRelation : Str) : Str :=
  (if userObjectType = [] then [] else userObjectType ++ [byte ':']) ++ userObjectID
    ++ if userRelation = [] then [] else byte '#' :: userRelation

/-- A user message with valid parts.  The object `type:*` reads as the wildcard of its type. -/
def UserProto.Valid : UserProto → Prop
  | .wildcard type => isValidObject (buildObject type Tuple.wildcard) = true
  | .userset type id relation =>
    isValidObject (buildObject type id) = true ∧ isValidRelation relation = true
  | .object type id => isValidObject (buildObject type id) = true ∧ id ≠ Tuple.wildcard

/-! ### Round trips -/

variable {s : Str}

/-- A valid relation is a nonempty string of plain characters without `@`. -/
theorem isValidRelation_iff : isValidRelation s = true ↔ s ≠ [] ∧ PlainStr s ∧ byte '@' ∉ s := by
  rw [isValidRelation, validNameLoop_iff, ← and_assoc, ← isValidUserID_iff, isValidUserID,
    validNameLoop_iff, ← forall_ne_iff (by decide) 0, and_assoc, ← runes, ← forall₂_and]
  refine and_congr_right fun _ => forall₂_congr fun p _ => ?_
  rw [show (byte '@').toNat = code '@' from rfl]
  simp only [mem_cons, not_mem_nil, or_false]
  tauto

theorem no_colon_of_isValidObject {a b : Str} (h : isValidObject (buildObject a b) = true) :
    byte ':' ∉ a := by
  obtain ⟨a', b', heq, -, -, ha, hb⟩ := isValidObject_iff.mp h
  -- there is only one colon
  have hcount := congrArg (count (byte ':')) heq
  simp only [buildObject, count_append, count_cons_self, count_eq_zero.mpr ha.no_colon,
    count_eq_zero.mpr hb.no_colon] at hcount
  exact count_eq_zero.mp (by omega)

theorem parse_tupleKeyToString {tk : TupleKeyWithoutCondition} (h : tk.WellFormed) :
    parseTupleString (tupleKeyToString tk) = .ok tk.toTupleKey := by
  rw [parseTupleString, tupleKeyToString, cut_append (no_hash_of_isValidObject h.object)]
  simp only [h.object, cut_append (isValidRelation_iff.mp h.relation).2.2, h.relation, h.user]
  rfl

theorem string_userProtoToString {u : UserProto} (h : u.Valid) :
    stringToUserProto (userProtoToString u) = u := by
  cases u with
  | wildcard type =>
    have hvalid : isValidObject (buildObject type wildcard) = true := h
    simp [stringToUserProto, userProtoToString, splitObject_build (no_colon_of_isValidObject hvalid),
      splitObjectRelation_of_no_hash (no_hash_of_isValidObject hvalid)]
  | userset =>
    obtain ⟨hobject, hrelation⟩ := h
    obtain ⟨hne, hplain, -⟩ := isValidRelation_iff.mp hrelation
    simp [stringToUserProto, userProtoToString, splitObjectRelation_build hplain.no_hash,
      splitObject_build (no_colon_of_isValidObject hobject), hne]
  | object =>
    obtain ⟨hobject, hne⟩ := h
    simp [stringToUserProto, userProtoToString, splitObject_build (no_colon_of_isValidObject hobject),
      splitObjectRelation_of_no_hash (no_hash_of_isValidObject hobject), hne]

theorem fromUserParts_toUserParts (h : isValidUser s = true) :
    fromUserParts (toUserParts s).1 (toUserParts s).2.1 (toUserParts s).2.2 = s := by
  simp only [isValidUser, Bool.or_eq_true, decide_eq_true_eq] at h
  rcases h with ((rfl | h) | h) | h
  · decide
  · obtain ⟨-, hplain⟩ := isValidUserID_iff.mp h
    simp [toUserParts, splitObjectRelation_of_no_hash hplain.no_hash,
      splitObject_of_no_colon hplain.no_colon, fromUserParts]
  · obtain ⟨a, b, rfl, ha, -, hplain, -⟩ := isValidObject_iff.mp h
    rw [toUserParts, splitObjectRelation_of_no_hash (no_hash_of_isValidObject h)]
    simp only [splitObject_build hplain.no_colon, fromUserParts, ha, if_false]
    simp [buildObject]
  · obtain ⟨a, b, c, rfl, ⟨ha, -, hc⟩, hplain, -, hrelation, -⟩ := isValidUserset_iff.mp h
    rw [toUserParts, splitObjectRelation_build hrelation.no_hash]
    simp only [splitObject_build hplain.no_colon, fromUserParts, ha, hc, if_false]
    simp [toObjectRelationString, buildObject]

/-- **The string forms are invertible.**  Parsing the string of a valid tuple key returns the key,
so valid keys with the same string are equal; reading the string of a user message with valid parts
returns the message; and a valid user is put together again from its parts. -/
theorem string_forms_invertible :
    (∀ tk : TupleKeyWithoutCondition, tk.WellFormed →
      parseTupleString (tupleKeyToString tk) = .ok tk.toTupleKey)
    ∧ (∀ tk tk' : TupleKeyWithoutCondition, tk.WellFormed → tk'.WellFormed →
      tupleKeyToString tk = tupleKeyToString tk' → tk = tk')
    ∧ (∀ u : UserProto, u.Valid → stringToUserProto (userProtoToString u) = u)
    ∧ ∀ s, isValidUser s = true →
      fromUserParts (toUserParts s).1 (toUserParts s).2.1 (toUserParts s).2.2 = s := by
  refine ⟨fun tk h => parse_tupleKeyToString h, ?_, fun u h => string_userProtoToString h,
    fun s h => fromUserParts_toUserParts h⟩
  intro tk tk' h h' heq
  have hparse := (parse_tupleKeyToString h).symm.trans
    ((congrArg parseTupleString heq).trans (parse_tupleKeyToString h'))
  exact congrArg TupleKey.toTupleKeyWithoutCondition (Except.ok.inj hparse)

/-- A tuple whose user contains both separators, and that user as a message. -/
theorem string_forms_invertible_userset :
    parseTupleString (str "doc:1#viewer@group:a@b#member")
        = .ok (newTupleKey (str "doc:1") (str "viewer") (str "group:a@b#member"))
      ∧ stringToUserProto (str "group:a@b#member")
        = .userset (str "group") (str "a@b") (str "member") :=
  ⟨string_forms_invertible.1 ⟨str "doc:1", str "viewer", str "group:a@b#member"⟩ (by decide),
    string_forms_invertible.2.2.1 (.userset (str "group") (str "a@b") (str "member"))
      ⟨by decide, by decide⟩⟩

/-! ### Usersets -/

/-- `s` is an object, a hash and a relation, neither the identifier nor the relation with an
asterisk. -/
structure UsersetOf (validRelation : Str → Bool) (s o r : Str) : Prop where
  form : s = toObjectRelationString o r
  object : isValidObject o = true
  id : byte '*' ∉ (splitObject o).2
  relation : validRelation r = true
  no_star : byte '*' ∉ r

/-- **What `IsValidUserset` accepts**: a valid object, a hash and a name that `IsValidUserID`
accepts, the identifier and the name without an asterisk.  `SplitObjectRelation` finds the two
parts, and no valid userset is a valid object. -/
theorem isValidUserset_objectRelation (s : Str) :
    (isValidUserset s = true ↔ ∃ o r, UsersetOf isValidUserID s o r)
    ∧ (∀ o r, UsersetOf isValidUserID s o r → splitObjectRelation s = (o, r))
    ∧ ¬ (isValidUserset s = true ∧ isValidObject s = true) := by
  refine ⟨⟨fun h => ?_, ?_⟩, ?_, ?_⟩
  · obtain ⟨a, b, c, hs, ⟨ha, hb, hc⟩, hplain, hid, hrelation⟩ := isValidUserset_iff.mp h
    refine ⟨_, c, hs, isValidObject_iff.mpr ⟨a, b, rfl, ha, hb, hplain, hid.1⟩, ?_,
      isValidUserID_iff.mpr ⟨hc, hrelation.1⟩, hrelation.2⟩
    rw [splitObject_build hplain.no_colon]
    exact hid.2
  · rintro ⟨o, r, hs, ho, hid, hr, hstar⟩
    obtain ⟨a, b, rfl, ha, hb, hplaina, hplainb⟩ := isValidObject_iff.mp ho
    obtain ⟨hr, hplain⟩ := isValidUserID_iff.mp hr
    rw [splitObject_build hplaina.no_colon] at hid
    exact isValidUserset_iff.mpr
      ⟨a, b, r, hs, ⟨ha, hb, hr⟩, hplaina, ⟨hplainb, hid⟩, hplain, hstar⟩
  · rintro o r ⟨rfl, -, -, hr, -⟩
    exact splitObjectRelation_build (isValidUserID_iff.mp hr).2.no_hash o
  · rintro ⟨h, hobject⟩
    obtain ⟨a, b, c, rfl, -⟩ := isValidUserset_iff.mp h
    exact no_hash_of_isValidObject hobject (mem_append_right _ mem_cons_self)

/-- **The relation of a valid userset need not be valid**: `group:1#a@b` is accepted. -/
theorem userset_with_invalid_relation :
    ¬ ∀ s, (isValidUserset s = true ↔ ∃ o r, UsersetOf isValidRelation s o r)
      ∧ (∀ o r, UsersetOf isValidRelation s o r → splitObjectRelation s = (o, r))
      ∧ ¬ (isValidUserset s = true ∧ isValidObject s = true) := by
  intro h
  obtain ⟨hiff, hsplit, -⟩ := h (str "group:1#a@b")
  obtain ⟨o, r, hform⟩ := hiff.mp (by decide)
  have hr : str "a@b" = r := congrArg Prod.snd (hsplit o r hform)
  have hvalid := hform.relation
  rw [← hr] at hvalid
  exact absurd hvalid (by decide)

end Kengen.Tuple
