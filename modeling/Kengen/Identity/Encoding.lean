import Kengen.Tuple.Strings

/-!
# Identities of the NakamaDevs model

A Keycloak realm and an identifier in it are put into one object string, `user:realm|subject` or
`organization:realm|organization`.  Both parts are checked to be free of the separators and to be
safe as an OpenFGA identifier.

* `encode`, `decode` — `identity.go`, for any object type; the four exported functions fix the type.
* **`decode_encode`**, **`encode_decode`** — each undoes the other.
* **`encode_wellFormed`** — what is encoded is an object, neither a typed wildcard nor a userset.
* **`identities_unambiguous`** — so an encoded value names one type, one realm and one identifier.

The strings are arbitrary bytes, valid UTF-8 or not.
-/

namespace Kengen.Identity

open Strings Kengen.Tuple List

/-! ### Encoding and decoding -/

def subjectType : Str := str "user"

def organizationType : Str := str "organization"

/-- `validateComponent`. -/
def validateComponent (name : String) (value : Str) : Except String Unit :=
  if byte '|' ∈ value then .error (name ++ " must not contain the separator")
  else if isValidUserID value then .ok ()
  else .error (name ++ " is not OpenFGA-safe")

/-- `encode`. -/
def encode (objectType realmID value : Str) : Except String Str := do
  validateComponent "realm ID" realmID
  validateComponent "identifier" value
  return objectType ++ byte ':' :: realmID ++ byte '|' :: value

/-- `decode`; `typeName` is the type in the text of the error. -/
def decode (typeName : String) (objectType value : Str) : Except String (Str × Str) :=
  let start := objectType ++ [byte ':']
  if start.isPrefixOf value then
    match cut (byte '|') (value.drop start.length) with
    | none => .error "identifier must contain one separator"
    | some (realmID, identifier) =>
      if byte '|' ∈ identifier then .error "identifier must contain one separator"
      else do
        validateComponent "realm ID" realmID
        validateComponent "identifier" identifier
        return (realmID, identifier)
  else .error ("identifier must start with \"" ++ typeName ++ ":\"")

/-- `EncodeSubject`. -/
def encodeSubject (realmID subject : Str) : Except String Str := encode subjectType realmID subject

/-- `DecodeSubject`. -/
def decodeSubject (value : Str) : Except String (Str × Str) := decode "user" subjectType value

/-- `EncodeOrganization`. -/
def encodeOrganization (realmID organizationID : Str) : Except String Str :=
  encode organizationType realmID organizationID

/-- `DecodeOrganization`. -/
def decodeOrganization (value : Str) : Except String (Str × Str) :=
  decode "organization" organizationType value

/-! ### What the checks ensure -/

/-- A component that passes its check. -/
def Component (value : Str) : Prop := byte '|' ∉ value ∧ value ≠ [] ∧ PlainStr value

variable {value : Str}

theorem validateComponent_ok (name : String) :
    validateComponent name value = .ok () ↔ Component value := by
  simp only [validateComponent, Component]
  by_cases hsep : byte '|' ∈ value
  · simp [hsep]
  · by_cases hvalid : isValidUserID value = true
    · simp [hsep, hvalid, isValidUserID_iff.mp hvalid]
    · simp [hsep, hvalid, ← isValidUserID_iff]

/-- The string of two components. -/
def identity (objectType realmID value : Str) : Str :=
  objectType ++ byte ':' :: realmID ++ byte '|' :: value

variable {objectType realmID v : Str}

/-- The checks of both components. -/
theorem validate_both {β : Type} {x y : β} :
    (do validateComponent "realm ID" realmID
        validateComponent "identifier" value
        return x : Except String β) = .ok y ↔ Component realmID ∧ Component value ∧ y = x := by
  rw [← validateComponent_ok "realm ID", ← validateComponent_ok "identifier"]
  cases hrealm : validateComponent "realm ID" realmID with
  | error => simp [bind, Except.bind]
  | ok =>
    cases hvalue : validateComponent "identifier" value with
    | error e => simp [bind, Except.bind]
    | ok u' =>
      simp only [bind, Except.bind, pure, Except.pure, Except.ok.injEq, true_and]
      exact eq_comm

theorem encode_ok : encode objectType realmID value = .ok v ↔
    Component realmID ∧ Component value ∧ v = identity objectType realmID value :=
  validate_both

variable {identifier : Str}

variable {typeName : String}

theorem decode_ok :
    decode typeName objectType value = .ok (realmID, identifier) ↔
      Component realmID ∧ Component identifier
        ∧ value = identity objectType realmID identifier := by
  constructor
  · intro h
    simp only [decode] at h
    split_ifs at h with hprefix
    obtain ⟨rest, rfl⟩ := isPrefixOf_iff_prefix.mp hprefix
    rw [drop_left] at h
    split at h
    · cases h
    rename_i a b hcut
    obtain ⟨rfl, -⟩ := eq_of_cut hcut
    split_ifs at h
    obtain ⟨ha, hb, heq⟩ := validate_both.mp h
    obtain ⟨rfl, rfl⟩ := Prod.mk.inj heq
    exact ⟨ha, hb, by simp [identity]⟩
  · rintro ⟨hrealm, hidentifier, rfl⟩
    have hsplit : identity objectType realmID identifier
        = (objectType ++ [byte ':']) ++ (realmID ++ byte '|' :: identifier) := by simp [identity]
    have hprefix : (objectType ++ [byte ':']).isPrefixOf
        ((objectType ++ [byte ':']) ++ (realmID ++ byte '|' :: identifier)) = true :=
      isPrefixOf_iff_prefix.mpr (prefix_append _ _)
    simp only [decode, hsplit, hprefix, if_true, drop_left, cut_append hrealm.1,
      hidentifier.1, if_false]
    exact validate_both.mpr ⟨hrealm, hidentifier, rfl⟩

/-- **Decoding undoes encoding.** -/
theorem decode_encode (h : encode objectType realmID value = .ok v) :
    decode typeName objectType v = .ok (realmID, value) :=
  decode_ok.mpr (encode_ok.mp h)

/-- **Encoding undoes decoding.** -/
theorem encode_decode (h : decode typeName objectType v = .ok (realmID, identifier)) :
    encode objectType realmID identifier = .ok v :=
  encode_ok.mpr (decode_ok.mp h)

/-! ### What an encoded value is -/

theorem plainStr_append_ascii {a b : Str} {x : UInt8} (hx : x < 0x80) (hplain : Plain x.toNat)
    (ha : PlainStr a) (hb : PlainStr b) : PlainStr (a ++ x :: b) := by
  intro chr hchr
  rw [runes_append_ascii hx, map_append, map_cons, mem_append, mem_cons] at hchr
  rcases hchr with hchr | rfl | hchr
  · exact ha chr hchr
  · exact hplain
  · rw [runesFrom_map_snd _ 0] at hchr
    exact hb chr hchr

/-- **An encoded value is an object**, and neither a typed wildcard nor a userset. -/
theorem encode_wellFormed (htype : objectType ≠ [])
    (hplain : PlainStr objectType) (h : encode objectType realmID value = .ok v) :
    isValidObject v = true ∧ isTypedWildcard v = false ∧ isValidUserset v = false := by
  obtain ⟨hrealm, hvalue, rfl⟩ := encode_ok.mp h
  have hid : identity objectType realmID value
      = buildObject objectType (realmID ++ byte '|' :: value) := by simp [identity, buildObject]
  have hplainID : PlainStr (realmID ++ byte '|' :: value) :=
    plainStr_append_ascii (by decide) (by decide) hrealm.2.2 hvalue.2.2
  have hvalid : isValidObject (identity objectType realmID value) = true :=
    isValidObject_iff.mpr ⟨_, _, hid, htype, by simp, hplain, hplainID⟩
  refine ⟨hvalid, ?_, ?_⟩
  · -- the identifier contains the separator
    rw [isTypedWildcard, hid, splitObject_build hplain.no_colon, decide_eq_false_iff_not]
    rintro ⟨-, hwildcard⟩
    have hsep : byte '|' ∈ wildcard := by
      rw [← hwildcard]
      exact mem_append_right _ mem_cons_self
    exact absurd hsep (by decide)
  · -- a userset contains a hash
    refine Bool.eq_false_iff.mpr fun huserset => ?_
    obtain ⟨a, b, c, heq, -⟩ := isValidUserset_iff.mp huserset
    have hhash : byte '#' ∈ identity objectType realmID value := by
      rw [heq]
      exact mem_append_right _ mem_cons_self
    rw [hid] at hhash
    simp only [buildObject, mem_append, mem_cons] at hhash
    rcases hhash with hhash | hhash | hhash
    · exact hplain.no_hash hhash
    · exact absurd hhash (by decide)
    · exact hplainID.no_hash (by simpa using hhash)

/-- The types of the encoded objects. -/
def types : List Str := [subjectType, organizationType]

theorem plain_types : ∀ t ∈ types, t ≠ [] ∧ PlainStr t := by
  refine forall_mem_cons.mpr ⟨⟨by decide, ?_⟩, forall_mem_singleton.mpr ⟨by decide, ?_⟩⟩
  · exact (isValidUserID_iff.mp (by decide)).2
  · exact (isValidUserID_iff.mp (by decide)).2

/-- Two encodings are equal only if all three parts are. -/
theorem encode_injective {t t' r r' s s' : Str} (ht : t ∈ types) (ht' : t' ∈ types)
    (h : encode t r s = .ok v) (h' : encode t' r' s' = .ok v) : t = t' ∧ r = r' ∧ s = s' := by
  obtain ⟨hr, -, rfl⟩ := encode_ok.mp h
  obtain ⟨hr', -, heq⟩ := encode_ok.mp h'
  have hcolon : ∀ {t r s : Str}, t ∈ types →
      cut (byte ':') (identity t r s) = some (t, r ++ byte '|' :: s) := by
    intro t r s ht
    have hsplit : identity t r s = t ++ byte ':' :: (r ++ byte '|' :: s) := by simp [identity]
    rw [hsplit, cut_append (plain_types t ht).2.no_colon]
  have hparts := (hcolon ht).symm.trans ((congrArg _ heq).trans (hcolon ht'))
  obtain ⟨rfl, hrest⟩ := Prod.mk.inj (Option.some.inj hparts)
  have hcut := (cut_append hr.1 s).symm.trans ((congrArg _ hrest).trans (cut_append hr'.1 s'))
  exact ⟨rfl, Prod.mk.inj (Option.some.inj hcut)⟩

/-- **Identities are unambiguous.**  Encoding and decoding undo each other, for subjects and for
organizations; an encoded value determines the type, the realm and the identifier; and it is a valid
object that is neither a typed wildcard nor a userset. -/
theorem identities_unambiguous :
    (∀ r s v, encodeSubject r s = .ok v → decodeSubject v = .ok (r, s))
    ∧ (∀ v r s, decodeSubject v = .ok (r, s) → encodeSubject r s = .ok v)
    ∧ (∀ r o v, encodeOrganization r o = .ok v → decodeOrganization v = .ok (r, o))
    ∧ (∀ v r o, decodeOrganization v = .ok (r, o) → encodeOrganization r o = .ok v)
    ∧ (∀ t ∈ types, ∀ t' ∈ types, ∀ r s r' s' v, encode t r s = .ok v → encode t' r' s' = .ok v →
        t = t' ∧ r = r' ∧ s = s')
    ∧ ∀ t ∈ types, ∀ r s v, encode t r s = .ok v →
        isValidObject v = true ∧ isTypedWildcard v = false ∧ isValidUserset v = false := by
  refine ⟨fun r s v h => decode_encode h, fun v r s h => encode_decode h,
    fun r o v h => decode_encode h, fun v r o h => encode_decode h, ?_, ?_⟩
  · intro t ht t' ht' r s r' s' v h h'
    exact encode_injective ht ht' h h'
  · intro t ht r s v h
    exact encode_wellFormed (plain_types t ht).1 (plain_types t ht).2 h

/-- A realm and a subject, the subject not valid UTF-8. -/
theorem identities_unambiguous_invalid_utf8 :
    ∃ v, encodeSubject (str "realm") [0xFF, 0xC2] = .ok v
      ∧ decodeSubject v = .ok (str "realm", [0xFF, 0xC2]) ∧ isValidObject v = true :=
  ⟨_, rfl, identities_unambiguous.1 _ _ _ rfl,
    (identities_unambiguous.2.2.2.2.2 subjectType (by decide) (str "realm") [0xFF, 0xC2] _ rfl).1⟩

end Kengen.Identity
