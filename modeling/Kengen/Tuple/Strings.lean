import Kengen.Lib.Strings

/-!
# Objects, relations and users as strings

The functions of `pkg/tuple` that take object and user strings apart, and the ones that say which
strings are well formed.  The validators are loops over the characters of a string.

* `splitObject`, `splitObjectRelation`, `toUserParts` — the parts of an object, a userset, a user.
* `isValidObject`, `isValidRelation`, `isValidUserID`, `isValidUserset`, `isValidUser`.
* **`isValidObject_iff`** — a valid object is a type and an identifier, both nonempty and without
  separators, spaces and control characters.
* **`isValidUserset_iff`** — a valid userset is a type, an identifier and a relation of such
  characters.
* **`userID_of_isValidUser`** — a valid user has an identifier.
* **`splitObject_injective`** — a valid object is determined by its two parts.
-/

namespace Kengen.Tuple

open Strings List

/-! ### Taking strings apart -/

/-- `SplitObject`. -/
def splitObject (object : Str) : Str × Str :=
  match cut (byte ':') object with
  | none => ([], object)
  | some p => p

/-- `BuildObject`. -/
def buildObject (objectType objectID : Str) : Str := objectType ++ byte ':' :: objectID

/-- `SplitObjectRelation`. -/
def splitObjectRelation (objectRelation : Str) : Str × Str :=
  match cutLast (byte '#') objectRelation with
  | none => (objectRelation, [])
  | some p => p

/-- `GetType`. -/
def getType (objectID : Str) : Str := (splitObject objectID).1

/-- `GetRelation`. -/
def getRelation (objectRelation : Str) : Str := (splitObjectRelation objectRelation).2

/-- `ToObjectRelationString`. -/
def toObjectRelationString (object relation : Str) : Str := object ++ byte '#' :: relation

/-- `ToUserParts`: the type, the identifier and the relation of a user. -/
def toUserParts (user : Str) : Str × Str × Str :=
  let objectRelation := splitObjectRelation user
  let object := splitObject objectRelation.1
  (object.1, object.2, objectRelation.2)

/-! ### Validators -/

/-- The code of an ASCII character. -/
def code (c : Char) : ℕ := c.toNat

/-- `unicode.IsControl`. -/
def isControl (chr : ℕ) : Bool := decide (chr < 0x20) || decide (0x7F ≤ chr ∧ chr ≤ 0x9F)

/-- The loop of `IsValidObject`. -/
def validObjectLoop : ℕ → ℕ → List (ℕ × ℕ) → Bool
  | _, idLen, [] => decide (0 < idLen)
  | state, idLen, (ndx, chr) :: rest =>
    if isControl chr then false
    else if chr = code '#' ∨ chr = code ' ' then false
    else if chr = code ':' then
      if 0 < state ∨ ndx = 0 then false else validObjectLoop 1 idLen rest
    else validObjectLoop state (idLen + state) rest

/-- `IsValidObject`. -/
def isValidObject (s : Str) : Bool := validObjectLoop 0 0 (runes s)

/-- The loop of `IsValidRelation` and `IsValidUserID`, which differ in what they refuse. -/
def validNameLoop (refused : List ℕ) : ℕ → List (ℕ × ℕ) → Bool
  | count, [] => decide (0 < count)
  | count, (_, chr) :: rest =>
    if isControl chr then false
    else if chr ∈ refused then false
    else validNameLoop refused (count + 1) rest

/-- `IsValidRelation`. -/
def isValidRelation (s : Str) : Bool :=
  validNameLoop [code '#', code ':', code '@', code ' '] 0 (runes s)

/-- `IsValidUserID`. -/
def isValidUserID (s : Str) : Bool := validNameLoop [code '#', code ':', code ' '] 0 (runes s)

/-- The loop of `IsValidUserset`. -/
def validUsersetLoop : ℕ → ℕ → ℕ → List (ℕ × ℕ) → Bool
  | _, _, relLen, [] => decide (0 < relLen)
  | state, idLen, relLen, (ndx, chr) :: rest =>
    if isControl chr then false
    else if chr = code ':' then
      if 0 < state ∨ ndx = 0 then false else validUsersetLoop 1 idLen relLen rest
    else if chr = code '#' then
      if 1 < state ∨ idLen = 0 then false else validUsersetLoop 2 idLen relLen rest
    else if chr = code ' ' then false
    else if chr = code '*' then
      if 0 < state then false else validUsersetLoop state idLen relLen rest
    else if state = 1 then validUsersetLoop state (idLen + 1) relLen rest
    else if state = 2 then validUsersetLoop state idLen (relLen + 1) rest
    else validUsersetLoop state idLen relLen rest

/-- `IsValidUserset`. -/
def isValidUserset (s : Str) : Bool := validUsersetLoop 0 0 0 (runes s)

/-- `Wildcard`. -/
def wildcard : Str := str "*"

/-- `IsValidUser`. -/
def isValidUser (user : Str) : Bool :=
  decide (user = wildcard) || isValidUserID user || isValidObject user || isValidUserset user

/-- `IsTypedWildcard`. -/
def isTypedWildcard (s : Str) : Bool :=
  decide ((splitObject s).1 ≠ [] ∧ (splitObject s).2 = wildcard)

/-- `IsWildcard`. -/
def isWildcard (s : Str) : Bool := decide (s = wildcard) || isTypedWildcard s

/-- `GetUserTypeFromUser` is `UserSet`. -/
def isUserSet (user : Str) : Bool := isValidUserset user || isWildcard user

/-! ### What the loops accept -/

/-- A character that is neither a control character nor a separator nor a space. -/
def Plain (chr : ℕ) : Prop :=
  isControl chr = false ∧ chr ≠ code '#' ∧ chr ≠ code ' ' ∧ chr ≠ code ':'

instance (chr : ℕ) : Decidable (Plain chr) :=
  inferInstanceAs (Decidable (_ ∧ _ ∧ _ ∧ _))

/-- A string of plain characters. -/
def PlainStr (s : Str) : Prop := ∀ chr ∈ (runes s).map Prod.snd, Plain chr

variable {s : Str}

/-- A property of the characters of a string does not depend on where it stands. -/
theorem forall_runes_iff (P : ℕ → Prop) (ndx : ℕ) :
    (∀ chr ∈ (runes s).map Prod.snd, P chr) ↔ ∀ p ∈ runesFrom ndx 0 s, P p.2 := by
  rw [runes, runesFrom_map_snd 0 ndx, forall_mem_map]

/-- The characters of a string without an ASCII byte. -/
theorem forall_ne_iff {x : UInt8} (hx : x < 0x80) (ndx : ℕ) :
    (∀ p ∈ runesFrom ndx 0 s, p.2 ≠ x.toNat) ↔ x ∉ s := by
  rw [← forall_runes_iff (· ≠ x.toNat), ← mem_runes_ascii hx, forall_mem_map]
  constructor
  · rintro h ⟨i, hi⟩
    exact h _ hi rfl
  · rintro h ⟨i, chr⟩ hp rfl
    exact h ⟨i, hp⟩

theorem plainStr_iff (ndx : ℕ) : PlainStr s ↔ ∀ p ∈ runesFrom ndx 0 s, Plain p.2 :=
  forall_runes_iff Plain ndx

/-- An ASCII byte that is not plain is not in a plain string. -/
theorem PlainStr.not_mem (h : PlainStr s) {x : UInt8} (hx : x < 0x80)
    (hplain : ¬ Plain x.toNat) : x ∉ s :=
  (forall_ne_iff hx 0).mp fun p hp heq => hplain (heq ▸ (plainStr_iff 0).mp h p hp)

theorem PlainStr.no_colon (h : PlainStr s) : byte ':' ∉ s :=
  h.not_mem (by decide) fun hplain => hplain.2.2.2 (by decide)

theorem PlainStr.no_hash (h : PlainStr s) : byte '#' ∉ s :=
  h.not_mem (by decide) fun hplain => hplain.2.1 (by decide)

theorem runesFrom_eq_nil {ndx : ℕ} : runesFrom ndx 0 s = [] ↔ s = [] := by
  cases s with
  | nil => simp [runesFrom]
  | cons b s => simp [runesFrom]

variable {l rest : List (ℕ × ℕ)} {state idLen relLen ndx : ℕ} {p : ℕ × ℕ}

theorem validObjectLoop_other (h : p.2 ≠ code ':') :
    validObjectLoop state idLen (p :: l) = true
      ↔ Plain p.2 ∧ validObjectLoop state (idLen + state) l = true := by
  simp only [validObjectLoop, h, if_false, Plain]
  split_ifs with hcontrol hrefused <;> simp_all
  tauto

theorem validObjectLoop_colon :
    validObjectLoop state idLen ((ndx, code ':') :: l) = true
      ↔ state = 0 ∧ ndx ≠ 0 ∧ validObjectLoop 1 idLen l = true := by
  have hcontrol : isControl (code ':') = false := by decide
  have hother : ¬ (code ':' = code '#' ∨ code ':' = code ' ') := by decide
  simp only [validObjectLoop, hcontrol, hother, if_false, if_true, Bool.false_eq_true]
  split_ifs with h <;> simp_all
  omega

/-- Before the colon the loop of `IsValidObject` counts nothing. -/
theorem validObjectLoop_before (h : ∀ p ∈ l, p.2 ≠ code ':') :
    validObjectLoop 0 idLen (l ++ rest) = true
      ↔ (∀ p ∈ l, Plain p.2) ∧ validObjectLoop 0 idLen rest = true := by
  induction l with
  | nil => simp
  | cons p l ih =>
    obtain ⟨hp, hl⟩ := forall_mem_cons.mp h
    rw [cons_append, validObjectLoop_other hp, Nat.add_zero, ih hl, forall_mem_cons,
      and_assoc]

/-- After the colon the loop counts plain characters. -/
theorem validObjectLoop_after :
    validObjectLoop 1 idLen l = true ↔ (∀ p ∈ l, Plain p.2) ∧ 0 < idLen + l.length := by
  induction l generalizing idLen with
  | nil => simp [validObjectLoop]
  | cons p l ih =>
    rw [forall_mem_cons, length_cons]
    by_cases hp : p.2 = code ':'
    · obtain ⟨ndx, chr⟩ := p
      obtain rfl : chr = code ':' := hp
      simp [validObjectLoop_colon, Plain]
    · rw [validObjectLoop_other hp, ih, and_assoc, Nat.add_right_comm, Nat.add_assoc]

/-- **A valid object**: a type and an identifier of plain characters. -/
theorem isValidObject_iff : isValidObject s = true ↔
    ∃ a b, s = buildObject a b ∧ a ≠ [] ∧ b ≠ [] ∧ PlainStr a ∧ PlainStr b := by
  have hascii : byte ':' < 0x80 := by decide
  have hcode : (byte ':').toNat = code ':' := by decide
  have hbuild : ∀ {a b : Str}, byte ':' ∉ a → (isValidObject (buildObject a b) = true
      ↔ a ≠ [] ∧ b ≠ [] ∧ PlainStr a ∧ PlainStr b) := by
    intro a b ha
    rw [isValidObject, buildObject, runes_append_ascii hascii, hcode,
      validObjectLoop_before (hcode ▸ (forall_ne_iff hascii 0).mpr ha), validObjectLoop_colon,
      validObjectLoop_after, plainStr_iff 0, plainStr_iff (a.length + 1), Nat.zero_add,
      length_pos_iff]
    simp only [ne_eq, runesFrom_eq_nil, length_eq_zero_iff, runes]
    tauto
  constructor
  · intro h
    cases hcut : cut (byte ':') s with
    | none =>
      -- without a colon nothing is counted
      rw [isValidObject, ← append_nil (runes s), validObjectLoop_before
        (hcode ▸ (forall_ne_iff hascii 0).mpr (cut_eq_none.mp hcut))] at h
      exact absurd h.2 (by decide)
    | some p =>
      obtain ⟨rfl, ha⟩ := eq_of_cut hcut
      exact ⟨p.1, p.2, rfl, (hbuild ha).mp h⟩
  · rintro ⟨a, b, rfl, h⟩
    exact (hbuild h.2.2.1.no_colon).mpr h

/-- **A valid name**: characters that the validator does not refuse, at least one. -/
theorem validNameLoop_iff {refused : List ℕ} {count : ℕ} :
    validNameLoop refused count l = true ↔
      0 < count + l.length ∧ ∀ p ∈ l, isControl p.2 = false ∧ p.2 ∉ refused := by
  induction l generalizing count with
  | nil => simp [validNameLoop]
  | cons q l ih =>
    simp only [validNameLoop]
    by_cases hcontrol : isControl q.2 = true
    · simp [hcontrol]
    · by_cases hrefused : q.2 ∈ refused
      · simp [hcontrol, hrefused]
      · simp only [hcontrol, hrefused, if_false, Bool.false_eq_true, ih, length_cons,
          forall_mem_cons, Bool.eq_false_iff, ne_eq, not_false_eq_true, true_and]
        constructor
        · exact fun h => ⟨by omega, h.2⟩
        · exact fun h => ⟨by omega, h.2⟩

/-- A valid user identifier is a nonempty string of plain characters. -/
theorem isValidUserID_iff : isValidUserID s = true ↔ s ≠ [] ∧ PlainStr s := by
  rw [isValidUserID, validNameLoop_iff]
  have hlength : 0 < 0 + (runes s).length ↔ s ≠ [] := by
    rw [Nat.zero_add, length_pos_iff, ne_eq, ne_eq, runes, runesFrom_eq_nil]
  rw [hlength]
  refine and_congr_right fun _ => ?_
  simp only [PlainStr, forall_mem_map, Plain, mem_cons, not_mem_nil, or_false, not_or]
  refine forall₂_congr fun p _ => ?_
  tauto

theorem validUsersetLoop_colon :
    validUsersetLoop state idLen relLen ((ndx, code ':') :: l) = true
      ↔ state = 0 ∧ ndx ≠ 0 ∧ validUsersetLoop 1 idLen relLen l = true := by
  have hcontrol : isControl (code ':') = false := by decide
  simp only [validUsersetLoop, hcontrol, if_false, if_true, Bool.false_eq_true]
  split_ifs with h <;> simp_all
  omega

theorem validUsersetLoop_hash :
    validUsersetLoop state idLen relLen ((ndx, code '#') :: l) = true
      ↔ state ≤ 1 ∧ idLen ≠ 0 ∧ validUsersetLoop 2 idLen relLen l = true := by
  have hcontrol : isControl (code '#') = false := by decide
  have hne : ¬ code '#' = code ':' := by decide
  simp only [validUsersetLoop, hcontrol, hne, if_false, if_true, Bool.false_eq_true]
  split_ifs with h <;> simp_all
  omega

/-- A character that separates nothing is plain, no asterisk after the type, and is counted by the
part it stands in. -/
theorem validUsersetLoop_other (hcolon : p.2 ≠ code ':') (hhash : p.2 ≠ code '#') :
    validUsersetLoop state idLen relLen (p :: l) = true
      ↔ (Plain p.2 ∧ (p.2 = code '*' → state = 0))
        ∧ validUsersetLoop state (idLen + if state = 1 then 1 else 0)
          (relLen + if state = 2 then 1 else 0) l = true := by
  simp only [validUsersetLoop, Plain, hcolon, hhash, if_false]
  split_ifs <;> simp_all [Nat.pos_iff_ne_zero]

/-- **A part of a userset** is read by the state it stands in: the separators that do not end it are
refused, and its characters are counted. -/
theorem validUsersetLoop_part (hcolon : state = 0 → ∀ p ∈ l, p.2 ≠ code ':')
    (hhash : state = 1 → ∀ p ∈ l, p.2 ≠ code '#') (hid : state = 0 → idLen = 0) :
    validUsersetLoop state idLen relLen (l ++ rest) = true
      ↔ (∀ p ∈ l, Plain p.2 ∧ (p.2 = code '*' → state = 0))
        ∧ validUsersetLoop state (idLen + if state = 1 then l.length else 0)
          (relLen + if state = 2 then l.length else 0) rest = true := by
  induction l generalizing idLen relLen with
  | nil => simp
  | cons p l ih =>
    obtain ⟨ndx, chr⟩ := p
    rw [forall_mem_cons, cons_append]
    by_cases hc : chr = code ':'
    · subst hc
      have hstate : state ≠ 0 := fun h => hcolon h _ mem_cons_self rfl
      simp [validUsersetLoop_colon, hstate, Plain]
    by_cases hh : chr = code '#'
    · subst hh
      have hstate : ¬ (state ≤ 1 ∧ idLen ≠ 0) := by
        rintro ⟨hle, hne⟩
        rcases Nat.le_one_iff_eq_zero_or_eq_one.mp hle with h | h
        · exact hne (hid h)
        · exact hhash h _ mem_cons_self rfl
      rw [validUsersetLoop_hash, ← and_assoc]
      simp [hstate, Plain]
    rw [validUsersetLoop_other hc hh, ih (fun h => (forall_mem_cons.mp (hcolon h)).2)
      (fun h => (forall_mem_cons.mp (hhash h)).2) (fun h => by simp [h, hid h])]
    have hlength : ∀ n k : ℕ, (n + if state = k then 1 else 0) + (if state = k then l.length else 0)
        = n + if state = k then ((ndx, chr) :: l).length else 0 := by
      intro n k
      rw [length_cons]
      split <;> omega
    rw [hlength, hlength]
    exact and_assoc.symm

/-- The parts after the type are read as names without an asterisk. -/
theorem plainStr_no_star_iff (hstate : state ≠ 0) (ndx : ℕ) :
    (∀ p ∈ runesFrom ndx 0 s, Plain p.2 ∧ (p.2 = code '*' → state = 0))
      ↔ PlainStr s ∧ byte '*' ∉ s := by
  rw [plainStr_iff ndx, ← forall_ne_iff (by decide) ndx, ← forall₂_and]
  simp only [hstate, imp_false]
  rfl

/-- **A valid userset**: a type, an identifier and a relation of plain characters, the latter two
without an asterisk. -/
theorem isValidUserset_iff : isValidUserset s = true ↔
    ∃ a b c, s = toObjectRelationString (buildObject a b) c ∧ (a ≠ [] ∧ b ≠ [] ∧ c ≠ [])
      ∧ PlainStr a ∧ (PlainStr b ∧ byte '*' ∉ b) ∧ PlainStr c ∧ byte '*' ∉ c := by
  have hcolon : byte ':' < 0x80 := by decide
  have hhash : byte '#' < 0x80 := by decide
  have hcolonCode : (byte ':').toNat = code ':' := rfl
  have hhashCode : (byte '#').toNat = code '#' := rfl
  have htype : ∀ {a rest}, byte ':' ∉ a → (validUsersetLoop 0 0 0 (runes a ++ rest) = true
      ↔ PlainStr a ∧ validUsersetLoop 0 0 0 rest = true) := by
    intro a rest ha
    refine (validUsersetLoop_part (fun _ => (forall_ne_iff hcolon 0).mpr ha)
      (fun h => absurd h (by decide)) fun _ => rfl).trans ?_
    simp [plainStr_iff 0]
  have hid : ∀ {b rest ndx}, byte '#' ∉ b →
      (validUsersetLoop 1 0 0 (runesFrom ndx 0 b ++ rest) = true ↔ (PlainStr b ∧ byte '*' ∉ b)
        ∧ validUsersetLoop 1 (runesFrom ndx 0 b).length 0 rest = true) := by
    intro b rest ndx hb
    refine (validUsersetLoop_part (fun h => absurd h (by decide))
      (fun _ => (forall_ne_iff hhash ndx).mpr hb) fun h => absurd h (by decide)).trans ?_
    rw [plainStr_no_star_iff Nat.one_ne_zero]
    simp
  have hrelation : ∀ {c idLen ndx}, (validUsersetLoop 2 idLen 0 (runesFrom ndx 0 c) = true
      ↔ (PlainStr c ∧ byte '*' ∉ c) ∧ c ≠ []) := by
    intro c idLen ndx
    rw [← append_nil (runesFrom ndx 0 c)]
    refine (validUsersetLoop_part (fun h => absurd h (by decide)) (fun h => absurd h (by decide))
      fun h => absurd h (by decide)).trans ?_
    rw [plainStr_no_star_iff (by decide)]
    simp [validUsersetLoop, length_pos_iff, runesFrom_eq_nil]
  have hbuild : ∀ {a b c}, byte ':' ∉ a → byte '#' ∉ b →
      (isValidUserset (a ++ byte ':' :: (b ++ byte '#' :: c)) = true ↔ (a ≠ [] ∧ b ≠ [] ∧ c ≠ [])
        ∧ PlainStr a ∧ (PlainStr b ∧ byte '*' ∉ b) ∧ PlainStr c ∧ byte '*' ∉ c) := by
    intro a b c ha hb
    rw [isValidUserset, runes_append_ascii hcolon, htype ha, hcolonCode, validUsersetLoop_colon,
      runesFrom_append_ascii hhash b c (Nat.zero_le _), hid hb, hhashCode, validUsersetLoop_hash,
      hrelation]
    simp only [ne_eq, length_eq_zero_iff, runesFrom_eq_nil]
    tauto
  constructor
  · intro h
    cases hcut : cut (byte ':') s with
    | none =>
      -- without a colon no relation is counted
      rw [isValidUserset, ← append_nil (runes s), htype (cut_eq_none.mp hcut)] at h
      exact absurd h.2 (by decide)
    | some p =>
      obtain ⟨rfl, ha⟩ := eq_of_cut hcut
      cases hcut' : cut (byte '#') p.2 with
      | none =>
        -- and neither without a hash
        rw [isValidUserset, runes_append_ascii hcolon, htype ha, hcolonCode, validUsersetLoop_colon,
          ← append_nil (runesFrom _ 0 p.2), hid (cut_eq_none.mp hcut')] at h
        exact absurd h.2.2.2.2 (by simp [validUsersetLoop])
      | some q =>
        obtain ⟨heq, hb⟩ := eq_of_cut hcut'
        rw [heq] at h ⊢
        exact ⟨p.1, q.1, q.2, by simp [toObjectRelationString, buildObject], (hbuild ha hb).mp h⟩
  · rintro ⟨a, b, c, rfl, h⟩
    rw [toObjectRelationString, buildObject, append_assoc, cons_append]
    exact (hbuild h.2.1.no_colon h.2.2.1.1.no_hash).mpr h

/-! ### Valid keys -/

theorem splitObject_build {a : Str} (ha : byte ':' ∉ a) (b : Str) :
    splitObject (buildObject a b) = (a, b) := by
  rw [splitObject, buildObject, cut_append ha]

theorem splitObject_of_no_colon (h : byte ':' ∉ s) : splitObject s = ([], s) := by
  rw [splitObject, cut_eq_none.mpr h]

theorem splitObjectRelation_of_no_hash (h : byte '#' ∉ s) : splitObjectRelation s = (s, []) := by
  rw [splitObjectRelation, cutLast_eq_none.mpr h]

theorem splitObjectRelation_build {b : Str} (hb : byte '#' ∉ b) (a : Str) :
    splitObjectRelation (toObjectRelationString a b) = (a, b) := by
  rw [splitObjectRelation, toObjectRelationString, cutLast_append hb]

/-- The two parts of a valid object. -/
theorem splitObject_of_isValidObject (h : isValidObject s = true) :
    (splitObject s).1 ≠ [] ∧ (splitObject s).2 ≠ []
      ∧ buildObject (splitObject s).1 (splitObject s).2 = s := by
  obtain ⟨a, b, rfl, ha, hb, hplaina, -⟩ := isValidObject_iff.mp h
  rw [splitObject_build hplaina.no_colon]
  exact ⟨ha, hb, rfl⟩

theorem no_hash_of_isValidObject (h : isValidObject s = true) : byte '#' ∉ s := by
  obtain ⟨a, b, rfl, -, -, hplaina, hplainb⟩ := isValidObject_iff.mp h
  simp only [buildObject, mem_append, mem_cons, not_or]
  exact ⟨hplaina.no_hash, by decide, hplainb.no_hash⟩

/-- **A valid object is determined by its parts.** -/
theorem splitObject_injective {t : Str} (hs : isValidObject s = true) (ht : isValidObject t = true)
    (h : splitObject s = splitObject t) : s = t := by
  rw [← (splitObject_of_isValidObject hs).2.2, ← (splitObject_of_isValidObject ht).2.2, h]

/-- **A valid user has an identifier.** -/
theorem userID_of_isValidUser {user : Str} (h : isValidUser user = true) :
    (toUserParts user).2.1 ≠ [] := by
  simp only [isValidUser, Bool.or_eq_true, decide_eq_true_eq] at h
  rcases h with ((rfl | h) | h) | h
  · decide
  · obtain ⟨hne, hplain⟩ := isValidUserID_iff.mp h
    rw [toUserParts, splitObjectRelation_of_no_hash hplain.no_hash]
    show (splitObject user).2 ≠ []
    rw [splitObject_of_no_colon hplain.no_colon]
    exact hne
  · rw [toUserParts, splitObjectRelation_of_no_hash (no_hash_of_isValidObject h)]
    exact (splitObject_of_isValidObject h).2.1
  · obtain ⟨a, b, c, rfl, hne, ha, -, hc⟩ := isValidUserset_iff.mp h
    rw [toUserParts, splitObjectRelation_build hc.1.no_hash]
    show (splitObject (buildObject a b)).2 ≠ []
    rw [splitObject_build ha.no_colon]
    exact hne.2.1

end Kengen.Tuple
