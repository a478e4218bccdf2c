import Kengen.Model.Graph

/-!
# Check requests and their contextual tuples

A request carries contextual tuples beside the question.  `request.go` indexes
them twice: by user, sorted by object, and by object, sorted by user.  The
first tuple of a key wins.  The index is translated with the insertion that
builds it.

* **`insertAll_spec`** — a tuple is in an index exactly if it is the first of its key.
* **`Request.mem_byUser`** — the lookup by user in these terms.
-/

namespace Kengen

open List

/-- A check request. -/
structure Request where
  object : Object
  relation : String
  user : User
  contextualTuples : List TupleKey := []
  context : String := ""
deriving DecidableEq, Repr

/-- `GetUserType`. -/
def Request.userType (r : Request) : UserType := r.user.userType

/-- `IsTypedWildcard`. -/
def Request.isTypedWildcard (r : Request) : Bool := r.user.isTypedWildcard

/-- `cloneWithTupleKey`: another question of the same user in the same context. -/
def Request.cloneWithTupleKey (r : Request) (object : Object) (relation : String) : Request :=
  { r with object := object, relation := relation }

/-! ### The index of contextual tuples -/

section Index

variable {α κ : Type} [LinearOrder κ] (key : α → κ)

/-- `insertSortedTuple`: insert before the first entry that is not smaller, unless
that entry has the same key. -/
def insertSortedTuple : List α → α → List α
  | [], t => [t]
  | s :: slice, t =>
    if key t ≤ key s then
      if key s = key t then s :: slice else t :: s :: slice
    else s :: insertSortedTuple slice t

/-- `buildContextualTupleMaps` for one map entry: insert tuple after tuple. -/
def insertAll (ts : List α) : List α :=
  ts.foldl (insertSortedTuple key) []

theorem mem_insertSortedTuple (slice : List α) (t s : α)
    (hsorted : slice.Pairwise fun a b => key a < key b) :
    s ∈ insertSortedTuple key slice t ↔ s ∈ slice ∨ (s = t ∧ ∀ u ∈ slice, key u ≠ key t) := by
  induction slice with
  | nil => simp [insertSortedTuple]
  | cons u slice ih =>
    obtain ⟨hu, hslice⟩ := pairwise_cons.mp hsorted
    unfold insertSortedTuple
    by_cases hle : key t ≤ key u
    · by_cases heq : key u = key t
      · simp [heq]
      · -- strictly below the first entry, hence below all of them
        have hne : ∀ w ∈ slice, key w ≠ key t := fun w hw h =>
          absurd (hu w hw) (not_lt.mpr (h ▸ hle))
        rw [forall_mem_cons]
        simp only [hle, heq, if_true, if_false, mem_cons]
        constructor
        · rintro (rfl | rfl | hs)
          · exact .inr ⟨rfl, fun h => heq h, hne⟩
          · exact .inl (.inl rfl)
          · exact .inl (.inr hs)
        · rintro ((rfl | hs) | ⟨rfl, -⟩)
          · exact .inr (.inl rfl)
          · exact .inr (.inr hs)
          · exact .inl rfl
    · have hne : key u ≠ key t := fun h => hle h.ge
      rw [forall_mem_cons]
      simp only [hle, if_false, mem_cons, ih hslice]
      constructor
      · rintro (rfl | hs | ⟨rfl, hs⟩)
        · exact .inl (.inl rfl)
        · exact .inl (.inr hs)
        · exact .inr ⟨rfl, hne, hs⟩
      · rintro ((rfl | hs) | ⟨rfl, -, hs⟩)
        · exact .inl rfl
        · exact .inr (.inl hs)
        · exact .inr (.inr ⟨rfl, hs⟩)

theorem insertSortedTuple_sorted (slice : List α) (t : α)
    (hsorted : slice.Pairwise fun a b => key a < key b) :
    (insertSortedTuple key slice t).Pairwise fun a b => key a < key b := by
  induction slice with
  | nil => simp [insertSortedTuple]
  | cons u slice ih =>
    obtain ⟨hu, hslice⟩ := pairwise_cons.mp hsorted
    unfold insertSortedTuple
    split
    · split
      · exact hsorted
      · rename_i hle hne
        have hlt : key t < key u := lt_of_le_of_ne hle (Ne.symm hne)
        refine pairwise_cons.mpr ⟨fun w hw => ?_, hsorted⟩
        rcases mem_cons.mp hw with rfl | hw
        · exact hlt
        · exact hlt.trans (hu w hw)
    · rename_i hle
      refine pairwise_cons.mpr ⟨fun w hw => ?_, ih hslice⟩
      rcases (mem_insertSortedTuple key slice t w hslice).mp hw with hw | ⟨rfl, -⟩
      · exact hu w hw
      · exact not_le.mp hle

/-- **An index is strictly sorted, and holds the first tuple of each key.** -/
theorem insertAll_spec (ts : List α) :
    (insertAll key ts).Pairwise (fun a b => key a < key b)
      ∧ ∀ t, t ∈ insertAll key ts ↔ ts.find? (fun s => decide (key s = key t)) = some t := by
  induction ts using List.reverseRecOn with
  | nil => simp [insertAll]
  | append_singleton ts u ih =>
    obtain ⟨hsorted, hmem⟩ := ih
    have hstep : insertAll key (ts ++ [u]) = insertSortedTuple key (insertAll key ts) u := by
      simp [insertAll]
    rw [hstep]
    refine ⟨insertSortedTuple_sorted key _ u hsorted, fun t => ?_⟩
    rw [mem_insertSortedTuple key _ u t hsorted, hmem t, find?_append]
    rcases hfind : ts.find? (fun s => decide (key s = key t)) with _ | w
    · -- no earlier tuple of this key: the new one is inserted
      have hnone : ∀ w ∈ insertAll key ts, key w ≠ key t := by
        intro w hw hwt
        have hwts := mem_of_find?_eq_some ((hmem w).mp hw)
        have := find?_eq_none.mp hfind w hwts
        simp [hwt] at this
      by_cases hut : key u = key t
      · simp only [reduceCtorEq, false_or, Option.none_or, find?_cons, hut, decide_true,
          Option.some.injEq]
        exact ⟨fun h => h.1.symm, fun h => ⟨h.symm, hnone⟩⟩
      · have hne : t ≠ u := fun h => hut (by rw [h])
        simp [hut, hne]
    · -- an earlier tuple of this key stays
      have hwt : key w = key t := by simpa using find?_some hfind
      have hw : w ∈ insertAll key ts := by rw [hmem w, hwt, hfind]
      simp only [Option.some.injEq, Option.some_or, or_iff_left_iff_imp, and_imp]
      intro htu hall
      exact absurd (hwt.trans (congrArg key htu)) (hall w hw)

end Index

/-- The string a user is written as. -/
def User.str : User → String
  | .object o => o.str
  | .userset o r => o.str ++ ("#" ++ r)
  | .wildcard t => t ++ ":*"

variable (r : Request) (user : User) (relation objectType : String)

/-- `GetContextualTuplesByUserID`. -/
def Request.byUser : List TupleKey :=
  insertAll (fun t => t.object.str) (r.contextualTuples.filter fun t =>
    decide (t.user = user ∧ t.relation = relation ∧ t.object.type = objectType))

/-- `GetContextualTuplesByObjectID`; a typed wildcard is listed under its type. -/
def Request.byObject (r : Request) (object : Object) (relation : String) (userType : UserType) :
    List TupleKey :=
  insertAll (fun t => t.user.str) (r.contextualTuples.filter fun t =>
    decide (t.object = object ∧ t.relation = relation ∧ t.user.userType = userType))

/-- The contextual tuple of a key: the first one in the request. -/
def Request.contextualTuple (r : Request) (object : Object) (relation : String) (user : User) :
    Option TupleKey :=
  r.contextualTuples.find? fun t => decide (t.key = (object, relation, user))

theorem Request.byUser_sorted :
    (r.byUser user relation objectType).Pairwise fun a b => a.object.str < b.object.str :=
  (insertAll_spec _ _).1

/-- **The lookup by user** finds the request's contextual tuples of that user. -/
theorem Request.mem_byUser (t : TupleKey) :
    t ∈ r.byUser user relation objectType
      ↔ t.user = user ∧ t.relation = relation ∧ t.object.type = objectType
        ∧ r.contextualTuple t.object relation user = some t := by
  rw [Request.byUser, (insertAll_spec _ _).2 t, find?_filter]
  simp only [decide_eq_true_eq]
  -- among objects of one type the string determines the object
  have hpred : t.object.type = objectType → (fun a : TupleKey =>
      decide ((a.user = user ∧ a.relation = relation ∧ a.object.type = objectType)
        ∧ a.object.str = t.object.str))
      = fun a => decide (a.key = (t.object, relation, user)) := by
    intro htype
    funext a
    rw [decide_eq_decide, TupleKey.key, Prod.mk.injEq, Prod.mk.injEq]
    constructor
    · rintro ⟨⟨hu, hr, ht⟩, hs⟩
      exact ⟨Object.str_injective (ht.trans htype.symm) hs, hr, hu⟩
    · rintro ⟨ho, hr, hu⟩
      exact ⟨⟨hu, hr, ho ▸ htype⟩, by rw [ho]⟩
  constructor
  · intro h
    have hp := find?_some h
    rw [decide_eq_true_eq] at hp
    rw [hpred hp.1.2.2] at h
    exact ⟨hp.1.1, hp.1.2.1, hp.1.2.2, h⟩
  · rintro ⟨-, -, htype, h⟩
    rw [hpred htype]
    exact h

/-- **The lookup by object** finds contextual tuples of that object, relation and user type. -/
theorem Request.of_mem_byObject {r : Request} {object : Object} {relation : String}
    {userType : UserType} {t : TupleKey} (h : t ∈ r.byObject object relation userType) :
    t ∈ r.contextualTuples ∧ t.object = object ∧ t.relation = relation
      ∧ t.user.userType = userType := by
  have hfind := ((insertAll_spec _ _).2 t).mp h
  simpa using mem_filter.mp (mem_of_find?_eq_some hfind)

/-- A contextual tuple that is found has the key it was looked up by. -/
theorem Request.contextualTuple_key {r : Request} {object : Object} {relation : String}
    {user : User} {t : TupleKey} (h : r.contextualTuple object relation user = some t) :
    t.key = (object, relation, user) ∧ t ∈ r.contextualTuples :=
  ⟨by simpa using find?_some h, mem_of_find?_eq_some h⟩

end Kengen
