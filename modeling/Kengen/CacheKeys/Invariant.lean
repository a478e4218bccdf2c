import Kengen.CacheKeys.Encoding

/-!
# The keys of a check request

`storage.InvariantCacheKey` hashes what a request and all its sub-requests have in common: the
store, the model, the context and the contextual tuples, which are sorted first.
`storage.CheckCacheKey` adds the question to the hash.

* `Tuple`, `Tuple.content` — a contextual tuple and what it says: an absent context of its
  condition is an empty one.
* `Tuple.less`, `sortTuples` — the order of `TupleKeys`, and `sort.Sort` with it.  The order does
  not tell equal tuples from smaller ones and does not look at the context of a condition.
* `invariantBytes`, `invariantCacheKey`, `checkCacheKey` — the keys.
* **`invariantBytes_unambiguous`** — the bytes determine the store, the model, the context and the
  contextual tuples up to their order.
* **`checkCacheKey_inj`** — the key determines the question and the hash.

A tuple has an optional end, its condition, and no mark in front of it.  What tells whether it is
there is the field behind: a condition's name is followed by a map, and the object of a next tuple
by a string.
-/

namespace Kengen.CacheKeys

open Codes List

/-! ### Contexts and tuples -/

/-- A `structpb.Struct`. -/
structure Struct where
  keys : Finset String
  fields : keys → PbValue

/-- `structpb.NewStructValue`; the fields of a nil struct are empty. -/
def newStructValue : Option Struct → PbValue
  | none => .struct ∅ fun k => absurd k.2 (Finset.notMem_empty k.1)
  | some context => .struct context.keys context.fields

/-- A `RelationshipCondition`. -/
structure Condition where
  name : String
  context : Option Struct

/-- A contextual tuple of a request. -/
structure Tuple where
  object : String
  relation : String
  user : String
  condition : Option Condition

/-- The condition of a tuple, if it has one. -/
def encodeCondition : Option Condition → List UInt8
  | none => []
  | some condition =>
    encodeString condition.name ++ (newStructValue condition.context).writeTo

variable (t : Tuple)

/-- `Tuple.WriteTo`. -/
def Tuple.writeTo : List UInt8 :=
  encodeString t.object ++ encodeString t.relation ++ encodeString t.user
    ++ encodeCondition t.condition

/-- **What a tuple says.** -/
def Tuple.content : String × String × String × Option (String × PbValue) :=
  (t.object, t.relation, t.user, t.condition.map fun c => (c.name, newStructValue c.context))

/-! ### Sorting -/

/-- `GetCondition().GetName()`. -/
def Tuple.conditionName : String :=
  match t.condition with
  | none => ""
  | some condition => condition.name

/-- `TupleKeys.Less`. -/
def Tuple.less (a b : Tuple) : Bool :=
  if a.object ≠ b.object then decide (a.object < b.object)
  else if a.relation ≠ b.relation then decide (a.relation < b.relation)
  else if a.user ≠ b.user then decide (a.user < b.user)
  else if (a.condition.isSome || b.condition.isSome) && decide (a.conditionName ≠ b.conditionName)
    then decide (a.conditionName < b.conditionName)
  else true

/-- The inner loop of `insertionSort`: the element is swapped down over the elements in front of
it, the nearest first. -/
def insertTuple (t : Tuple) : List Tuple → List Tuple
  | [] => [t]
  | u :: front => if t.less u then u :: insertTuple t front else t :: u :: front

variable (tuples : List Tuple)

/-- `insertionSort`; the list in the accumulator is the sorted front, the nearest element first. -/
def insertionSort : List Tuple :=
  (tuples.foldl (fun front t => insertTuple t front) []).reverse

/-- What `pdqsort` makes of a list with an order that is none: the elements in some order. -/
structure Pdqsort where
  sort : List Tuple → List Tuple
  perm : ∀ tuples, (sort tuples).Perm tuples

variable (pdqsort : Pdqsort)

/-- `sort.Sort`: up to twelve elements are sorted by insertion. -/
def sortTuples (tuples : List Tuple) : List Tuple :=
  if tuples.length ≤ 12 then insertionSort tuples else pdqsort.sort tuples

theorem insertTuple_perm (front : List Tuple) : (insertTuple t front).Perm (t :: front) := by
  induction front with
  | nil => exact List.Perm.refl _
  | cons u front ih =>
    rw [insertTuple]
    split
    · exact (ih.cons u).trans (List.Perm.swap t u front)
    · exact List.Perm.refl _

theorem insertionSort_perm : (insertionSort tuples).Perm tuples := by
  have hfront : ∀ front : List Tuple,
      (tuples.foldl (fun front t => insertTuple t front) front).Perm (tuples ++ front) := by
    induction tuples with
    | nil => exact fun front => List.Perm.refl _
    | cons t tuples ih =>
      intro front
      refine (ih (insertTuple t front)).trans ?_
      exact ((insertTuple_perm t front).append_left tuples).trans perm_middle
  exact (reverse_perm _).trans (by simpa using hfront [])

/-- **Sorting keeps the tuples.** -/
theorem sortTuples_perm (tuples : List Tuple) : (sortTuples pdqsort tuples).Perm tuples := by
  unfold sortTuples
  split
  · exact insertionSort_perm tuples
  · exact pdqsort.perm tuples

/-! ### The keys -/

/-- The bytes that `InvariantCacheKey` hashes. -/
def invariantBytes (storeID modelID : String) (context : Option Struct)
    (contextualTuples : List Tuple) : List UInt8 :=
  encodeString storeID ++ encodeString modelID
    ++ encodeArrayHeader contextualTuples.length
    ++ (sortTuples pdqsort contextualTuples).flatMap Tuple.writeTo
    ++ (newStructValue context).writeTo

/-- `InvariantCacheKey`, with the digest as a parameter. -/
def invariantCacheKey (sum64 : List UInt8 → UInt64) (pdqsort : Pdqsort) (storeID modelID : String)
    (context : Option Struct) (contextualTuples : List Tuple) : UInt64 :=
  sum64 (invariantBytes pdqsort storeID modelID context contextualTuples)

/-- `PrefixSubproblemCache`. -/
def prefixSubproblemCache : String := "SP"

/-- `CheckCacheKey`. -/
def checkCacheKey (storeID object relation user : String) (invariant : UInt64) : List UInt8 :=
  encodeString prefixSubproblemCache ++ encodeString storeID ++ encodeString object
    ++ encodeString relation ++ encodeString user ++ encodeUint64 invariant

/-! ### The keys are unambiguous -/

/-- A map never looks like a string. -/
theorem string_ne_struct (s : String) (context : Option Struct) (u t : List UInt8) :
    encodeString s ++ u ≠ (newStructValue context).encode ++ t := by
  intro h
  cases context <;> exact absurd (List.cons.inj h).1 (by decide)

/-- What stands behind a tuple in an array of tuples with a context behind it: another tuple or
the context. -/
def tail (context : Option Struct) : List UInt8 :=
  tuples.flatMap Tuple.writeTo ++ (newStructValue context).writeTo

theorem tail_cons (tuples : List Tuple) (context : Option Struct) :
    tail (t :: tuples) context = encodeString t.object ++ (encodeString t.relation
      ++ (encodeString t.user ++ (encodeCondition t.condition ++ tail tuples context))) := by
  simp only [tail, flatMap_cons, Tuple.writeTo, append_assoc]

/-- **A name with a map behind it is not the start of another tuple**, nor the context. -/
theorem condition_ne_tail (condition : Condition) (u : List UInt8) (tuples : List Tuple)
    (context : Option Struct) (t : List UInt8) :
    encodeCondition (some condition) ++ u ≠ tail tuples context ++ t := by
  intro h
  rw [encodeCondition, append_assoc, writeTo_eq_encode] at h
  cases tuples with
  | nil =>
    rw [tail, flatMap_nil, nil_append, writeTo_eq_encode] at h
    exact string_ne_struct _ _ _ _ h
  | cons =>
    rw [tail_cons, append_assoc] at h
    obtain ⟨-, hnext⟩ := delimits_encodeString _ _ _ _ h
    rw [append_assoc] at hnext
    exact string_ne_struct _ _ _ _ hnext.symm

theorem tail_inj {tuples tuples' : List Tuple} {context context' : Option Struct}
    {u t : List UInt8} (hlength : tuples.length = tuples'.length)
    (h : tail tuples context ++ u = tail tuples' context' ++ t) :
    tuples.map Tuple.content = tuples'.map Tuple.content
      ∧ newStructValue context = newStructValue context' := by
  induction tuples generalizing tuples' with
  | nil =>
    obtain rfl := length_eq_zero_iff.mp hlength.symm
    simp only [tail, flatMap_nil, nil_append, writeTo_eq_encode] at h
    exact ⟨rfl, (delimits_encode _ _ _ _ h).1⟩
  | cons a tuples ih =>
    cases tuples' with
    | nil => cases hlength
    | cons b tuples' =>
      simp only [tail_cons, append_assoc] at h
      obtain ⟨hobject, h⟩ := delimits_encodeString _ _ _ _ h
      obtain ⟨hrelation, h⟩ := delimits_encodeString _ _ _ _ h
      obtain ⟨huser, h⟩ := delimits_encodeString _ _ _ _ h
      have hcondition : a.condition.map (fun c => (c.name, newStructValue c.context))
            = b.condition.map (fun c => (c.name, newStructValue c.context))
          ∧ tail tuples context ++ u = tail tuples' context' ++ t := by
        cases ha : a.condition with
        | none =>
          cases hb : b.condition with
          | none =>
            rw [ha, hb] at h
            exact ⟨rfl, h⟩
          | some =>
            rw [ha, hb] at h
            exact absurd h.symm (condition_ne_tail _ _ _ _ _)
        | some =>
          cases hb : b.condition with
          | none =>
            rw [ha, hb] at h
            exact absurd h (condition_ne_tail _ _ _ _ _)
          | some condition' =>
            rw [ha, hb] at h
            simp only [encodeCondition, append_assoc, writeTo_eq_encode] at h
            obtain ⟨hname, h⟩ := delimits_encodeString _ _ _ _ h
            obtain ⟨hcontext, h⟩ := delimits_encode _ _ _ _ h
            exact ⟨by simp [hname, hcontext], h⟩
      obtain ⟨htuples, hcontext⟩ := ih (Nat.succ.inj hlength) hcondition.2
      refine ⟨?_, hcontext⟩
      rw [map_cons, map_cons, htuples]
      simp only [Tuple.content, hobject, hrelation, huser, hcondition.1]

/-- The bytes give the store, the model, the context and the tuples. -/
theorem invariantBytes_inj {pdqsort pdqsort' : Pdqsort} {storeID storeID' modelID modelID' : String}
    {context context' : Option Struct} {tuples tuples' : List Tuple}
    (h : invariantBytes pdqsort storeID modelID context tuples
      = invariantBytes pdqsort' storeID' modelID' context' tuples') :
    storeID = storeID' ∧ modelID = modelID' ∧ newStructValue context = newStructValue context'
      ∧ (tuples.map Tuple.content).Perm (tuples'.map Tuple.content) := by
  simp only [invariantBytes, append_assoc] at h
  obtain ⟨hstore, h⟩ := delimits_encodeString _ _ _ _ h
  obtain ⟨hmodel, h⟩ := delimits_encodeString _ _ _ _ h
  obtain ⟨hcount, h⟩ := delimits_uvarint _ _ _ _ (List.cons.inj h).2
  have hsort := sortTuples_perm pdqsort tuples
  have hsort' := sortTuples_perm pdqsort' tuples'
  have hlength : (sortTuples pdqsort tuples).length = (sortTuples pdqsort' tuples').length := by
    rw [hsort.length_eq, hsort'.length_eq, hcount]
  obtain ⟨htuples, hcontext⟩ := tail_inj (u := []) (t := []) hlength (by simpa [tail] using h)
  refine ⟨hstore, hmodel, hcontext, ?_⟩
  have hperm := (hsort.map Tuple.content).symm
  rw [htuples] at hperm
  exact hperm.trans (hsort'.map Tuple.content)

/-- The key of a check gives the question and the hash. -/
theorem checkCacheKey_inj {storeID storeID' object object' relation relation' user user' : String}
    {invariant invariant' : UInt64}
    (h : checkCacheKey storeID object relation user invariant
      = checkCacheKey storeID' object' relation' user' invariant') :
    storeID = storeID' ∧ object = object' ∧ relation = relation' ∧ user = user'
      ∧ invariant = invariant' := by
  simp only [checkCacheKey, append_assoc] at h
  obtain ⟨-, h⟩ := delimits_encodeString _ _ _ _ h
  obtain ⟨hstore, h⟩ := delimits_encodeString _ _ _ _ h
  obtain ⟨hobject, h⟩ := delimits_encodeString _ _ _ _ h
  obtain ⟨hrelation, h⟩ := delimits_encodeString _ _ _ _ h
  obtain ⟨huser, h⟩ := delimits_encodeString _ _ _ _ h
  exact ⟨hstore, hobject, hrelation, huser, encodeUint64_injective h⟩

/-- **The bytes of the key are unambiguous**: they give the store, the model, the context as a JSON
value and the contextual tuples up to their order, each with its condition or without one.  The
values in them are written as the format says. -/
theorem invariantBytes_unambiguous (pdqsort pdqsort' : Pdqsort)
    (storeID storeID' modelID modelID' : String) (context context' : Option Struct)
    (tuples tuples' : List Tuple) :
    (invariantBytes pdqsort storeID modelID context tuples
        = invariantBytes pdqsort' storeID' modelID' context' tuples' →
      storeID = storeID' ∧ modelID = modelID' ∧ newStructValue context = newStructValue context'
        ∧ (tuples.map Tuple.content).Perm (tuples'.map Tuple.content))
    ∧ ∀ v : PbValue, v.writeTo = v.encode :=
  ⟨invariantBytes_inj, writeTo_eq_encode⟩

/-- Two tuples on one object, in both orders, and no context beside an empty one. -/
theorem invariantBytes_unambiguous_swap :
    ∃ (pdqsort : Pdqsort) (a b : Tuple),
      invariantBytes pdqsort "store" "model" none [a, b]
          = invariantBytes pdqsort "store" "model"
              (some ⟨∅, fun k => absurd k.2 (Finset.notMem_empty _)⟩) [b, a]
        ∧ ([a, b].map Tuple.content).Perm ([b, a].map Tuple.content) := by
  let pdqsort : Pdqsort := ⟨id, List.Perm.refl⟩
  let a : Tuple := ⟨"doc:1", "viewer", "user:anne", some ⟨"recent", none⟩⟩
  let b : Tuple := ⟨"doc:1", "viewer", "user:bob", none⟩
  have hbytes : invariantBytes pdqsort "store" "model" none [a, b]
      = invariantBytes pdqsort "store" "model"
          (some ⟨∅, fun k => absurd k.2 (Finset.notMem_empty _)⟩) [b, a] := by
    have hsort : sortTuples pdqsort [a, b] = sortTuples pdqsort [b, a] := by
      have hab : a.less b = true := by decide
      have hba : b.less a = false := by decide
      simp [sortTuples, insertionSort, insertTuple, hab, hba]
    rw [invariantBytes, invariantBytes, hsort]
    rfl
  exact ⟨pdqsort, a, b, hbytes, ((invariantBytes_unambiguous _ _ _ _ _ _ _ _ _ _).1 hbytes).2.2.2⟩

end Kengen.CacheKeys
