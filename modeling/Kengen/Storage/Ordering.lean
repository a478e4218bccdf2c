import Kengen.Iterator.Trace
import Kengen.Storage.CompleteReads

/-!
# Iterators that say they are ordered

`IsOrdered` is a flag that travels through a tower of iterators: wrappers forward it, merges ask
both sides, and `Weight2` drops values on the strength of it.  The towers are the trees `Iter`;
`values` is what successive calls of `Next` return on a source without errors, `isOrdered` the flag.
At the top a mapper takes one string from each tuple, and this is what the consumer compares.

The datastores answer `false`.  The flag is born in `StaticIterator`, which answers `true` whatever
its slice is.

* **`isOrdered_truthful`** — if the slices of the static iterators are in order, in the string that
  the consumer compares, then the flag is right all the way up.
* **`cached_copy_lies`** — `cachedTupleIterator` puts the records of an unordered read into a
  `StaticIterator`.
-/

namespace Kengen.Storage

open List

variable {S : Type}

/-! ### Mappers -/

/-- `TupleMapperKind`. -/
inductive MapperKind where
  | userset
  | ttu
  | objectID
deriving DecidableEq

def isWildcard (s : Text) : Bool :=
  s = ['*'] || ((splitObject s).1 ≠ [] && (splitObject s).2 = ['*'])

/-- `MapUserset`, `MapTTU` and `MapObjectID`; `none` is an error. -/
def MapperKind.map : MapperKind → TupleKey S → Option Text
  | .userset, t =>
    let (usersetName, relation) := splitObjectRelation t.user
    if relation = [] ∧ isWildcard usersetName = false then none else some usersetName
  | .ttu, t => some t.user
  | .objectID, t => some t.object

/-! ### `OrderedCombinedIterator` -/

/-- What `head` does with one pending iterator: duplicates of the last tuple yielded are discarded.
`none` is the error that the iterator is not in ascending order; it is not noticed behind a
duplicate. -/
def discard (lastYielded : Option (TupleKey S)) (iter : List (TupleKey S)) :
    Option (List (TupleKey S)) :=
  match lastYielded, iter with
  | some last, head :: _ =>
    if head.object < last.object then none
    else some (iter.dropWhile fun t => t.object = last.object)
  | _, _ => some iter

/-- The first of the least heads, and the pending iterators behind it. -/
def least : List (List (TupleKey S)) → Option (TupleKey S × List (List (TupleKey S)))
  | [] => none
  | [] :: iters => least iters
  | (head :: rest) :: iters =>
    match least iters with
    | none => some (head, [rest])
    | some (headMin, iters') =>
      if headMin.object < head.object then some (headMin, (head :: rest) :: iters')
      else some (head, rest :: iters)

/-- What `Next` returns, call after call. -/
def combine : ℕ → Option (TupleKey S) → List (List (TupleKey S)) → List (TupleKey S)
  | 0, _, _ => []
  | fuel + 1, lastYielded, pending =>
    match (pending.mapM (discard lastYielded)).bind least with
    | none => []
    | some (t, pending') => t :: combine fuel (some t) pending'

/-! ### Towers -/

/-- An iterator over tuples. -/
inductive Iter (S : Type) where
  /-- `SQLTupleIterator` and the iterator of the memory backend. -/
  | datastore (tuples : List (TupleKey S))
  | static (tuples : List (TupleKey S))
  /-- `cachedTupleIterator`, over a `StaticIterator` of cached records. -/
  | cachedTuple (fields : Fields) (records : List (TupleRecord S))
  /-- `LockFreeCachedIterator`, over the entries that `CachingIterator` made of an iterator. -/
  | lockFreeCached (objectType relation : Text) (inner : Iter S)
  /-- `tupleKeyIterator`, `cachedIterator`, `CachingIterator` and `sharedIterator`. -/
  | forwarded (inner : Iter S)
  /-- The filtering and the validating iterators; a filter may know what has come before. -/
  | filtered (passes : List (TupleKey S) → TupleKey S → Bool) (inner : Iter S)
  /-- `combinedIterator` and `concatIterator`. -/
  | combined (iter1 iter2 : Iter S)
  /-- `MergedIterator`, as `bottomUp.buildIterator` makes it. -/
  | merged (iter1 iter2 : Iter S)
  /-- `OrderedCombinedIterator` with `ObjectMapper`. -/
  | orderedCombined (iter1 iter2 : Iter S)

def objectLE (a b : TupleKey S) : Bool := decide (a.object ≤ b.object)

/-- The comparison of `bottomUp.buildIterator`. -/
def compareObjects (a b : TupleKey S) : Ordering := if objectLE b a then .gt else .lt

/-- The entries that pass, `before` those that have come before. -/
def filterFrom (passes : List (TupleKey S) → TupleKey S → Bool) (before : List (TupleKey S)) :
    List (TupleKey S) → List (TupleKey S)
  | [] => []
  | t :: ts =>
    if passes before t then t :: filterFrom passes (before ++ [t]) ts
    else filterFrom passes (before ++ [t]) ts

namespace Iter

def values [Inhabited S] : Iter S → List (TupleKey S)
  | datastore tuples => tuples
  | static tuples => tuples
  | cachedTuple fields records => records.map (buildTuple fields)
  | lockFreeCached objectType relation inner =>
    inner.values.map fun t => reconstruct objectType relation (minimal t)
  | forwarded inner => inner.values
  | filtered passes inner => filterFrom passes [] inner.values
  | combined iter1 iter2 => iter1.values ++ iter2.values
  | merged iter1 iter2 =>
    traceValues (mergeTrace compareObjects (okTrace iter1.values) (okTrace iter2.values))
  | orderedCombined iter1 iter2 =>
    combine (iter1.values.length + iter2.values.length) none [iter1.values, iter2.values]

def isOrdered : Iter S → Bool
  | datastore _ => false
  | static _ => true
  | cachedTuple _ _ => true
  | lockFreeCached _ _ inner => inner.isOrdered
  | forwarded inner => inner.isOrdered
  | filtered _ inner => inner.isOrdered
  | combined _ _ => false
  | merged iter1 iter2 => iter1.isOrdered && iter2.isOrdered
  | orderedCombined iter1 iter2 => iter1.isOrdered && iter2.isOrdered

end Iter

variable (kind : MapperKind)

/-- The strings that a mapper returns. -/
def mapped (tuples : List (TupleKey S)) : List Text :=
  tuples.filterMap kind.map

/-- The strings do not descend. -/
def InOrder (tuples : List (TupleKey S)) : Prop :=
  (mapped kind tuples).Pairwise (· ≤ ·)

/-- **The condition**, where the flag is `true`: the slices of the static iterators are in the order
that the consumer compares, merges by object are consumed by object, and cached entries that are
consumed by object are of the object type of their read. -/
def Iter.SlicesInOrder [Inhabited S] (kind : MapperKind) : Iter S → Prop
  | .datastore _ => True
  | .static tuples => InOrder kind tuples
  | .cachedTuple fields records => InOrder kind (records.map (buildTuple fields))
  | .lockFreeCached objectType _ inner => inner.isOrdered = true → inner.SlicesInOrder kind
    ∧ (kind = .objectID →
      ∀ t ∈ inner.values, t.object = buildObject objectType (extractObjectID t.object))
  | .forwarded inner => inner.SlicesInOrder kind
  | .filtered _ inner => inner.SlicesInOrder kind
  | .combined _ _ => True
  | .merged iter1 iter2 => (iter1.isOrdered && iter2.isOrdered) = true →
    kind = .objectID ∧ iter1.SlicesInOrder kind ∧ iter2.SlicesInOrder kind
  | .orderedCombined iter1 iter2 => (iter1.isOrdered && iter2.isOrdered) = true →
    kind = .objectID ∧ iter1.SlicesInOrder kind ∧ iter2.SlicesInOrder kind

/-! ### What keeps the order -/

theorem InOrder.sublist {kind : MapperKind} {ts ts' : List (TupleKey S)} (h : InOrder kind ts')
    (hsub : ts <+ ts') : InOrder kind ts :=
  Pairwise.sublist (hsub.filterMap _) h

theorem inOrder_objectID {ts : List (TupleKey S)} :
    InOrder .objectID ts ↔ ts.Pairwise fun a b => a.object ≤ b.object := by
  rw [InOrder, mapped, pairwise_filterMap]
  simp [MapperKind.map]

theorem filterFrom_sublist (passes : List (TupleKey S) → TupleKey S → Bool)
    (before ts : List (TupleKey S)) : filterFrom passes before ts <+ ts := by
  induction ts generalizing before with
  | nil => exact Sublist.refl _
  | cons t ts ih =>
    unfold filterFrom
    split
    · exact (ih _).cons_cons t
    · exact (ih _).cons t

/-- Each of the iterators is in the order of the objects. -/
def Sorted (pending : List (List (TupleKey S))) : Prop :=
  ∀ iter ∈ pending, iter.Pairwise fun a b => a.object ≤ b.object

theorem discard_suffix {lastYielded : Option (TupleKey S)} {iter iter' : List (TupleKey S)}
    (h : discard lastYielded iter = some iter') : iter' <:+ iter := by
  unfold discard at h
  split at h
  · split_ifs at h
    cases h
    exact dropWhile_suffix _
  · cases h
    exact suffix_rfl

variable {pending pending' : List (List (TupleKey S))}

theorem mapM_discard {lastYielded : Option (TupleKey S)} (hsorted : Sorted pending)
    (h : pending.mapM (discard lastYielded) = some pending') :
    Sorted pending' ∧ pending'.flatten ⊆ pending.flatten := by
  induction pending generalizing pending' with
  | nil =>
    cases h
    exact ⟨hsorted, Subset.refl _⟩
  | cons iter pending ih =>
    simp only [mapM_cons, Option.bind_eq_bind, Option.bind_eq_some_iff, Option.pure_def,
      Option.some.injEq] at h
    obtain ⟨iter', hiter, rest, hrest, rfl⟩ := h
    obtain ⟨hhead, htail⟩ := forall_mem_cons.mp hsorted
    obtain ⟨hs, hsub⟩ := ih htail hrest
    have hsuffix := discard_suffix hiter
    exact ⟨forall_mem_cons.mpr ⟨hhead.sublist hsuffix.sublist, hs⟩,
      fun _ hu => mem_append.mpr ((mem_append.mp hu).imp (hsuffix.subset ·) (hsub ·))⟩

/-- **The least head** is not above anything that is pending. -/
theorem least_spec (hsorted : Sorted pending) :
    match least pending with
    | none => pending.flatten = []
    | some (t, pending') => Sorted pending' ∧ pending'.flatten ⊆ pending.flatten
      ∧ t ∈ pending.flatten ∧ ∀ u ∈ pending.flatten, t.object ≤ u.object := by
  induction pending with
  | nil => rfl
  | cons iter pending ih =>
    obtain ⟨hiter, hrest⟩ := forall_mem_cons.mp hsorted
    have ih := ih hrest
    cases iter with
    | nil => exact ih
    | cons =>
      obtain ⟨hhead, htail⟩ := pairwise_cons.mp hiter
      simp only [least]
      rcases hmin : least pending with _ | ⟨headMin, iters'⟩ <;> simp only [hmin] at ih ⊢
      · refine ⟨forall_mem_singleton.mpr htail, by simp [ih], by simp, ?_⟩
        simpa [ih] using hhead
      · obtain ⟨hs, hsub, hmem, hle⟩ := ih
        split_ifs with hlt
        · refine ⟨forall_mem_cons.mpr ⟨hiter, hs⟩,
            fun u hu => mem_append.mpr ((mem_append.mp hu).imp_right (hsub ·)), by simp [hmem],
            fun u hu => ?_⟩
          rcases mem_append.mp hu with hu | hu
          · rcases mem_cons.mp hu with rfl | hu
            · exact hlt.le
            · exact hlt.le.trans (hhead u hu)
          · exact hle u hu
        · refine ⟨forall_mem_cons.mpr ⟨htail, hrest⟩, by simp, by simp, fun u hu => ?_⟩
          rcases mem_append.mp hu with hu | hu
          · rcases mem_cons.mp hu with rfl | hu
            · exact le_rfl
            · exact hhead u hu
          · exact (not_lt.mp hlt).trans (hle u hu)

/-- **The ordered combination of ordered iterators is ordered.**  The induction is on the calls. -/
theorem combine_sorted (fuel : ℕ) (lastYielded : Option (TupleKey S)) (hsorted : Sorted pending) :
    (combine fuel lastYielded pending).Pairwise (fun a b => a.object ≤ b.object)
      ∧ combine fuel lastYielded pending ⊆ pending.flatten := by
  induction fuel generalizing lastYielded pending with
  | zero => exact ⟨Pairwise.nil, nil_subset _⟩
  | succ fuel ih =>
    unfold combine
    split
    · exact ⟨Pairwise.nil, nil_subset _⟩
    · rename_i t pending' hnext
      obtain ⟨kept, hkept, hleast⟩ := Option.bind_eq_some_iff.mp hnext
      obtain ⟨hs, hsub⟩ := mapM_discard hsorted hkept
      have hspec := least_spec hs
      rw [hleast] at hspec
      obtain ⟨hs', hsub', hmem, hle⟩ := hspec
      obtain ⟨hpairwise, hrest⟩ := ih (some t) hs'
      have hkept := Subset.trans hrest hsub'
      exact ⟨pairwise_cons.mpr ⟨fun u hu => hle u (hkept hu), hpairwise⟩,
        cons_subset.mpr ⟨hsub hmem, Subset.trans hkept hsub⟩⟩

/-! ### The flag -/

/-- **`IsOrdered` never lies** about a tower whose slices are in order: if it answers `true`, then
the strings that the mapper returns do not descend.  The induction is on the tower. -/
theorem isOrdered_truthful [Inhabited S] (iter : Iter S) (hslices : iter.SlicesInOrder kind)
    (hordered : iter.isOrdered = true) : (mapped kind iter.values).Pairwise (· ≤ ·) := by
  induction iter with
  | datastore => cases hordered
  | static | cachedTuple => exact hslices
  | lockFreeCached objectType relation inner ih =>
    obtain ⟨hinner, hobjects⟩ := hslices hordered
    have hsame : mapped kind (inner.values.map fun t => reconstruct objectType relation (minimal t))
        = mapped kind inner.values := by
      rw [mapped, filterMap_map]
      refine filterMap_congr fun t ht => ?_
      cases kind with
      | objectID => exact congrArg some (hobjects rfl t ht).symm
      | userset | ttu => rfl
    exact hsame ▸ ih hinner hordered
  | forwarded inner ih => exact ih hslices hordered
  | filtered passes inner ih =>
    exact InOrder.sublist (ih hslices hordered) (filterFrom_sublist passes [] _)
  | combined => cases hordered
  | merged iter1 iter2 ih1 ih2 =>
    obtain ⟨rfl, h1, h2⟩ := hslices hordered
    obtain ⟨ho1, ho2⟩ := Bool.and_eq_true_iff.mp hordered
    have hle : ∀ {ts : List (TupleKey S)}, ts.Pairwise (fun a b => objectLE a b = true)
        ↔ InOrder .objectID ts := by
      intro ts
      simp [inOrder_objectID, objectLE]
    have hvalues : (Iter.merged iter1 iter2).values = iter2.values.merge iter1.values objectLE :=
      (congrArg traceValues (mergeTrace_okTrace objectLE iter1.values iter2.values)).trans
        (traceValues_okTrace _)
    rw [hvalues]
    refine hle.mp (pairwise_merge ?_ ?_ _ _ (hle.mpr (ih2 h2 ho2)) (hle.mpr (ih1 h1 ho1)))
    · simpa [objectLE] using fun a b c hab hbc => le_trans hab hbc
    · simpa [objectLE] using fun a b : TupleKey S => le_total a.object b.object
  | orderedCombined iter1 iter2 ih1 ih2 =>
    obtain ⟨rfl, h1, h2⟩ := hslices hordered
    obtain ⟨ho1, ho2⟩ := Bool.and_eq_true_iff.mp hordered
    refine inOrder_objectID.mpr (combine_sorted _ none ?_).1
    exact forall_mem_cons.mpr ⟨inOrder_objectID.mp (ih1 h1 ho1),
      forall_mem_singleton.mpr (inOrder_objectID.mp (ih2 h2 ho2))⟩

open LostHead in
/-- **A cached copy of an unordered read is taken to be ordered**: the usersets of `doc:1#viewer`,
from the cache in the order in which the datastore gave them. -/
theorem cached_copy_lies :
    (Iter.forwarded (.cachedTuple fields (viewers.reverse.map (record fields)))).isOrdered = true
    ∧ mapped .userset (Iter.forwarded (.cachedTuple fields (viewers.reverse.map
      (record fields)))).values = ["group:2".toList, "group:1".toList]
    ∧ ¬ ["group:2".toList, "group:1".toList].Pairwise (· ≤ ·) := by
  decide

open LostHead in
theorem isOrdered_truthful_viewers :
    (Iter.cachedTuple fields (viewers.map (record fields))).isOrdered = true
    ∧ (mapped .userset (Iter.cachedTuple fields (viewers.map (record fields))).values).Pairwise
      (· ≤ ·) :=
  ⟨rfl, isOrdered_truthful .userset (.cachedTuple fields (viewers.map (record fields)))
    (by unfold Iter.SlicesInOrder InOrder; decide) rfl⟩

end Kengen.Storage
