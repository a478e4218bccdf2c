import Kengen.Storage.CachingIterator
import Kengen.Storage.CachedIterator

/-!
# Cached reads are complete

Both implementations store what the datastore's iterator yields until its end, and read it back for
the same object and relation.  They give the buffer up when `Next` fails, since the datastore's
iterator may have lost a tuple.  They do not when `Head` fails: neither when a user calls it nor
when the goroutine that drains the iterator does.

* **`stored_read_complete`** — if no call of `Head` loses a tuple, every entry that is stored is the
  whole sequence, and reading it gives the sequence back.
* **`failed_head_truncates`** — a `Head` that fails and loses a tuple leaves an entry without it.
-/

namespace Kengen.Storage

open Delegate Runs List

variable {S : Type}

/-- What is known of a read by object and relation. -/
def fieldsByObjectRelation (object relation : Text) : Fields where
  objectType := (splitObject object).1
  objectID := (splitObject object).2
  relation := relation
  userType := []

/-- A tuple of the object and the relation, as the datastores build it. -/
structure IsRead [Inhabited S] (object relation : Text) (t : TupleKey S) : Prop where
  wellFormed : WellFormed t
  object : t.object = object
  relation : t.relation = relation

variable [Inhabited S] {object relation : Text} {all : List (TupleKey S)}

theorem IsRead.belongs {t : TupleKey S} (h : IsRead object relation t) :
    Belongs (fieldsByObjectRelation object relation) t where
  objectType _ := by rw [h.object]; rfl
  objectID _ := by rw [h.object]; rfl
  relation _ := h.relation
  userType hne := absurd rfl hne

/-- What is stored and put together again item by item. -/
theorem map_map_cancel {α β : Type} {f : α → β} {g : β → α} {items : List α}
    (h : ∀ a ∈ items, g (f a) = a) : (items.map f).map g = items := by
  rw [map_map]
  exact (map_congr_left h).trans (map_id items)

/-- **What is stored is the whole read.**  For every sequence of tuples of an object and a relation,
every size limit, every order of the calls of the users and the moves of the goroutine, every place
at which calls of the datastore's iterator are cancelled or fail: if no call of `Head` loses a
tuple, every entry that one of the two iterators stores is the sequence, and a reader of the entry
is answered, call by call, as by the sequence. -/
theorem stored_read_complete (object relation : Text) (all : List (TupleKey S))
    (hall : ∀ t ∈ all, IsRead object relation t) :
    (∀ maxSize choices s entries,
      Along (CachingIterator.step maxSize) CachingIterator.HeadsKeep { inner := all } choices →
      run (CachingIterator.step maxSize) { inner := all } choices = some s → entries ∈ s.stored →
        entries = all.map minimal ∧ ∀ calls,
          LockFreeCachedIterator.outcomes ⟨entries, (splitObject object).1, relation, 0, false⟩ calls
            = answers all 0 calls)
      ∧ ∀ maxResultSize choices s records,
        Along (CachedIterator.step maxResultSize (fieldsByObjectRelation object relation))
          CachedIterator.HeadsKeep { iter := all } choices →
        run (CachedIterator.step maxResultSize (fieldsByObjectRelation object relation))
          { iter := all } choices = some s → records ∈ s.stored →
          records = all.map (record (fieldsByObjectRelation object relation)) ∧ ∀ calls,
            CachedTupleIterator.outcomes ⟨fieldsByObjectRelation object relation, records⟩ calls
              = answers all 0 calls := by
  constructor
  · intro maxSize choices s entries hkeep hrun hstored
    obtain rfl := (CachingIterator.run_collected hkeep hrun).stored entries hstored
    refine ⟨rfl, fun calls => ?_⟩
    rw [LockFreeCachedIterator.outcomes_eq_answers _ rfl]
    have hcancel : ∀ t ∈ all, reconstruct (splitObject object).1 relation (minimal t) = t := by
      intro t ht
      rw [← (hall t ht).relation]
      exact reconstruct_minimal (hall t ht).wellFormed (hall t ht).object
    rw [map_map_cancel hcancel]
  · intro maxResultSize choices s records hkeep hrun hstored
    obtain rfl := (CachedIterator.run_collected hkeep hrun).stored records hstored
    refine ⟨rfl, fun calls => ?_⟩
    have houtcomes := CachedTupleIterator.outcomes_eq_answers (fieldsByObjectRelation object relation)
      (all.map (record (fieldsByObjectRelation object relation))) 0 calls
    have hcancel : ∀ t ∈ all, buildTuple (fieldsByObjectRelation object relation)
        (record (fieldsByObjectRelation object relation) t) = t :=
      fun t ht => buildTuple_record (hall t ht).wellFormed (hall t ht).belongs
    rw [map_map_cancel hcancel] at houtcomes
    exact houtcomes

/-! ### A call of `Head` that fails -/

namespace LostHead

/-- The usersets of `doc:1#viewer`; conditions have no context here. -/
def viewer (user : String) : TupleKey Unit := ⟨"doc:1".toList, "viewer".toList, user.toList, none⟩

def viewers : List (TupleKey Unit) := [viewer "group:1#member", viewer "group:2#member"]

def fields : Fields := fieldsByObjectRelation "doc:1".toList "viewer".toList

/-- The iterator is stopped at once.  The goroutine looks whether the datastore's iterator is at its
end, and drains it. -/
def drained (peeked : DelegateCall) : List CachingIterator.Choice :=
  [.stop, .lookUp false, .peek peeked, .enter false, .drain .answered, .append, .drain .answered]

def drainedRecords (peeked : DelegateCall) : List CachedIterator.Choice :=
  [.stop false, .lookUp false, .peek peeked false, .enter false, .drain .answered false,
    .drain .answered false]

/-- One tuple is read and the rest is drained. -/
def complete : List CachingIterator.Choice :=
  [.head .cancelled, .next .answered, .stop, .lookUp false, .peek .answered, .enter false,
    .drain .answered, .append, .drain .answered]

def completeRecords : List CachedIterator.Choice :=
  [.head .cancelled, .next .answered, .stop false, .lookUp false, .peek .answered false,
    .enter false, .drain .answered false, .drain .answered false]

/-- The parts of the user of a member of a group. -/
def member (id : Text) (h : '#' ∉ "group".toList ++ ':' :: id) :
    UserParts (fromUserParts "group".toList id "member".toList) where
  objectType := "group".toList
  objectID := id
  relation := "member".toList
  typed := by decide
  noColon := by decide
  noHash := h
  noHash' := by decide
  eq := rfl

theorem isRead_viewers : ∀ t ∈ viewers, IsRead "doc:1".toList "viewer".toList t := by
  have hread : ∀ t : TupleKey Unit, t.object = "doc:1".toList → t.relation = "viewer".toList →
      Nonempty (UserParts t.user) → t.condition = none →
        IsRead "doc:1".toList "viewer".toList t := by
    intro t hobject hrelation huser hcondition
    exact ⟨⟨hobject ▸ by decide, huser, [], none, hcondition⟩, hobject, hrelation⟩
  refine forall_mem_cons.mpr ⟨?_, forall_mem_cons.mpr ⟨?_, forall_mem_nil _⟩⟩
  · exact hread _ rfl rfl ⟨member "1".toList (by decide)⟩ rfl
  · exact hread _ rfl rfl ⟨member "2".toList (by decide)⟩ rfl

end LostHead

open LostHead in
/-- **The entry lacks a tuple**: the datastore's iterator has two, its `Head` fails and loses the
first one, and both iterators store the second one alone. -/
theorem failed_head_truncates :
    (run (CachingIterator.step 10) { inner := viewers } (drained (.failed 1))).map (·.stored)
        = some [[minimal (viewer "group:2#member")]]
      ∧ (run (CachedIterator.step 10 fields) { iter := viewers } (drainedRecords (.failed 1))).map
          (·.stored) = some [[record fields (viewer "group:2#member")]] := by
  decide

open LostHead in
/-- A read of which nothing is lost is stored and read back. -/
theorem stored_read_complete_viewers :
    (∃ s, run (CachingIterator.step 10) { inner := viewers } complete = some s
        ∧ s.stored = [viewers.map minimal]
        ∧ LockFreeCachedIterator.outcomes ⟨viewers.map minimal, "doc".toList, "viewer".toList, 0,
          false⟩ [.next false, .next false, .next false]
            = [.item (viewer "group:1#member"), .item (viewer "group:2#member"), .done])
      ∧ ∃ s, run (CachedIterator.step 10 fields) { iter := viewers } completeRecords = some s
        ∧ s.stored = [viewers.map (record fields)]
        ∧ CachedTupleIterator.outcomes ⟨fields, viewers.map (record fields)⟩
          [.next false, .next false, .next false]
            = [.item (viewer "group:1#member"), .item (viewer "group:2#member"), .done] := by
  obtain ⟨hcaching, hcached⟩ :=
    stored_read_complete "doc:1".toList "viewer".toList viewers isRead_viewers
  have hfirst : (run (CachingIterator.step 10) { inner := viewers } complete).map (·.stored)
      = some [viewers.map minimal] := by
    decide
  have hsecond : (run (CachedIterator.step 10 fields) { iter := viewers } completeRecords).map
      (·.stored) = some [viewers.map (record fields)] := by
    decide
  obtain ⟨s, hs, hstored⟩ := Option.map_eq_some_iff.mp hfirst
  obtain ⟨s', hs', hstored'⟩ := Option.map_eq_some_iff.mp hsecond
  refine ⟨⟨s, hs, hstored, ?_⟩, s', hs', hstored', ?_⟩
  · refine (hcaching 10 complete s _ (by decide) hs ?_).2 _
    rw [hstored]
    exact mem_singleton_self _
  · refine (hcached 10 completeRecords s' _ (by decide) hs' ?_).2 _
    rw [hstored']
    exact mem_singleton_self _

end Kengen.Storage
