import Kengen.Invalidation.Served

/-!
# The snapshot and the stamp of a cached read

`CachedTupleReader` and `CachedDatastore` look into the cache, call the datastore, and wrap what it
returns in an iterator that may be stored later.  The datastore takes its snapshot when it is
called.  The stamp of the entry is the time at which the iterator is created, behind the call.  A
marker invalidates an entry only if it is newer than the stamp, so a change and its marker that fall
between the snapshot and the stamp are missing from the entry and do not invalidate it.

* `Reader` — the two readers; they differ in what they look at before an entry is stored.
* `step` — calls, creations, stores, writes and markers in any order.
* `Calm` — the condition: no change to what is being read is committed between its snapshot and its
  stamp.
* **`run_reflects`** — in every calm history an entry misses only changes that were committed behind
  its stamp.
* **`entry_not_older_than_stamp`** — so it holds everything committed before, and the marker of a
  change that it misses keeps it from being served.
* **`stale_entry_served`** — without the condition both readers serve an entry that is older.
-/

namespace Kengen.Invalidation.Snapshots

open TtlCache Runs List

/-- `CachedTupleReader` of the second implementation and `CachedDatastore` of the first one. -/
inductive Reader where
  | cachedTupleReader
  | cachedDatastore
deriving DecidableEq, Repr

inductive Phase where
  /-- The datastore has been called. -/
  | called
  /-- The iterator exists; the time is `createdAt`, or `initializedAt`. -/
  | created (createdAt : Time)
  /-- It has been stopped and will be stored. -/
  | stopped (createdAt : Time)
deriving DecidableEq, Repr

/-- A read that has missed the cache: its filter and the number of changes in its snapshot. -/
structure Reading where
  filter : Filter
  snapshot : ℕ
  phase : Phase
deriving DecidableEq, Repr

structure State where
  now : Time := 0
  changelog : List TupleChange := []
  cache : Cache CacheKey CacheEntry := TtlCache.empty
  readings : List Reading := []

inductive Action where
  | wait
  | write (object : Object) (relation : String) (user : User) (timestamp : Time)
  /-- A marker is stored.  Its time is read from the clock before that. -/
  | mark (key : CacheKey) (lastModified ttl : Time)
  | read (filter : Filter)
  /-- `newCachingIterator`, or the end of `newCachedIterator`. -/
  | create (i : ℕ)
  | stop (i : ℕ)
  | flush (i : ℕ) (ttl : Time)
deriving DecidableEq, Repr

structure Choice where
  time : Time
  action : Action
deriving DecidableEq, Repr

/-- The keys of markers. -/
def isMarkerKey : CacheKey → Bool
  | .invalidIterator => true
  | .invalidIteratorByObjectRelation _ _ => true
  | .invalidIteratorByUserObjectType _ _ => true
  | _ => false

/-- **What keeps an iterator from being stored.**  The first implementation looks for an entry that
is valid and for a marker that is newer than the stamp, the second one for any entry. -/
def abandons (reader : Reader) (cache : Cache CacheKey CacheEntry) (now : Time) (filter : Filter)
    (createdAt : Time) : Bool :=
  match reader with
  | .cachedTupleReader => (get cache now (.iterator filter)).isSome
  | .cachedDatastore => (findInCache cache now filter).isSome || isInvalidAt cache now createdAt filter

def act (reader : Reader) (s : State) : Action → Option State
  | .wait => some s
  | .write object relation user timestamp =>
    some { s with changelog := s.changelog ++ [⟨object, relation, user, timestamp, s.now⟩] }
  | .mark key lastModified ttl =>
    if isMarkerKey key ∧ lastModified ≤ s.now then
      some { s with cache := cacheSet s.cache s.now key (.invalidEntity lastModified) ttl }
    else none
  | .read filter =>
    match findInCache s.cache s.now filter with
    | some _ => some s
    | none => some { s with
        cache := TtlCache.delete s.cache (.iterator filter)
        readings := ⟨filter, s.changelog.length, .called⟩ :: s.readings }
  | .create i =>
    match s.readings[i]? with
    | some ⟨filter, snapshot, .called⟩ => some { s with
        readings := s.readings.set i ⟨filter, snapshot, .created s.now⟩ }
    | _ => none
  | .stop i =>
    match s.readings[i]? with
    | some ⟨filter, snapshot, .created createdAt⟩ =>
      if abandons reader s.cache s.now filter createdAt then
        some { s with readings := s.readings.eraseIdx i }
      else some { s with readings := s.readings.set i ⟨filter, snapshot, .stopped createdAt⟩ }
    | _ => none
  | .flush i ttl =>
    match s.readings[i]? with
    | some ⟨filter, snapshot, .stopped createdAt⟩ => some { s with
        readings := s.readings.eraseIdx i
        cache := cacheSet s.cache s.now (.iterator filter) (.tupleIterator snapshot createdAt) ttl }
    | _ => none

/-- One step, at a later time than the one before. -/
def step (reader : Reader) (s : State) (choice : Choice) : Option State :=
  if s.now < choice.time then act reader { s with now := choice.time } choice.action else none

/-- **Nothing that is being read changes between the snapshot and the stamp.** -/
def Calm (s : State) (choice : Choice) : Prop :=
  match choice.action with
  | .create i => ∀ reading ∈ s.readings[i]?,
    ∀ change ∈ s.changelog.drop reading.snapshot, ¬ Concerns reading.filter change
  | _ => True

instance (s : State) (choice : Choice) : Decidable (Calm s choice) := by
  obtain ⟨_, action⟩ := choice
  cases action <;> unfold Calm <;> infer_instance

/-! ### What an entry misses -/

/-- The changes behind the snapshot that concern the read were committed behind the stamp. -/
def Reflects (changelog : List TupleChange) (filter : Filter) (snapshot : ℕ) (createdAt : Time) : Prop :=
  ∀ i change, snapshot ≤ i → changelog[i]? = some change → Concerns filter change →
    createdAt < change.committedAt

/-- The stamp of a reading. -/
def Phase.stamp : Phase → Option Time
  | .called => none
  | .created createdAt => some createdAt
  | .stopped createdAt => some createdAt

structure Inv (s : State) : Prop where
  reading : ∀ reading ∈ s.readings, ∀ createdAt ∈ reading.phase.stamp,
    createdAt ≤ s.now ∧ Reflects s.changelog reading.filter reading.snapshot createdAt
  entry : ∀ filter snapshot createdAt expires, Holds s.cache filter snapshot createdAt expires →
    createdAt ≤ s.now ∧ Reflects s.changelog filter snapshot createdAt

theorem inv_init : Inv {} := ⟨nofun, nofun⟩

/-- A change that is committed later than the stamp changes nothing. -/
theorem Reflects.write {changelog : List TupleChange} {filter : Filter} {snapshot : ℕ}
    {createdAt : Time} (h : Reflects changelog filter snapshot createdAt) {new : TupleChange}
    (hlt : createdAt < new.committedAt) :
    Reflects (changelog ++ [new]) filter snapshot createdAt := by
  intro i change hle hchange hconcerns
  rcases getElem?_committed hchange with hold | ⟨-, rfl⟩
  · exact h i change hle hold hconcerns
  · exact hlt

variable {reader : Reader}

theorem inv_act {s s' : State} {action : Action} (h : Inv s)
    (hpast : ∀ filter snapshot createdAt expires,
      Holds s.cache filter snapshot createdAt expires → createdAt < s.now)
    (hpast' : ∀ reading ∈ s.readings, ∀ createdAt ∈ reading.phase.stamp, createdAt < s.now)
    (hcalm : Calm s ⟨s.now, action⟩) (hact : act reader s action = some s') : Inv s' := by
  cases action with
  | wait =>
    cases hact
    exact h
  | write =>
    cases hact
    constructor
    · intro reading hreading createdAt hat
      obtain ⟨hle, hreflects⟩ := h.reading reading hreading createdAt hat
      exact ⟨hle, hreflects.write (hpast' reading hreading createdAt hat)⟩
    · intro filter snapshot createdAt expires hholds
      obtain ⟨hle, hreflects⟩ := h.entry filter snapshot createdAt expires hholds
      exact ⟨hle, hreflects.write (hpast filter snapshot createdAt expires hholds)⟩
  | mark =>
    simp only [act] at hact
    split_ifs at hact with hkey
    cases hact
    refine ⟨h.reading, fun _ _ _ _ hholds => ?_⟩
    -- markers are stored under other keys than entries
    rcases lookup_set_cases hholds with hold | ⟨rfl, -⟩
    · exact h.entry _ _ _ _ hold
    · cases hkey.1
  | read =>
    simp only [act] at hact
    split at hact <;> cases hact
    · exact h
    · refine ⟨?_, fun _ _ _ _ hholds => h.entry _ _ _ _ (lookup_of_delete hholds)⟩
      exact forall_mem_cons.mpr ⟨nofun, h.reading⟩
  | create =>
    simp only [act] at hact
    split at hact
    · rename_i filter snapshot hi
      cases hact
      refine ⟨fun reading hreading createdAt hat => ?_, h.entry⟩
      rcases mem_or_eq_of_mem_set hreading with hold | rfl
      · exact h.reading reading hold createdAt hat
      · -- the condition: nothing that concerns the read is behind the snapshot
        obtain rfl : s.now = createdAt := Option.some.inj hat
        refine ⟨le_rfl, fun j change hle hchange hconcerns => ?_⟩
        have hmem : change ∈ s.changelog.drop snapshot := by
          refine mem_iff_getElem?.mpr ⟨j - snapshot, ?_⟩
          rw [getElem?_drop, Nat.add_sub_cancel' hle, hchange]
        exact absurd hconcerns (hcalm _ hi change hmem)
    · cases hact
  | stop =>
    simp only [act] at hact
    split at hact
    · rename_i filter snapshot createdAt hi
      split at hact <;> cases hact
      · exact ⟨fun reading hreading => h.reading reading (mem_of_mem_eraseIdx hreading),
          h.entry⟩
      · refine ⟨fun reading hreading => ?_, h.entry⟩
        rcases mem_or_eq_of_mem_set hreading with hold | rfl
        · exact h.reading reading hold
        · exact h.reading ⟨filter, snapshot, .created createdAt⟩ (mem_of_getElem? hi)
    · cases hact
  | flush =>
    simp only [act] at hact
    split at hact
    · rename_i filter snapshot createdAt hi
      cases hact
      refine ⟨fun reading hreading => h.reading reading (mem_of_mem_eraseIdx hreading), ?_⟩
      intro filter' snapshot' createdAt' expires hholds
      rcases lookup_set_cases hholds with hold | ⟨⟨⟩, ⟨⟩⟩
      · exact h.entry _ _ _ _ hold
      · exact h.reading _ (mem_of_getElem? hi) createdAt rfl
    · cases hact

theorem inv_step {s s' : State} {choice : Choice} (h : Inv s) (hcalm : Calm s choice)
    (hstep : step reader s choice = some s') : Inv s' := by
  unfold step at hstep
  split_ifs at hstep with hlt
  have hlater : Inv { s with now := choice.time } :=
    ⟨fun reading hreading createdAt hat =>
        (h.reading reading hreading createdAt hat).imp_left (·.trans hlt.le),
      fun _ _ _ _ hholds => (h.entry _ _ _ _ hholds).imp_left (·.trans hlt.le)⟩
  exact inv_act hlater (fun _ _ _ _ hholds => (h.entry _ _ _ _ hholds).1.trans_lt hlt)
    (fun reading hreading createdAt hat => (h.reading reading hreading createdAt hat).1.trans_lt hlt)
    hcalm hstep

/-- **In a calm history an entry misses only changes that were committed behind its stamp.** -/
theorem run_reflects {choices : List Choice} {s : State}
    (hcalm : Along (step reader) Calm {} choices) (hrun : run (step reader) {} choices = some s) :
    Inv s :=
  run_invariant (fun _ _ _ => inv_step) inv_init hcalm hrun

/-- **An entry is not older than its stamp.**  In every history in which nothing that is being read
changes between the snapshot and the stamp, an entry holds every change of its object and relation,
or of its users and object type, that was committed before its stamp or at it; and if a marker is at
least as new as a change that the entry misses, the entry is not served while the marker lives. -/
theorem entry_not_older_than_stamp (reader : Reader) (choices : List Choice) (s : State)
    (hcalm : Along (step reader) Calm {} choices) (hrun : run (step reader) {} choices = some s)
    (filter : Filter) (snapshot : ℕ) (lastModified expires : Time)
    (hentry : s.cache (.iterator filter) = some ⟨.tupleIterator snapshot lastModified, expires⟩)
    (i : ℕ) (change : TupleChange) (hchange : s.changelog[i]? = some change)
    (hconcerns : Concerns filter change) :
    (change.committedAt ≤ lastModified → i < snapshot)
      ∧ (snapshot ≤ i → ∀ key ∈ invalidKeys filter, ∀ markedAt,
        get s.cache s.now key = some (.invalidEntity markedAt) → change.committedAt ≤ markedAt →
          findInCache s.cache s.now filter = none) := by
  obtain ⟨-, hreflects⟩ := (run_reflects hcalm hrun).entry filter snapshot lastModified expires hentry
  constructor
  · intro hcommitted
    by_contra hmissed
    exact absurd (hreflects i change (not_lt.mp hmissed) hchange hconcerns) (not_lt.mpr hcommitted)
  · intro hle key hkey markedAt hmarker hlate
    have hlt := (hreflects i change hle hchange hconcerns).trans_le hlate
    have hinvalid : isInvalidAt s.cache s.now lastModified filter = true := by
      refine any_eq_true.mpr ⟨key, hkey, ?_⟩
      rw [hmarker]
      exact decide_eq_true hlt
    cases hserved : findInCache s.cache s.now filter with
    | none => rfl
    | some =>
      obtain ⟨_, hholds, -, hvalid⟩ := holds_of_findInCache hserved
      cases hentry.symm.trans hholds
      rw [hinvalid] at hvalid
      cases hvalid

/-! ### A change between the snapshot and the stamp -/

namespace Window

def doc : Object := ⟨"doc", "1"⟩

def anne : User := .object ⟨"user", "anne"⟩

/-- The usersets of `doc:1#viewer`. -/
def viewers : Filter := .objectRelation doc "viewer" ""

/-- The datastore is called at 10 and the iterator is created at 13.  The change at 11 and its
marker at 12 are between them. -/
def history : List Choice :=
  [⟨10, .read viewers⟩, ⟨11, .write doc "viewer" anne 11⟩,
    ⟨12, .mark (.invalidIteratorByObjectRelation doc "viewer") 12 100⟩, ⟨13, .create 0⟩,
    ⟨14, .stop 0⟩, ⟨15, .flush 0 100⟩, ⟨16, .wait⟩]

/-- The same with the iterator created before the change. -/
def calmHistory : List Choice :=
  [⟨10, .read viewers⟩, ⟨11, .create 0⟩, ⟨12, .stop 0⟩, ⟨13, .flush 0 100⟩,
    ⟨14, .write doc "viewer" anne 14⟩,
    ⟨15, .mark (.invalidIteratorByObjectRelation doc "viewer") 15 100⟩, ⟨16, .wait⟩]

def change (createdAt : Time) : TupleChange := ⟨doc, "viewer", anne, createdAt, createdAt⟩

/-- The change, the entry, the live marker, and what is served from the entry. -/
structure Observed where
  change : Option TupleChange
  entry : Option (Stored CacheEntry)
  marker : Option CacheEntry
  served : Option (ℕ × Time)
deriving DecidableEq

def observed (reader : Reader) (choices : List Choice) : Option Observed :=
  (run (step reader) {} choices).map fun s =>
    ⟨s.changelog[0]?, s.cache (.iterator viewers),
      get s.cache s.now (.invalidIteratorByObjectRelation doc "viewer"),
      findInCache s.cache s.now viewers⟩

end Window

open Window in
/-- **An entry that is older than its stamp is stored and served** by both readers: it is stamped 13
and misses the change of 11, and the marker of 12 does not invalidate it. -/
theorem stale_entry_served :
    observed .cachedTupleReader history = some ⟨some (change 11), some ⟨.tupleIterator 0 13, 115⟩,
        some (.invalidEntity 12), some (0, 13)⟩
      ∧ observed .cachedDatastore history = some ⟨some (change 11), some ⟨.tupleIterator 0 13, 115⟩,
        some (.invalidEntity 12), some (0, 13)⟩ := by
  decide

open Window in
/-- With the change behind the stamp the marker keeps the entry from being served. -/
theorem entry_not_older_than_stamp_calm :
    ∃ s, run (step .cachedTupleReader) {} calmHistory = some s
      ∧ s.cache (.iterator viewers) = some ⟨.tupleIterator 0 11, 113⟩
      ∧ s.changelog[0]? = some (change 14) ∧ findInCache s.cache s.now viewers = none := by
  have hfacts : observed .cachedTupleReader calmHistory = some ⟨some (change 14),
      some ⟨.tupleIterator 0 11, 113⟩, some (.invalidEntity 15), none⟩ := by
    decide
  obtain ⟨s, hs, hfacts⟩ := Option.map_eq_some_iff.mp hfacts
  simp only [Observed.mk.injEq] at hfacts
  obtain ⟨hchange, hentry, hmarker, -⟩ := hfacts
  refine ⟨s, hs, hentry, hchange, ?_⟩
  exact (entry_not_older_than_stamp .cachedTupleReader calmHistory s (by decide) hs viewers 0
    11 113 hentry 0 (change 14) hchange (by decide)).2 le_rfl _ (by decide) 15 hmarker (by decide)

end Kengen.Invalidation.Snapshots
