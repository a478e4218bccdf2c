import Kengen.Lib.Runs
import Kengen.Lib.TtlCache
import Kengen.Model.Data

/-!
# The cache controller and the iterator cache

`InMemoryCacheController` reads the newest page of a store's changelog, compares its newest change
with the one it saw last, and writes invalidation markers: for the whole store, or for the object and
relation and for the user and object type of each recent change.

* `TupleChange`, `CacheKey`, `CacheEntry` — the changelog, and what is kept in the one cache.
* `writes` — what a run of `findChangesAndInvalidateIfNecessary` stores, given the time it found in
  the cache and the page it read.
* `isInvalidAt`, `findInCache` — the reader's side: an entry is served unless a live marker is newer.
* `State`, `step` — a store, its cache, the run in flight and the iterators that are being read.
  A run starts, reads a page, and completes; it may time out, or fail and mark the whole store.
* **`Inv`**, **`inv_step`** — what every step keeps: nothing is later than the clock, and the cached
  time of the newest change is the one that a run has read last.

Every step happens at a later time than the one before.  The timestamps of the changelog come from
the clock of the datastore, which may give several changes the same one.
-/

namespace Kengen.Invalidation

open TtlCache Runs List

/-! ### The changelog and the cache -/

/-- A change of the store, with its timestamp in the changelog and the time it was committed at. -/
structure TupleChange where
  object : Object
  relation : String
  user : User
  timestamp : Time
  committedAt : Time
deriving DecidableEq, Repr

/-- A read that is cached: by object and relation (`Read`, `ReadUsersetTuples`) or by users and
object type (`ReadStartingWithUser`), with the other fields of its key. -/
inductive Filter where
  | objectRelation (object : Object) (relation : String) (rest : String)
  | userObjectType (users : List User) (objectType : String) (rest : String)
deriving DecidableEq, Repr

/-- The keys of the cache for one store. -/
inductive CacheKey where
  | changelog
  | invalidIterator
  | invalidIteratorByObjectRelation (object : Object) (relation : String)
  | invalidIteratorByUserObjectType (user : User) (objectType : String)
  | iterator (filter : Filter)
deriving DecidableEq, Repr

/-- What is cached.  The tuples of an iterator entry are those of the store behind the first
`snapshot` changes. -/
inductive CacheEntry where
  | changelog (lastModified lastChecked : Time)
  | invalidEntity (lastModified : Time)
  | tupleIterator (snapshot : ℕ) (lastModified : Time)
deriving DecidableEq, Repr

/-- `oneYear`, in nanoseconds. -/
def oneYear : Time := 365 * 24 * 3600 * 1000000000

/-- `math.MaxInt`. -/
def maxInt : Time := 9223372036854775807

variable (cache : Cache CacheKey CacheEntry)

/-- `Set` of the cache. -/
def cacheSet (now : Time) (key : CacheKey) (entry : CacheEntry)
    (ttl : Time) : Cache CacheKey CacheEntry :=
  TtlCache.set oneYear cache now key entry ttl

structure InMemoryCacheController where
  queryCacheTTL : Time
  iteratorCacheTTL : Time
  /-- The configuration is rejected otherwise. -/
  iteratorCacheTTL_pos : 0 < iteratorCacheTTL
  /-- `DefaultPageSize` in the source. -/
  pageSize : ℕ
  pageSize_pos : 0 < pageSize
  jitterPercentage : ℕ

variable (c : InMemoryCacheController)

/-! ### One run -/

/-- The newest page among the first `n` changes, the newest change first. -/
def page (changelog : List TupleChange) (n : ℕ) : List TupleChange :=
  ((changelog.take n).drop (n - c.pageSize)).reverse

/-- The loop from the oldest change of the page: how many changes remain from the first recent one
on (`idx + 1`). -/
def recent (lastIteratorInvalidation : Time) (changes : List TupleChange) : ℕ → ℕ
  | 0 => 0
  | n + 1 =>
    match changes[n]? with
    | none => recent lastIteratorInvalidation changes n
    | some change =>
      if lastIteratorInvalidation < change.timestamp then n + 1
      else recent lastIteratorInvalidation changes n

/-- One store into the cache: key, entry and time to live. -/
structure CacheWrite where
  key : CacheKey
  entry : CacheEntry
  ttl : Time
deriving DecidableEq, Repr

/-- `invalidateIteratorCache`. -/
def invalidateIteratorCache (now : Time) : CacheWrite := ⟨.invalidIterator, .invalidEntity now, maxInt⟩

/-- `invalidateIteratorCacheByObjectRelation`. -/
def invalidateIteratorCacheByObjectRelation (object : Object) (relation : String) (ts : Time) :
    CacheWrite :=
  ⟨.invalidIteratorByObjectRelation object relation, .invalidEntity ts, c.iteratorCacheTTL⟩

/-- `invalidateIteratorCacheByUserAndObjectType`. -/
def invalidateIteratorCacheByUserAndObjectType (user : User) (objectType : String) (ts : Time) :
    CacheWrite :=
  ⟨.invalidIteratorByUserObjectType user objectType, .invalidEntity ts, c.iteratorCacheTTL⟩

/-- The markers of one change. -/
def markers (now : Time) (change : TupleChange) : List CacheWrite :=
  [invalidateIteratorCacheByObjectRelation c change.object change.relation now,
    invalidateIteratorCacheByUserAndObjectType c change.user change.object.type now]

/-- The invalidations of a run that has found a new newest change. -/
def invalidations (now : Time) (changes : List TupleChange) : List CacheWrite :=
  let count := recent (now - c.iteratorCacheTTL) changes changes.length
  if count = changes.length then [invalidateIteratorCache now]
  else (changes.take count).reverse.flatMap (markers c now)

/-- **What a run stores**, with the time of the newest change it found in the cache (zero if there
was none) and the page it read. -/
def writes (now lastChangeTimeCached : Time) (changes : List TupleChange) : List CacheWrite :=
  match changes.head? with
  | none => []
  | some newest =>
    ⟨.changelog, .changelog newest.timestamp now, c.queryCacheTTL⟩
      :: if lastChangeTimeCached < newest.timestamp then invalidations c now changes else []

/-! ### Reading the cache -/

/-- The marker of the store and the markers of a read. -/
def invalidKeys : Filter → List CacheKey
  | .objectRelation object relation _ =>
    [.invalidIterator, .invalidIteratorByObjectRelation object relation]
  | .userObjectType users objectType _ =>
    .invalidIterator :: users.map fun user => .invalidIteratorByUserObjectType user objectType

/-- `isInvalidAt`. -/
def isInvalidAt (now ts : Time) (filter : Filter) : Bool :=
  (invalidKeys filter).any fun key =>
    match get cache now key with
    | some (.invalidEntity lastModified) => decide (ts < lastModified)
    | _ => false

/-- `findInCache`: the snapshot and the stamp of the entry that is served. -/
def findInCache (now : Time) (filter : Filter) :
    Option (ℕ × Time) :=
  match get cache now (.iterator filter) with
  | some (.tupleIterator snapshot lastModified) =>
    if isInvalidAt cache now lastModified filter then none else some (snapshot, lastModified)
  | _ => none

/-! ### Histories -/

/-- A run of the controller; only one is in flight for a store. -/
inductive Run where
  | idle
  | started (lastChangeTimeCached : Time)
  /-- The page of the first `n` changes has been read; the changelog only grows. -/
  | read (lastChangeTimeCached : Time) (n : ℕ)
deriving DecidableEq, Repr

/-- An iterator over the store behind the first `snapshot` changes, which may be cached later. -/
structure CachedIterator where
  filter : Filter
  snapshot : ℕ
  initializedAt : Time
deriving DecidableEq, Repr

structure State where
  now : Time := 0
  changelog : List TupleChange := []
  cache : Cache CacheKey CacheEntry := TtlCache.empty
  run : Run := .idle
  iterators : List CachedIterator := []
  /-- The lengths of the changelog at the reads of the runs that have completed, the last one
  first. -/
  completed : List ℕ := []

inductive Action where
  | wait
  /-- A change is committed. -/
  | write (object : Object) (relation : String) (user : User) (timestamp : Time)
  /-- `findChangesAndInvalidateIfNecessary` looks into the cache. -/
  | start
  /-- It gives up waiting for the changelog. -/
  | timeout
  /-- Reading the changelog fails. -/
  | fail
  | readChanges
  | complete
  /-- A read.  If nothing is served it is stamped when its data is read. -/
  | query (filter : Filter)
  /-- An iterator is stored, with the jitter of its time to live. -/
  | flush (i : ℕ) (jitter : Time)
  | drop (i : ℕ)
deriving DecidableEq, Repr

/-- Each step has a time. -/
structure Choice where
  time : Time
  action : Action
deriving DecidableEq, Repr

/-- `lastChangeTimeCached`. -/
def lastChangeTimeCached (now : Time) : Time :=
  match get cache now .changelog with
  | some (.changelog lastModified _) => lastModified
  | _ => 0

def applyWrites (now : Time) (ws : List CacheWrite) :
    Cache CacheKey CacheEntry :=
  ws.foldl (fun cache w => cacheSet cache now w.key w.entry w.ttl) cache

/-- The greatest jitter of `JitteredTTL`. -/
def maxJitter (baseTTL : Time) (jitterPercentage : ℕ) : Time :=
  let percentage : Time := min jitterPercentage 100
  baseTTL / 100 * percentage + baseTTL % 100 * percentage / 100

/-- `JitteredTTL`, for a random jitter. -/
def jitteredTTL (baseTTL : Time) (jitterPercentage : ℕ) (jitter : Time) : Time :=
  if baseTTL ≤ 0 ∨ jitterPercentage = 0 then baseTTL
  else if maxInt - baseTTL < jitter then maxInt
  else baseTTL + jitter

/-- What an action does at its time. -/
def act (s : State) : Action → Option State
  | .wait => some s
  | .write object relation user timestamp =>
    -- the clock of the datastore does not run backwards
    if 0 < timestamp ∧ ∀ change ∈ s.changelog, change.timestamp ≤ timestamp then
      some { s with changelog := s.changelog ++ [⟨object, relation, user, timestamp, s.now⟩] }
    else none
  | .start =>
    match s.run with
    | .idle => some { s with run := .started (lastChangeTimeCached s.cache s.now) }
    | _ => none
  | .timeout =>
    match s.run with
    | .started _ => some { s with run := .idle }
    | _ => none
  | .fail =>
    match s.run with
    | .started _ => some { s with
        run := .idle
        cache := applyWrites s.cache s.now [invalidateIteratorCache s.now] }
    | _ => none
  | .readChanges =>
    match s.run with
    | .started cached =>
      -- an empty changelog is an error
      if s.changelog = [] then none else some { s with run := .read cached s.changelog.length }
    | _ => none
  | .complete =>
    match s.run with
    | .read cached n => some { s with
        run := .idle
        cache := applyWrites s.cache s.now (writes c s.now cached (page c s.changelog n))
        completed := n :: s.completed }
    | _ => none
  | .query filter =>
    match findInCache s.cache s.now filter with
    | some _ => some s
    | none => some { s with
        cache := TtlCache.delete s.cache (.iterator filter)
        iterators := ⟨filter, s.changelog.length, s.now⟩ :: s.iterators }
  | .flush i jitter =>
    match s.iterators[i]? with
    | none => none
    | some iterator =>
      if 0 ≤ jitter ∧ jitter ≤ maxJitter c.iteratorCacheTTL c.jitterPercentage then
        some { s with
          iterators := s.iterators.eraseIdx i
          cache := cacheSet s.cache s.now (.iterator iterator.filter)
            (.tupleIterator iterator.snapshot iterator.initializedAt)
            (jitteredTTL c.iteratorCacheTTL c.jitterPercentage jitter) }
      else none
  | .drop i => some { s with iterators := s.iterators.eraseIdx i }

/-- One step, at a later time than the one before. -/
def step (s : State) (choice : Choice) : Option State :=
  if s.now < choice.time then act c { s with now := choice.time } choice.action else none

/-! ### What holds in every history -/

/-- How far the run in flight has read. -/
def Run.reads : Run → List ℕ
  | .read _ n => [n]
  | _ => []

/-- The time that the run in flight found in the cache. -/
def Run.cached : Run → List Time
  | .idle => []
  | .started cached => [cached]
  | .read cached _ => [cached]

/-- How far the runs have read, the run in flight included. -/
def State.reads (s : State) : List ℕ := s.run.reads ++ s.completed

/-- The time is the one of the newest change that some completed run has read, or zero. -/
def Seen (s : State) (time : Time) : Prop :=
  time = 0 ∨ ∃ n ∈ s.completed, ∃ change, s.changelog[n - 1]? = some change
    ∧ time = change.timestamp

/-- **What holds in every history.** -/
structure Inv (s : State) : Prop where
  sorted : s.changelog.Pairwise fun a b => a.timestamp ≤ b.timestamp
  positive : ∀ change ∈ s.changelog, 0 < change.timestamp
  committed : ∀ change ∈ s.changelog, change.committedAt ≤ s.now
  reads : ∀ n ∈ s.reads, 0 < n ∧ n ≤ s.changelog.length
  /-- Runs follow one another. -/
  ordered : s.reads.Pairwise fun n m => m ≤ n
  changelogEntry : ∀ stored, s.cache .changelog = some stored →
    ∃ lastModified lastChecked, stored.value = .changelog lastModified lastChecked
      ∧ Seen s lastModified
  cached : ∀ time ∈ s.run.cached, Seen s time

theorem inv_init : Inv {} where
  sorted := List.Pairwise.nil
  positive := nofun
  committed := nofun
  reads := nofun
  ordered := List.Pairwise.nil
  changelogEntry := nofun
  cached := nofun

variable {s : State} {time : Time}

theorem Inv.later (h : Inv s) (hlt : s.now ≤ time) : Inv { s with now := time } :=
  { h with committed := fun change hchange => (h.committed change hchange).trans hlt }

/-- The stores of a run leave the other keys alone. -/
theorem applyWrites_ne {key : CacheKey} {ws : List CacheWrite} (h : ∀ w ∈ ws, w.key ≠ key)
    (cache : Cache CacheKey CacheEntry) (now : Time) :
    applyWrites cache now ws key = cache key := by
  induction ws generalizing cache with
  | nil => rfl
  | cons w ws ih =>
    obtain ⟨hw, hws⟩ := forall_mem_cons.mp h
    rw [applyWrites, foldl_cons]
    exact (ih hws _).trans (lookup_set_ne (Ne.symm hw))

variable {now : Time}

/-- Invalidations store markers. -/
theorem invalidations_ne {changes : List TupleChange} {w : CacheWrite}
    (h : w ∈ invalidations c now changes) :
    w.key ≠ .changelog ∧ ∀ filter, w.key ≠ .iterator filter := by
  unfold invalidations at h
  simp only at h
  split at h
  · rw [mem_singleton.mp h]
    exact ⟨nofun, nofun⟩
  · obtain ⟨change, -, hw⟩ := mem_flatMap.mp h
    rcases mem_cons.mp hw with rfl | hw
    · exact ⟨nofun, nofun⟩
    · rw [mem_singleton.mp hw]
      exact ⟨nofun, nofun⟩

/-- The changelog entry behind a run is the old one or the one of the page. -/
theorem writes_changelog {cached : Time} {changes : List TupleChange}
    {cache : Cache CacheKey CacheEntry} {stored : Stored CacheEntry}
    (h : applyWrites cache now (writes c now cached changes) .changelog = some stored) :
    cache .changelog = some stored
      ∨ ∃ change, changes.head? = some change ∧ stored.value = .changelog change.timestamp now := by
  unfold writes at h
  cases hhead : changes.head? with
  | none =>
    rw [hhead] at h
    exact .inl h
  | some change =>
    rw [hhead] at h
    simp only [applyWrites, foldl_cons] at h
    have hrest : ∀ w ∈ (if cached < change.timestamp then invalidations c now changes else []),
        w.key ≠ .changelog := by
      intro w hw
      split at hw
      · exact (invalidations_ne c hw).1
      · cases hw
    have h' := (applyWrites_ne hrest _ now).symm.trans h
    rcases lookup_set_cases h' with hold | ⟨-, rfl⟩
    · exact .inl hold
    · exact .inr ⟨change, rfl, rfl⟩

variable {c}

theorem mem_page {changelog : List TupleChange} {n : ℕ} {change : TupleChange} :
    change ∈ page c changelog n ↔ ∃ i, n - c.pageSize ≤ i ∧ i < n ∧ changelog[i]? = some change := by
  unfold page
  rw [mem_reverse, mem_iff_getElem?]
  simp only [getElem?_drop, getElem?_take]
  constructor
  · rintro ⟨k, hk⟩
    split_ifs at hk with hlt
    exact ⟨n - c.pageSize + k, Nat.le_add_right _ _, hlt, hk⟩
  · rintro ⟨i, hle, hlt, hi⟩
    refine ⟨i - (n - c.pageSize), ?_⟩
    rw [Nat.add_sub_cancel' hle, if_pos hlt]
    exact hi

theorem head_page {changelog : List TupleChange} {n : ℕ} (hpos : 0 < n)
    (hle : n ≤ changelog.length) : (page c changelog n).head? = changelog[n - 1]? := by
  have hpage := c.pageSize_pos
  rw [page, head?_reverse, getLast?_eq_getElem?, getElem?_drop, getElem?_take,
    length_drop, length_take, Nat.min_eq_left hle]
  have hindex : n - c.pageSize + (n - (n - c.pageSize) - 1) = n - 1 := by omega
  rw [hindex, if_pos (by omega)]

/-- The changes that were there stay. -/
theorem Seen.append (h : Seen s time) (change : TupleChange) :
    Seen { s with changelog := s.changelog ++ [change] } time := by
  rcases h with h | ⟨n, hn, old, hold, htime⟩
  · exact .inl h
  · refine .inr ⟨n, hn, old, ?_, htime⟩
    exact (List.getElem?_append_left (List.getElem?_eq_some_iff.mp hold).1).trans hold

theorem Seen.complete (h : Seen s time) (n : ℕ) (run : Run) (cache : Cache CacheKey CacheEntry) :
    Seen { s with run := run, cache := cache, completed := n :: s.completed } time := by
  rcases h with h | ⟨m, hm, rest⟩
  · exact .inl h
  · exact .inr ⟨m, mem_cons_of_mem _ hm, rest⟩

/-- **What an action does**, by the state it finds. -/
inductive Acts (c : InMemoryCacheController) (s : State) : Action → State → Prop where
  | wait : Acts c s .wait s
  | write {object relation user timestamp} (hpos : 0 < timestamp)
    (hlast : ∀ change ∈ s.changelog, change.timestamp ≤ timestamp) :
    Acts c s (.write object relation user timestamp)
      { s with changelog := s.changelog ++ [⟨object, relation, user, timestamp, s.now⟩] }
  | start (hrun : s.run = .idle) :
    Acts c s .start { s with run := .started (lastChangeTimeCached s.cache s.now) }
  | timeout {cached} (hrun : s.run = .started cached) : Acts c s .timeout { s with run := .idle }
  | fail {cached} (hrun : s.run = .started cached) : Acts c s .fail { s with
      run := .idle
      cache := applyWrites s.cache s.now [invalidateIteratorCache s.now] }
  | readChanges {cached} (hrun : s.run = .started cached) (hne : s.changelog ≠ []) :
    Acts c s .readChanges { s with run := .read cached s.changelog.length }
  | complete {cached n} (hrun : s.run = .read cached n) : Acts c s .complete { s with
      run := .idle
      cache := applyWrites s.cache s.now (writes c s.now cached (page c s.changelog n))
      completed := n :: s.completed }
  | serve {filter} : Acts c s (.query filter) s
  | query {filter} : Acts c s (.query filter) { s with
      cache := TtlCache.delete s.cache (.iterator filter)
      iterators := ⟨filter, s.changelog.length, s.now⟩ :: s.iterators }
  | flush {i jitter iterator} (hi : s.iterators[i]? = some iterator) :
    Acts c s (.flush i jitter) { s with
      iterators := s.iterators.eraseIdx i
      cache := cacheSet s.cache s.now (.iterator iterator.filter)
        (.tupleIterator iterator.snapshot iterator.initializedAt)
        (jitteredTTL c.iteratorCacheTTL c.jitterPercentage jitter) }
  | drop {i} : Acts c s (.drop i) { s with iterators := s.iterators.eraseIdx i }

variable {s' : State} {action : Action} {choice : Choice}

theorem acts_of_act (h : act c s action = some s') : Acts c s action s' := by
  unfold act at h
  split at h
  case h_2 =>
    split_ifs at h with hts
    cases h
    exact .write hts.1 hts.2
  case h_8 =>
    split at h <;> cases h
    · exact .serve
    · exact .query
  all_goals
    repeat
      first
      | cases h; constructor <;> assumption
      | cases h
      | split at h

theorem acts_of_step (h : step c s choice = some s') :
    s.now < choice.time ∧ Acts c { s with now := choice.time } choice.action s' := by
  unfold step at h
  split_ifs at h with hlt
  exact ⟨hlt, acts_of_act h⟩

theorem inv_act (h : Inv s) (hact : Acts c s action s') : Inv s' := by
  cases hact with
  | wait | serve => exact h
  | write hpos hlast =>
    refine ⟨?_, ?_, ?_, ?_, h.ordered, ?_, ?_⟩
    · refine pairwise_append.mpr ⟨h.sorted, pairwise_singleton _ _, ?_⟩
      intro a ha b hb
      rw [mem_singleton.mp hb]
      exact hlast a ha
    · exact forall_mem_append.mpr ⟨h.positive, forall_mem_singleton.mpr hpos⟩
    · exact forall_mem_append.mpr ⟨h.committed, forall_mem_singleton.mpr le_rfl⟩
    · intro n hn
      obtain ⟨hpos, hle⟩ := h.reads n hn
      refine ⟨hpos, ?_⟩
      rw [length_append]
      omega
    · intro stored hstored
      obtain ⟨lastModified, lastChecked, hvalue, hseen⟩ := h.changelogEntry stored hstored
      exact ⟨lastModified, lastChecked, hvalue, hseen.append _⟩
    · exact fun time htime => (h.cached time htime).append _
  | start hrun =>
    have hreads : s.reads = s.completed := by rw [State.reads, hrun]; rfl
    refine { h with reads := hreads ▸ h.reads, ordered := hreads ▸ h.ordered, cached := ?_ }
    intro time htime
    obtain rfl := mem_singleton.mp htime
    unfold lastChangeTimeCached
    split
    · rename_i lastModified lastChecked hget
      obtain ⟨stored, hstored, -, hvalue⟩ := lookup_of_get hget
      obtain ⟨lastModified', lastChecked', hvalue', hseen⟩ := h.changelogEntry stored hstored
      rw [hvalue] at hvalue'
      obtain ⟨rfl, rfl⟩ := CacheEntry.changelog.inj hvalue'
      exact hseen
    · exact .inl rfl
  | timeout hrun =>
    have hreads : s.reads = s.completed := by rw [State.reads, hrun]; rfl
    exact { h with reads := hreads ▸ h.reads, ordered := hreads ▸ h.ordered, cached := nofun }
  | fail hrun =>
    have hreads : s.reads = s.completed := by rw [State.reads, hrun]; rfl
    refine { h with
      reads := hreads ▸ h.reads
      ordered := hreads ▸ h.ordered
      cached := nofun
      changelogEntry := fun stored hstored => h.changelogEntry stored ?_ }
    have hne : (invalidateIteratorCache s.now).key ≠ .changelog := nofun
    exact (applyWrites_ne (forall_mem_singleton.mpr hne) s.cache s.now).symm.trans hstored
  | readChanges hrun hne =>
    have hreads : s.reads = s.completed := by rw [State.reads, hrun]; rfl
    have hold : ∀ n ∈ s.completed, 0 < n ∧ n ≤ s.changelog.length := hreads ▸ h.reads
    refine { h with
      reads := ?_
      ordered := ?_
      cached := fun time htime => h.cached time (by rw [hrun]; exact htime) }
    · exact forall_mem_cons.mpr ⟨⟨length_pos_iff.mpr hne, le_rfl⟩, hold⟩
    · exact pairwise_cons.mpr ⟨fun n hn => (hold n hn).2, hreads ▸ h.ordered⟩
  | @complete cached n hrun =>
    have hreads : s.reads = n :: s.completed := by rw [State.reads, hrun]; rfl
    have hn : 0 < n ∧ n ≤ s.changelog.length := h.reads n (by rw [hreads]; exact mem_cons_self)
    refine { h with
      reads := hreads ▸ h.reads
      ordered := hreads ▸ h.ordered
      cached := nofun
      changelogEntry := fun stored hstored => ?_ }
    rcases writes_changelog c hstored with hold | ⟨change, hhead, hvalue⟩
    · obtain ⟨lastModified, lastChecked, hvalue, hseen⟩ := h.changelogEntry stored hold
      exact ⟨lastModified, lastChecked, hvalue, hseen.complete n _ _⟩
    · rw [head_page hn.1 hn.2] at hhead
      exact ⟨_, _, hvalue, .inr ⟨n, mem_cons_self, change, hhead, rfl⟩⟩
  | @query filter =>
    refine { h with changelogEntry := fun stored hstored => h.changelogEntry stored ?_ }
    have hne : CacheKey.changelog ≠ .iterator filter := nofun
    exact (lookup_delete_ne hne).symm.trans hstored
  | @flush _ _ iterator _ =>
    refine { h with changelogEntry := fun stored hstored => h.changelogEntry stored ?_ }
    have hne : CacheKey.changelog ≠ .iterator iterator.filter := nofun
    exact (lookup_set_ne hne).symm.trans hstored
  | drop => exact { h with }

theorem inv_step (h : Inv s) (hstep : step c s choice = some s') : Inv s' := by
  obtain ⟨hlt, hact⟩ := acts_of_step hstep
  exact inv_act (h.later hlt.le) hact

end Kengen.Invalidation
