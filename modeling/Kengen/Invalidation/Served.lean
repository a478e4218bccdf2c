import Kengen.Invalidation.Coverage

/-!
# Entries that are served after an invalidation

A marker lives for the time to live of the iterator cache, counted from the run that wrote it.  An
entry that was read before a change is kept from being served by the marker of the change, as long
as the marker lives.  So an entry must not outlive the marker.  The source counts the life of an
entry from the time it is stored and adds a jitter, and it stores entries that miss changes.

* `Concerns` — a read that a change belongs to.
* `Processed` — the changes on the page of a completed run.
* `Timely` — the condition: an entry is stored before a change to its data is committed, at a commit
  the entries it concerns have no more than a lifetime left, and changes are fresh and stamped when
  they are committed or later.
* `ServedInv` — an entry that misses a processed change is dead, or a newer marker outlives it.
* **`invalidated_entry_not_served`** — in every timely history no entry is served that misses a
  processed change.
* **`jittered_entry_served`** — with jitter an entry outlives the marker and is served again.
-/

namespace Kengen.Invalidation

open TtlCache Runs List

variable {c : InMemoryCacheController}

/-- **The change is one that the read would see**: of the same object and relation, or of one of the
users and the object type. -/
def Concerns : Filter → TupleChange → Prop
  | .objectRelation object relation _, change =>
    change.object = object ∧ change.relation = relation
  | .userObjectType users objectType _, change =>
    change.user ∈ users ∧ change.object.type = objectType

instance (filter : Filter) (change : TupleChange) : Decidable (Concerns filter change) := by
  cases filter <;> exact inferInstanceAs (Decidable (_ ∧ _))

variable (c) in
/-- The change was on the page of a run that has completed. -/
def Processed (s : State) (i : ℕ) : Prop := ∃ n ∈ s.completed, n - c.pageSize ≤ i ∧ i < n

variable (c) in
/-- The time to live of the iterator cache, as it is cut by the cache. -/
def lifetime : Time := min c.iteratorCacheTTL oneYear

variable (c) in
/-- **Entries are stored and expire in time.**  A change is fresh, its timestamp is not before its
commit, and the entries it concerns have no more than a lifetime left.  An iterator is stored before
a change that it misses is committed. -/
def Timely (s : State) (choice : Choice) : Prop :=
  Fresh s choice ∧ match choice.action with
    | .write object relation user timestamp => choice.time ≤ timestamp
      ∧ ∀ filter stored, s.cache (.iterator filter) = some stored →
        Concerns filter ⟨object, relation, user, timestamp, choice.time⟩ →
          stored.expires ≤ choice.time + lifetime c
    | .flush i _ => ∀ iterator, s.iterators[i]? = some iterator →
      ∀ change ∈ s.changelog.drop iterator.snapshot, ¬ Concerns iterator.filter change
    | _ => True

/-- The entry of a read, with its expiry. -/
def Holds (cache : Cache CacheKey CacheEntry) (filter : Filter) (snapshot : ℕ)
    (stamp expires : Time) : Prop :=
  cache (.iterator filter) = some ⟨.tupleIterator snapshot stamp, expires⟩

/-- **A newer marker outlives the entry.** -/
def Marked (cache : Cache CacheKey CacheEntry) (filter : Filter) (stamp expires : Time) : Prop :=
  ∃ key ∈ invalidKeys filter, ∃ lastModified till,
    cache key = some ⟨.invalidEntity lastModified, till⟩ ∧ stamp < lastModified ∧ expires ≤ till

variable (c) in
structure ServedInv (s : State) : Prop where
  late : ∀ change ∈ s.changelog, change.committedAt ≤ change.timestamp
  opened : ∀ iterator ∈ s.iterators, iterator.initializedAt ≤ s.now
  stamp : ∀ filter snapshot stamp expires, Holds s.cache filter snapshot stamp expires →
    stamp ≤ s.now
  /-- At the commit of a change that it misses an entry had no more than a lifetime left. -/
  expires : ∀ filter snapshot stamp expires, Holds s.cache filter snapshot stamp expires →
    ∀ i change, snapshot ≤ i → s.changelog[i]? = some change → Concerns filter change →
      expires ≤ change.committedAt + lifetime c
  /-- An entry that misses a processed change is dead or marked. -/
  guarded : ∀ filter snapshot stamp expires, Holds s.cache filter snapshot stamp expires →
    ∀ i change, Processed c s i → snapshot ≤ i → s.changelog[i]? = some change →
      Concerns filter change → expires ≤ s.now ∨ Marked s.cache filter stamp expires

/-! ### Markers -/

variable (c) in
/-- A store of a marker at a time. -/
structure IsMarker (now : Time) (w : CacheWrite) : Prop where
  entry : w.entry = .invalidEntity now
  ttl : w.ttl = maxInt ∨ w.ttl = c.iteratorCacheTTL

variable {now : Time}

theorem IsMarker.ttl_nonneg {w : CacheWrite} (h : IsMarker c now w) : 0 ≤ w.ttl := by
  have hpos := c.iteratorCacheTTL_pos
  rcases h.ttl with httl | httl <;> rw [httl]
  · decide
  · exact hpos.le

/-- A marker does not live shorter than an entry. -/
theorem IsMarker.lifetime_le {w : CacheWrite} (h : IsMarker c now w) :
    lifetime c ≤ min w.ttl oneYear := by
  rcases h.ttl with httl | httl <;> rw [httl]
  · have hmax : min maxInt oneYear = oneYear := by decide
    rw [hmax]
    exact min_le_right _ _
  · exact le_rfl

variable {changes : List TupleChange}

theorem isMarker_invalidations {w : CacheWrite}
    (h : w ∈ invalidations c now changes) : IsMarker c now w := by
  unfold invalidations at h
  simp only at h
  split at h
  · rw [mem_singleton.mp h]
    exact ⟨rfl, .inl rfl⟩
  · obtain ⟨_, -, hw⟩ := mem_flatMap.mp h
    rcases mem_cons.mp hw with rfl | hw
    · exact ⟨rfl, .inr rfl⟩
    · rw [mem_singleton.mp hw]
      exact ⟨rfl, .inr rfl⟩

variable (c) in
/-- The entry of a key is a marker of this time. -/
def FreshMarker (cache : Cache CacheKey CacheEntry) (now : Time) (key : CacheKey) : Prop :=
  ∃ expires, cache key = some ⟨.invalidEntity now, expires⟩ ∧ now + lifetime c ≤ expires

/-- Behind the stores of some markers a key has its old entry or a new marker. -/
theorem applyWrites_markers {ws : List CacheWrite} (hws : ∀ w ∈ ws, IsMarker c now w)
    (cache : Cache CacheKey CacheEntry) (key : CacheKey) :
    (applyWrites cache now ws key = cache key ∧ ∀ w ∈ ws, w.key ≠ key)
      ∨ FreshMarker c (applyWrites cache now ws) now key := by
  induction ws generalizing cache with
  | nil => exact .inl ⟨rfl, nofun⟩
  | cons w ws ih =>
    obtain ⟨hw, hws⟩ := forall_mem_cons.mp hws
    rcases ih hws (cacheSet cache now w.key w.entry w.ttl) with ⟨hsame, hne⟩ | hmarker
    · by_cases hkey : w.key = key
      · refine .inr ⟨now + min w.ttl oneYear, ?_, Int.add_le_add_left hw.lifetime_le now⟩
        refine hsame.trans ?_
        rw [← hkey, ← hw.entry]
        exact lookup_set_self hw.ttl_nonneg
      · refine .inl ⟨hsame.trans (lookup_set_ne (Ne.symm hkey)), ?_⟩
        exact forall_mem_cons.mpr ⟨hkey, hne⟩
    · exact .inr hmarker

variable (c) in
/-- The markers of the new cache are the old ones or of this time. -/
def Renews (cache cache' : Cache CacheKey CacheEntry) (now : Time) : Prop :=
  ∀ key, key ≠ .changelog → (∀ filter, key ≠ .iterator filter) →
    cache' key = cache key ∨ FreshMarker c cache' now key

variable {filter : Filter}

theorem invalidKeys_ne {key : CacheKey} (h : key ∈ invalidKeys filter) :
    key ≠ .changelog ∧ ∀ filter', key ≠ .iterator filter' := by
  cases filter with
  | objectRelation =>
    rcases mem_cons.mp h with rfl | h
    · exact ⟨nofun, nofun⟩
    · rw [mem_singleton.mp h]
      exact ⟨nofun, nofun⟩
  | userObjectType =>
    rcases mem_cons.mp h with rfl | h
    · exact ⟨nofun, nofun⟩
    · obtain ⟨_, -, rfl⟩ := mem_map.mp h
      exact ⟨nofun, nofun⟩

variable {cache : Cache CacheKey CacheEntry} {stamp expires : Time}

theorem FreshMarker.marked
    {key : CacheKey} (h : FreshMarker c cache now key)
    (hkey : key ∈ invalidKeys filter) (hstamp : stamp < now)
    (hexpires : expires ≤ now + lifetime c) : Marked cache filter stamp expires := by
  obtain ⟨_, hcache, hle⟩ := h
  exact ⟨key, hkey, now, _, hcache, hstamp, hexpires.trans hle⟩

theorem Marked.renew {cache' : Cache CacheKey CacheEntry} (h : Marked cache filter stamp expires)
    (hrenews : Renews c cache cache' now) (hstamp : stamp < now)
    (hexpires : expires ≤ now + lifetime c) : Marked cache' filter stamp expires := by
  obtain ⟨key, hkey, lastModified, _, hcache, hlt, hle⟩ := h
  obtain ⟨hne, hne'⟩ := invalidKeys_ne hkey
  rcases hrenews key hne hne' with hsame | hmarker
  · exact ⟨key, hkey, lastModified, _, hsame.trans hcache, hlt, hle⟩
  · exact hmarker.marked hkey hstamp hexpires

variable {cached : Time}

/-- The stores of a run leave the entries of iterators alone. -/
theorem applyWrites_iterator (cache : Cache CacheKey CacheEntry) (filter : Filter) :
    applyWrites cache now (writes c now cached changes) (.iterator filter)
      = cache (.iterator filter) := by
  refine applyWrites_ne (fun w hw => ?_) cache now
  unfold writes at hw
  split at hw
  · cases hw
  rcases mem_cons.mp hw with rfl | hw
  · exact nofun
  · split at hw
    · exact (invalidations_ne c hw).2 filter
    · cases hw

/-- The stores of a run are its changelog entry and its invalidations. -/
theorem applyWrites_writes {newest : TupleChange}
    (hnewest : changes.head? = some newest) (cache : Cache CacheKey CacheEntry) :
    applyWrites cache now (writes c now cached changes)
      = applyWrites
        (cacheSet cache now .changelog (.changelog newest.timestamp now) c.queryCacheTTL) now
        (if cached < newest.timestamp then invalidations c now changes else []) := by
  unfold writes
  rw [hnewest]
  rfl

theorem renews_writes (cache : Cache CacheKey CacheEntry) :
    Renews c cache (applyWrites cache now (writes c now cached changes)) now := by
  intro key hkey _
  cases hnewest : changes.head? with
  | none =>
    refine .inl ?_
    rw [writes, hnewest]
    rfl
  | some newest =>
    rw [applyWrites_writes hnewest]
    have hmarkers : ∀ w ∈ (if cached < newest.timestamp then invalidations c now changes else []),
        IsMarker c now w := by
      intro w hw
      split at hw
      · exact isMarker_invalidations hw
      · cases hw
    rcases applyWrites_markers hmarkers (cacheSet cache now .changelog
      (.changelog newest.timestamp now) c.queryCacheTTL) key with ⟨hsame, -⟩ | hmarker
    · exact .inl (hsame.trans (lookup_set_ne hkey))
    · exact .inr hmarker

variable {change : TupleChange}

/-- The markers of a covered change keep every read that it concerns from being served. -/
theorem marked_of_covered (hcovered : Covered c now (invalidations c now changes) change)
    (hconcerns : Concerns filter change) (hstamp : stamp < now)
    (hexpires : expires ≤ now + lifetime c) :
    Marked (applyWrites cache now (invalidations c now changes)) filter stamp expires := by
  have hmarkers : ∀ w ∈ invalidations c now changes, IsMarker c now w :=
    fun _ => isMarker_invalidations
  have hmarker := fun w hw =>
    (applyWrites_markers hmarkers cache w.key).resolve_left fun h => h.2 w hw rfl
  rcases hcovered with hfull | ⟨hobject, huser⟩
  · refine (hmarker _ hfull).marked ?_ hstamp hexpires
    cases filter <;> exact mem_cons_self
  · cases filter with
    | objectRelation =>
      refine (hmarker _ hobject).marked (mem_cons_of_mem _ ?_) hstamp hexpires
      obtain ⟨rfl, rfl⟩ := hconcerns
      exact mem_singleton_self _
    | userObjectType =>
      refine (hmarker _ huser).marked (mem_cons_of_mem _ ?_) hstamp hexpires
      obtain ⟨hmem, rfl⟩ := hconcerns
      exact mem_map.mpr ⟨change.user, hmem, rfl⟩

/-! ### One step

The stamps of the entries are in the past: each step has a later time than the one before. -/

/-- The stamps are in the past. -/
def Past (s : State) : Prop :=
  ∀ filter snapshot stamp expires, Holds s.cache filter snapshot stamp expires → stamp < s.now

variable {s : State} {snapshot i : ℕ}

/-- **Behind a run the entries that miss a change of its page are dead or marked.** -/
theorem complete_guarded (hinv : Inv s) (hsep : Separated s) (h : ServedInv c s) (hpast : Past s)
    {n : ℕ} (hrun : s.run = .read cached n) (hholds : Holds s.cache filter snapshot stamp expires)
    (hpage : n - c.pageSize ≤ i) (hi : i < n) (hle : snapshot ≤ i)
    (hchange : s.changelog[i]? = some change) (hconcerns : Concerns filter change) :
    expires ≤ s.now ∨ Marked (applyWrites s.cache s.now (writes c s.now cached
      (page c s.changelog n))) filter stamp expires := by
  obtain ⟨hpos, hlen⟩ := hinv.reads n (by rw [State.reads, hrun]; exact mem_cons_self)
  have hlt : n - 1 < s.changelog.length := by omega
  have hnewest : s.changelog[n - 1]? = some s.changelog[n - 1] := getElem?_eq_getElem hlt
  have hhead : (page c s.changelog n).head? = some s.changelog[n - 1] :=
    (head_page hpos hlen).trans hnewest
  have hmem := mem_of_getElem? hchange
  have hexpires := h.expires _ _ _ _ hholds i change hle hchange hconcerns
  have hleft : expires ≤ s.now + lifetime c :=
    hexpires.trans (Int.add_le_add_right (hinv.committed change hmem) _)
  by_cases hafter : cached < s.changelog[n - 1].timestamp
  · by_cases hyoung : s.now - c.iteratorCacheTTL < change.timestamp
    · right
      rw [applyWrites_writes hhead, if_pos hafter]
      exact marked_of_covered (covered_of_mem (mem_page.mpr ⟨i, hpage, hi, hchange⟩) hyoung)
        hconcerns (hpast _ _ _ _ hholds) hleft
    · -- the change is older than the time to live
      left
      have hlate := h.late change hmem
      calc expires ≤ change.committedAt + lifetime c := hexpires
        _ ≤ change.timestamp + c.iteratorCacheTTL := Int.add_le_add hlate (min_le_left _ _)
        _ ≤ s.now := Int.add_le_of_le_sub_right (not_lt.mp hyoung)
  · -- nothing is new since a completed run, which has read the same page
    have hcached := hinv.cached cached (by rw [hrun]; exact mem_singleton_self _)
    rcases hcached with rfl | ⟨m, hm, old, hold, rfl⟩
    · exact absurd (hinv.positive _ (mem_of_getElem? hnewest)) hafter
    have hmreads : m ∈ s.reads := mem_append_right _ hm
    have hmpos := (hinv.reads m hmreads).1
    have hmn : m ≤ n := by
      have hordered := hinv.ordered
      rw [State.reads, hrun] at hordered
      exact (pairwise_cons.mp hordered).1 m hm
    have hnm : n ≤ m := by
      by_contra hlt'
      exact hafter (hsep m hmreads (m - 1) (n - 1) old _ (by omega) (by omega) hold hnewest)
    obtain rfl : m = n := le_antisymm hmn hnm
    refine (h.guarded _ _ _ _ hholds i change ⟨m, hm, hpage, hi⟩ hle hchange hconcerns).imp id ?_
    exact fun hmarked => hmarked.renew (renews_writes s.cache) (hpast _ _ _ _ hholds) hleft

/-- What is still marked behind a step that leaves or renews the markers. -/
theorem ServedInv.guarded_of_renews (hinv : Inv s) (h : ServedInv c s) (hpast : Past s)
    {cache' : Cache CacheKey CacheEntry} (hrenews : Renews c s.cache cache' s.now)
    (hholds : Holds s.cache filter snapshot stamp expires) (hprocessed : Processed c s i)
    (hle : snapshot ≤ i) (hchange : s.changelog[i]? = some change)
    (hconcerns : Concerns filter change) :
    expires ≤ s.now ∨ Marked cache' filter stamp expires := by
  refine (h.guarded _ _ _ _ hholds i change hprocessed hle hchange hconcerns).imp id ?_
  intro hmarked
  refine hmarked.renew hrenews (hpast _ _ _ _ hholds) ?_
  exact (h.expires _ _ _ _ hholds i change hle hchange hconcerns).trans
    (Int.add_le_add_right (hinv.committed change (mem_of_getElem? hchange)) _)

variable {s' : State}

/-- A step that brings no new entry, change or page, and leaves or renews the markers. -/
theorem ServedInv.of_renews (hinv : Inv s) (h : ServedInv c s) (hpast : Past s)
    (hnow : s'.now = s.now) (hchangelog : s'.changelog = s.changelog)
    (hcompleted : s'.completed = s.completed)
    (hiterators : ∀ iterator ∈ s'.iterators, iterator.initializedAt ≤ s.now)
    (hholds : ∀ {filter snapshot stamp expires}, Holds s'.cache filter snapshot stamp expires →
      Holds s.cache filter snapshot stamp expires)
    (hrenews : Renews c s.cache s'.cache s.now) : ServedInv c s' where
  late := hchangelog ▸ h.late
  opened := hnow ▸ hiterators
  stamp filter snapshot stamp expires hs' := hnow ▸ h.stamp _ _ _ _ (hholds hs')
  expires filter snapshot stamp expires hs' := hchangelog ▸ h.expires _ _ _ _ (hholds hs')
  guarded filter snapshot stamp expires hs' i change hprocessed hle hchange hconcerns := by
    rw [Processed, hcompleted] at hprocessed
    rw [hchangelog] at hchange
    rw [hnow]
    exact h.guarded_of_renews hinv hpast hrenews (hholds hs') hprocessed hle hchange hconcerns

/-- A change that is committed is on no page. -/
theorem served_write (hinv : Inv s) (h : ServedInv c s)
    (hcommitted : change.committedAt = s.now) (hlate : s.now ≤ change.timestamp)
    (hleft : ∀ filter stored, s.cache (.iterator filter) = some stored → Concerns filter change →
      stored.expires ≤ s.now + lifetime c) :
    ServedInv c { s with changelog := s.changelog ++ [change] } := by
  refine ⟨?_, h.opened, h.stamp, ?_, ?_⟩
  · intro missed hmissed
    rcases mem_append.mp hmissed with hold | hnew
    · exact h.late missed hold
    · rw [mem_singleton.mp hnew, hcommitted]
      exact hlate
  · intro filter snapshot stamp expires hholds i missed hle hmissed hconcerns
    rcases getElem?_committed hmissed with hold | ⟨-, rfl⟩
    · exact h.expires _ _ _ _ hholds i missed hle hold hconcerns
    · rw [hcommitted]
      exact hleft _ _ hholds hconcerns
  · intro filter snapshot stamp expires hholds i missed hprocessed hle hmissed hconcerns
    rcases getElem?_committed hmissed with hold | ⟨rfl, -⟩
    · exact h.guarded _ _ _ _ hholds i missed hprocessed hle hold hconcerns
    · obtain ⟨n, hn, -, hlt⟩ := hprocessed
      exact absurd hlt (not_lt.mpr (hinv.reads n (mem_append_right _ hn)).2)

/-- An entry that is stored misses no change that concerns it. -/
theorem served_flush (hinv : Inv s) (h : ServedInv c s) (hpast : Past s)
    {iterator : CachedIterator} (hi : s.iterators[i]? = some iterator) (ttl : Time)
    (hmisses : ∀ change ∈ s.changelog.drop iterator.snapshot, ¬ Concerns iterator.filter change) :
    ServedInv c { s with
      iterators := s.iterators.eraseIdx i
      cache := cacheSet s.cache s.now (.iterator iterator.filter)
        (.tupleIterator iterator.snapshot iterator.initializedAt) ttl } := by
  have hrenews : Renews c s.cache (cacheSet s.cache s.now (.iterator iterator.filter)
      (.tupleIterator iterator.snapshot iterator.initializedAt) ttl) s.now :=
    fun key _ hkey => .inl (lookup_set_ne (hkey _))
  have hholds : ∀ {filter snapshot stamp expires}, Holds (cacheSet s.cache s.now
      (.iterator iterator.filter) (.tupleIterator iterator.snapshot iterator.initializedAt) ttl)
      filter snapshot stamp expires → Holds s.cache filter snapshot stamp expires
      ∨ iterator = ⟨filter, snapshot, stamp⟩ := by
    intro filter snapshot stamp expires hs'
    rcases lookup_set_cases hs' with hold | ⟨⟨⟩, ⟨⟩⟩
    · exact .inl hold
    · exact .inr rfl
  have hmissed : ∀ {filter snapshot stamp j change}, iterator = ⟨filter, snapshot, stamp⟩ →
      snapshot ≤ j → s.changelog[j]? = some change → ¬ Concerns filter change := by
    rintro filter snapshot stamp j change rfl hle hchange
    refine hmisses change (mem_iff_getElem?.mpr ⟨j - snapshot, ?_⟩)
    rw [getElem?_drop, Nat.add_sub_cancel' hle, hchange]
  refine ⟨h.late, fun iterator hmem => h.opened iterator (mem_of_mem_eraseIdx hmem),
    ?_, ?_, ?_⟩
  · intro filter snapshot stamp expires hs'
    rcases hholds hs' with hold | rfl
    · exact h.stamp _ _ _ _ hold
    · exact h.opened _ (mem_of_getElem? hi)
  · intro filter snapshot stamp expires hs' j change hle hchange hconcerns
    rcases hholds hs' with hold | hnew
    · exact h.expires _ _ _ _ hold j change hle hchange hconcerns
    · exact absurd hconcerns (hmissed hnew hle hchange)
  · intro filter snapshot stamp expires hs' j change hprocessed hle hchange hconcerns
    rcases hholds hs' with hold | hnew
    · exact h.guarded_of_renews hinv hpast hrenews hold hprocessed hle hchange hconcerns
    · exact absurd hconcerns (hmissed hnew hle hchange)

variable {action : Action}

theorem act_now (hact : Acts c s action s') : s'.now = s.now := by
  cases hact <;> rfl

/-- An entry behind an action is an old one, or the action has stored it. -/
theorem iterator_act (hact : Acts c s action s') {stored : Stored CacheEntry}
    (hstored : s'.cache (.iterator filter) = some stored) :
    s.cache (.iterator filter) = some stored ∨ ∃ i jitter, action = .flush i jitter
      ∧ stored.expires
        = s.now + min (jitteredTTL c.iteratorCacheTTL c.jitterPercentage jitter) oneYear := by
  cases hact with
  | fail =>
    have hne : (invalidateIteratorCache s.now).key ≠ .iterator filter := nofun
    exact .inl ((applyWrites_ne (forall_mem_singleton.mpr hne) s.cache s.now).symm.trans hstored)
  | complete => exact .inl ((applyWrites_iterator s.cache filter).symm.trans hstored)
  | query => exact .inl (lookup_of_delete hstored)
  | flush =>
    rcases lookup_set_cases hstored with hold | ⟨-, rfl⟩
    · exact .inl hold
    · exact .inr ⟨_, _, rfl, rfl⟩
  | _ => exact .inl hstored

theorem served_act (hinv : Inv s) (hsep : Separated s) (h : ServedInv c s) (hpast : Past s)
    (htimely : Timely c s ⟨s.now, action⟩) (hact : Acts c s action s') : ServedInv c s' := by
  have hsame : Renews c s.cache s.cache s.now := fun _ _ _ => .inl rfl
  have hholds := fun (hne : ∀ i jitter, action ≠ .flush i jitter) {filter snapshot stamp expires}
      (hs' : Holds s'.cache filter snapshot stamp expires) =>
    (iterator_act hact hs').resolve_right fun ⟨i, jitter, heq, _⟩ => hne i jitter heq
  cases hact with
  | wait | serve => exact h
  | write => exact served_write hinv h rfl htimely.2.1 htimely.2.2
  | start | timeout | readChanges =>
    exact h.of_renews hinv hpast rfl rfl rfl h.opened id hsame
  | fail =>
    have hmarker : IsMarker c s.now (invalidateIteratorCache s.now) := ⟨rfl, .inl rfl⟩
    refine h.of_renews hinv hpast rfl rfl rfl h.opened (hholds nofun) fun key _ _ => ?_
    exact (applyWrites_markers (forall_mem_singleton.mpr hmarker) s.cache key).imp_left And.left
  | complete hrun =>
    have hholds {filter snapshot stamp expires} := @hholds nofun filter snapshot stamp expires
    refine ⟨h.late, h.opened, fun _ _ _ _ hs' => h.stamp _ _ _ _ (hholds hs'),
      fun _ _ _ _ hs' => h.expires _ _ _ _ (hholds hs'), ?_⟩
    intro filter snapshot stamp expires hs' i change hprocessed hle hchange hconcerns
    obtain ⟨m, hm, hpage, hi⟩ := hprocessed
    rcases mem_cons.mp hm with rfl | hm
    · exact complete_guarded hinv hsep h hpast hrun (hholds hs') hpage hi hle hchange hconcerns
    · exact h.guarded_of_renews hinv hpast (renews_writes s.cache) (hholds hs')
        ⟨m, hm, hpage, hi⟩ hle hchange hconcerns
  | query =>
    exact h.of_renews hinv hpast rfl rfl rfl (forall_mem_cons.mpr ⟨le_rfl, h.opened⟩)
      (hholds nofun) fun key _ hkey => .inl (lookup_delete_ne (hkey _))
  | flush hi => exact served_flush hinv h hpast hi _ (htimely.2 _ hi)
  | drop =>
    exact h.of_renews hinv hpast rfl rfl rfl
      (fun iterator hmem => h.opened iterator (mem_of_mem_eraseIdx hmem)) id hsame

/-- **A timely step keeps the invariant.** -/
theorem served_step {choice : Choice} (h : (Inv s ∧ Separated s) ∧ ServedInv c s)
    (htimely : Timely c s choice) (hstep : step c s choice = some s') :
    (Inv s' ∧ Separated s') ∧ ServedInv c s' := by
  obtain ⟨⟨hinv, hsep⟩, hserved⟩ := h
  refine ⟨separated_step ⟨hinv, hsep⟩ htimely.1 hstep, ?_⟩
  obtain ⟨hlt, hact⟩ := acts_of_step hstep
  have hlater : ServedInv c { s with now := choice.time } :=
    { hserved with
      opened := fun iterator hmem => (hserved.opened iterator hmem).trans hlt.le
      stamp := fun _ _ _ _ hs' => (hserved.stamp _ _ _ _ hs').trans hlt.le
      guarded := fun _ _ _ _ hs' i change hprocessed hle hchange hconcerns =>
        (hserved.guarded _ _ _ _ hs' i change hprocessed hle hchange hconcerns).imp_left
          fun hdead => hdead.trans hlt.le }
  exact served_act (hinv.later hlt.le) hsep hlater
    (fun _ _ _ _ hs' => (hserved.stamp _ _ _ _ hs').trans_lt hlt) htimely hact

theorem served_init : ServedInv c {} where
  late := nofun
  opened := nofun
  stamp := nofun
  expires := nofun
  guarded := nofun

theorem run_served {choices : List Choice} (htimely : Along (step c) (Timely c) {} choices)
    (h : run (step c) {} choices = some s) : (Inv s ∧ Separated s) ∧ ServedInv c s :=
  run_invariant (I := fun s => (Inv s ∧ Separated s) ∧ ServedInv c s) (fun _ _ _ => served_step)
    ⟨⟨inv_init, nofun⟩, served_init⟩ htimely h

/-! ### Without jitter

An entry that is stored without jitter never has more than a lifetime left. -/

/-- What remains of `Timely`. -/
def Prompt (s : State) (choice : Choice) : Prop :=
  Fresh s choice ∧ match choice.action with
    | .write _ _ _ timestamp => choice.time ≤ timestamp
    | .flush i _ => ∀ iterator ∈ s.iterators[i]?,
      ∀ change ∈ s.changelog.drop iterator.snapshot, ¬ Concerns iterator.filter change
    | _ => True

instance (s : State) (choice : Choice) : Decidable (Prompt s choice) := by
  obtain ⟨_, action⟩ := choice
  cases action <;> exact inferInstanceAs (Decidable (_ ∧ _))

variable (c) in
/-- No entry has more than a lifetime left. -/
def Short (s : State) : Prop :=
  ∀ filter stored, s.cache (.iterator filter) = some stored → stored.expires ≤ s.now + lifetime c

theorem short_step (hjitter : c.jitterPercentage = 0) {choice : Choice}
    (h : Short c s) (hstep : step c s choice = some s') : Short c s' := by
  intro filter stored hstored
  obtain ⟨hlt, hact⟩ := acts_of_step hstep
  rw [act_now hact]
  rcases iterator_act hact hstored with hold | ⟨i, _, -, hexpires⟩
  · exact (h filter stored hold).trans (Int.add_le_add_right hlt.le _)
  · rw [hexpires, jitteredTTL, if_pos (.inr hjitter)]
    exact le_rfl

/-- **Without jitter a prompt history is timely.** -/
theorem timely_of_prompt (hjitter : c.jitterPercentage = 0) {choices : List Choice}
    (h : Along (step c) Prompt {} choices) (hrun : run (step c) {} choices = some s) :
    Along (step c) (Timely c) {} choices := by
  refine h.imp_of_invariant (I := Short c) (fun _ _ _ hs _ hstep => short_step hjitter hs hstep) ?_
    nofun hrun
  rintro s ⟨_, action⟩ s' hs ⟨hfresh, haction⟩ hstep
  refine ⟨hfresh, ?_⟩
  cases action with
  | write =>
    refine ⟨haction, fun filter stored hstored _ => ?_⟩
    exact (hs filter stored hstored).trans (Int.add_le_add_right (acts_of_step hstep).1.le _)
  | flush => exact fun iterator hi => haction iterator hi
  | _ => trivial

/-! ### What is served -/

/-- A live marker that is newer than the entry keeps it from being served. -/
theorem isInvalidAt_of_marked (h : Marked cache filter stamp expires) (hlive : now < expires) :
    isInvalidAt cache now stamp filter = true := by
  obtain ⟨key, hkey, _, _, hcache, hlt, hle⟩ := h
  refine any_eq_true.mpr ⟨key, hkey, ?_⟩
  rw [get_of_lt hcache (hlive.trans_le hle)]
  exact decide_eq_true hlt

/-- What is served is a live entry without a newer live marker. -/
theorem holds_of_findInCache {lastModified : Time}
    (h : findInCache cache now filter = some (snapshot, lastModified)) :
    ∃ expires, Holds cache filter snapshot lastModified expires ∧ now < expires
      ∧ isInvalidAt cache now lastModified filter = false := by
  unfold findInCache at h
  split at h
  · rename_i hget
    split_ifs at h with hvalid
    cases h
    obtain ⟨⟨_, expires⟩, hcache, hlt, rfl⟩ := lookup_of_get hget
    exact ⟨expires, hcache, hlt, Bool.eq_false_iff.mpr hvalid⟩
  · cases h

/-- **An invalidated entry is not served.**  In every history in which entries are stored and expire
in time: what a read is served from the cache holds every change of its object and relation, or of
its users and object type, that was on the page of a completed run. -/
theorem invalidated_entry_not_served (c : InMemoryCacheController) (choices : List Choice)
    (s : State) (htimely : Along (step c) (Timely c) {} choices)
    (hrun : run (step c) {} choices = some s) (filter : Filter) (snapshot : ℕ) (lastModified : Time)
    (hserved : findInCache s.cache s.now filter = some (snapshot, lastModified)) (i : ℕ)
    (change : TupleChange) (hprocessed : Processed c s i) (hchange : s.changelog[i]? = some change)
    (hconcerns : Concerns filter change) : i < snapshot := by
  obtain ⟨-, hinv⟩ := run_served htimely hrun
  obtain ⟨_, hholds, hlive, hvalid⟩ := holds_of_findInCache hserved
  by_contra hmissed
  rcases hinv.guarded _ _ _ _ hholds i change hprocessed (not_lt.mp hmissed) hchange hconcerns with
    hdead | hmarked
  · exact absurd hlive (not_lt.mpr hdead)
  · rw [isInvalidAt_of_marked hmarked hlive] at hvalid
    cases hvalid

/-! ### An entry that outlives its marker -/

namespace Jittered

/-- Entries live for ten time units and up to ten more. -/
def controller : InMemoryCacheController where
  queryCacheTTL := 1000
  iteratorCacheTTL := 10
  iteratorCacheTTL_pos := Tied.ttl_pos
  pageSize := 50
  pageSize_pos := Tied.size_pos
  jitterPercentage := 100

def doc : Object := ⟨"doc", "1"⟩

def anne : User := .object ⟨"user", "anne"⟩

def bob : User := .object ⟨"user", "bob"⟩

/-- The usersets of `doc:1#viewer`. -/
def viewers : Filter := .objectRelation doc "viewer" ""

/-- The entry is stored at 21 and lives until 41.  The run at 25 marks it until 35. -/
def history : List Choice :=
  [⟨1, .write doc "viewer" bob 1⟩, ⟨20, .query viewers⟩, ⟨21, .flush 0 10⟩,
    ⟨22, .write doc "viewer" anne 22⟩, ⟨23, .start⟩, ⟨24, .readChanges⟩, ⟨25, .complete⟩,
    ⟨36, .wait⟩]

/-- The same without jitter, a second entry that is read behind the change, and a read of it. -/
def timelyHistory : List Choice :=
  [⟨1, .write doc "viewer" bob 1⟩, ⟨20, .query viewers⟩, ⟨21, .flush 0 0⟩,
    ⟨22, .write doc "viewer" anne 22⟩, ⟨23, .start⟩, ⟨24, .readChanges⟩, ⟨25, .complete⟩,
    ⟨26, .query viewers⟩, ⟨27, .flush 0 0⟩, ⟨28, .wait⟩]

end Jittered

open Jittered in
/-- **An invalidated entry is served**: the change at place 1 was on the page of the completed run,
and a later read is answered from data that was read when there was one change. -/
theorem jittered_entry_served :
    (run (step controller) {} history).map (fun s =>
      (s.completed, (s.changelog[1]?).map fun change => decide (Concerns viewers change),
        findInCache s.cache s.now viewers))
      = some ([2], some true, some (1, 20)) := by
  decide

open Jittered in
/-- Without jitter the entry that misses the change is not served, and the one that was read behind
it is. -/
theorem invalidated_entry_not_served_plain :
    ∃ s, run (step { controller with jitterPercentage := 0 }) {} timelyHistory = some s
      ∧ s.completed = [2] ∧ s.changelog[1]? = some ⟨doc, "viewer", anne, 22, 22⟩
      ∧ findInCache s.cache s.now viewers = some (2, 26) ∧ 1 < 2 := by
  have hfacts : (run (step { controller with jitterPercentage := 0 }) {} timelyHistory).map
      (fun s => (s.completed, s.changelog[1]?, findInCache s.cache s.now viewers))
        = some ([2], some ⟨doc, "viewer", anne, 22, 22⟩, some (2, 26)) := by
    decide
  obtain ⟨s, hs, hfacts⟩ := Option.map_eq_some_iff.mp hfacts
  simp only [Prod.mk.injEq] at hfacts
  obtain ⟨hcompleted, hchange, hserved⟩ := hfacts
  refine ⟨s, hs, hcompleted, hchange, hserved, ?_⟩
  refine invalidated_entry_not_served { controller with jitterPercentage := 0 } timelyHistory s
    (timely_of_prompt rfl (by decide) hs) hs viewers 2 26 hserved 1 _ ?_ hchange (by decide)
  exact ⟨2, by rw [hcompleted]; exact mem_cons_self, by decide, by decide⟩

end Kengen.Invalidation
