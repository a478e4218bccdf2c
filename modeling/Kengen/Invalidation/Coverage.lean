import Kengen.Invalidation.System

/-!
# The controller covers new changes

A run that finds a new newest change marks what it must: the loop from the oldest change of the page
stops at the first recent one, so every recent change of the page gets its markers; and if a recent
change is not on the page, all changes of the page are recent and the whole store is marked.

* `Covered` — the marker of the store, or both markers of a change.
* **`invalidations_covered`** — the markers of one run.
* `Fresh`, `Separated` — no change has the timestamp of a change that was read before.
* **`controller_covers_changes`** — in every history of fresh changes, every run covers the recent
  changes that are new since the last completed run.
* **`tied_change_not_covered`** — a change with the timestamp of an earlier one is passed over.
-/

namespace Kengen.Invalidation

open TtlCache Runs List

variable {c : InMemoryCacheController}

/-! ### The markers of one run -/

variable (c) in
/-- **A change is covered**: the whole store is marked, or the object and relation and the user and
object type of the change. -/
def Covered (now : Time) (ws : List CacheWrite) (change : TupleChange) : Prop :=
  invalidateIteratorCache now ∈ ws
    ∨ (invalidateIteratorCacheByObjectRelation c change.object change.relation now ∈ ws
      ∧ invalidateIteratorCacheByUserAndObjectType c change.user change.object.type now ∈ ws)

instance (now : Time) (ws : List CacheWrite) (change : TupleChange) :
    Decidable (Covered c now ws change) :=
  inferInstanceAs (Decidable (_ ∨ _))

variable {changes : List TupleChange} {n : ℕ}

/-- The loop passes over old changes only. -/
theorem recent_spec {cutoff : Time} {k : ℕ} {change : TupleChange}
    (hk : k < n) (hchange : changes[k]? = some change) (hyoung : cutoff < change.timestamp) :
    k < recent cutoff changes n := by
  induction n with
  | zero => omega
  | succ n ih =>
    rw [recent]
    rcases Nat.lt_succ_iff_lt_or_eq.mp hk with hlt | rfl
    · split
      · exact ih hlt
      · split
        · omega
        · exact ih hlt
    · rw [hchange]
      simp only [hyoung, if_true]
      omega

theorem recent_le (cutoff : Time) (changes : List TupleChange) (n : ℕ) :
    recent cutoff changes n ≤ n := by
  induction n with
  | zero => exact le_rfl
  | succ =>
    rw [recent]
    split
    · omega
    · split
      · exact le_rfl
      · omega

variable {now : Time}

/-- A recent change of the page is covered. -/
theorem covered_of_mem {change : TupleChange}
    (hmem : change ∈ changes) (hyoung : now - c.iteratorCacheTTL < change.timestamp) :
    Covered c now (invalidations c now changes) change := by
  obtain ⟨k, hk⟩ := List.mem_iff_getElem?.mp hmem
  have hlt := recent_spec (List.getElem?_eq_some_iff.mp hk).1 hk hyoung
  unfold invalidations
  simp only
  split
  · exact .inl (mem_singleton_self _)
  · have htake : change ∈ (changes.take (recent (now - c.iteratorCacheTTL) changes
        changes.length)).reverse := by
      rw [mem_reverse]
      exact mem_iff_getElem?.mpr ⟨k, by rw [getElem?_take_of_lt hlt, hk]⟩
    have hmarkers : ∀ w ∈ markers c now change, w ∈ (changes.take (recent
        (now - c.iteratorCacheTTL) changes changes.length)).reverse.flatMap (markers c now) :=
      fun w hw => mem_flatMap.mpr ⟨change, htake, hw⟩
    exact .inr ⟨hmarkers _ mem_cons_self, hmarkers _ (mem_cons_of_mem _
      (mem_singleton_self _))⟩

/-- If the oldest change of the page is recent, the whole store is marked. -/
theorem full_of_oldest {oldest : TupleChange} (hlast : changes.getLast? = some oldest)
    (hyoung : now - c.iteratorCacheTTL < oldest.timestamp) :
    invalidateIteratorCache now ∈ invalidations c now changes := by
  rw [getLast?_eq_getElem?] at hlast
  have hlen : 0 < changes.length := by
    have := (List.getElem?_eq_some_iff.mp hlast).1
    omega
  have hlt := recent_spec (n := changes.length) (by omega) hlast hyoung
  have hle := recent_le (now - c.iteratorCacheTTL) changes changes.length
  unfold invalidations
  simp only
  rw [if_pos (by omega)]
  exact mem_singleton_self _

variable {changelog : List TupleChange}

variable {i : ℕ}

/-- **A run with a new newest change covers every recent change it could read.** -/
theorem invalidations_covered {change : TupleChange}
    (hsorted : changelog.Pairwise fun a b => a.timestamp ≤ b.timestamp) (hle : n ≤ changelog.length)
    (hi : i < n) (hchange : changelog[i]? = some change)
    (hyoung : now - c.iteratorCacheTTL < change.timestamp) :
    Covered c now (invalidations c now (page c changelog n)) change := by
  by_cases hpage : n - c.pageSize ≤ i
  · exact covered_of_mem (mem_page.mpr ⟨i, hpage, hi, hchange⟩) hyoung
  · -- the change is older than the page, so the page is recent
    have hsize := c.pageSize_pos
    have hlt : n - c.pageSize < changelog.length := by omega
    have hoffset : (page c changelog n).getLast? = some (changelog[n - c.pageSize]) := by
      rw [page, getLast?_reverse, head?_drop, getElem?_take, if_pos (by omega),
        getElem?_eq_getElem hlt]
    refine .inl (full_of_oldest hoffset (hyoung.trans_le ?_))
    obtain ⟨hi', rfl⟩ := List.getElem?_eq_some_iff.mp hchange
    exact List.pairwise_iff_getElem.mp hsorted i (n - c.pageSize) hi' hlt (by omega)

/-! ### Fresh changes -/

/-- **A change is later than every change that a run has read**, at the resolution of its
timestamp. -/
def Fresh (s : State) (choice : Choice) : Prop :=
  match choice.action with
  | .write _ _ _ timestamp =>
    ∀ n ∈ s.reads, ∀ change ∈ s.changelog.take n, change.timestamp < timestamp
  | _ => True

instance (s : State) (choice : Choice) : Decidable (Fresh s choice) := by
  unfold Fresh
  split <;> infer_instance

/-- The changes behind a read are later than those before it. -/
def Separated (s : State) : Prop :=
  ∀ n ∈ s.reads, ∀ i j a b, i < n → n ≤ j → s.changelog[i]? = some a → s.changelog[j]? = some b →
    a.timestamp < b.timestamp

variable {s s' : State}

/-- A step that commits nothing and reads nothing new keeps the changes apart. -/
theorem Separated.of_eq (h : Separated s) (hchangelog : s'.changelog = s.changelog)
    (hreads : ∀ n ∈ s'.reads, n ∈ s.reads) : Separated s' := by
  intro n hn i j a b hi hj ha hb
  rw [hchangelog] at ha hb
  exact h n (hreads n hn) i j a b hi hj ha hb

/-- The new changelog has the old changes and the one that is committed. -/
theorem getElem?_committed {change new : TupleChange} (h : (changelog ++ [new])[i]? = some change) :
    changelog[i]? = some change ∨ (i = changelog.length ∧ change = new) := by
  rw [getElem?_append] at h
  split at h
  · exact .inl h
  · obtain ⟨hi, rfl⟩ := List.getElem?_eq_some_iff.mp h
    rw [List.length_singleton] at hi
    exact .inr ⟨by omega, getElem_singleton _⟩

theorem separated_act {action : Action} (hinv : Inv s) (h : Separated s)
    (hfresh : Fresh s ⟨s.now, action⟩) (hact : Acts c s action s') : Separated s' := by
  cases hact with
  | wait | serve => exact h
  | write =>
    intro n hn i j a b hi hj ha hb
    obtain ⟨-, hle⟩ := hinv.reads n hn
    have ha' : s.changelog[i]? = some a := by
      rw [← ha]
      exact (getElem?_append_left (by omega)).symm
    rcases getElem?_committed hb with hb' | ⟨-, rfl⟩
    · exact h n hn i j a b hi hj ha' hb'
    · -- the new change is the one behind the read
      refine hfresh n hn a (mem_iff_getElem?.mpr ⟨i, ?_⟩)
      rw [getElem?_take_of_lt hi, ha']
  | start | timeout | fail => exact h.of_eq rfl fun n hn => mem_append_right _ hn
  | readChanges =>
    intro n hn i j a b hi hj ha hb
    rcases List.mem_cons.mp hn with rfl | hn
    · exact absurd (List.getElem?_eq_some_iff.mp hb).1 (Nat.not_lt.mpr hj)
    · exact h n (List.mem_append_right _ hn) i j a b hi hj ha hb
  | complete hrun =>
    refine h.of_eq rfl fun m hm => ?_
    rw [State.reads, hrun]
    exact hm
  | query | flush | drop => exact h.of_eq rfl fun n hn => hn

theorem separated_step {choice : Choice} (h : Inv s ∧ Separated s)
    (hfresh : Fresh s choice) (hstep : step c s choice = some s') : Inv s' ∧ Separated s' := by
  obtain ⟨hlt, hact⟩ := acts_of_step hstep
  exact ⟨inv_step h.1 hstep, separated_act (h.1.later hlt.le) h.2 hfresh hact⟩

theorem run_separated {choices : List Choice} (hfresh : Along (step c) Fresh {} choices)
    (h : run (step c) {} choices = some s) : Inv s ∧ Separated s :=
  run_invariant (I := fun s => Inv s ∧ Separated s) (fun _ _ _ => separated_step)
    ⟨inv_init, nofun⟩ hfresh h

/-- How far the last completed run has read. -/
def State.seen (s : State) : ℕ := s.completed.head?.getD 0

/-- A run that has read new changes finds a new newest change. -/
theorem cached_lt_newest (hinv : Inv s) (hsep : Separated s) {cached : Time}
    (hrun : s.run = .read cached n) (hseen : s.seen ≤ i) (hi : i < n) {newest : TupleChange}
    (hnewest : s.changelog[n - 1]? = some newest) : cached < newest.timestamp := by
  have hcached := hinv.cached cached (by rw [hrun]; exact mem_singleton_self _)
  rcases hcached with rfl | ⟨m, hm, change, hchange, rfl⟩
  · exact hinv.positive newest (mem_of_getElem? hnewest)
  · have hmreads : m ∈ s.reads := mem_append_right _ hm
    -- the last completed run has read furthest
    have hlast : m ≤ s.seen := by
      have hordered : s.completed.Pairwise fun n m => m ≤ n :=
        (pairwise_append.mp hinv.ordered).2.1
      cases hcompleted : s.completed with
      | nil =>
        rw [hcompleted] at hm
        cases hm
      | cons =>
        rw [hcompleted] at hm hordered
        rw [State.seen, hcompleted]
        rcases mem_cons.mp hm with rfl | hm
        · exact le_rfl
        · exact (pairwise_cons.mp hordered).1 m hm
    have hpos := (hinv.reads m hmreads).1
    exact hsep m hmreads (m - 1) (n - 1) change newest (by omega) (by omega) hchange hnewest

/-- **The controller covers every new change.**  In every history in which each change is later than
the changes that were read before: whatever a run that has read the changelog stores when it
completes, it covers every change that it could read, that was not there at the read of the last
completed run, and that is younger than the time to live of the iterator cache. -/
theorem controller_covers_changes (c : InMemoryCacheController) (choices : List Choice) (s : State)
    (hfresh : Along (step c) Fresh {} choices) (hrun : run (step c) {} choices = some s)
    (cached : Time) (n : ℕ) (hread : s.run = .read cached n) (now : Time) (i : ℕ)
    (change : TupleChange) (hnew : s.seen ≤ i) (hi : i < n) (hchange : s.changelog[i]? = some change)
    (hyoung : now - c.iteratorCacheTTL < change.timestamp) :
    Covered c now (writes c now cached (page c s.changelog n)) change := by
  obtain ⟨hinv, hsep⟩ := run_separated hfresh hrun
  obtain ⟨hpos, hle⟩ := hinv.reads n (by rw [State.reads, hread]; exact mem_cons_self)
  have hlt : n - 1 < s.changelog.length := by omega
  have hnewest : s.changelog[n - 1]? = some s.changelog[n - 1] := getElem?_eq_getElem hlt
  have hhead : (page c s.changelog n).head? = some s.changelog[n - 1] :=
    (head_page hpos hle).trans hnewest
  have hafter := cached_lt_newest hinv hsep hread hnew hi hnewest
  have hcovered := invalidations_covered hinv.sorted hle hi hchange hyoung
  unfold writes
  rw [hhead]
  simp only [if_pos hafter]
  rcases hcovered with hfull | hmarkers
  · exact .inl (mem_cons_of_mem _ hfull)
  · exact .inr ⟨mem_cons_of_mem _ hmarkers.1, mem_cons_of_mem _ hmarkers.2⟩

/-! ### A change with the timestamp of an earlier one -/

namespace Tied

theorem ttl_pos : (0 : Time) < 10 := by decide

theorem size_pos : 0 < 50 := by decide

/-- Entries live for ten time units. -/
def controller : InMemoryCacheController where
  queryCacheTTL := 1000
  iteratorCacheTTL := 10
  iteratorCacheTTL_pos := ttl_pos
  pageSize := 50
  pageSize_pos := size_pos
  jitterPercentage := 0

def doc (id : String) : Object := ⟨"doc", id⟩

def anne : User := .object ⟨"user", "anne"⟩

/-- Two changes have the timestamp 100.  The first run reads one of them, the second run both. -/
def history : List Choice :=
  [⟨101, .write (doc "1") "viewer" anne 100⟩, ⟨102, .start⟩, ⟨103, .readChanges⟩, ⟨104, .complete⟩,
    ⟨105, .write (doc "2") "viewer" anne 100⟩, ⟨106, .start⟩, ⟨107, .readChanges⟩]

/-- The same with different timestamps. -/
def freshHistory : List Choice :=
  [⟨101, .write (doc "1") "viewer" anne 100⟩, ⟨102, .start⟩, ⟨103, .readChanges⟩, ⟨104, .complete⟩,
    ⟨105, .write (doc "2") "viewer" anne 105⟩, ⟨106, .start⟩, ⟨107, .readChanges⟩]

/-- The second change. -/
def change (timestamp : Time) : TupleChange := ⟨doc "2", "viewer", anne, timestamp, 105⟩

end Tied

open Tied in
/-- **A new change is passed over**: it is younger than the time to live and was not there at the
last completed run, and the run that reads it writes no marker at all. -/
theorem tied_change_not_covered :
    (run (step controller) {} history).map (fun s =>
      (s.run, s.seen, s.changelog[1]?, decide (108 - controller.iteratorCacheTTL < 100),
        decide (Covered controller 108 (writes controller 108 100 (page controller s.changelog 2))
          (change 100))))
      = some (.read 100 2, 1, some (change 100), true, false) := by
  decide

open Tied in
/-- With a later timestamp the change is covered. -/
theorem controller_covers_changes_fresh : ∃ s, run (step controller) {} freshHistory = some s
    ∧ s.run = .read 100 2 ∧ s.seen = 1 ∧ s.changelog[1]? = some (change 105)
    ∧ Covered controller 108 (writes controller 108 100 (page controller s.changelog 2))
      (change 105) := by
  have hfacts : (run (step controller) {} freshHistory).map (fun s =>
      (s.run, s.seen, s.changelog[1]?)) = some (.read 100 2, 1, some (change 105)) := by
    decide
  obtain ⟨s, hs, hfacts⟩ := Option.map_eq_some_iff.mp hfacts
  simp only [Prod.mk.injEq] at hfacts
  obtain ⟨hread, hseen, hchange⟩ := hfacts
  refine ⟨s, hs, hread, hseen, hchange, ?_⟩
  exact controller_covers_changes controller freshHistory s (by decide) hs 100 2 hread 108 1
    (change 105) (by rw [hseen]) (by decide) hchange (by decide)

end Kengen.Invalidation
