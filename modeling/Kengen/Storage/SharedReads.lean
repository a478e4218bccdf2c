import Kengen.Lib.Runs

/-!
# Reads that share an iterator

`IteratorDatastore` (`shared_iterator_datastore.go`) lets concurrent reads with equal keys share
one iterator.  A read stores a `storageItem` under its key unless there is one (`LoadOrStore`), and
unwraps the item it finds.  The producer of an item reads the inner datastore once (`sync.Once`),
whoever unwraps it first, **under the context of the read that made the item**.

The state is that of all reads with one key.  An item is named by the read that made it, since
every read makes at most one.  The inner datastore answers in any way; it may answer with the error
of a context only if that context is cancelled.  What it answered is kept in `log`, with the read
whose context it was under.  An iterator that was handed out is tied to no read: `fetchMore` reads
on under the background context.

* `step` — the moves of the reads, of the inner datastore and of the timers, in any order.
* **`reads_isolated`** — if the context of an item's maker is alive when its producer returns, then
  no read ever receives the error of another read's context.
* **`first_context_shared`** — otherwise it may.
* **`counter_exact`** — over all keys, the counter is the number of entries if no producer fails.
* **`failed_read_counted`** — a read that fails stays counted.
-/

namespace Kengen.SharedReads

open Runs

variable {τ : Type}

/-- What the inner datastore answers. -/
inductive Answer (τ : Type) where
  | tuples (ts : List τ)
  | failed (err : String)
  | contextErr
deriving DecidableEq, Repr

/-- An answer and the read whose context it was given under. -/
abbrev Given (τ : Type) := ℕ × Answer τ

/-- Where a read is: not started, past the test of the limit, unwrapping an item, reading the inner
datastore itself, or done. -/
inductive Phase (τ : Type) where
  | idle
  | admitted
  | unwrapping (item : ℕ)
  | direct
  | done (result : Given τ)
deriving DecidableEq

/-- `storageItem`: what its producer returned, and whether the iterator has been stopped. -/
structure StorageItem (τ : Type) where
  produced : Option (Answer τ) := none
  stopped : Bool := false

/-- The internal storage, restricted to one key, and the reads with that key. -/
structure State (τ : Type) where
  limit : ℕ
  ctr : ℤ := 0
  /-- The entry of the map. -/
  entry : Option ℕ := none
  items : ℕ → StorageItem τ := fun _ => {}
  phase : ℕ → Phase τ := fun _ => .idle
  cancelled : List ℕ := []
  log : List (Given τ) := []

/-- The moves.  A read starts, with `HIGHER_CONSISTENCY` or not; it looks up the entry; the producer
that it runs returns; it goes on after `unwrap`; it reads the inner datastore itself.  A timer stops
an item and then cleans up; a context is cancelled; reads with other keys move the counter. -/
inductive Choice (τ : Type) where
  | start (read : ℕ) (higherConsistency : Bool)
  | loadOrStore (read : ℕ)
  | produce (read : ℕ) (answer : Answer τ)
  | unwrap (read : ℕ)
  | readInner (read : ℕ) (answer : Answer τ)
  | stop (item : ℕ)
  | cleanup (item : ℕ)
  | cancel (read : ℕ)
  | count (others : ℤ)

/-- The inner datastore answers under the context of a read. -/
def State.inner (s : State τ) (read : ℕ) (answer : Answer τ) : Option (State τ) :=
  match answer with
  | .contextErr =>
    if read ∈ s.cancelled then some { s with log := (read, answer) :: s.log } else none
  | _ => some { s with log := (read, answer) :: s.log }

def State.goTo (s : State τ) (read : ℕ) (phase : Phase τ) : State τ :=
  { s with phase := Function.update s.phase read phase }

/-- `CompareAndDelete`. -/
def State.compareAndDelete (s : State τ) (item : ℕ) : State τ :=
  if s.entry = some item then { s with entry := none } else s

/-- The tests before the lookup in `ReadStartingWithUser`, `ReadUsersetTuples` and `Read`. -/
def State.bypassed (s : State τ) (higherConsistency : Bool) : Bool :=
  higherConsistency || s.limit == 0 || decide ((s.limit : ℤ) ≤ s.ctr)

def State.loadOrStore (s : State τ) (read : ℕ) : State τ :=
  match s.entry with
  | some item => s.goTo read (.unwrapping item)
  | none => { s with entry := some read, ctr := s.ctr + 1 }.goTo read (.unwrapping read)

/-- What follows `item.unwrap()` once the producer has returned.  On an error the read deletes the
entry only if it is the item that it made itself; a stopped iterator cannot be cloned. -/
def State.unwrapped (s : State τ) (read item : ℕ) : Option (State τ) :=
  match (s.items item).produced with
  | none => none
  | some (.tuples ts) =>
    if (s.items item).stopped then some (s.goTo read .direct)
    else some (s.goTo read (.done (item, .tuples ts)))
  | some answer => some ((s.compareAndDelete read).goTo read (.done (item, answer)))

def step (s : State τ) : Choice τ → Option (State τ)
  | .start read higherConsistency =>
    match s.phase read with
    | .idle => some (s.goTo read (if s.bypassed higherConsistency then .direct else .admitted))
    | _ => none
  | .loadOrStore read =>
    match s.phase read with
    | .admitted => some (s.loadOrStore read)
    | _ => none
  | .produce read answer =>
    match s.phase read with
    | .unwrapping item =>
      -- `once.Do`; the context is that of the read that made the item
      if (s.items item).produced.isSome then none
      else (s.inner item answer).map fun s =>
        { s with items := Function.update s.items item { produced := some answer } }
    | _ => none
  | .unwrap read =>
    match s.phase read with
    | .unwrapping item => s.unwrapped read item
    | _ => none
  | .readInner read answer =>
    match s.phase read with
    | .direct => (s.inner read answer).map (·.goTo read (.done (read, answer)))
    | _ => none
  | .stop item =>
    -- the timers are set when the producer has succeeded
    match (s.items item).produced with
    | some (.tuples ts) =>
      let stopped := { produced := some (.tuples ts), stopped := true }
      some { s with items := Function.update s.items item stopped }
    | _ => none
  | .cleanup item =>
    if !(s.items item).stopped then none
    else if s.entry = some item then some { s with entry := none, ctr := s.ctr - 1 }
    else some s
  | .cancel read => some { s with cancelled := read :: s.cancelled }
  | .count others => some { s with ctr := s.ctr + others }

/-- A result is one that a read may receive: the inner datastore gave it, and if it is the error of
a context, then that is the read's own context and it is cancelled. -/
def Own (s : State τ) (read : ℕ) (result : Given τ) : Prop :=
  result ∈ s.log ∧ (result.2 = .contextErr → result.1 = read ∧ read ∈ s.cancelled)

/-- No read has received the error of another read's context. -/
def Isolated (s : State τ) : Prop :=
  ∀ read result, s.phase read = .done result → Own s read result

/-- The context of an item's maker is alive when its producer returns. -/
def MakerAlive (s : State τ) : Choice τ → Prop
  | .produce read _ => ∀ item ∈ s.cancelled, s.phase read ≠ .unwrapping item
  | _ => True

instance [DecidableEq τ] (s : State τ) : DecidablePred (MakerAlive s)
  | .produce read _ =>
    inferInstanceAs (Decidable (∀ item ∈ s.cancelled, s.phase read ≠ .unwrapping item))
  | .start .. | .loadOrStore _ | .unwrap _ | .readInner .. | .stop _ | .cleanup _ | .cancel _
  | .count _ => isTrue trivial

/-- **The invariant**: the reads are isolated, and what a producer returned was answered and is no
error of a context. -/
structure Inv (s : State τ) : Prop where
  isolated : Isolated s
  items : ∀ item answer, (s.items item).produced = some answer →
    (item, answer) ∈ s.log ∧ answer ≠ .contextErr

variable {s s' : State τ} {read item : ℕ} {answer : Answer τ}

/-! ### What a step keeps -/

/-- The invariant is about the phases, the items, the log and the cancelled contexts; the last two
may grow. -/
theorem Inv.of_grown (h : Inv s) (hphase : s'.phase = s.phase) (hitems : s'.items = s.items)
    (hlog : s.log ⊆ s'.log) (hcancelled : s.cancelled ⊆ s'.cancelled) : Inv s' := by
  refine ⟨fun read result hdone => ?_, fun item answer hproduced => ?_⟩
  · obtain ⟨hmem, hctx⟩ := h.isolated read result (hphase ▸ hdone)
    exact ⟨hlog hmem, fun hc => (hctx hc).imp_right (hcancelled ·)⟩
  · exact (h.items item answer (hitems ▸ hproduced)).imp_left (hlog ·)

theorem inv_goTo (h : Inv s) {phase : Phase τ}
    (hphase : ∀ result, phase = .done result → Own s read result) : Inv (s.goTo read phase) := by
  refine ⟨fun read' result hdone => ?_, h.items⟩
  simp only [State.goTo, Function.update_apply] at hdone
  split_ifs at hdone with heq
  · exact heq ▸ hphase result hdone
  · exact h.isolated read' result hdone

/-- An item may get any answer that was given and is no error of a context. -/
theorem inv_setItem (h : Inv s) {new : StorageItem τ} (hnew : ∀ answer, new.produced = some answer →
    (item, answer) ∈ s.log ∧ answer ≠ .contextErr) :
    Inv { s with items := Function.update s.items item new } := by
  refine ⟨h.isolated, fun item' answer hproduced => ?_⟩
  simp only [Function.update_apply] at hproduced
  split_ifs at hproduced with heq
  · exact heq ▸ hnew answer hproduced
  · exact h.items item' answer hproduced

/-- The inner datastore answers with the error of a context only if it is cancelled. -/
theorem inner_eq_some (hinner : s.inner read answer = some s') :
    s' = { s with log := (read, answer) :: s.log }
      ∧ (answer = .contextErr → read ∈ s.cancelled) := by
  cases answer with
  | contextErr =>
    simp only [State.inner] at hinner
    split_ifs at hinner with hmem
    exact ⟨(Option.some.inj hinner).symm, fun _ => hmem⟩
  | tuples | failed => exact ⟨(Option.some.inj hinner).symm, nofun⟩

theorem inv_logged (h : Inv s) (given : Given τ) : Inv { s with log := given :: s.log } :=
  h.of_grown rfl rfl (List.subset_cons_self _ _) (List.Subset.refl _)

/-- The entry of the map and the counter do not matter. -/
theorem Inv.setEntry (h : Inv s) (entry : Option ℕ) (ctr : ℤ) :
    Inv { s with entry := entry, ctr := ctr } :=
  ⟨h.isolated, h.items⟩

theorem compareAndDelete_eq (s : State τ) (item : ℕ) :
    s.compareAndDelete item = { s with entry := (s.compareAndDelete item).entry } := by
  unfold State.compareAndDelete
  split <;> rfl

theorem inv_unwrapped (h : Inv s) (hstep : s.unwrapped read item = some s') : Inv s' := by
  unfold State.unwrapped at hstep
  split at hstep
  · cases hstep
  · rename_i ts hproduced
    split at hstep <;> cases hstep
    · exact inv_goTo h nofun
    · refine inv_goTo h fun result hdone => ?_
      cases hdone
      exact ⟨(h.items item _ hproduced).1, nofun⟩
  · rename_i answer _ hproduced
    cases hstep
    obtain ⟨hlog, hctx⟩ := h.items item answer hproduced
    rw [compareAndDelete_eq]
    refine inv_goTo (h.setEntry _ s.ctr) fun result hdone => ?_
    cases hdone
    exact ⟨hlog, fun hc => absurd hc hctx⟩

theorem inv_step (c : Choice τ) (h : Inv s) (halive : MakerAlive s c) (hstep : step s c = some s') :
    Inv s' := by
  cases c with
  | start =>
    simp only [step] at hstep
    split at hstep <;> cases hstep
    refine inv_goTo h fun result hdone => ?_
    split at hdone <;> cases hdone
  | loadOrStore read =>
    simp only [step] at hstep
    split at hstep <;> cases hstep
    unfold State.loadOrStore
    split
    · exact inv_goTo h nofun
    · exact inv_goTo (h.setEntry (some read) (s.ctr + 1)) nofun
  | produce =>
    simp only [step] at hstep
    split at hstep <;> try cases hstep
    rename_i item hphase
    split at hstep
    · cases hstep
    · obtain ⟨s₁, hinner, rfl⟩ := Option.map_eq_some_iff.mp hstep
      obtain ⟨rfl, hctx⟩ := inner_eq_some hinner
      refine inv_setItem (inv_logged h _) fun answer' hanswer => ?_
      cases hanswer
      exact ⟨List.mem_cons_self, fun hc => halive item (hctx hc) hphase⟩
  | unwrap =>
    simp only [step] at hstep
    split at hstep <;> try cases hstep
    exact inv_unwrapped h hstep
  | readInner =>
    simp only [step] at hstep
    split at hstep <;> try cases hstep
    obtain ⟨s₁, hinner, rfl⟩ := Option.map_eq_some_iff.mp hstep
    obtain ⟨rfl, hctx⟩ := inner_eq_some hinner
    refine inv_goTo (inv_logged h _) fun result hdone => ?_
    cases hdone
    exact ⟨List.mem_cons_self, fun hc => ⟨rfl, hctx hc⟩⟩
  | stop item =>
    simp only [step] at hstep
    split at hstep <;> cases hstep
    rename_i ts hproduced
    refine inv_setItem h fun answer hanswer => ?_
    cases hanswer
    exact h.items item _ hproduced
  | cleanup =>
    simp only [step] at hstep
    split_ifs at hstep <;> cases hstep
    · exact h.setEntry none (s.ctr - 1)
    · exact h
  | cancel =>
    cases hstep
    exact h.of_grown rfl rfl (List.Subset.refl _) (List.subset_cons_self _ _)
  | count others =>
    cases hstep
    exact h.setEntry s.entry (s.ctr + others)

theorem inv_init (limit : ℕ) : Inv ({ limit := limit } : State τ) := by
  constructor
  · intro read result hdone
    cases hdone
  · intro item answer hproduced
    cases hproduced

/-! ### Whole runs -/

/-- Two reads share an item, the context of the first is cancelled inside the datastore call, and
the second runs on. -/
def sharedCancellation : List (Choice ℕ) :=
  [.start 0 false, .loadOrStore 0, .start 1 false, .loadOrStore 1, .cancel 0,
    .produce 0 .contextErr, .unwrap 1]

/-- **The error of the first read's context reaches the second read**, whose own context is
alive. -/
theorem first_context_shared : ∃ s, run step { limit := 10 } sharedCancellation = some s
    ∧ 1 ∉ s.cancelled ∧ s.phase 1 = .done (0, .contextErr) ∧ ¬ Isolated s :=
  ⟨_, rfl, by decide, rfl, fun h => absurd ((h 1 _ rfl).2 rfl).1 (by decide)⟩

/-- **Reads are isolated** in every run in which the maker of an item is alive when the item's
producer returns: a read receives an answer of the inner datastore, and the error of a context only
if it is its own context and cancelled. -/
theorem reads_isolated (limit : ℕ) (choices : List (Choice τ)) (s : State τ)
    (halive : Along step MakerAlive { limit := limit } choices)
    (hrun : run step { limit := limit } choices = some s) : Isolated s :=
  (run_invariant (fun _ c _ h hP hstep => inv_step c h hP hstep) (I := Inv)
    (inv_init limit) halive hrun).isolated

/-- The first context is cancelled after the producer has returned. -/
def lateCancellation : List (Choice ℕ) :=
  [.start 0 false, .loadOrStore 0, .start 1 false, .loadOrStore 1, .produce 0 (.tuples [7]),
    .cancel 0, .unwrap 1]

theorem reads_isolated_late : ∃ s, run step { limit := 10 } lateCancellation = some s
    ∧ s.phase 1 = .done (0, .tuples [7]) ∧ Isolated s :=
  ⟨_, rfl, rfl, reads_isolated 10 lateCancellation _ (by decide) rfl⟩

/-! ### The counter -/

/-- The internal storage: what it has for each map and cache key, and the counter.  An entry and the
counter change one after the other; `adds` and `subs` are the additions still to come. -/
structure Storage (κ τ : Type) where
  keys : κ → State τ
  ctr : ℤ := 0
  adds : ℕ := 0
  subs : ℕ := 0

/-- A move for one key, or an addition. -/
inductive Move (κ τ : Type) where
  | on (key : κ) (choice : Choice τ)
  | add
  | sub

variable {κ : Type}

/-- What the reads of one key find. -/
def Storage.view (s : Storage κ τ) (key : κ) : State τ := { s.keys key with ctr := s.ctr }

def Storage.step [DecidableEq κ] (s : Storage κ τ) : Move κ τ → Option (Storage κ τ)
  | .on _ (.count _) => none
  | .on key choice => (SharedReads.step (s.view key) choice).map fun s' =>
      { s with
        keys := Function.update s.keys key s'
        adds := s.adds + (s'.ctr - s.ctr).toNat
        subs := s.subs + (s.ctr - s'.ctr).toNat }
  | .add => if s.adds = 0 then none else some { s with adds := s.adds - 1, ctr := s.ctr + 1 }
  | .sub => if s.subs = 0 then none else some { s with subs := s.subs - 1, ctr := s.ctr - 1 }

/-- If the move is that of a producer, then it succeeds. -/
def Succeeds : Move κ τ → Prop
  | .on _ (.produce _ answer) => ∃ ts, answer = .tuples ts
  | _ => True

/-- No producer has failed. -/
def Succeeded (s : State τ) : Prop :=
  ∀ item answer, (s.items item).produced = some answer → ∃ ts, answer = .tuples ts

theorem succeeded_setItem (h : Succeeded s) {ts : List τ} {new : StorageItem τ}
    (hnew : new.produced = some (.tuples ts)) :
    Succeeded { s with items := Function.update s.items item new } := by
  intro item' answer hproduced
  simp only [Function.update_apply] at hproduced
  split_ifs at hproduced
  · exact ⟨ts, Option.some.inj (hproduced.symm.trans hnew)⟩
  · exact h item' answer hproduced

/-- **A step moves the counter with the entry**, if no producer fails. -/
theorem entry_step (key : κ) (c : Choice τ) (hcount : ∀ others, c ≠ .count others)
    (h : Succeeded s) (hc : Succeeds (.on key c)) (hstep : step s c = some s') :
    Succeeded s' ∧ s'.ctr - s'.entry.toList.length = s.ctr - s.entry.toList.length := by
  cases c <;> simp only [step] at hstep
  case start =>
    split at hstep <;> cases hstep
    exact ⟨h, rfl⟩
  case loadOrStore =>
    split at hstep <;> cases hstep
    unfold State.loadOrStore
    split
    · exact ⟨h, rfl⟩
    · exact ⟨h, by simp [State.goTo, *]⟩
  case produce =>
    split at hstep <;> try cases hstep
    split_ifs at hstep
    obtain ⟨s₁, hinner, rfl⟩ := Option.map_eq_some_iff.mp hstep
    obtain ⟨rfl, -⟩ := inner_eq_some hinner
    obtain ⟨ts, rfl⟩ := hc
    exact ⟨succeeded_setItem h rfl, rfl⟩
  case unwrap =>
    split at hstep <;> try cases hstep
    unfold State.unwrapped at hstep
    split at hstep
    · cases hstep
    · split at hstep <;> cases hstep <;> exact ⟨h, rfl⟩
    · rename_i hne hproduced
      obtain ⟨ts, rfl⟩ := h _ _ hproduced
      exact absurd rfl (hne ts)
  case readInner =>
    split at hstep <;> try cases hstep
    obtain ⟨s₁, hinner, rfl⟩ := Option.map_eq_some_iff.mp hstep
    obtain ⟨rfl, -⟩ := inner_eq_some hinner
    exact ⟨h, rfl⟩
  case stop =>
    split at hstep <;> cases hstep
    exact ⟨succeeded_setItem h rfl, rfl⟩
  case cleanup =>
    split_ifs at hstep with _ hentry <;> cases hstep
    · exact ⟨h, by simp [hentry]⟩
    · exact ⟨h, rfl⟩
  case cancel =>
    cases hstep
    exact ⟨h, rfl⟩
  case count => exact absurd rfl (hcount _)

/-- **The counter counts the entries** as soon as the additions are made. -/
structure Counts (s : Storage κ τ) : Prop where
  succeeded : ∀ key, Succeeded (s.keys key)
  counted : ∃ live : Finset κ, (∀ key, key ∈ live ↔ (s.keys key).entry.isSome)
    ∧ s.ctr + s.adds - s.subs = live.card

variable [DecidableEq κ]

theorem counts_step {s s' : Storage κ τ} {m : Move κ τ} (h : Counts s) (hm : Succeeds m)
    (hstep : s.step m = some s') : Counts s' := by
  obtain ⟨hall, live, hlive, hcard⟩ := h
  cases m with
  | add | sub =>
    simp only [Storage.step] at hstep
    split_ifs at hstep
    cases hstep
    exact ⟨hall, live, hlive, by simp only; omega⟩
  | on key c =>
    obtain ⟨hcount, t, ht, rfl⟩ : (∀ others, c ≠ .count others)
        ∧ ∃ t, step (s.view key) c = some t ∧ { s with
          keys := Function.update s.keys key t, adds := s.adds + (t.ctr - s.ctr).toNat,
          subs := s.subs + (s.ctr - t.ctr).toNat } = s' := by
      cases c with
      | count => cases hstep
      | _ => exact ⟨nofun, Option.map_eq_some_iff.mp hstep⟩
    obtain ⟨hsucceeded, hctr⟩ := entry_step key c hcount (s := s.view key) (hall key) hm ht
    refine ⟨fun key' => ?_, if t.entry.isSome then insert key live else live.erase key,
      fun key' => ?_, ?_⟩
    · by_cases hkey : key' = key
      · simpa [hkey] using hsucceeded
      · simpa [hkey] using hall key'
    · by_cases hkey : key' = key <;> cases hnew : t.entry <;> simp [hkey, hnew, hlive]
    · have hmem := hlive key
      cases hnew : t.entry <;> cases hold : (s.keys key).entry <;>
        simp [Storage.view, hnew, hold] at hctr hmem ⊢
      · rw [Finset.erase_eq_of_notMem hmem]
        omega
      · have := Finset.card_erase_add_one hmem
        omega
      · rw [Finset.card_insert_of_notMem hmem]
        omega
      · rw [Finset.insert_eq_of_mem hmem]
        omega

/-- **The counter counts live entries** in every run in which no producer fails: it is the number of
entries whenever no addition is still to come. -/
theorem counter_exact (limit : ℕ) (moves : List (Move κ τ)) (s : Storage κ τ)
    (hsucceed : ∀ m ∈ moves, Succeeds m)
    (hrun : run Storage.step { keys := fun _ => { limit := limit } } moves = some s)
    (hquiet : s.adds = 0 ∧ s.subs = 0) :
    ∃ live : Finset κ, (∀ key, key ∈ live ↔ (s.keys key).entry.isSome) ∧ s.ctr = live.card := by
  have hinit : Counts { keys := fun _ : κ => ({ limit := limit } : State τ) } :=
    ⟨fun _ _ _ hproduced => (by cases hproduced), ∅, by simp, by simp⟩
  obtain ⟨-, live, hlive, hcard⟩ := run_invariant (fun _ _ _ => counts_step) hinit
    (along_of_forall (fun _ => hsucceed) _) hrun
  exact ⟨live, hlive, by omega⟩

/-- Two reads share the entry of the key `true` and a third one has the key `false`; then the timers
of the shared entry run. -/
def sharedEntry : List (Move Bool ℕ) :=
  [.on true (.start 0 false), .on true (.loadOrStore 0), .on false (.start 0 false),
    .on true (.start 1 false), .add, .on false (.loadOrStore 0), .on true (.loadOrStore 1),
    .on true (.produce 1 (.tuples [7])), .on false (.produce 0 (.tuples [])), .on true (.unwrap 0),
    .on false (.unwrap 0), .add, .on true (.stop 0), .on true (.unwrap 1), .on true (.cleanup 0), .sub]

theorem counter_exact_shared : ∃ s,
    run Storage.step { keys := fun _ => { limit := 2 } } sharedEntry = some s ∧ s.ctr = 1
      ∧ ∃ live : Finset Bool, (∀ key, key ∈ live ↔ (s.keys key).entry.isSome) ∧ s.ctr = live.card :=
  ⟨_, rfl, rfl, counter_exact 2 sharedEntry _ (by simp [sharedEntry, Succeeds]) rfl ⟨rfl, rfl⟩⟩

/-- A read of one key whose producer answers. -/
def oneRead (answer : Answer ℕ) : List (Move Unit ℕ) :=
  [.on () (.start 0 false), .on () (.loadOrStore 0), .add, .on () (.produce 0 answer),
    .on () (.unwrap 0)]

/-- **A failed read is counted for good**: its entry is gone, and the counter stays at the limit. -/
theorem failed_read_counted : ∃ s, run Storage.step { keys := fun _ => { limit := 1 } }
    (oneRead (.failed "unavailable")) = some s ∧ s.adds = 0 ∧ s.subs = 0
      ∧ (∀ key, (s.keys key).entry = none) ∧ s.ctr = 1 :=
  ⟨_, rfl, rfl, rfl, fun _ => rfl, rfl⟩

end Kengen.SharedReads
