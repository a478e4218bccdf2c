import Kengen.Lib.Delegate
import Kengen.Lib.Runs
import Kengen.Storage.TupleKeys

/-!
# The caching iterator of the second implementation

`CachingIterator` passes the calls of `Next` and `Head` on to the iterator of the datastore and
collects what `Next` returns.  `Stop` closes it and starts a goroutine that reads the rest and
stores everything.  The buffer is given up when it grows too long, when `Next` fails, when another
iterator has stored the entry, or when the time of the drain is over.

* `State` — the datastore's iterator, the buffer, where the goroutine is, and what has been stored.
* `step` — the calls of the users of the iterator and the moves of the goroutine, in any order.
* `HeadsKeep` — the condition: no call of `Head` loses a tuple.
* **`run_collected`** — under it the buffer is always what has been read, and what is stored is the
  whole sequence.
* `LockFreeCachedIterator` — the iterator over an entry.
* **`reconstruct_minimal`**, **`outcomes_eq_answers`** — it answers as a list of the tuples would.
-/

namespace Kengen.Storage

open Delegate Runs

variable {S : Type}

/-! ### Entries -/

structure MinimalCacheEntry (S : Type) where
  objectID : Text
  user : Text
  conditionName : Text
  conditionContext : Option S
deriving DecidableEq, Repr

def extractObjectID (object : Text) : Text :=
  match splitFirst ':' object with
  | none => object
  | some (_, objectID) => objectID

/-- The entry of a tuple, from the loop of `flush`. -/
def minimal (t : TupleKey S) : MinimalCacheEntry S :=
  ⟨extractObjectID t.object, t.user, t.conditionName, t.conditionContext⟩

/-- `reconstruct`. -/
def reconstruct (objectType relation : Text) (e : MinimalCacheEntry S) : TupleKey S where
  object := objectType ++ ':' :: e.objectID
  relation := relation
  user := e.user
  condition := if e.conditionName = [] then none else some ⟨e.conditionName, e.conditionContext⟩

/-- **A tuple of the object and the relation is put together again.** -/
theorem reconstruct_minimal [Inhabited S] {t : TupleKey S} (h : WellFormed t) {object : Text}
    (hobject : t.object = object) :
    reconstruct (splitObject object).1 t.relation (minimal t) = t := by
  obtain ⟨o, relation, _, _⟩ := t
  obtain ⟨hcolon, -, name, _, rfl⟩ := h
  obtain rfl : o = object := hobject
  have hid : extractObjectID o = (splitObject o).2 := by
    unfold extractObjectID splitObject
    cases splitFirst ':' o <;> rfl
  have hbuild : (splitObject o).1 ++ ':' :: extractObjectID o = o := by
    rw [hid]
    exact buildObject_splitObject hcolon
  unfold reconstruct minimal
  simp only [hbuild, TupleKey.mk.injEq, true_and]
  by_cases hname : name = []
  · simp [newRelationshipCondition, TupleKey.conditionName, hname]
  · simp [newRelationshipCondition, TupleKey.conditionName, TupleKey.conditionContext, hname]

/-! ### The iterator -/

namespace CachingIterator

/-- Where the iterator and its goroutine are. -/
inductive Phase (S : Type) where
  | opened
  /-- `drainInBackground` has been started. -/
  | spawned
  /-- The cache has no entry. -/
  | missed
  /-- The datastore's iterator is not at its end, so the goroutine goes to the singleflight. -/
  | waiting
  | draining
  /-- `Next` of the datastore's iterator has returned a tuple. -/
  | received (t : TupleKey S)
  | finished
deriving DecidableEq, Repr

structure State (S : Type) where
  inner : List (TupleKey S)
  /-- `none` if the buffer has been given up. -/
  tuples : Option (List (TupleKey S)) := some []
  phase : Phase S := .opened
  /-- What this iterator has stored in the cache. -/
  stored : List (List (MinimalCacheEntry S)) := []
deriving DecidableEq, Repr

inductive Choice where
  | next (call : DelegateCall)
  | head (call : DelegateCall)
  | stop
  /-- The goroutine looks into the cache. -/
  | lookUp (cached : Bool)
  /-- It calls `Head`. -/
  | peek (call : DelegateCall)
  /-- It enters the singleflight, or another one is there. -/
  | enter (shared : Bool)
  /-- The time of the drain is over. -/
  | expire
  | drain (call : DelegateCall)
  /-- It adds the tuple that it has received. -/
  | append
deriving DecidableEq, Repr

/-- `closing`: `Stop` has been called. -/
def State.closing (s : State S) : Bool :=
  match s.phase with
  | .opened => false
  | _ => true

variable (maxSize : ℕ)

/-- A tuple is added to the buffer, which is given up if it gets too long. -/
def collect (tuples : Option (List (TupleKey S))) (t : TupleKey S) : Option (List (TupleKey S)) :=
  match tuples with
  | none => none
  | some tuples => if maxSize < (tuples ++ [t]).length then none else some (tuples ++ [t])

/-- `Next`: what is returned, and the new state. -/
def next (s : State S) (call : DelegateCall) : Outcome (TupleKey S) × State S :=
  if s.closing then (.done, s)
  else match Delegate.next s.inner call with
    | (.item t, inner) => (.item t, { s with inner, tuples := collect maxSize s.tuples t })
    | (.failed, inner) => (.failed, { s with inner, tuples := none })
    | (outcome, inner) => (outcome, { s with inner })

/-- `Head`: an error is returned and not remembered. -/
def head (s : State S) (call : DelegateCall) : Outcome (TupleKey S) × State S :=
  if s.closing then (.done, s)
  else
    let (outcome, inner) := Delegate.head s.inner call
    (outcome, { s with inner })

/-- `Stop`. -/
def stop (s : State S) : State S :=
  if s.closing then s
  else match s.tuples with
    | none => { s with phase := .finished }
    | some _ => { s with phase := .spawned }

/-- `flush`: an empty entry is not stored. -/
def flush (s : State S) : State S :=
  match s.tuples with
  | none => s
  | some [] => s
  | some tuples => { s with stored := tuples.map minimal :: s.stored, tuples := none }

def step (s : State S) : Choice → Option (State S)
  | .next call => some (next maxSize s call).2
  | .head call => some (head s call).2
  | .stop => some (stop s)
  | .lookUp cached =>
    match s.phase with
    | .spawned => some (if cached then { s with tuples := none, phase := .finished }
        else { s with phase := .missed })
    | _ => none
  | .peek call =>
    match s.phase with
    | .missed =>
      match Delegate.head s.inner call with
      | (.done, _) => some { flush s with phase := .finished }
      | (_, inner) => some { s with inner, phase := .waiting }
    | _ => none
  | .enter shared =>
    match s.phase with
    | .waiting => some { s with phase := if shared then .finished else .draining }
    | _ => none
  | .expire =>
    match s.phase with
    | .draining => some { s with tuples := none, phase := .finished }
    | _ => none
  | .drain call =>
    match s.phase with
    | .draining =>
      match Delegate.next s.inner call with
      | (.item t, inner) => some { s with inner, phase := .received t }
      | (.done, _) => some { flush s with phase := .finished }
      | (_, inner) => some { s with inner, tuples := none, phase := .finished }
    | _ => none
  | .append =>
    match s.phase with
    | .received t =>
      match collect maxSize s.tuples t with
      | none => some { s with tuples := none, phase := .finished }
      | some tuples => some { s with tuples := some tuples, phase := .draining }
    | _ => none

/-- **No call of `Head` loses a tuple.** -/
def HeadsKeep (s : State S) (choice : Choice) : Prop :=
  match choice with
  | .head call => (Delegate.head s.inner call).2 = s.inner
  | .peek call => (Delegate.head s.inner call).2 = s.inner
  | _ => True

instance [DecidableEq S] (s : State S) (choice : Choice) : Decidable (HeadsKeep s choice) := by
  cases choice <;> unfold HeadsKeep <;> infer_instance

/-! ### What is collected -/

/-- What is left of the sequence: a tuple that has been received comes first. -/
def State.left (s : State S) : List (TupleKey S) :=
  match s.phase with
  | .received t => t :: s.inner
  | _ => s.inner

structure Inv (all : List (TupleKey S)) (s : State S) : Prop where
  collected : Collected all s.tuples s.left
  stored : ∀ entries ∈ s.stored, entries = all.map minimal

variable {maxSize} {all : List (TupleKey S)} {s s' : State S}

theorem collected_collect {t : TupleKey S} {tuples : Option (List (TupleKey S))}
    {left : List (TupleKey S)} (h : Collected all tuples (t :: left)) :
    Collected all (collect maxSize tuples t) left := by
  cases tuples with
  | none => exact collected_none all left
  | some =>
    rw [collect]
    split
    · exact collected_none all left
    · exact h.item

/-- What is stored at the end is the whole sequence. -/
theorem inv_flush (h : Collected all s.tuples []) (hstored : ∀ entries ∈ s.stored,
    entries = all.map minimal) (hinner : s.inner = []) :
    Inv all { flush s with phase := .finished } := by
  unfold flush
  split
  · rename_i htuples
    refine ⟨?_, hstored⟩
    simp only [htuples]
    exact collected_none all _
  · rename_i htuples
    refine ⟨?_, hstored⟩
    simp only [State.left, hinner]
    exact h
  · rename_i tuples _ htuples
    rw [htuples] at h
    refine ⟨collected_none all _, List.forall_mem_cons.mpr ⟨?_, hstored⟩⟩
    rw [← h _ rfl, List.append_nil]

theorem opened_of_closing (h : ¬ s.closing = true) : s.phase = .opened := by
  unfold State.closing at h
  split at h
  · assumption
  · exact absurd rfl h

/-- The invariant where no tuple has been received. -/
theorem Inv.collected_inner (h : Inv all s) (hphase : ∀ t, s.phase ≠ .received t) :
    Collected all s.tuples s.inner := by
  have hleft : s.left = s.inner := by
    unfold State.left
    split
    · rename_i t heq
      exact absurd heq (hphase t)
    · rfl
  exact hleft ▸ h.collected

theorem inv_next (h : Inv all s) (call : DelegateCall) : Inv all (next maxSize s call).2 := by
  unfold next
  split
  · exact h
  · rename_i hclosing
    have hphase := opened_of_closing hclosing
    have hcollected := h.collected_inner (by rw [hphase]; exact nofun)
    split
    · rename_i t inner hcall
      rw [next_item hcall] at hcollected
      refine ⟨?_, h.stored⟩
      simp only [State.left, hphase]
      exact collected_collect hcollected
    · exact ⟨collected_none all _, h.stored⟩
    · rename_i outcome inner hitem hfailed hcall
      rw [next_keeps hcall hitem hfailed]
      exact h

/-- A call of `Head` that keeps the tuples changes nothing. -/
theorem inv_head (h : Inv all s) {call : DelegateCall}
    (hkeep : (Delegate.head s.inner call).2 = s.inner) : Inv all (head s call).2 := by
  unfold head
  split
  · exact h
  · simp only [hkeep]
    exact h

theorem inv_stop (h : Inv all s) : Inv all (stop s) := by
  unfold stop
  split
  · exact h
  · rename_i hclosing
    have hcollected := h.collected_inner (by rw [opened_of_closing hclosing]; exact nofun)
    split <;> exact ⟨hcollected, h.stored⟩

theorem inv_step {choice : Choice} (h : Inv all s) (hkeep : HeadsKeep s choice)
    (hstep : step maxSize s choice = some s') : Inv all s' := by
  cases choice with
  | next call =>
    cases hstep
    exact inv_next h call
  | head =>
    cases hstep
    exact inv_head h hkeep
  | stop =>
    cases hstep
    exact inv_stop h
  | lookUp =>
    simp only [step] at hstep
    split at hstep
    · rename_i hphase
      cases hstep
      split
      · exact ⟨collected_none all _, h.stored⟩
      · exact ⟨h.collected_inner (by rw [hphase]; exact nofun), h.stored⟩
    · cases hstep
  | peek =>
    simp only [step] at hstep
    split at hstep
    · rename_i hphase
      have hcollected := h.collected_inner (by rw [hphase]; exact nofun)
      split at hstep
      · rename_i hcall
        cases hstep
        have hinner := head_done hcall
        exact inv_flush (hinner ▸ hcollected) h.stored hinner
      · rename_i inner _ hcall
        cases hstep
        have hinner : inner = s.inner := (congrArg Prod.snd hcall).symm.trans hkeep
        exact ⟨hinner ▸ hcollected, h.stored⟩
    · cases hstep
  | enter shared =>
    simp only [step] at hstep
    split at hstep
    · rename_i hphase
      cases hstep
      have hcollected := h.collected_inner (by rw [hphase]; exact nofun)
      cases shared <;> exact ⟨hcollected, h.stored⟩
    · cases hstep
  | expire =>
    simp only [step] at hstep
    split at hstep
    · cases hstep
      exact ⟨collected_none all _, h.stored⟩
    · cases hstep
  | drain =>
    simp only [step] at hstep
    split at hstep
    · rename_i hphase
      have hcollected := h.collected_inner (by rw [hphase]; exact nofun)
      split at hstep
      · rename_i t inner hcall
        cases hstep
        rw [next_item hcall] at hcollected
        exact ⟨hcollected, h.stored⟩
      · rename_i hcall
        cases hstep
        have hinner := next_done hcall
        exact inv_flush (hinner ▸ hcollected) h.stored hinner
      · cases hstep
        exact ⟨collected_none all _, h.stored⟩
    · cases hstep
  | append =>
    simp only [step] at hstep
    split at hstep
    · rename_i t hphase
      have hcollected : Collected all (collect maxSize s.tuples t) s.inner := by
        refine collected_collect ?_
        have hleft : s.left = t :: s.inner := by rw [State.left, hphase]
        exact hleft ▸ h.collected
      split at hstep
      · cases hstep
        exact ⟨collected_none all _, h.stored⟩
      · rename_i tuples hcollect
        cases hstep
        rw [hcollect] at hcollected
        exact ⟨hcollected, h.stored⟩
    · cases hstep

/-- **The buffer is what has been read**, at any time. -/
theorem run_collected {choices : List Choice}
    (hkeep : Along (step maxSize) HeadsKeep { inner := all } choices)
    (hrun : run (step maxSize) { inner := all } choices = some s) : Inv all s :=
  run_invariant (I := Inv all) (fun _ _ _ => inv_step) ⟨collected_start all, List.forall_mem_nil _⟩
    hkeep hrun

end CachingIterator

/-! ### Reading an entry -/

/-- The iterator over an entry, with the place of its next item. -/
structure LockFreeCachedIterator (S : Type) where
  entries : List (MinimalCacheEntry S)
  objectType : Text
  relation : Text
  index : ℕ := 0
  stopped : Bool := false

namespace LockFreeCachedIterator

variable (c : LockFreeCachedIterator S)

/-- The item at the place of the iterator, or the end. -/
def current : Outcome (TupleKey S) :=
  match c.entries[c.index]? with
  | some e => .item (reconstruct c.objectType c.relation e)
  | none => .done

/-- `Next`; the index is advanced at the end, too. -/
def next (cancelled : Bool) :
    Outcome (TupleKey S) × LockFreeCachedIterator S :=
  if cancelled then (.cancelled, c)
  else if c.stopped then (.done, c)
  else (c.current, { c with index := c.index + 1 })

def head (cancelled : Bool) : Outcome (TupleKey S) :=
  if cancelled then .cancelled else if c.stopped then .done else c.current

def stop : LockFreeCachedIterator S := { c with stopped := true }

/-- What the calls of a reader return. -/
def outcomes : LockFreeCachedIterator S → List ReaderCall → List (Outcome (TupleKey S))
  | _, [] => []
  | c, .next cancelled :: calls => (c.next cancelled).1 :: outcomes (c.next cancelled).2 calls
  | c, .head cancelled :: calls => c.head cancelled :: outcomes c calls

theorem current_eq :
    c.current = itemAt (c.entries.map (reconstruct c.objectType c.relation)) c.index := by
  unfold current itemAt
  rw [List.getElem?_map]
  cases c.entries[c.index]? <;> rfl

/-- **Until it is stopped the iterator answers as the list of its tuples.** -/
theorem outcomes_eq_answers (hstopped : c.stopped = false)
    (calls : List ReaderCall) : c.outcomes calls
      = answers (c.entries.map (reconstruct c.objectType c.relation)) c.index calls := by
  induction calls generalizing c with
  | nil => rfl
  | cons call calls ih =>
    cases call with
    | next cancelled =>
      cases cancelled with
      | false =>
        have hnext : c.next false = (c.current, { c with index := c.index + 1 }) := by
          simp [next, hstopped]
        rw [outcomes, hnext, answers, ← current_eq]
        exact congrArg (c.current :: ·) (ih { c with index := c.index + 1 } hstopped)
      | true => exact congrArg (.cancelled :: ·) (ih c hstopped)
    | head cancelled =>
      cases cancelled with
      | false =>
        simp only [outcomes, head, hstopped, answers, ← current_eq]
        exact congrArg (c.current :: ·) (ih c hstopped)
      | true => exact congrArg (.cancelled :: ·) (ih c hstopped)

end LockFreeCachedIterator

end Kengen.Storage
