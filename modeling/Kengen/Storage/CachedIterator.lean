import Kengen.Lib.Delegate
import Kengen.Lib.Runs
import Kengen.Storage.TupleKeys

/-!
# The cached iterator of the first implementation

`cachedIterator` collects the tuples that its users read.  After `Stop` a goroutine turns them into
records, from which the fields are left out that the read gives, reads the rest and stores the
records.  `cachedTupleIterator` reads the records and fills the fields in again.

* `Fields` — what the read gives: object type, object id, relation, type of the users; empty if not
  given.
* `addToBuffer`, `flush`, `buildTuple` — of `cached_datastore.go` and `cached_iterators.go`.
* **`buildTuple_record`** — a tuple that belongs to the read survives.
* `step` — the calls of the users of the iterator and the moves of the goroutine.
* **`run_collected`** — if no call of `Head` loses a tuple, what is stored is the whole sequence.
* **`outcomes_eq_answers`** — the reader answers as a list of the tuples would.
-/

namespace Kengen.Storage

open Delegate Runs List

variable {S : Type}

/-! ### Records -/

structure TupleRecord (S : Type) where
  objectID : Text
  objectType : Text
  relation : Text
  userObjectType : Text
  userObjectID : Text
  userRelation : Text
  conditionName : Text
  conditionContext : Option S
deriving DecidableEq, Repr

/-- The fields that are known from the read. -/
structure Fields where
  objectType : Text
  objectID : Text
  relation : Text
  userType : Text
deriving DecidableEq, Repr

/-- A field is left out if it is known. -/
def leaveOut (known field : Text) : Text := if known ≠ [] ∧ known = field then [] else field

/-- A known field is filled in. -/
def fillIn (known field : Text) : Text := if known ≠ [] then known else field

theorem fillIn_leaveOut {known field : Text} (h : known ≠ [] → field = known) :
    fillIn known (leaveOut known field) = field := by
  unfold fillIn leaveOut
  by_cases hknown : known = []
  · simp [hknown]
  · rw [if_pos hknown, h hknown]

/-- The record that `addToBuffer` makes of a tuple. -/
def record (c : Fields) (t : TupleKey S) : TupleRecord S where
  objectID := leaveOut c.objectID (splitObject t.object).2
  objectType := leaveOut c.objectType (splitObject t.object).1
  relation := leaveOut c.relation t.relation
  userObjectType := leaveOut c.userType (toUserParts t.user).1
  userObjectID := (toUserParts t.user).2.1
  userRelation := (toUserParts t.user).2.2
  conditionName := t.conditionName
  conditionContext := t.conditionContext

def buildTuple [Inhabited S] (c : Fields) (t : TupleRecord S) : TupleKey S where
  object := buildObject (fillIn c.objectType t.objectType) (fillIn c.objectID t.objectID)
  relation := fillIn c.relation t.relation
  user := fromUserParts (fillIn c.userType t.userObjectType) t.userObjectID t.userRelation
  condition := newRelationshipCondition t.conditionName t.conditionContext

/-- **The tuple belongs to the read.** -/
structure Belongs (c : Fields) (t : TupleKey S) : Prop where
  objectType : c.objectType ≠ [] → (splitObject t.object).1 = c.objectType
  objectID : c.objectID ≠ [] → (splitObject t.object).2 = c.objectID
  relation : c.relation ≠ [] → t.relation = c.relation
  userType : c.userType ≠ [] → (toUserParts t.user).1 = c.userType

/-- **A tuple that belongs to the read is put together again.** -/
theorem buildTuple_record [Inhabited S] {c : Fields} {t : TupleKey S} (h : WellFormed t)
    (hbelongs : Belongs c t) : buildTuple c (record c t) = t := by
  obtain ⟨parts⟩ := h.user
  have hobject : buildObject (fillIn c.objectType (leaveOut c.objectType (splitObject t.object).1))
      (fillIn c.objectID (leaveOut c.objectID (splitObject t.object).2)) = t.object := by
    rw [fillIn_leaveOut hbelongs.objectType, fillIn_leaveOut hbelongs.objectID]
    exact buildObject_splitObject h.object
  have huser : fromUserParts (fillIn c.userType (leaveOut c.userType (toUserParts t.user).1))
      (toUserParts t.user).2.1 (toUserParts t.user).2.2 = t.user := by
    rw [fillIn_leaveOut hbelongs.userType, toUserParts_fromUserParts parts]
    exact parts.eq.symm
  have hcondition : newRelationshipCondition t.conditionName t.conditionContext = t.condition := by
    obtain ⟨name, _, hcondition⟩ := h.condition
    by_cases hname : name = []
    · simp [TupleKey.conditionName, hcondition, newRelationshipCondition, hname]
    · simp [TupleKey.conditionName, TupleKey.conditionContext, hcondition, newRelationshipCondition,
        hname]
  unfold buildTuple record
  simp only [hobject, huser, hcondition, fillIn_leaveOut hbelongs.relation]

/-! ### The iterator -/

namespace CachedIterator

inductive Phase where
  | opened
  /-- The goroutine has been started. -/
  | spawned
  /-- The buffered tuples are in the records. -/
  | recorded
  | waiting
  | draining
  | finished
deriving DecidableEq, Repr

structure State (S : Type) where
  iter : List (TupleKey S)
  /-- `none` if the buffer has been given up. -/
  tuples : Option (List (TupleKey S)) := some []
  records : List (TupleRecord S) := []
  phase : Phase := .opened
  /-- What this iterator has stored in the cache. -/
  stored : List (List (TupleRecord S)) := []
deriving DecidableEq, Repr

inductive Choice where
  | next (call : DelegateCall)
  | head (call : DelegateCall)
  /-- `Stop`; the context of the datastore may have ended. -/
  | stop (ended : Bool)
  /-- The goroutine finds an entry, or a marker newer than the iterator; or neither. -/
  | lookUp (abandoned : Bool)
  | peek (call : DelegateCall) (ended : Bool)
  | enter (shared : Bool)
  | drain (call : DelegateCall) (ended : Bool)
deriving DecidableEq, Repr

variable (maxResultSize : ℕ) (c : Fields)

def next (s : State S) (call : DelegateCall) : Outcome (TupleKey S) × State S :=
  if s.phase ≠ .opened then (.done, s)
  else match Delegate.next s.iter call with
    | (.item t, iter) => (.item t, { s with
        iter
        tuples := s.tuples.bind fun tuples =>
          if maxResultSize ≤ (tuples ++ [t]).length then none else some (tuples ++ [t]) })
    | (.failed, iter) => (.failed, { s with iter, tuples := none })
    | (outcome, iter) => (outcome, { s with iter })

/-- `Head`: an error is returned and not remembered. -/
def head (s : State S) (call : DelegateCall) : Outcome (TupleKey S) × State S :=
  if s.phase ≠ .opened then (.done, s)
  else
    let (outcome, iter) := Delegate.head s.iter call
    (outcome, { s with iter })

def stop (s : State S) (ended : Bool) : State S :=
  if s.phase ≠ .opened then s
  else if s.tuples = none ∨ ended then { s with phase := .finished }
  else { s with phase := .spawned }

/-- `addToBuffer`: whether the buffer was there, and the new state. -/
def addToBuffer (s : State S) (t : TupleKey S) : Bool × State S :=
  if s.tuples = none then (false, s)
  else if maxResultSize ≤ (s.records ++ [record c t]).length then
    (true, { s with tuples := none, records := [] })
  else (true, { s with records := s.records ++ [record c t] })

/-- The loop over the buffered tuples. -/
def recordAll (s : State S) : State S :=
  (s.tuples.getD []).foldl (fun s t => (addToBuffer maxResultSize c s t).2) { s with records := [] }

/-- `flush`: nothing is stored if the buffer has been given up or the context has ended. -/
def flush (s : State S) (ended : Bool) : State S :=
  if s.tuples = none ∨ ended then s
  else { s with tuples := none, records := [], stored := s.records :: s.stored }

def step (s : State S) : Choice → Option (State S)
  | .next call => some (next maxResultSize s call).2
  | .head call => some (head s call).2
  | .stop ended => some (stop s ended)
  | .lookUp abandoned =>
    match s.phase with
    | .spawned =>
      if abandoned then some { s with tuples := none, phase := .finished }
      else some { recordAll maxResultSize c s with phase := .recorded }
    | _ => none
  | .peek call ended =>
    match s.phase with
    | .recorded =>
      match Delegate.head s.iter call with
      | (.done, _) => some { flush s ended with phase := .finished }
      | (_, iter) => some { s with iter, phase := .waiting }
    | _ => none
  | .enter shared =>
    match s.phase with
    | .waiting => some { s with phase := if shared then .finished else .draining }
    | _ => none
  | .drain call ended =>
    match s.phase with
    | .draining =>
      match Delegate.next s.iter call with
      | (.item t, iter) =>
        match addToBuffer maxResultSize c { s with iter } t with
        | (true, s') => some s'
        | (false, s') => some { s' with phase := .finished }
      | (.done, _) => some { flush s ended with phase := .finished }
      | (_, iter) => some { s with iter, phase := .finished }
    | _ => none

/-- **No call of `Head` loses a tuple.** -/
def HeadsKeep (s : State S) (choice : Choice) : Prop :=
  match choice with
  | .head call => (Delegate.head s.iter call).2 = s.iter
  | .peek call _ => (Delegate.head s.iter call).2 = s.iter
  | _ => True

instance [DecidableEq S] (s : State S) (choice : Choice) : Decidable (HeadsKeep s choice) := by
  cases choice <;> unfold HeadsKeep <;> infer_instance

/-! ### What is collected -/

/-- The records are those of what has been read, unless the buffer has been given up. -/
def Recorded (all : List (TupleKey S)) (s : State S) : Prop :=
  s.tuples = none ∨ ∃ read, read ++ s.iter = all ∧ s.records = read.map (record c)

/-- What the buffer holds in each phase. -/
def Buffered (all : List (TupleKey S)) (s : State S) : Prop :=
  match s.phase with
  | .opened => Collected all s.tuples s.iter
  | .spawned => Collected all s.tuples s.iter
  | .finished => True
  | _ => Recorded c all s

structure Inv (all : List (TupleKey S)) (s : State S) : Prop where
  buffered : Buffered c all s
  stored : ∀ records ∈ s.stored, records = all.map (record c)

/-- Only the buffers differ. -/
structure SameRest (s s' : State S) : Prop where
  iter : s'.iter = s.iter
  phase : s'.phase = s.phase
  stored : s'.stored = s.stored

theorem sameRest_addToBuffer (s : State S) (t : TupleKey S) :
    SameRest s (addToBuffer maxResultSize c s t).2 := by
  unfold addToBuffer
  split
  · exact ⟨rfl, rfl, rfl⟩
  · split <;> exact ⟨rfl, rfl, rfl⟩

/-- The records are those of the tuples read, unless the buffer has been given up: a tuple is added
to both. -/
theorem records_addToBuffer {s : State S} {read : List (TupleKey S)}
    (h : s.tuples = none ∨ s.records = read.map (record c)) (t : TupleKey S) :
    (addToBuffer maxResultSize c s t).2.tuples = none
      ∨ (addToBuffer maxResultSize c s t).2.records = (read ++ [t]).map (record c) := by
  unfold addToBuffer
  split
  · exact .inl ‹_›
  · split
    · exact .inl rfl
    · rw [map_append, ← h.resolve_left ‹_›]
      exact .inr rfl

/-- All buffered tuples are added to the records. -/
theorem foldl_addToBuffer {s : State S} {read : List (TupleKey S)}
    (h : s.tuples = none ∨ s.records = read.map (record c)) (tuples : List (TupleKey S)) :
    let s' := tuples.foldl (fun s t => (addToBuffer maxResultSize c s t).2) s
    SameRest s s' ∧ (s'.tuples = none ∨ s'.records = (read ++ tuples).map (record c)) := by
  induction tuples generalizing s read with
  | nil => exact ⟨⟨rfl, rfl, rfl⟩, by rwa [append_nil]⟩
  | cons t tuples ih =>
    have hrest := sameRest_addToBuffer maxResultSize c s t
    obtain ⟨hsame, hrecords⟩ := ih (records_addToBuffer maxResultSize c h t)
    rw [append_assoc] at hrecords
    exact ⟨⟨hsame.iter.trans hrest.iter, hsame.phase.trans hrest.phase,
      hsame.stored.trans hrest.stored⟩, hrecords⟩

variable {maxResultSize} {c} {all : List (TupleKey S)} {s s' : State S}

/-- What is stored at the end is the whole sequence. -/
theorem inv_flush (h : Recorded c all s)
    (hstored : ∀ records ∈ s.stored, records = all.map (record c)) (hiter : s.iter = [])
    (ended : Bool) : Inv c all { flush s ended with phase := .finished } := by
  refine ⟨trivial, ?_⟩
  unfold flush
  split
  · exact hstored
  · rename_i hlive
    rw [not_or] at hlive
    obtain ⟨_, hread, hrecords⟩ := h.resolve_left hlive.1
    refine forall_mem_cons.mpr ⟨?_, hstored⟩
    rw [hrecords, ← hread, hiter, append_nil]

theorem inv_next (h : Inv c all s) (call : DelegateCall) :
    Inv c all (next maxResultSize s call).2 := by
  unfold next
  split
  · exact h
  · rename_i hopened
    have hphase : s.phase = .opened := not_not.mp hopened
    have hcollected : Collected all s.tuples s.iter := by
      have hbuffered := h.buffered
      rw [Buffered, hphase] at hbuffered
      exact hbuffered
    split
    · rename_i t iter hcall
      rw [next_item hcall] at hcollected
      refine ⟨?_, h.stored⟩
      simp only [Buffered, hphase]
      cases htuples : s.tuples with
      | none => exact collected_none all iter
      | some =>
        rw [htuples] at hcollected
        simp only [Option.bind_some]
        split
        · exact collected_none all iter
        · exact hcollected.item
    · refine ⟨?_, h.stored⟩
      simp only [Buffered, hphase]
      exact collected_none all _
    · rename_i outcome iter hitem hfailed hcall
      rw [next_keeps hcall hitem hfailed]
      exact h

theorem inv_head (h : Inv c all s) {call : DelegateCall}
    (hkeep : (Delegate.head s.iter call).2 = s.iter) : Inv c all (head s call).2 := by
  unfold head
  split
  · exact h
  · simp only [hkeep]
    exact h

theorem inv_stop (h : Inv c all s) (ended : Bool) : Inv c all (stop s ended) := by
  unfold stop
  split
  · exact h
  · rename_i hopened
    have hbuffered := h.buffered
    rw [Buffered, not_not.mp hopened] at hbuffered
    split
    · exact ⟨trivial, h.stored⟩
    · exact ⟨hbuffered, h.stored⟩

/-- The goroutine turns the buffered tuples into records. -/
theorem inv_recordAll (h : Inv c all s) (hphase : s.phase = .spawned) :
    Inv c all { recordAll maxResultSize c s with phase := .recorded } := by
  have hcollected : Collected all s.tuples s.iter := by
    have hbuffered := h.buffered
    rw [Buffered, hphase] at hbuffered
    exact hbuffered
  have hempty : { s with records := [] }.tuples = none
      ∨ { s with records := [] }.records = ([] : List (TupleKey S)).map (record c) := .inr rfl
  obtain ⟨hrest, hrecords⟩ := foldl_addToBuffer maxResultSize c hempty (s.tuples.getD [])
  refine ⟨?_, fun records hmem => h.stored records (hrest.stored ▸ hmem)⟩
  cases htuples : s.tuples with
  | none =>
    refine .inl (?_ : (recordAll maxResultSize c s).tuples = none)
    rw [recordAll, htuples]
    rfl
  | some tuples =>
    refine hrecords.imp_right fun hrecords => ⟨tuples, ?_, ?_⟩
    · exact (congrArg (tuples ++ ·) hrest.iter).trans (hcollected tuples htuples)
    · refine hrecords.trans ?_
      rw [htuples]
      rfl

/-- The goroutine adds a tuple that it has read. -/
theorem inv_added (h : Recorded c all s) (hstored : ∀ records ∈ s.stored,
    records = all.map (record c)) (hphase : s.phase = .draining) {t : TupleKey S}
    {iter : List (TupleKey S)} (hiter : s.iter = t :: iter) :
    Inv c all (addToBuffer maxResultSize c { s with iter } t).2 := by
  have hrest := sameRest_addToBuffer maxResultSize c { s with iter } t
  refine ⟨?_, fun records hmem => hstored records (hrest.stored ▸ hmem)⟩
  have hdraining : (addToBuffer maxResultSize c { s with iter } t).2.phase = .draining :=
    hrest.phase.trans hphase
  simp only [Buffered, hdraining]
  rcases h with hnone | ⟨read, hread, hrecords⟩
  · refine .inl ?_
    rw [addToBuffer, if_pos hnone]
    exact hnone
  · refine (records_addToBuffer maxResultSize c (s := { s with iter }) (.inr hrecords) t).imp_right
      fun hadded => ⟨read ++ [t], ?_, hadded⟩
    rw [hrest.iter, append_assoc, ← hread, hiter]
    rfl

theorem inv_step {choice : Choice} (h : Inv c all s) (hkeep : HeadsKeep s choice)
    (hstep : step maxResultSize c s choice = some s') : Inv c all s' := by
  cases choice with
  | next call =>
    cases hstep
    exact inv_next h call
  | head =>
    cases hstep
    exact inv_head h hkeep
  | stop ended =>
    cases hstep
    exact inv_stop h ended
  | lookUp =>
    simp only [step] at hstep
    split at hstep
    · rename_i hphase
      split at hstep <;> cases hstep
      · exact ⟨trivial, h.stored⟩
      · exact inv_recordAll h hphase
    · cases hstep
  | peek call ended =>
    simp only [step] at hstep
    split at hstep
    · rename_i hphase
      have hrecorded := h.buffered
      rw [Buffered, hphase] at hrecorded
      split at hstep
      · rename_i hcall
        cases hstep
        exact inv_flush hrecorded h.stored (head_done hcall) ended
      · rename_i iter _ hcall
        cases hstep
        have hiter : iter = s.iter := (congrArg Prod.snd hcall).symm.trans hkeep
        rw [hiter]
        exact ⟨hrecorded, h.stored⟩
    · cases hstep
  | enter shared =>
    simp only [step] at hstep
    split at hstep
    · rename_i hphase
      cases hstep
      have hrecorded := h.buffered
      rw [Buffered, hphase] at hrecorded
      cases shared
      · exact ⟨hrecorded, h.stored⟩
      · exact ⟨trivial, h.stored⟩
    · cases hstep
  | drain call ended =>
    simp only [step] at hstep
    split at hstep
    · rename_i hphase
      have hrecorded := h.buffered
      rw [Buffered, hphase] at hrecorded
      split at hstep
      · rename_i t iter hcall
        have hadded : Inv c all (addToBuffer maxResultSize c { s with iter } t).2 :=
          inv_added hrecorded h.stored hphase (next_item hcall)
        split at hstep
        · rename_i heq
          cases hstep
          rw [heq] at hadded
          exact hadded
        · rename_i heq
          cases hstep
          rw [heq] at hadded
          exact ⟨trivial, hadded.stored⟩
      · rename_i hcall
        cases hstep
        exact inv_flush hrecorded h.stored (next_done hcall) ended
      · cases hstep
        exact ⟨trivial, h.stored⟩
    · cases hstep

/-- **What is stored is the whole sequence.** -/
theorem run_collected {choices : List Choice}
    (hkeep : Along (step maxResultSize c) HeadsKeep { iter := all } choices)
    (hrun : run (step maxResultSize c) { iter := all } choices = some s) : Inv c all s :=
  have hstart : Inv c all { iter := all } := ⟨collected_start all, forall_mem_nil _⟩
  run_invariant (fun _ _ _ => inv_step) hstart hkeep hrun

end CachedIterator

/-! ### Reading an entry -/

/-- The iterator over the records of an entry: those that are left. -/
structure CachedTupleIterator (S : Type) where
  fields : Fields
  iter : List (TupleRecord S)

namespace CachedTupleIterator

variable [Inhabited S]

def next (c : CachedTupleIterator S) (cancelled : Bool) :
    Outcome (TupleKey S) × CachedTupleIterator S :=
  if cancelled then (.cancelled, c)
  else match c.iter with
    | [] => (.done, c)
    | t :: iter => (.item (buildTuple c.fields t), { c with iter })

def head (c : CachedTupleIterator S) (cancelled : Bool) : Outcome (TupleKey S) :=
  if cancelled then .cancelled
  else match c.iter with
    | [] => .done
    | t :: _ => .item (buildTuple c.fields t)

/-- What the calls of a reader return. -/
def outcomes : CachedTupleIterator S → List ReaderCall → List (Outcome (TupleKey S))
  | _, [] => []
  | c, .next cancelled :: calls => (c.next cancelled).1 :: outcomes (c.next cancelled).2 calls
  | c, .head cancelled :: calls => c.head cancelled :: outcomes c calls

/-- The first item that is left is the one at the place of the reader. -/
theorem head_drop (c : Fields) (records : List (TupleRecord S)) (i : ℕ) :
    head ⟨c, records.drop i⟩ false = itemAt (records.map (buildTuple c)) i := by
  unfold head itemAt
  rw [getElem?_map, ← head?_drop]
  cases records.drop i <;> rfl

/-- **The iterator answers as the list of its tuples.** -/
theorem outcomes_eq_answers (c : Fields) (records : List (TupleRecord S)) (i : ℕ)
    (calls : List ReaderCall) :
    outcomes ⟨c, records.drop i⟩ calls = answers (records.map (buildTuple c)) i calls := by
  induction calls generalizing i with
  | nil => rfl
  | cons call calls ih =>
    cases call with
    | next cancelled =>
      cases cancelled with
      | false =>
        have hnext : next ⟨c, records.drop i⟩ false
            = (head ⟨c, records.drop i⟩ false, ⟨c, records.drop (i + 1)⟩) := by
          rw [← tail_drop]
          unfold next head
          cases records.drop i <;> rfl
        rw [outcomes, hnext, answers, ← head_drop]
        exact congrArg (head ⟨c, records.drop i⟩ false :: ·) (ih (i + 1))
      | true => exact congrArg (.cancelled :: ·) (ih i)
    | head cancelled =>
      cases cancelled with
      | false =>
        rw [outcomes, answers, ← head_drop]
        exact congrArg (head ⟨c, records.drop i⟩ false :: ·) (ih i)
      | true => exact congrArg (.cancelled :: ·) (ih i)

end CachedTupleIterator

end Kengen.Storage
