import Kengen.Lib.KeyedReplay
import Kengen.Memory.Records

/-!
# Writing to the memory backend

`Write` first checks the whole request against the stored records
(`sanitizeTuplesWriteDelete`), then rebuilds the list of records: the records that a delete
matches are dropped, and the writes that match no record are appended.  The changelog is
extended on the way, by a `DELETE` without the condition for each dropped record and a `WRITE`
for each appended one.

* **`write`** — one call, as a step on the records and the changelog of a store; it returns the
  state it leaves and the error, if any;
* **`Consistent`** — the invariant: every record was written from a well-formed key, the keys of
  the records differ, and the replay of the changelog succeeds and gives the stored tuples;
* **`deletes_replayed`**, **`writes_replayed`** — the two loops of a call keep it;
* **`writes_stay_consistent`** — it holds after every history of calls, and a call that returns
  an error leaves the state as it was.

A request may repeat a key, among its deletes, among its writes or across them.
-/

namespace Kengen.Memory

open Strings Kengen.Tuple KeyedReplay List

/-! ### Requests, errors and the state of a store -/

/-- `storage.OnMissingDelete`. -/
inductive OnMissingDelete where
  | error
  | ignore
deriving DecidableEq

/-- `storage.OnDuplicateInsert`. -/
inductive OnDuplicateInsert where
  | error
  | ignore
deriving DecidableEq

/-- `storage.TupleWriteOptions`. -/
structure TupleWriteOptions where
  onMissingDelete : OnMissingDelete
  onDuplicateInsert : OnDuplicateInsert
deriving DecidableEq

/-- `openfgav1.TupleOperation`. -/
inductive TupleOperation where
  | write
  | delete
deriving DecidableEq

/-- The error that a failed write wraps. -/
inductive WriteErrorKind where
  /-- `storage.ErrInvalidWriteInput`. -/
  | invalidWriteInput
  /-- `storage.ErrTransactionalWriteFailed`. -/
  | transactionalWriteFailed
deriving DecidableEq

/-- An error with the sentinel it wraps. -/
structure WriteError where
  kind : WriteErrorKind
  text : Str
deriving DecidableEq

variable (tk : TupleKeyWithoutCondition)

/-- The key as the error texts name it. -/
def keyText : Str :=
  str "user: '" ++ tk.user ++ str "', relation: '" ++ tk.relation ++ str "', object: '"
    ++ tk.object ++ str "'"

/-- `storage.InvalidWriteInputError`. -/
def invalidWriteInputError (operation : TupleOperation) :
    WriteError where
  kind := .invalidWriteInput
  text :=
    (match operation with
      | .delete => str "cannot delete a tuple which does not exist: "
      | .write => str "cannot write a tuple which already exists: ")
    ++ keyText tk
    ++ str ": tuple to be written already existed or the tuple to be deleted did not exist"

/-- `storage.TupleConditionConflictError`. -/
def tupleConditionConflictError : WriteError where
  kind := .transactionalWriteFailed
  text := str "transactional write failed due to conflict: attempted to write a tuple which "
    ++ str "already exists with a different condition: " ++ keyText tk

/-- `openfgav1.TupleChange`. -/
structure TupleChange where
  tupleKey : Tuple.TupleKey
  operation : TupleOperation
deriving DecidableEq

/-- The tuples and the changes of one store. -/
structure Store where
  tuples : List TupleRecord
  changes : List TupleChange
deriving DecidableEq

/-- The arguments of one call of `Write`. -/
structure WriteRequest where
  deletes : List TupleKeyWithoutCondition
  writes : List Tuple.TupleKey
  opts : TupleWriteOptions
deriving DecidableEq

/-! ### The checks -/

/-- The loop of `sanitizeTuplesWriteDelete` over the deletes, from index `i` on: the indexes of
the deletes that are ignored. -/
def sanitizeDeletes (records : List TupleRecord) (opts : TupleWriteOptions) :
    ℕ → List TupleKeyWithoutCondition → Except WriteError (List ℕ)
  | _, [] => .ok []
  | i, tk :: rest =>
    match find records tk with
    | some _ => sanitizeDeletes records opts (i + 1) rest
    | none =>
      if opts.onMissingDelete = .ignore then
        (sanitizeDeletes records opts (i + 1) rest).map (i :: ·)
      else .error (invalidWriteInputError tk .delete)

/-- The stored condition and the written one are the same: the names are, and the contexts read
the same, where no context reads `<nil>`. -/
def sameCondition (record : TupleRecord) (tk : Tuple.TupleKey) : Bool :=
  decide (record.conditionName = tk.conditionName)
    && decide (record.conditionContext.map Struct.text = tk.conditionContext.map Struct.text)

/-- The loop of `sanitizeTuplesWriteDelete` over the writes, from index `i` on. -/
def sanitizeWrites (records : List TupleRecord) (opts : TupleWriteOptions) :
    ℕ → List Tuple.TupleKey → Except WriteError (List ℕ)
  | _, [] => .ok []
  | i, tk :: rest =>
    match find records tk.toTupleKeyWithoutCondition with
    | none => sanitizeWrites records opts (i + 1) rest
    | some record =>
      if opts.onDuplicateInsert = .ignore then
        if sameCondition record tk then (sanitizeWrites records opts (i + 1) rest).map (i :: ·)
        else .error (tupleConditionConflictError tk.toTupleKeyWithoutCondition)
      else .error (invalidWriteInputError tk.toTupleKeyWithoutCondition .write)

/-- `sanitizeTuplesWriteDelete`: the indexes of the deletes and of the writes to ignore. -/
def sanitizeTuplesWriteDelete (records : List TupleRecord) (request : WriteRequest) :
    Except WriteError (List ℕ × List ℕ) :=
  match sanitizeDeletes records request.opts 0 request.deletes with
  | .error e => .error e
  | .ok duplicateDeletes =>
    match sanitizeWrites records request.opts 0 request.writes with
    | .error e => .error e
    | .ok duplicateWrites => .ok (duplicateDeletes, duplicateWrites)

/-! ### The two loops -/

/-- The loop over the deletes, for one record: some delete that is not ignored matches it. -/
def deletedBy (duplicateDeletes : List ℕ) (tr : TupleRecord) :
    ℕ → List TupleKeyWithoutCondition → Bool
  | _, [] => false
  | i, k :: rest =>
    if matchTuple tr k then
      if duplicateDeletes.contains i then deletedBy duplicateDeletes tr (i + 1) rest
      else true
    else deletedBy duplicateDeletes tr (i + 1) rest

/-- The change of a dropped record, without its condition. -/
def deleteChange (tr : TupleRecord) : TupleChange where
  tupleKey := newTupleKey tr.asTuple.object tr.asTuple.relation tr.asTuple.user
  operation := .delete

/-- The loop `Delete` over the stored records: the records that stay and the changes. -/
def deleteLoop (duplicateDeletes : List ℕ) (deletes : List TupleKeyWithoutCondition) :
    List TupleRecord → List TupleRecord × List TupleChange
  | [] => ([], [])
  | tr :: rest =>
    let next := deleteLoop duplicateDeletes deletes rest
    if deletedBy duplicateDeletes tr 0 deletes then (next.1, deleteChange tr :: next.2)
    else (tr :: next.1, next.2)

/-- The change of a written key. -/
def writeChange (t : Tuple.TupleKey) : TupleChange where
  tupleKey := newTupleKeyWithCondition
    (buildObject (splitObject t.object).1 (splitObject t.object).2) t.relation t.user
    t.conditionName t.conditionContext
  operation := .write

/-- The loop `Write` over the written keys: the records after it and the changes. -/
def writeLoop : List Tuple.TupleKey → List TupleRecord → List TupleRecord × List TupleChange
  | [], records => (records, [])
  | t :: rest, records =>
    if records.any fun et => matchTuple et t.toTupleKeyWithoutCondition then
      writeLoop rest records
    else
      let next := writeLoop rest (records ++ [newRecord t])
      (next.1, writeChange t :: next.2)

/-- **`Write`**: the state it leaves and the error it returns. -/
def write (s : Store) (request : WriteRequest) : Store × Option WriteError :=
  match sanitizeTuplesWriteDelete s.tuples request with
  | .error e => (s, some e)
  | .ok (duplicateDeletes, _) =>
    let deleted := deleteLoop duplicateDeletes request.deletes s.tuples
    let written := writeLoop request.writes deleted.1
    ({ tuples := written.1, changes := s.changes ++ deleted.2 ++ written.2 }, none)

/-- The state after a history of calls. -/
def writeAll (s : Store) : List WriteRequest → Store
  | [] => s
  | request :: rest => writeAll (write s request).1 rest

/-! ### The invariant -/

/-- A change as an entry of the log of the stored tuples. -/
def TupleChange.toOp (change : TupleChange) : Op Tuple.TupleKey TupleKeyWithoutCondition :=
  match change.operation with
  | .write => .insert change.tupleKey
  | .delete => .remove change.tupleKey.toTupleKeyWithoutCondition

/-- Replay changes over tuples: a write of a present key and a delete of an absent key fail. -/
def replayChanges (tuples : List Tuple.TupleKey) (changes : List TupleChange) :
    Option (List Tuple.TupleKey) :=
  replay Tuple.TupleKey.toTupleKeyWithoutCondition tuples (changes.map TupleChange.toOp)

/-- The records were written from well-formed keys and their keys differ. -/
structure Keyed (records : List TupleRecord) : Prop where
  written : ∀ t ∈ records, t.Written
  unique : (records.map TupleRecord.key).Nodup

/-- The invariant of a store. -/
structure Consistent (s : Store) : Prop extends Keyed s.tuples where
  replayed : replayChanges [] s.changes = some (s.tuples.map TupleRecord.asTuple)

/-- A request with well-formed keys. -/
structure WriteRequest.WellFormed (request : WriteRequest) : Prop where
  deletes : ∀ tk ∈ request.deletes, tk.WellFormed
  writes : ∀ tk ∈ request.writes, tk.toTupleKeyWithoutCondition.WellFormed

instance (request : WriteRequest) : Decidable request.WellFormed :=
  decidable_of_iff
    ((∀ tk ∈ request.deletes, tk.WellFormed)
      ∧ ∀ tk ∈ request.writes, tk.toTupleKeyWithoutCondition.WellFormed)
    ⟨fun h => ⟨h.1, h.2⟩, fun h => ⟨h.deletes, h.writes⟩⟩

theorem replayChanges_append {tuples tuples' : List Tuple.TupleKey} {changes : List TupleChange}
    (h : replayChanges tuples changes = some tuples') (changes' : List TupleChange) :
    replayChanges tuples (changes ++ changes') = replayChanges tuples' changes' := by
  unfold replayChanges at *
  rw [map_append, replay_append, h, Option.bind_some]

theorem map_key_asTuple (records : List TupleRecord) :
    (records.map TupleRecord.asTuple).map Tuple.TupleKey.toTupleKeyWithoutCondition
      = records.map TupleRecord.key := by
  rw [map_map]
  rfl

/-! ### The deletes -/

theorem deleteLoop_eq (duplicateDeletes : List ℕ) (deletes : List TupleKeyWithoutCondition)
    (records : List TupleRecord) :
    deleteLoop duplicateDeletes deletes records
      = (records.filter fun tr => !deletedBy duplicateDeletes tr 0 deletes,
        (records.filter fun tr => deletedBy duplicateDeletes tr 0 deletes).map deleteChange) := by
  induction records with
  | nil => rfl
  | cons tr rest ih =>
    rw [deleteLoop, ih]
    by_cases h : deletedBy duplicateDeletes tr 0 deletes = true
    · simp [h]
    · simp [h]

variable {records : List TupleRecord}

theorem Keyed.filter (h : Keyed records) (p : TupleRecord → Bool) : Keyed (records.filter p) where
  written t ht := h.written t (mem_of_mem_filter ht)
  unique := h.unique.sublist (filter_sublist.map _)

/-- Deleting the records that satisfy `p`, by their changes, leaves the others. -/
theorem replay_deletes (h : Keyed records) (p : TupleRecord → Bool) :
    replayChanges (records.map TupleRecord.asTuple) ((records.filter p).map deleteChange)
      = some ((records.filter fun tr => !p tr).map TupleRecord.asTuple) := by
  have hops : ((records.filter p).map deleteChange).map TupleChange.toOp
      = ((records.filter p).map TupleRecord.key).map .remove := by
    rw [map_map, map_map]
    rfl
  rw [replayChanges, hops, replay_remove (h.filter p).unique]
  · rw [filter_map]
    congr 2
    refine filter_congr fun tr htr => ?_
    -- the keys differ, so the key of a record that stays is not among those deleted
    have hmem : tr.key ∈ (records.filter p).map TupleRecord.key ↔ p tr = true := by
      constructor
      · rintro hkey
        obtain ⟨tr', htr', hkey'⟩ := mem_map.mp hkey
        obtain ⟨htr', hp⟩ := mem_filter.mp htr'
        rw [← inj_on_of_nodup_map h.unique htr' htr hkey']
        exact hp
      · intro hp
        exact mem_map_of_mem (mem_filter.mpr ⟨htr, hp⟩)
    show decide (tr.key ∉ (records.filter p).map TupleRecord.key) = !p tr
    by_cases hp : p tr = true
    · rw [hp]
      exact decide_eq_false (not_not_intro (hmem.mpr hp))
    · rw [Bool.eq_false_iff.mpr hp]
      exact decide_eq_true (mt hmem.mp hp)
  · intro k hk
    obtain ⟨tr, htr, rfl⟩ := mem_map.mp hk
    rw [map_key_asTuple]
    exact mem_map_of_mem (mem_of_mem_filter htr)

/-- **The deletes of a call keep the keys different and are in the changelog.** -/
theorem deletes_replayed (h : Keyed records)
    (duplicateDeletes : List ℕ) (deletes : List TupleKeyWithoutCondition) :
    Keyed (deleteLoop duplicateDeletes deletes records).1
      ∧ replayChanges (records.map TupleRecord.asTuple)
          (deleteLoop duplicateDeletes deletes records).2
        = some ((deleteLoop duplicateDeletes deletes records).1.map TupleRecord.asTuple) := by
  rw [deleteLoop_eq]
  exact ⟨h.filter _, replay_deletes h _⟩

/-! ### The writes -/

theorem Keyed.append (h : Keyed records) {tk : Tuple.TupleKey}
    (htk : tk.WellFormed) (hnew : tk.toTupleKeyWithoutCondition ∉ records.map TupleRecord.key) :
    Keyed (records ++ [newRecord tk]) where
  written t ht := by
    rcases mem_append.mp ht with ht | ht
    · exact h.written t ht
    · rw [mem_singleton.mp ht]
      exact ⟨tk, htk, rfl⟩
  unique := by
    rw [map_append, map_singleton, newRecord_key htk, nodup_append_comm,
      singleton_append, nodup_cons]
    exact ⟨hnew, h.unique⟩

/-- **The writes of a call keep the keys different and are in the changelog.** -/
theorem writes_replayed {writes : List Tuple.TupleKey}
    (hwrites : ∀ tk ∈ writes, tk.toTupleKeyWithoutCondition.WellFormed) (h : Keyed records) :
    Keyed (writeLoop writes records).1
      ∧ replayChanges (records.map TupleRecord.asTuple) (writeLoop writes records).2
        = some ((writeLoop writes records).1.map TupleRecord.asTuple) := by
  induction writes generalizing records with
  | nil => exact ⟨h, rfl⟩
  | cons t rest ih =>
    obtain ⟨ht, hrest⟩ := forall_mem_cons.mp hwrites
    rw [writeLoop]
    split_ifs with hany
    · exact ih hrest h
    · -- the key is new, so the replay may insert it
      have hnew : t.toTupleKeyWithoutCondition ∉ records.map TupleRecord.key := fun hmem =>
        hany ((any_matchTuple h.written ht).mpr hmem)
      obtain ⟨hkeyed, hreplay⟩ := ih hrest (h.append ht hnew)
      refine ⟨hkeyed, ?_⟩
      rw [← hreplay, map_append, map_singleton]
      refine replay_insert ?_ _
      rw [map_key_asTuple]
      have hkey : (newRecord t).key = t.toTupleKeyWithoutCondition := newRecord_key ht
      exact fun hmem => hnew (hkey ▸ hmem)

/-! ### Whole histories -/

theorem consistent_empty : Consistent ⟨[], []⟩ where
  written _ h := absurd h not_mem_nil
  unique := nodup_nil
  replayed := rfl

/-- What a call can do. -/
theorem write_cases (s : Store) (request : WriteRequest) :
    (∃ e, sanitizeTuplesWriteDelete s.tuples request = .error e ∧ write s request = (s, some e))
      ∨ ∃ duplicates, sanitizeTuplesWriteDelete s.tuples request = .ok duplicates
        ∧ write s request
          = ({ tuples := (writeLoop request.writes
                (deleteLoop duplicates.1 request.deletes s.tuples).1).1
               changes := s.changes ++ (deleteLoop duplicates.1 request.deletes s.tuples).2
                ++ (writeLoop request.writes
                  (deleteLoop duplicates.1 request.deletes s.tuples).1).2 }, none) := by
  unfold write
  cases hsanitize : sanitizeTuplesWriteDelete s.tuples request with
  | error e => exact .inl ⟨e, rfl, rfl⟩
  | ok duplicates => exact .inr ⟨duplicates, rfl, rfl⟩

variable {s : Store}

/-- A call that fails leaves the state as it was. -/
theorem write_of_error {request : WriteRequest} {e : WriteError}
    (h : (write s request).2 = some e) : (write s request).1 = s := by
  obtain ⟨_, -, hwrite⟩ | ⟨_, -, hwrite⟩ := write_cases s request
  · rw [hwrite]
  · rw [hwrite] at h
    exact absurd h nofun

/-- **One call keeps the invariant.** -/
theorem Consistent.write (h : Consistent s) {request : WriteRequest}
    (hrequest : request.WellFormed) : Consistent (write s request).1 := by
  obtain ⟨_, -, hwrite⟩ | ⟨duplicates, -, hwrite⟩ := write_cases s request
  · rw [hwrite]
    exact h
  · obtain ⟨hkeyed, hdeleted⟩ := deletes_replayed h.toKeyed duplicates.1 request.deletes
    obtain ⟨hkeyed', hwritten⟩ := writes_replayed hrequest.writes hkeyed
    rw [hwrite]
    refine { toKeyed := hkeyed', replayed := ?_ }
    rw [append_assoc, replayChanges_append h.replayed, replayChanges_append hdeleted]
    exact hwritten

/-- Every history of calls keeps the invariant. -/
theorem Consistent.writeAll (h : Consistent s) {history : List WriteRequest}
    (hhistory : ∀ request ∈ history, request.WellFormed) : Consistent (writeAll s history) := by
  induction history generalizing s with
  | nil => exact h
  | cons request rest ih =>
    obtain ⟨hrequest, hrest⟩ := forall_mem_cons.mp hhistory
    exact ih (h.write hrequest) hrest

/-- **After every history the keys of the stored tuples differ, the replay of the changelog
succeeds and gives the stored tuples with their conditions, and a call that returns an error
changes nothing.** -/
theorem writes_stay_consistent (history : List WriteRequest)
    (hhistory : ∀ request ∈ history, request.WellFormed) :
    ((writeAll ⟨[], []⟩ history).tuples.map TupleRecord.key).Nodup
      ∧ replayChanges [] (writeAll ⟨[], []⟩ history).changes
        = some ((writeAll ⟨[], []⟩ history).tuples.map TupleRecord.asTuple)
      ∧ ∀ request e, (write (writeAll ⟨[], []⟩ history) request).2 = some e →
        (write (writeAll ⟨[], []⟩ history) request).1 = writeAll ⟨[], []⟩ history := by
  have h := consistent_empty.writeAll hhistory
  exact ⟨h.unique, h.replayed, fun request e he => write_of_error he⟩

/-- A history that writes a key, then deletes it twice and writes another key twice. -/
def rewriteHistory : List WriteRequest :=
  [{ deletes := [],
     writes := [newTupleKey (str "document:1") (str "viewer") (str "user:anne")],
     opts := ⟨.error, .error⟩ },
   { deletes := [⟨str "document:1", str "viewer", str "user:anne"⟩,
        ⟨str "document:1", str "viewer", str "user:anne"⟩],
     writes := [newTupleKey (str "document:1") (str "viewer") (str "user:bob"),
        newTupleKey (str "document:1") (str "viewer") (str "user:bob")],
     opts := ⟨.ignore, .ignore⟩ }]

theorem writes_stay_consistent_rewritten :
    (∀ request ∈ rewriteHistory, request.WellFormed)
      ∧ (writeAll ⟨[], []⟩ rewriteHistory).changes.map TupleChange.operation
        = [.write, .delete, .write]
      ∧ ((writeAll ⟨[], []⟩ rewriteHistory).tuples.map TupleRecord.key).Nodup := by
  have hhistory : ∀ request ∈ rewriteHistory, request.WellFormed := by decide
  exact ⟨hhistory, by decide, (writes_stay_consistent rewriteHistory hhistory).1⟩

end Kengen.Memory
