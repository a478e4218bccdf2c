import Kengen.Lib.SortedList
import Kengen.Model.Data

/-!
# Iterators as traces

An iterator is modelled by its trace: the list of what successive calls of
`Next` return.  The end of the list is `ErrIteratorDone`.  The combinators of
the `iterator` package become functions on traces.

* `mergeTrace` is `MergedIterator` (`merge.go`): a state with the two current
  values, advanced by `Merged.next`.
* `filterTrace` is the filtered iterator (`filter.go`), which remembers the last
  error of a filter function and gives it up as soon as one entry has passed.
* `fromChannel` is the iterator over a channel of iterators (`channel.go`).
* `Batcher` is the output side of a set operation (`bottom_up.go`).
* A `SortedStream` is what the iterators of the bottom-up evaluation produce:
  sorted values, possibly repeated, followed by at most one error.

Main results:

* **`mergeTrace_okTrace`** — merging two error-free iterators with a comparator
  that never answers "equal" is a plain merge: no entry is lost and none is
  deduplicated.
* **`filterTrace_okTrace`** — on an error-free iterator the filter yields the
  entries that pass, followed by the last error only if nothing passed.
* **`Batcher.fromChannel_close`** — batching changes nothing about what is sent.
-/

namespace Kengen

open List

/-- What the successive calls of an iterator's `Next` return. -/
abbrev Trace (α : Type) := List (Except Err α)

variable {α : Type}

/-- A static iterator: the values, then done. -/
def okTrace (xs : List α) : Trace α := xs.map .ok

@[simp] theorem okTrace_nil : okTrace ([] : List α) = [] := rfl

@[simp] theorem okTrace_cons (x : α) (xs : List α) :
    okTrace (x :: xs) = .ok x :: okTrace xs := rfl

@[simp] theorem okTrace_length (xs : List α) : (okTrace xs).length = xs.length := by
  simp [okTrace]

/-- The trace of an iterator that yields `xs` and then fails with `e`, if there is an `e`. -/
def streamTrace (xs : List α) (e : Option Err) : Trace α :=
  okTrace xs ++ e.toList.map .error

@[simp] theorem streamTrace_none (xs : List α) :
    streamTrace xs none = okTrace xs := by
  simp [streamTrace]

@[simp] theorem streamTrace_nil_some (e : Err) :
    streamTrace ([] : List α) (some e) = [.error e] := rfl

@[simp] theorem streamTrace_cons (x : α) (xs : List α) (e : Option Err) :
    streamTrace (x :: xs) e = .ok x :: streamTrace xs e := rfl

theorem length_le_streamTrace (xs : List α) (e : Option Err) :
    xs.length ≤ (streamTrace xs e).length := by
  simp [streamTrace]

theorem streamTrace_map {β : Type} (f : α → β) (xs : List α) (e : Option Err) :
    (streamTrace xs e).map (Except.map f) = streamTrace (xs.map f) e := by
  induction xs with
  | nil => cases e <;> simp [Except.map]
  | cons x xs ih => simp [Except.map, ih]

/-- The values of a trace. -/
def traceValues (t : Trace α) : List α := t.filterMap fun r => r.toOption

@[simp] theorem traceValues_okTrace (xs : List α) : traceValues (okTrace xs) = xs := by
  induction xs with
  | nil => rfl
  | cons => simp [traceValues, okTrace, Except.toOption]

@[simp] theorem traceValues_append (s t : Trace α) :
    traceValues (s ++ t) = traceValues s ++ traceValues t := by
  simp [traceValues]

@[simp] theorem traceValues_streamTrace (xs : List α) (e : Option Err) :
    traceValues (streamTrace xs e) = xs := by
  cases e with
  | none => simp
  | some => simp [streamTrace, traceValues, Except.toOption, okTrace, filterMap_map]

/-- The first error of a trace. -/
def traceError : Trace α → Option Err
  | [] => none
  | .error e :: _ => some e
  | .ok _ :: rest => traceError rest

@[simp] theorem traceError_streamTrace (xs : List α) (e : Option Err) :
    traceError (streamTrace xs e) = e := by
  induction xs with
  | nil => cases e <;> simp [traceError]
  | cons x xs ih => simpa [traceError] using ih

/-! ### `MergedIterator` -/

/-- The state of a `MergedIterator` after its initialisation; a current value is
absent once its iterator is done. -/
structure Merged (α : Type) where
  current1 : Option α
  rest1 : Trace α
  current2 : Option α
  rest2 : Trace α

variable (m : Merged α)

/-- `returnFromIter1`: on an error the value stays current and the error is returned. -/
def Merged.returnFromIter1 (val : α) : Except Err α × Merged α :=
  match m.rest1 with
  | [] => (.ok val, { m with current1 := none })
  | .error e :: rest => (.error e, { m with rest1 := rest })
  | .ok next :: rest => (.ok val, { m with current1 := some next, rest1 := rest })

/-- `returnFromIter2`. -/
def Merged.returnFromIter2 (val : α) : Except Err α × Merged α :=
  match m.rest2 with
  | [] => (.ok val, { m with current2 := none })
  | .error e :: rest => (.error e, { m with rest2 := rest })
  | .ok next :: rest => (.ok val, { m with current2 := some next, rest2 := rest })

/-- The branch of `Next` for equal values: both iterators advance, `iter1` first. -/
def Merged.returnFromBoth (val : α) : Except Err α × Merged α :=
  match m.returnFromIter1 val with
  | (.error e, m') => (.error e, m')
  | (.ok _, m') =>
    match m'.returnFromIter2 val with
    | (.error e, m'') => (.error e, m'')
    | (.ok _, m'') => (.ok val, m'')

variable (compareFn : α → α → Ordering)

/-- `MergedIterator.Next` after the initialisation; `none` is `ErrIteratorDone`. -/
def Merged.next (m : Merged α) :
    Option (Except Err α × Merged α) :=
  match m.current1, m.current2 with
  | none, none => none
  | none, some b => some (m.returnFromIter2 b)
  | some a, none => some (m.returnFromIter1 a)
  | some a, some b =>
    match compareFn a b with
    | .lt => some (m.returnFromIter1 a)
    | .gt => some (m.returnFromIter2 b)
    | .eq => some (m.returnFromBoth a)

/-- What the calls of `Next` return from a state on, at most `fuel` of them. -/
def Merged.drain (compareFn : α → α → Ordering) : ℕ → Merged α → Trace α
  | 0, _ => []
  | fuel + 1, m =>
    match m.next compareFn with
    | none => []
    | some (r, m') => r :: Merged.drain compareFn fuel m'

/-- An iterator's first value and what follows, when it is no error. -/
def Merged.load : Trace α → Option α × Trace α
  | .ok a :: rest => (some a, rest)
  | _ => (none, [])

/-- `Merge`: `initialize` fetches both first values.  An error of `iter1` there
leaves both sides unset, an error of `iter2` leaves only `iter1` set. -/
def mergeTrace (iter1 iter2 : Trace α) : Trace α :=
  let fuel := iter1.length + iter2.length + 1
  let (a, rest1) := Merged.load iter1
  let (b, rest2) := Merged.load iter2
  match iter1, iter2 with
  | .error e :: _, _ => [.error e]
  | _, .error e :: _ => .error e :: Merged.drain compareFn fuel ⟨a, rest1, none, []⟩
  | _, _ => Merged.drain compareFn fuel ⟨a, rest1, b, rest2⟩

/-- The state that holds the two value lists `xs` and `ys`. -/
def Merged.ofLists (xs ys : List α) : Merged α :=
  ⟨xs.head?, okTrace xs.tail, ys.head?, okTrace ys.tail⟩

theorem Merged.returnFromIter1_ofLists (x : α) (xs ys : List α) :
    (Merged.ofLists (x :: xs) ys).returnFromIter1 x = (.ok x, Merged.ofLists xs ys) := by
  cases xs <;> rfl

theorem Merged.returnFromIter2_ofLists (y : α) (xs ys : List α) :
    (Merged.ofLists xs (y :: ys)).returnFromIter2 y = (.ok y, Merged.ofLists xs ys) := by
  cases ys <;> rfl

/-- **Draining a merge of two value lists.**  With a comparator that answers
"less" or "greater" only, the values of `iter2` come first among those that
do not compare less, and nothing is skipped. -/
theorem Merged.drain_ofLists (le : α → α → Bool) (fuel : ℕ) (xs ys : List α)
    (hfuel : xs.length + ys.length ≤ fuel) :
    Merged.drain (fun a b => if le b a then .gt else .lt) fuel (Merged.ofLists xs ys)
      = okTrace (ys.merge xs le) := by
  induction fuel generalizing xs ys with
  | zero =>
    obtain rfl : xs = [] := length_eq_zero_iff.mp (by omega)
    obtain rfl : ys = [] := length_eq_zero_iff.mp (by omega)
    simp [Merged.drain]
  | succ fuel ih =>
    cases xs with
    | nil =>
      cases ys with
      | nil => simp [Merged.drain, Merged.next, Merged.ofLists]
      | cons y ys =>
        have hnext : (Merged.ofLists ([] : List α) (y :: ys)).next
            (fun a b => if le b a then .gt else .lt) = some (.ok y, Merged.ofLists [] ys) := by
          rw [← Merged.returnFromIter2_ofLists]; rfl
        simp only [Merged.drain, hnext, ih [] ys (by simp at hfuel ⊢; omega)]
        simp
    | cons x xs =>
      cases ys with
      | nil =>
        have hnext : (Merged.ofLists (x :: xs) []).next
            (fun a b => if le b a then .gt else .lt) = some (.ok x, Merged.ofLists xs []) := by
          rw [← Merged.returnFromIter1_ofLists]; rfl
        simp only [Merged.drain, hnext, ih xs [] (by simp at hfuel ⊢; omega)]
        simp
      | cons y ys =>
        simp only [length_cons] at hfuel
        by_cases hle : le y x
        · have hnext : (Merged.ofLists (x :: xs) (y :: ys)).next
              (fun a b => if le b a then .gt else .lt)
              = some (.ok y, Merged.ofLists (x :: xs) ys) := by
            rw [← Merged.returnFromIter2_ofLists]
            simp [Merged.next, Merged.ofLists, hle]
          simp only [Merged.drain, hnext, ih (x :: xs) ys (by simp; omega)]
          simp [hle]
        · have hnext : (Merged.ofLists (x :: xs) (y :: ys)).next
              (fun a b => if le b a then .gt else .lt)
              = some (.ok x, Merged.ofLists xs (y :: ys)) := by
            rw [← Merged.returnFromIter1_ofLists]
            simp [Merged.next, Merged.ofLists, hle]
          simp only [Merged.drain, hnext, ih xs (y :: ys) (by simp; omega)]
          simp [hle]

/-- **A merge without "equal" deduplicates nothing.** -/
theorem mergeTrace_okTrace (le : α → α → Bool) (xs ys : List α) :
    mergeTrace (fun a b => if le b a then .gt else .lt) (okTrace xs) (okTrace ys)
      = okTrace (ys.merge xs le) := by
  rw [← Merged.drain_ofLists le (xs.length + ys.length + 1) xs ys (by omega)]
  cases xs <;> cases ys <;> simp [mergeTrace, Merged.load, Merged.ofLists]

/-! ### The filtered iterator -/

/-- `filter.Next`, call after call: `lastErr` and `onceValid` are the fields of the
iterator.  When the entries are done the last error is returned only if no
entry has ever passed. -/
def filterTrace (passes : α → Except Err Bool) (lastErr : Option Err)
    (onceValid : Bool) : Trace α → Trace α
  | [] =>
    match onceValid, lastErr with
    | false, some e => [.error e]
    | _, _ => []
  | .error e :: rest => .error e :: filterTrace passes lastErr onceValid rest
  | .ok entry :: rest =>
    match passes entry with
    | .error e => filterTrace passes (some e) onceValid rest
    | .ok false => filterTrace passes lastErr onceValid rest
    | .ok true => .ok entry :: filterTrace passes lastErr true rest

/-- The entry passes the filter function without an error. -/
def isPass (passes : α → Except Err Bool) (x : α) : Bool :=
  match passes x with
  | .ok b => b
  | .error _ => false

/-- The filter function fails on the entry. -/
def isFailure (passes : α → Except Err Bool) (x : α) : Bool :=
  match passes x with
  | .ok _ => false
  | .error _ => true

/-- The error the filtered iterator ends with: the last one met, if no entry passed. -/
def pendingErr (passes : α → Except Err Bool) (lastErr : Option Err) :
    List α → Option Err
  | [] => lastErr
  | x :: xs =>
    match passes x with
    | .error e => pendingErr passes (some e) xs
    | .ok false => pendingErr passes lastErr xs
    | .ok true => none

section

variable (passes : α → Except Err Bool) (lastErr : Option Err) (xs : List α)
include passes lastErr xs

theorem filterTrace_onceValid :
    filterTrace passes lastErr true (okTrace xs) = okTrace (xs.filter (isPass passes)) := by
  induction xs generalizing lastErr with
  | nil => simp [filterTrace]
  | cons x xs ih =>
    rcases hp : passes x with e | b
    · simp [filterTrace, isPass, hp, ih]
    · cases b <;> simp [filterTrace, isPass, hp, ih]

/-- **The filtered iterator on error-free input**: the entries that pass, then the
pending error. -/
theorem filterTrace_okTrace :
    filterTrace passes lastErr false (okTrace xs)
      = streamTrace (xs.filter (isPass passes)) (pendingErr passes lastErr xs) := by
  induction xs generalizing lastErr with
  | nil => cases lastErr <;> simp [filterTrace, pendingErr]
  | cons x xs ih =>
    rcases hp : passes x with e | b
    · simp [filterTrace, isPass, pendingErr, hp, ih]
    · cases b
      · simp [filterTrace, isPass, pendingErr, hp, ih]
      · simp [filterTrace, isPass, pendingErr, hp, filterTrace_onceValid]

/-- The pending error is there exactly if some entry failed and none passed. -/
theorem pendingErr_isSome :
    (pendingErr passes lastErr xs).isSome
      ↔ (lastErr.isSome ∨ ∃ x ∈ xs, isFailure passes x) ∧ ∀ x ∈ xs, ¬ isPass passes x := by
  induction xs generalizing lastErr with
  | nil => simp [pendingErr]
  | cons x xs ih =>
    rcases hp : passes x with e | b
    · simp [pendingErr, isPass, isFailure, hp, ih]
    · cases b <;> simp [pendingErr, isPass, isFailure, hp, ih]

/-- A pending error is an error of the filter function. -/
theorem pendingErr_mem (e : Err) (h : pendingErr passes lastErr xs = some e) :
    lastErr = some e ∨ ∃ x ∈ xs, passes x = .error e := by
  induction xs generalizing lastErr with
  | nil => exact .inl h
  | cons x xs ih =>
    rcases hp : passes x with e' | b
    · simp only [pendingErr, hp] at h
      rcases ih (some e') h with he | ⟨y, hy, hye⟩
      · exact .inr ⟨x, by simp, by rw [hp, Option.some.inj he]⟩
      · exact .inr ⟨y, by simp [hy], hye⟩
    · cases b
      · simp only [pendingErr, hp] at h
        rcases ih lastErr h with he | ⟨y, hy, hye⟩
        · exact .inl he
        · exact .inr ⟨y, by simp [hy], hye⟩
      · simp [pendingErr, hp] at h

end

/-! ### Channels of iterators -/

/-- `iterator.Msg`: an iterator or an error. -/
inductive Msg (α : Type) where
  | iter (t : Trace α)
  | err (e : Err)

/-- The part of an iterator that the reader of a channel sees: a cancellation ends
it like `ErrIteratorDone`. -/
def untilCancelled : Trace α → Trace α
  | [] => []
  | .ok v :: rest => .ok v :: untilCancelled rest
  | .error e :: rest => if e.isCancelled then [] else .error e :: untilCancelled rest

/-- `channelIterator.Next`, call after call, over the messages of a channel that is
closed after the last one. -/
def fromChannel : List (Msg α) → Trace α
  | [] => []
  | .iter t :: rest => untilCancelled t ++ fromChannel rest
  | .err e :: rest => .error e :: fromChannel rest

theorem untilCancelled_streamTrace (xs : List α) (e : Option Err)
    (he : ∀ e' ∈ e, e'.isCancelled = false) :
    untilCancelled (streamTrace xs e) = streamTrace xs e := by
  induction xs with
  | nil =>
    cases e with
    | none => rfl
    | some e => simp [untilCancelled, he e rfl]
  | cons x xs ih => simp [untilCancelled, ih]

@[simp] theorem fromChannel_append (xs ys : List (Msg α)) :
    fromChannel (xs ++ ys) = fromChannel xs ++ fromChannel ys := by
  induction xs with
  | nil => rfl
  | cons m xs ih => cases m <;> simp [fromChannel, ih]

/-! ### The batcher -/

/-- `IteratorMinBatchThreshold`. -/
def iteratorMinBatchThreshold : ℕ := 100

/-- `batcher`: the values not yet sent and the messages already sent. -/
structure Batcher (α : Type) where
  items : List α
  out : List (Msg α)

section Batcher

/-- `newBatcher`. -/
def newBatcher : Batcher α := ⟨[], []⟩

variable (b : Batcher α)

/-- `flush`. -/
def Batcher.flush : Batcher α :=
  if b.items.length > 0 then ⟨[], b.out ++ [.iter (okTrace b.items)]⟩ else b

/-- `add`: the zero value (the empty string) is never added. -/
def Batcher.add [DecidableEq α] [Inhabited α] (b : Batcher α) (val : α) : Batcher α :=
  if val = default then b
  else
    let b' : Batcher α := ⟨b.items ++ [val], b.out⟩
    if b'.items.length ≥ iteratorMinBatchThreshold then b'.flush else b'

/-- `close`: what is left, then the error unless it is a cancellation. -/
def Batcher.close (err : Option Err) : List (Msg α) :=
  b.flush.out ++
    match err with
    | some e => if e.isCancelled then [] else [.err e]
    | none => []

/-- Everything added so far, sent or not. -/
def Batcher.trace : Trace α := fromChannel b.out ++ okTrace b.items

@[simp] theorem newBatcher_trace : (newBatcher : Batcher α).trace = [] := rfl

theorem untilCancelled_ok (xs : List α) : untilCancelled (okTrace xs) = okTrace xs := by
  simpa using untilCancelled_streamTrace xs none (by simp)

theorem Batcher.flush_trace : b.flush.trace = b.trace := by
  unfold Batcher.flush
  split
  · simp [Batcher.trace, fromChannel, untilCancelled_ok]
  · rfl

theorem Batcher.flush_items : b.flush.items = [] := by
  unfold Batcher.flush
  split
  · rfl
  · exact length_eq_zero_iff.mp (by omega)

/-- **One more value.** -/
theorem Batcher.add_trace [DecidableEq α] [Inhabited α] (b : Batcher α) (val : α)
    (h : val ≠ default) : (b.add val).trace = b.trace ++ [.ok val] := by
  simp only [Batcher.add, if_neg h]
  split
  · rw [Batcher.flush_trace]
    simp [Batcher.trace, okTrace]
  · simp [Batcher.trace, okTrace]

/-- **Batching changes nothing about what is sent**: the values added, then the error. -/
theorem Batcher.fromChannel_close (err : Option Err) (he : ∀ e ∈ err, e.isCancelled = false) :
    fromChannel (b.close err) = b.trace ++ streamTrace [] err := by
  have hflush : fromChannel b.flush.out = b.trace := by
    rw [← Batcher.flush_trace b, Batcher.trace, Batcher.flush_items]
    simp
  cases err with
  | none => simp [Batcher.close, hflush]
  | some e => simp [Batcher.close, hflush, he e rfl, fromChannel]

end Batcher

/-! ### Sorted streams -/

section SortedStream

variable [LinearOrder α] [Inhabited α]

/-- Sorted non-zero values, then at most one error, which is no cancellation. -/
structure SortedStream (xs : List α) (e : Option Err) : Prop where
  sorted : xs.Pairwise (· ≤ ·)
  nonzero : ∀ x ∈ xs, x ≠ default
  proper : ∀ e' ∈ e, e'.isCancelled = false

theorem SortedStream.tail {v : α} {xs : List α} {e : Option Err}
    (h : SortedStream (v :: xs) e) : SortedStream xs e where
  sorted := (pairwise_cons.mp h.sorted).2
  nonzero := fun x hx => h.nonzero x (mem_cons_of_mem v hx)
  proper := h.proper

end SortedStream

end Kengen
