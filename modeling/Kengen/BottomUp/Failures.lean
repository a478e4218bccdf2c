import Kengen.BottomUp.Cuts
import Kengen.BottomUp.Resolve

/-!
# Set operations over reads that fail

The bottom-up evaluation is a tree: at its leaves are iterators over what the
datastore returns, its inner nodes are set operations.  A read may fail after any
number of values.  A failure that is not a cancellation is passed on; one that
wraps `context.Canceled` or `context.DeadlineExceeded` is taken for the end of the
data, even if it comes from the datastore itself.

* **`Operand.inOrder_cut`** — when the trace of a tree is a cut of what the tree lists: all its
  failures are passed on, and none of them is below a union.
* **`Operand.reported_honest`** — when a tree lists nothing wrong and leaves out something only with
  an error at the end.
* **`mem_difference_iff`** — what a difference lists, for all trees: the objects that its base lists
  more often than its subtrahend, up to where the subtrahend fails.
* **`difference_mem`** — what a difference lists is in its base and not in its subtrahend.

A union goes on after a failure of one of its operands, and reports it at its end.
Its values have a gap until then, which a difference or an intersection above it
does not see.
-/

namespace Kengen

open List

variable {α : Type} [LinearOrder α] [Inhabited α]

/-- A tree of set operations.  A read has the values it lists in full, and possibly a failure: the
number of values before it and the error. -/
inductive Operand (α : Type) where
  | read (xs : List α) (failure : Option (ℕ × Err))
  | union {n : ℕ} (ops : Fin n → Operand α)
  | intersection {n : ℕ} (ops : Fin n → Operand α)
  | difference (base sub : Operand α)

/-- What the calls of `Next` on a read return. -/
def readTrace (xs : List α) : Option (ℕ × Err) → Trace α
  | none => okTrace xs
  | some (k, e) => streamTrace (xs.take k) (some e)

/-- What an operand sends. -/
def Operand.messages : Operand α → List (Msg α)
  | .read xs failure => [.iter (readTrace xs failure)]
  | .union ops => resolveUnion (List.ofFn fun i => fromChannel (ops i).messages)
  | .intersection ops => resolveIntersection (List.ofFn fun i => fromChannel (ops i).messages)
  | .difference base sub => resolveDifference [fromChannel base.messages, fromChannel sub.messages]

variable (op : Operand α)

/-- The iterator of an operand, as the operation above reads it. -/
def Operand.trace : Trace α := fromChannel op.messages

omit [LinearOrder α] [Inhabited α] in
/-- What an operand stands for, had nothing failed. -/
def Operand.Member (o : α) : Operand α → Prop
  | .read xs _ => o ∈ xs
  | .union ops => ∃ i, (ops i).Member o
  | @Operand.intersection _ n ops => 0 < n ∧ ∀ i, (ops i).Member o
  | .difference base sub => base.Member o ∧ ¬ sub.Member o

/-- The reads list their values in order, possibly repeated. -/
def Operand.Sorted : Operand α → Prop
  | .read xs _ => xs.Pairwise (· ≤ ·) ∧ ∀ x ∈ xs, x ≠ default
  | .union ops => ∀ i, (ops i).Sorted
  | .intersection ops => ∀ i, (ops i).Sorted
  | .difference base sub => base.Sorted ∧ sub.Sorted

/-- The reads list their values in order, none of them twice. -/
def Operand.Strict : Operand α → Prop
  | .read xs _ => xs.Pairwise (· < ·) ∧ ∀ x ∈ xs, x ≠ default
  | .union ops => ∀ i, (ops i).Strict
  | .intersection ops => ∀ i, (ops i).Strict
  | .difference base sub => base.Strict ∧ sub.Strict

/-- No read fails. -/
def Operand.Complete : Operand α → Prop
  | .read _ failure => failure = none
  | .union ops => ∀ i, (ops i).Complete
  | .intersection ops => ∀ i, (ops i).Complete
  | .difference base sub => base.Complete ∧ sub.Complete

/-- The reads fail with errors that are passed on, and not below a union. -/
def Operand.InOrder : Operand α → Prop
  | .read _ failure => ∀ f ∈ failure, f.2.isCancelled = false
  | .union ops => ∀ i, (ops i).Complete
  | .intersection ops => ∀ i, (ops i).InOrder
  | .difference base sub => base.InOrder ∧ sub.InOrder

/-- The reads fail with errors that are passed on.  A failing read may be below a union, unless that
union is itself below an intersection or in a subtrahend. -/
def Operand.Reported : Operand α → Prop
  | .read _ failure => ∀ f ∈ failure, f.2.isCancelled = false
  | .union ops => ∀ i, (ops i).Reported
  | .intersection ops => ∀ i, (ops i).InOrder
  | .difference base sub => base.Reported ∧ sub.InOrder

variable {xs : List α}

/-! ### All trees -/

omit [LinearOrder α] [Inhabited α] in
/-- A cancellation is cut off. -/
theorem untilCancelled_stream (xs : List α) (e : Option Err) :
    ∃ e', untilCancelled (streamTrace xs e) = streamTrace xs e'
      ∧ ∀ err ∈ e', err.isCancelled = false := by
  by_cases he : ∀ err ∈ e, err.isCancelled = false
  · exact ⟨e, untilCancelled_streamTrace xs e he, he⟩
  · obtain ⟨err, rfl, hcancelled⟩ : ∃ err, e = some err ∧ err.isCancelled = true := by
      simpa [Option.mem_def] using he
    refine ⟨none, ?_, by simp⟩
    induction xs with
    | nil => simp [untilCancelled, hcancelled]
    | cons x xs ih =>
      simp only [streamTrace_cons, untilCancelled]
      rw [ih]

variable {n : ℕ} {ts : Fin n → Trace α}

omit [LinearOrder α] [Inhabited α] in
theorem ofFn_streams {xs : Fin n → List α} {es : Fin n → Option Err}
    (hts : ∀ i, ts i = streamTrace (xs i) (es i)) :
    ofFn ts = (ofFn fun i => (xs i, es i)).map fun p => streamTrace p.1 p.2 := by
  rw [map_ofFn]
  exact congrArg ofFn (funext hts)

/-- **The trace of a tree is a sorted stream**, whichever of its reads fail. -/
theorem Operand.stream {op : Operand α} (h : op.Sorted) :
    ∃ xs e, op.trace = streamTrace xs e ∧ SortedStream xs e := by
  induction op with
  | read xs failure =>
    obtain ⟨ys, e, hread, hsub⟩ : ∃ ys e, readTrace xs failure = streamTrace ys e
        ∧ ys.Sublist xs := by
      rcases failure with _ | ⟨k, e⟩
      · exact ⟨xs, none, (streamTrace_none xs).symm, .refl xs⟩
      · exact ⟨_, _, rfl, take_sublist k xs⟩
    obtain ⟨e', hcut, hproper⟩ := untilCancelled_stream ys e
    refine ⟨ys, e', ?_, h.1.sublist hsub, fun x hx => h.2 x (hsub.mem hx), hproper⟩
    simp [Operand.trace, Operand.messages, fromChannel, hread, hcut]
  | union ops ih =>
    choose xs es htrace hstream using fun i => ih i (h i)
    have hout : (Operand.union ops).trace
        = fromChannel (resolveUnion (ofFn fun i => (ops i).trace)) := rfl
    rw [hout, ofFn_streams htrace]
    exact resolveUnion_isStream _ (forall_mem_ofFn_iff.mpr hstream)
  | intersection ops ih =>
    choose xs es htrace hstream using fun i => ih i (h i)
    have hout : (Operand.intersection ops).trace
        = fromChannel (resolveIntersection (ofFn fun i => (ops i).trace)) := rfl
    rw [hout, ofFn_streams htrace]
    exact resolveIntersection_isStream _ (forall_mem_ofFn_iff.mpr hstream)
  | difference base sub ihBase ihSub =>
    obtain ⟨xs, e, htrace, hxs⟩ := ihBase h.1
    obtain ⟨ys, e', htrace', hys⟩ := ihSub h.2
    have hout : (Operand.difference base sub).trace
        = fromChannel (resolveDifference [base.trace, sub.trace]) := rfl
    rw [hout, htrace, htrace']
    exact resolveDifference_isStream [(xs, e), (ys, e')] (by simp [hxs, hys])

omit [Inhabited α] in
/-- One iterator yields the object more often than another one; if that one ends in an error, then
it has passed the object. -/
def Outnumbers (base sub : Trace α) (o : α) : Prop :=
  (traceValues sub).count o < (traceValues base).count o
    ∧ (traceError sub ≠ none → ∃ p ∈ traceValues sub, o < p)

/-- **What a difference lists**, in terms of the iterators that it reads: the objects that the base
yields more often than the subtrahend. -/
theorem mem_difference_iff {base sub : Operand α} (hbase : base.Sorted) (hsub : sub.Sorted) (o : α) :
    o ∈ traceValues (Operand.difference base sub).trace ↔ Outnumbers base.trace sub.trace o := by
  obtain ⟨xs, e, htrace, hxs⟩ := Operand.stream hbase
  obtain ⟨ys, e', htrace', hys⟩ := Operand.stream hsub
  obtain ⟨zs, err, heq, -, hcount, -⟩ := resolveDifference_spec xs ys e e' hxs hys
  rw [nil_append, ← htrace, ← htrace'] at heq
  have hout : (Operand.difference base sub).trace = streamTrace zs err := heq
  rw [hout, htrace, htrace', ← count_pos_iff, Outnumbers]
  simp only [traceValues_streamTrace, traceError_streamTrace, hcount o, SortedList.differenceCount]
  by_cases hpassed : e'.isSome ∧ ∀ p ∈ ys, p ≤ o
  · obtain ⟨hsome, hle⟩ := hpassed
    simp only [if_pos (And.intro hsome hle), lt_irrefl, false_iff, not_and]
    intro _ hbelow
    obtain ⟨p, hp, hlt⟩ := hbelow (Option.isSome_iff_ne_none.mp hsome)
    exact absurd (hle p hp) (not_le.mpr hlt)
  · rw [if_neg hpassed, Nat.sub_pos_iff_lt]
    refine ⟨fun hlt => ⟨hlt, fun hsome => ?_⟩, And.left⟩
    simpa using (not_and.mp hpassed (Option.isSome_iff_ne_none.mpr hsome))

/-! ### Trees without failures -/

omit [LinearOrder α] [Inhabited α] in
theorem trace_read_none (xs : List α) : fromChannel [.iter (readTrace xs none)] = okTrace xs := by
  simp [readTrace, fromChannel, untilCancelled_ok]

/-- A union of streams without repetition. -/
theorem resolveUnion_strict {xs : Fin n → List α}
    {es : Fin n → Option Err} (hts : ∀ i, ts i = streamTrace (xs i) (es i))
    (hxs : ∀ i, StrictValues (xs i)) (hproper : ∀ i, ∀ e ∈ es i, e.isCancelled = false) :
    ∃ zs err, fromChannel (resolveUnion (List.ofFn ts)) = streamTrace zs err ∧ StrictValues zs
      ∧ (∀ e ∈ err, e.isCancelled = false) ∧ (∀ o, o ∈ zs ↔ ∃ i, o ∈ xs i)
      ∧ (err.isSome ↔ ∃ i, (es i).isSome) := by
  rw [ofFn_streams hts]
  obtain ⟨zs, err, heq, hstream, hmem, hcount, -, herr⟩ :=
    resolveUnion_spec (List.ofFn fun i => (xs i, es i)) (forall_mem_ofFn_iff.mpr fun i =>
      ⟨(hxs i).sorted, (hxs i).nonzero, hproper i⟩)
  refine ⟨zs, err, heq, ⟨⟨hstream.sorted, hstream.nonzero, by simp⟩, ?_⟩, hstream.proper, ?_, ?_⟩
  · exact nodup_iff_count_le_one.mpr fun o => hcount o 1 (forall_mem_ofFn_iff.mpr fun i =>
      nodup_iff_count_le_one.mp (hxs i).nodup o)
  · intro o
    rw [hmem o]
    simp [mem_ofFn]
  · rw [herr]
    simp [mem_ofFn]

omit [LinearOrder α] [Inhabited α] in
theorem trace_read (xs : List α) (failure : Option (ℕ × Err))
    (hproper : ∀ f ∈ failure, f.2.isCancelled = false) :
    Cut (fromChannel [.iter (readTrace xs failure)]) xs := by
  cases failure with
  | none =>
    rw [trace_read_none]
    exact cut_okTrace xs
  | some f =>
    obtain ⟨k, e⟩ := f
    have he : e.isCancelled = false := hproper (k, e) rfl
    have htrace : fromChannel [.iter (readTrace xs (some (k, e)))]
        = streamTrace (xs.take k) (some e) := by
      simp only [fromChannel, readTrace, append_nil]
      exact untilCancelled_streamTrace _ _ (by simpa using he)
    rw [htrace]
    exact cut_streamTrace ⟨xs.drop k, take_append_drop k xs⟩ (by simp) (by simpa using he)

/-! ### Trees with failures -/

omit [LinearOrder α] [Inhabited α] in
theorem Operand.Complete.inOrder {op : Operand α} (h : op.Complete) : op.InOrder := by
  induction op with
  | read xs failure =>
    obtain rfl : failure = none := h
    exact nofun
  | union => exact h
  | intersection ops ih => exact fun i => ih i (h i)
  | difference base sub ihBase ihSub => exact ⟨ihBase h.1, ihSub h.2⟩

/-- **A tree that fails in order is a cut** of what it stands for, and all of it if nothing fails. -/
theorem Operand.inOrder_cut (hstrict : op.Strict) (horder : op.InOrder) :
    ∃ xs, Cut op.trace xs ∧ (op.Complete → traceError op.trace = none) ∧ StrictValues xs
      ∧ ∀ o, o ∈ xs ↔ op.Member o := by
  induction op with
  | read xs failure =>
    refine ⟨xs, trace_read xs failure horder, fun hcomplete => ?_,
      strictValues_of_lt hstrict.1 hstrict.2, fun o => Iff.rfl⟩
    obtain rfl : failure = none := hcomplete
    rw [Operand.trace, Operand.messages, trace_read_none, ← streamTrace_none, traceError_streamTrace]
  | @union n ops ih =>
    choose xs hcut hnone hxs hmem using fun i => ih i (hstrict i) (horder i).inOrder
    have hstream : ∀ i, (ops i).trace = streamTrace (xs i) ((fun _ => none : Fin n → Option Err) i) :=
      fun i => ((hcut i).eq_okTrace (hnone i (horder i))).trans (streamTrace_none _).symm
    obtain ⟨zs, err, heq, hzs, -, hzsMem, herr⟩ := resolveUnion_strict hstream hxs (by simp)
    obtain rfl : err = none := by simpa using herr
    have htrace : (Operand.union ops).trace = streamTrace zs none := heq
    rw [htrace, traceError_streamTrace, streamTrace_none]
    exact ⟨zs, cut_okTrace zs, fun _ => rfl, hzs, fun o =>
      (hzsMem o).trans (exists_congr fun i => hmem i o)⟩
  | @intersection n ops ih =>
    choose xs hcut hnone hxs hmem using fun i => ih i (hstrict i) (horder i)
    obtain ⟨zs, hzsCut, hzsNone, hzs, hzsMem⟩ := resolveIntersection_cut hcut hxs
    exact ⟨zs, hzsCut, fun hcomplete => hzsNone fun i => hnone i (hcomplete i), hzs, fun o =>
      (hzsMem o).trans (and_congr_right fun _ => forall_congr' fun i => hmem i o)⟩
  | difference base sub ihBase ihSub =>
    obtain ⟨xs, hcut, hnone, hxs, hmem⟩ := ihBase hstrict.1 horder.1
    obtain ⟨ys, hcut', hnone', hys, hmem'⟩ := ihSub hstrict.2 horder.2
    obtain ⟨hzsCut, herr⟩ := resolveDifference_cut hcut hcut' hxs hys
    refine ⟨_, hzsCut, fun hcomplete => ?_, hxs.sublist filter_sublist, fun o => ?_⟩
    · rcases herr with herr | ⟨-, hsome⟩
      · exact herr.trans (hnone hcomplete.1)
      · exact absurd (hnone' hcomplete.2) hsome
    · simp only [mem_filter, decide_eq_true_eq, hmem o, hmem' o]
      rfl

/-- **A tree without failures lists what it stands for.** -/
theorem Operand.complete_trace (hstrict : op.Strict) (hcomplete : op.Complete) :
    ∃ xs, op.trace = okTrace xs ∧ StrictValues xs ∧ ∀ o, o ∈ xs ↔ op.Member o := by
  obtain ⟨xs, hcut, hnone, hxs, hmem⟩ := op.inOrder_cut hstrict hcomplete.inOrder
  exact ⟨xs, hcut.eq_okTrace (hnone hcomplete), hxs, hmem⟩

/-- What a tree lists is right, and complete unless an error follows. -/
def Operand.Honest : Prop :=
  ∃ xs e, op.trace = streamTrace xs e ∧ StrictValues xs ∧ (∀ e' ∈ e, e'.isCancelled = false)
    ∧ (∀ o ∈ xs, op.Member o) ∧ (e = none → ∀ o, op.Member o → o ∈ xs)

theorem Operand.honest_of_cut {op : Operand α} (hcut : Cut op.trace xs)
    (hxs : StrictValues xs) (hmem : ∀ o, o ∈ xs ↔ op.Member o) : op.Honest := by
  obtain ⟨ys, e, htrace, hinit, hall, hproper⟩ := hcut.stream
  refine ⟨ys, e, htrace, hxs.sublist hinit.sublist, hproper, fun o ho => ?_, fun he o ho => ?_⟩
  · exact (hmem o).mp (hinit.subset ho)
  · rw [hall he]
    exact (hmem o).mpr ho

/-- **A tree whose failures are reported is honest.** -/
theorem Operand.reported_honest (hstrict : op.Strict) (hreported : op.Reported) :
    op.Honest := by
  induction op with
  | read xs failure =>
    exact honest_of_cut (trace_read xs failure hreported) (strictValues_of_lt hstrict.1 hstrict.2)
      fun o => Iff.rfl
  | @union n ops ih =>
    choose xs es htrace hxs hproper hmem hall using fun i => ih i (hstrict i) (hreported i)
    obtain ⟨zs, err, heq, hzs, herrProper, hzsMem, herr⟩ := resolveUnion_strict htrace hxs hproper
    refine ⟨zs, err, heq, hzs, herrProper, fun o ho => ?_, fun he o ho => ?_⟩
    · obtain ⟨i, hi⟩ := (hzsMem o).mp ho
      exact ⟨i, hmem i o hi⟩
    · obtain ⟨i, hi⟩ := ho
      have hnone : es i = none := by
        rcases hes : es i with _ | e
        · rfl
        · have hsome := herr.mpr ⟨i, by rw [hes]; rfl⟩
          rw [he] at hsome
          cases hsome
      exact (hzsMem o).mpr ⟨i, hall i hnone o hi⟩
  | @intersection n ops ih =>
    obtain ⟨xs, hcut, -, hxs, hmem⟩ := (Operand.intersection ops).inOrder_cut hstrict hreported
    exact honest_of_cut hcut hxs hmem
  | difference base sub ihBase =>
    obtain ⟨xs, e, htrace, hxs, hproper, hmem, hall⟩ := ihBase hstrict.1 hreported.1
    obtain ⟨ys, hcut', -, hys, hmem'⟩ := sub.inOrder_cut hstrict.2 hreported.2
    have hcut : Cut base.trace xs := htrace ▸ cut_streamTrace (prefix_refl xs) (fun _ => rfl) hproper
    obtain ⟨hzsCut, herr⟩ := resolveDifference_cut hcut hcut' hxs hys
    obtain ⟨ws, e', hout, hinit, hwsAll, hproper'⟩ := hzsCut.stream
    refine ⟨ws, e', hout, (hxs.sublist filter_sublist).sublist hinit.sublist, hproper',
      fun o ho => ?_, fun he o ho => ?_⟩
    · obtain ⟨hox, hoy⟩ := mem_filter.mp (hinit.subset ho)
      exact ⟨hmem o hox, fun h => of_decide_eq_true hoy ((hmem' o).mpr h)⟩
    · -- without an error at the end the base had none either
      have hnone : e = none := by
        rw [hout, htrace, traceError_streamTrace, traceError_streamTrace, he] at herr
        rcases herr with h | ⟨h, hsome⟩
        · exact h.symm
        · exact absurd h.symm hsome
      rw [hwsAll he]
      exact mem_filter.mpr ⟨hall hnone o ho.1, decide_eq_true fun h => ho.2 ((hmem' o).mp h)⟩

/-- **What a difference lists** is in its base and not in its subtrahend. -/
theorem difference_mem {base sub : Operand α} (hstrict : (Operand.difference base sub).Strict)
    (hreported : (Operand.difference base sub).Reported) {o : α}
    (ho : o ∈ traceValues (Operand.difference base sub).trace) :
    base.Member o ∧ ¬ sub.Member o := by
  obtain ⟨xs, e, htrace, -, -, hmem, -⟩ := (Operand.difference base sub).reported_honest hstrict
    hreported
  rw [htrace, traceValues_streamTrace] at ho
  exact hmem o ho

end Kengen
