import Kengen.Typesystem.Rewrites
import Kengen.Graph.Evidence

/-!
# From tuple iterators to dispatched checks

The producers of the default resolvers walk through a tuple iterator and send a message for
each tuple.  The iterator is the datastore's, filtered by the conditions of the tuples: an
evaluation error is returned at the end, and only if no tuple was valid.

* `Returns` — what a datastore read may return: the tuples in any order, or some of them and
  then an error.
* `produceDispatches` — the loop of `produceUsersetDispatches` and `produceTTUDispatches`.  An
  error that looks like a cancellation ends it like the end of the data.
* `readFormula` — the formula of a read: one disjunct for each tuple.
* **`produceDispatches_messagesOf`** — the messages of a read are those of its formula, unless the
  datastore raises an error that looks like a cancellation.
-/

namespace Kengen.Graph

open Decisions List

variable {Goal : Type}

/-! ### Reads and the producers -/

/-- What a read of `tuples` may return, if the datastore may raise the errors `fails`. -/
def Returns (fails : Err → Prop) (tuples : List TupleKey) (trace : Trace TupleKey) : Prop :=
  ∃ (l : List TupleKey) (e : Option Err), trace = streamTrace l e ∧ (∀ t ∈ l, t ∈ tuples)
    ∧ (e = none → ∀ t ∈ tuples, t ∈ l) ∧ ∀ e', e = some e' → fails e'

/-- The loop of the producers; `message` is what is sent for a tuple, if anything. -/
def produceDispatches (message : TupleKey → Option (DispatchMsg Goal)) :
    Trace TupleKey → List (DispatchMsg Goal)
  | [] => []
  | .error e :: _ => if e.isCancelled then [] else [.err e]
  | .ok t :: rest =>
    match message t with
    | none => produceDispatches message rest
    | some .shortCircuit => [.shortCircuit]
    | some m => m :: produceDispatches message rest

/-- The condition filter of an environment. -/
def filtered (env : Environment) (trace : Trace TupleKey) : Trace TupleKey :=
  filterTrace env.conditionMet none false trace

/-- The formula of one tuple of a read.  A tuple whose condition fails counts for nothing if some
tuple of the read is valid, and leaves the answer open otherwise. -/
def tupleFormula (env : Environment) (message : TupleKey → Option (DispatchMsg Goal))
    (tuples : List TupleKey) (t : TupleKey) : Formula Goal :=
  match env.conditionMet t with
  | .ok true => ((message t).map DispatchMsg.formula).getD (.value (some false))
  | .ok false => .value (some false)
  | .error _ => if tuples.any (isPass env.conditionMet) then .value (some false) else .value none

/-- The formula of a read. -/
def readFormula (env : Environment) (message : TupleKey → Option (DispatchMsg Goal))
    (tuples : List TupleKey) : Formula Goal :=
  .any fun i : Fin tuples.length => tupleFormula env message tuples (tuples.get i)

/-! ### The condition filter -/

section Filter

variable {α : Type} {passes : α → Except Err Bool}

variable {lastErr : Option Err} {onceValid : Bool}

/-- The errors and the valid entries of an iterator. -/
def kept (passes : α → Except Err Bool) : Except Err α → Bool
  | .error _ => true
  | .ok x => isPass passes x

theorem isPass_iff {x : α} : isPass passes x = true ↔ passes x = .ok true := by
  rcases h : passes x with e | b <;> simp [isPass, h]

/-- **What a filtered iterator returns**: the errors and the valid entries of the iterator, and then
an error of the filter, unless an entry was valid or no condition failed. -/
theorem filterTrace_eq (passes : α → Except Err Bool) (lastErr : Option Err) (onceValid : Bool)
    (trace : Trace α) :
    ∃ final : Option Err, filterTrace passes lastErr onceValid trace
        = trace.filter (kept passes) ++ final.toList.map .error
      ∧ (final = none ↔ onceValid = true ∨ (∃ x, .ok x ∈ trace ∧ passes x = .ok true)
        ∨ lastErr = none ∧ ∀ x, .ok x ∈ trace → ∀ e, passes x ≠ .error e)
      ∧ ∀ e, final = some e → lastErr = some e ∨ ∃ x, passes x = .error e := by
  induction trace generalizing lastErr onceValid with
  | nil =>
    rcases onceValid with _ | _ <;> rcases lastErr with _ | e
    · exact ⟨none, by simp [filterTrace]⟩
    · exact ⟨some e, by simp [filterTrace]⟩
    · exact ⟨none, by simp [filterTrace]⟩
    · exact ⟨none, by simp [filterTrace]⟩
  | cons r rest ih =>
    rcases r with e | y
    · obtain ⟨final, heq, hnone, hsome⟩ := ih lastErr onceValid
      exact ⟨final, by rw [filterTrace, heq]; rfl, by simpa using hnone, hsome⟩
    rcases hp : passes y with e | _ | _
    · obtain ⟨final, heq, hnone, hsome⟩ := ih (some e) onceValid
      refine ⟨final, by simp [filterTrace, hp, kept, isPass, heq], ?_, fun e' he' => ?_⟩
      · simp [hnone, hp, or_and_right, exists_or, or_imp, forall_and]
      · rcases hsome e' he' with h | h
        · exact .inr ⟨y, by rw [hp, Option.some.inj h]⟩
        · exact .inr h
    · obtain ⟨final, heq, hnone, hsome⟩ := ih lastErr onceValid
      refine ⟨final, by simp [filterTrace, hp, kept, isPass, heq], ?_, hsome⟩
      simp [hnone, hp, or_and_right, exists_or, or_imp, forall_and]
    · obtain ⟨final, heq, hnone, hsome⟩ := ih lastErr true
      refine ⟨final, by simp [filterTrace, hp, kept, isPass, heq], ?_, hsome⟩
      simp [hnone, hp, or_and_right, exists_or]

variable {trace : Trace α}

theorem mem_filterTrace {x : α} :
    .ok x ∈ filterTrace passes lastErr onceValid trace ↔ .ok x ∈ trace ∧ passes x = .ok true := by
  obtain ⟨_, heq, -⟩ := filterTrace_eq passes lastErr onceValid trace
  simp [heq, kept, isPass_iff]

/-- The errors of a filtered iterator are the iterator's own or those of the filter. -/
theorem error_of_filterTrace {e : Err}
    (h : .error e ∈ filterTrace passes lastErr onceValid trace) :
    .error e ∈ trace ∨ lastErr = some e ∨ ∃ x, passes x = .error e := by
  obtain ⟨_, heq, -, hsome⟩ := filterTrace_eq passes lastErr onceValid trace
  rw [heq, mem_append] at h
  rcases h with h | h
  · exact .inl (mem_filter.mp h).1
  · exact .inr (hsome e (by simpa using h))

/-- **A filtered iterator without an error**: the iterator had none, and if the filter failed then
some entry was valid. -/
theorem filterTrace_clean :
    (∀ e, .error e ∉ filterTrace passes lastErr onceValid trace)
      ↔ (∀ e, .error e ∉ trace) ∧ (onceValid = true ∨ (∃ x, .ok x ∈ trace ∧ passes x = .ok true)
        ∨ lastErr = none ∧ ∀ x, .ok x ∈ trace → ∀ e, passes x ≠ .error e) := by
  obtain ⟨_, heq, hnone, -⟩ := filterTrace_eq passes lastErr onceValid trace
  rw [← hnone, heq]
  simp [kept, forall_and, Option.eq_none_iff_forall_ne_some]

end Filter

/-! ### The messages -/

section Messages

variable {message : TupleKey → Option (DispatchMsg Goal)} {t : TupleKey} {rest : Trace TupleKey}

theorem produceDispatches_skip (h : message t = none) :
    produceDispatches message (.ok t :: rest) = produceDispatches message rest := by
  simp [produceDispatches, h]

theorem produceDispatches_stop (h : message t = some .shortCircuit) :
    produceDispatches message (.ok t :: rest) = [.shortCircuit] := by
  simp [produceDispatches, h]

theorem produceDispatches_send {m : DispatchMsg Goal} (h : message t = some m)
    (hm : m ≠ .shortCircuit) :
    produceDispatches message (.ok t :: rest) = m :: produceDispatches message rest := by
  cases m with
  | err e | dispatchParams g => simp [produceDispatches, h]
  | shortCircuit => exact absurd rfl hm

variable {trace : Trace TupleKey}

/-- A message is an error of the iterator or that of a tuple. -/
theorem mem_produceDispatches {m : DispatchMsg Goal} (h : m ∈ produceDispatches message trace) :
    (∃ e, .error e ∈ trace ∧ m = .err e) ∨ ∃ t, .ok t ∈ trace ∧ message t = some m := by
  induction trace with
  | nil => exact absurd h not_mem_nil
  | cons r rest ih =>
    have hrest : m ∈ produceDispatches message rest → (∃ e, .error e ∈ r :: rest ∧ m = .err e)
        ∨ ∃ t, .ok t ∈ r :: rest ∧ message t = some m := by
      intro h
      rcases ih h with ⟨e, he, hm⟩ | ⟨t, ht, hm⟩
      · exact .inl ⟨e, mem_cons_of_mem _ he, hm⟩
      · exact .inr ⟨t, mem_cons_of_mem _ ht, hm⟩
    rcases r with e | t
    · simp only [produceDispatches] at h
      split at h
      · exact absurd h not_mem_nil
      · exact .inl ⟨e, mem_cons_self, mem_singleton.mp h⟩
    rcases hm : message t with _ | m'
    · rw [produceDispatches_skip hm] at h
      exact hrest h
    · by_cases hstop : m' = .shortCircuit
      · subst hstop
        rw [produceDispatches_stop hm] at h
        exact .inr ⟨t, mem_cons_self, by rw [hm, mem_singleton.mp h]⟩
      · rw [produceDispatches_send hm hstop] at h
        rcases mem_cons.mp h with rfl | h
        · exact .inr ⟨t, mem_cons_self, hm⟩
        · exact hrest h

/-- **Without an error message and a short circuit nothing is left out**, if no error looks like a
cancellation. -/
theorem produceDispatches_complete (hcancelled : ∀ e, .error e ∈ trace → e.isCancelled = false)
    (herr : ∀ e, .err e ∉ produceDispatches message trace)
    (hshort : .shortCircuit ∉ produceDispatches message trace) :
    (∀ e, .error e ∉ trace)
      ∧ ∀ t, .ok t ∈ trace → ∀ m, message t = some m → m ∈ produceDispatches message trace := by
  induction trace with
  | nil => exact ⟨fun e => not_mem_nil, fun t ht => absurd ht not_mem_nil⟩
  | cons r rest ih =>
    rcases r with e | t
    · have he := hcancelled e mem_cons_self
      exact absurd (by simp [produceDispatches, he]) (herr e)
    · have hrest := ih fun e he => hcancelled e (mem_cons_of_mem _ he)
      have hno : (∀ e, .error e ∉ rest) → ∀ e, .error e ∉ (.ok t :: rest : Trace TupleKey) := by
        intro h e he
        rcases mem_cons.mp he with heq | he
        · cases heq
        · exact h e he
      rcases hm : message t with _ | m'
      · rw [produceDispatches_skip hm] at herr hshort ⊢
        obtain ⟨hclean, hmem⟩ := hrest herr hshort
        refine ⟨hno hclean, fun t' ht' m hm' => ?_⟩
        rcases mem_cons.mp ht' with heq | ht'
        · cases heq
          rw [hm] at hm'
          cases hm'
        · exact hmem t' ht' m hm'
      · by_cases hstop : m' = .shortCircuit
        · subst hstop
          rw [produceDispatches_stop hm] at hshort
          exact absurd mem_cons_self hshort
        · rw [produceDispatches_send hm hstop] at herr hshort ⊢
          obtain ⟨hclean, hmem⟩ := hrest (fun e he => herr e (mem_cons_of_mem _ he))
            fun h => hshort (mem_cons_of_mem _ h)
          refine ⟨hno hclean, fun t' ht' m hm'' => ?_⟩
          rcases mem_cons.mp ht' with heq | ht'
          · cases heq
            rw [hm] at hm''
            rw [Option.some.inj hm'']
            exact mem_cons_self
          · exact mem_cons_of_mem _ (hmem t' ht' m hm'')

end Messages

/-! ### The messages of a read -/

variable {e : Err} {env : Environment} {t : TupleKey}

theorem conditionMet_not_cancelled (h : env.conditionMet t = .error e) : e.isCancelled = false := by
  simp only [Environment.conditionMet, evaluateTupleCondition] at h
  split_ifs at h
  split at h
  · cases h
  · obtain rfl := Except.error.inj h
    rfl

variable {trace : Trace TupleKey} {fails : Err → Prop} {tuples : List TupleKey}

theorem returns_mem (h : Returns fails tuples trace) (ht : .ok t ∈ trace) : t ∈ tuples := by
  obtain ⟨l, e, rfl, hl, -⟩ := h
  refine hl t ?_
  rcases e with _ | e <;> simpa [streamTrace, okTrace] using ht

theorem returns_error (h : Returns fails tuples trace) (he : .error e ∈ trace) : fails e := by
  obtain ⟨l, e', rfl, -, -, hfails⟩ := h
  rcases e' with _ | e'
  · simp [streamTrace, okTrace] at he
  · obtain rfl : e = e' := by simpa [streamTrace, okTrace] using he
    exact hfails e rfl

/-- A read may return the tuples as they are stored. -/
theorem returns_okTrace (fails : Err → Prop) (tuples : List TupleKey) :
    Returns fails tuples (okTrace tuples) :=
  ⟨tuples, none, by simp, fun _ ht => ht, fun _ _ ht => ht, fun _ h => nomatch h⟩

/-- A read without an error has returned all tuples. -/
theorem returns_all (h : Returns fails tuples trace) (hclean : ∀ e, .error e ∉ trace)
    (ht : t ∈ tuples) : .ok t ∈ trace := by
  obtain ⟨l, e, rfl, -, hall, -⟩ := h
  rcases e with _ | e
  · simpa [okTrace] using hall rfl t ht
  · exact absurd (by simp [streamTrace]) (hclean e)

/-- The errors of a filtered read. -/
theorem filtered_not_cancelled (hfails : ∀ e, fails e → e.isCancelled = false)
    (h : Returns fails tuples trace) (he : .error e ∈ filtered env trace) :
    e.isCancelled = false := by
  rcases error_of_filterTrace he with he | he | ⟨t, ht⟩
  · exact hfails e (returns_error h he)
  · cases he
  · exact conditionMet_not_cancelled ht

/-- A filtered read without an error: all valid tuples are there, and if a condition failed then
some tuple is valid. -/
theorem filtered_clean (h : Returns fails tuples trace)
    (hclean : ∀ e, .error e ∉ filtered env trace) :
    (∀ t ∈ tuples, env.conditionMet t = .ok true → .ok t ∈ filtered env trace)
      ∧ ((∃ t ∈ tuples, env.conditionMet t = .ok true)
        ∨ ∀ t ∈ tuples, ∀ e, env.conditionMet t ≠ .error e) := by
  obtain ⟨hno, hvalid⟩ := filterTrace_clean.mp hclean
  refine ⟨fun t ht hpass => mem_filterTrace.mpr ⟨returns_all h hno ht, hpass⟩, ?_⟩
  rcases hvalid with hvalid | ⟨t, ht, hpass⟩ | ⟨-, hnofail⟩
  · cases hvalid
  · exact .inl ⟨t, returns_mem h ht, hpass⟩
  · exact .inr fun t ht => hnofail t (returns_all h hno ht)

/-- A filtered read without an entry: every condition is false. -/
theorem filtered_empty (h : Returns fails tuples trace) (hempty : filtered env trace = []) :
    ∀ t ∈ tuples, env.conditionMet t = .ok false := by
  have hclean : ∀ e, .error e ∉ filtered env trace := by simp [hempty]
  obtain ⟨hvalid, hfailed⟩ := filtered_clean h hclean
  have hpass : ∀ t ∈ tuples, env.conditionMet t ≠ .ok true := by
    intro t ht hmet
    simpa [hempty] using hvalid t ht hmet
  have hno := hfailed.resolve_left fun ⟨t, ht, hmet⟩ => hpass t ht hmet
  intro t ht
  rcases hmet : env.conditionMet t with e | _ | _
  · exact absurd hmet (hno t ht e)
  · rfl
  · exact absurd hmet (hpass t ht)

/-- **The messages of a read are those of its formula.** -/
theorem produceDispatches_messagesOf (message : TupleKey → Option (DispatchMsg Goal))
    (hfails : ∀ e, fails e → e.isCancelled = false) (h : Returns fails tuples trace) :
    MessagesOf (fun i : Fin tuples.length => tupleFormula env message tuples (tuples.get i))
      (produceDispatches message (filtered env trace)) := by
  refine ⟨fun m hm => ?_, fun herr hshort i => ?_⟩
  · refine (mem_produceDispatches hm).imp (fun ⟨e, _, he⟩ => ⟨e, he⟩) ?_
    rintro ⟨t, ht, hmessage⟩
    obtain ⟨htrace, hpass⟩ := mem_filterTrace.mp ht
    obtain ⟨i, hi⟩ := get_of_mem (returns_mem h htrace)
    refine ⟨i, ?_⟩
    show tupleFormula env message tuples (tuples.get i) = m.formula
    rw [hi, tupleFormula, hpass, hmessage]
    rfl
  · obtain ⟨hclean, hmem⟩ := produceDispatches_complete
      (fun e he => filtered_not_cancelled hfails h he) herr hshort
    obtain ⟨hvalid, hfailed⟩ := filtered_clean h hclean
    have hi := get_mem tuples i
    show tupleFormula env message tuples (tuples.get i) = .value (some false)
      ∨ ∃ g, tupleFormula env message tuples (tuples.get i) = .goal g ∧ _
    generalize tuples.get i = t at hi ⊢
    rcases hc : env.conditionMet t with e | b
    · left
      rcases hfailed with ⟨t', ht', hpass⟩ | hno
      · have hany : tuples.any (isPass env.conditionMet) = true :=
          any_eq_true.mpr ⟨t', ht', by simp [isPass, hpass]⟩
        simp [tupleFormula, hc, hany]
      · exact absurd hc (hno t hi e)
    · cases b with
      | false =>
        left
        simp [tupleFormula, hc]
      | true =>
        rcases hm : message t with _ | m
        · left
          simp [tupleFormula, hc, hm]
        · have hout := hmem t (hvalid t hi hc) m hm
          cases m with
          | err e => exact absurd hout (herr e)
          | shortCircuit => exact absurd hout hshort
          | dispatchParams g =>
            refine .inr ⟨g, ?_, hout⟩
            simp [tupleFormula, hc, hm, DispatchMsg.formula]

end Kengen.Graph
