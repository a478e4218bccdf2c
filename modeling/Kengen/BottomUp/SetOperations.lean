import Kengen.BottomUp.Failures

/-!
# The set operations over channels

`resolveUnion`, `resolveIntersection` and `resolveDifference` of `bottom_up.go` read
iterators that come through channels, in as many messages as their producers like, and
send batches on a channel of their own.  Each of them starts with

    defer func() { batch.close(iters, lastError) }()

so that, whichever `return` it takes, the batcher sends what is left, closes the channel
and stops the iterators.  The `Effect`s of an operation are what others see of it.

* **`fromChannel_splits`** — a channel of static iterators yields their values in turn.
* **`setOperations_exact`** — over strictly ascending inputs, however they are split, each
  operation sends its set in strictly ascending order, closes its channel once and stops
  all inputs.
-/

namespace Kengen

open List

/-- What a set operation does to its output channel and to its inputs. -/
inductive Effect (α : Type) where
  | send (msg : Msg α)
  | closeOut
  | stop (idx : ℕ)

/-- The messages among the effects. -/
def Effect.msg? {α : Type} : Effect α → Option (Msg α)
  | .send msg => some msg
  | _ => none

/-- Whether the output channel is closed. -/
def Effect.isClose {α : Type} : Effect α → Bool
  | .closeOut => true
  | _ => false

/-- The effects of an operation with its deferred `batch.close`. -/
def withClose {α : Type} (resolver : List (Trace α) → List (Msg α)) (iters : List (Trace α)) :
    List (Effect α) :=
  (resolver iters).map .send ++ .closeOut :: (List.range iters.length).map .stop

/-- An input: the iterator over the channel with these messages. -/
def splitIter {α : Type} (splits : List (List α)) : Trace α :=
  fromChannel (splits.map fun batch => .iter (okTrace batch))

theorem fromChannel_splits {α : Type} (splits : List (List α)) :
    splitIter splits = okTrace splits.flatten := by
  induction splits with
  | nil => rfl
  | cons batch splits ih =>
    simp only [splitIter, map_cons, fromChannel, untilCancelled_ok] at ih ⊢
    rw [ih]
    simp [okTrace]

/-- **The effects of an exact operation** on `n` inputs.  The batches hold the values of a set in
strictly ascending order, and no error is sent; the channel is closed once, after them; every input
is stopped. -/
structure Exact (effects : List (Effect String)) (n : ℕ) (set : String → Prop) : Prop where
  values : ∃ zs, fromChannel (effects.filterMap Effect.msg?) = okTrace zs
    ∧ zs.Pairwise (· < ·) ∧ ∀ o, o ∈ zs ↔ set o
  closed : effects.countP Effect.isClose = 1
  last : ∃ msgs stops, effects = msgs ++ .closeOut :: stops ∧ stops.filterMap Effect.msg? = []
  stopped : ∀ idx < n, .stop idx ∈ effects

/-- An operation that sends a set, with its deferred close. -/
theorem exact_withClose {resolver : List (Trace String) → List (Msg String)}
    {iters : List (Trace String)} {n : ℕ} {set : String → Prop} {zs : List String}
    (hlength : iters.length = n) (hsent : fromChannel (resolver iters) = okTrace zs)
    (hzs : StrictValues zs) (hset : ∀ o, o ∈ zs ↔ set o) :
    Exact (withClose resolver iters) n set := by
  subst hlength
  have hmsgs : ∀ msgs : List (Msg String),
      (msgs.map Effect.send).filterMap Effect.msg? = msgs
        ∧ (msgs.map Effect.send).countP Effect.isClose = 0 := by
    intro msgs
    constructor
    · rw [filterMap_map]
      exact filterMap_some
    · simp [countP_eq_zero, Effect.isClose]
  have hstops : ∀ idxs : List ℕ,
      (idxs.map (Effect.stop : ℕ → Effect String)).filterMap Effect.msg? = []
        ∧ (idxs.map (Effect.stop : ℕ → Effect String)).countP Effect.isClose = 0 := by
    intro idxs
    constructor
    · simp [filterMap_eq_nil_iff, Effect.msg?]
    · simp [countP_eq_zero, Effect.isClose]
  refine ⟨⟨zs, ?_, hzs.lt, hset⟩, ?_, ⟨_, _, rfl, (hstops _).1⟩, fun idx hidx => ?_⟩
  · rw [withClose, filterMap_append, (hmsgs _).1, filterMap_cons_none rfl, (hstops _).1,
      append_nil]
    exact hsent
  · rw [withClose, countP_append, (hmsgs _).2, countP_cons_of_pos rfl, (hstops _).2]
  · exact mem_append_right _ (mem_cons_of_mem _
      (mem_map_of_mem (mem_range.mpr hidx)))

variable (splits : List (List String))

/-- The read that an input amounts to. -/
def inputRead : Operand String := .read splits.flatten none

theorem splitIter_eq :
    splitIter splits = fromChannel (inputRead splits).messages :=
  (fromChannel_splits splits).trans (trace_read_none _).symm

variable {n : ℕ}

/-- **The set operations are exact.**  The inputs are strictly ascending lists of non-empty strings,
split into messages in any way.  Over all of them `resolveUnion` sends their union and
`resolveIntersection` their intersection (nothing, if there are none), and over any two of them
`resolveDifference` sends the first without the second. -/
theorem setOperations_exact (inputs : Fin n → List (List String))
    (hasc : ∀ i, (inputs i).flatten.Pairwise (· < ·)) (hne : ∀ i, "" ∉ (inputs i).flatten) :
    Exact (withClose resolveUnion (List.ofFn fun i => splitIter (inputs i))) n
        (fun o => ∃ i, o ∈ (inputs i).flatten)
    ∧ Exact (withClose resolveIntersection (List.ofFn fun i => splitIter (inputs i))) n
        (fun o => 0 < n ∧ ∀ i, o ∈ (inputs i).flatten)
    ∧ ∀ i j, Exact (withClose resolveDifference [splitIter (inputs i), splitIter (inputs j)]) 2
        (fun o => o ∈ (inputs i).flatten ∧ o ∉ (inputs j).flatten) := by
  -- each operation is a tree of reads without failures
  have hstrict : ∀ i, (inputRead (inputs i)).Strict :=
    fun i => ⟨hasc i, fun x hx h => hne i (by rwa [h] at hx)⟩
  have hiters := funext fun i => splitIter_eq (inputs i)
  refine ⟨?_, ?_, fun i j => ?_⟩
  · obtain ⟨zs, hsent, hzs, hmem⟩ :=
      (Operand.union fun i => inputRead (inputs i)).complete_trace hstrict fun _ => rfl
    rw [Operand.trace, Operand.messages, ← hiters] at hsent
    exact exact_withClose length_ofFn hsent hzs hmem
  · obtain ⟨zs, hsent, hzs, hmem⟩ :=
      (Operand.intersection fun i => inputRead (inputs i)).complete_trace hstrict fun _ => rfl
    rw [Operand.trace, Operand.messages, ← hiters] at hsent
    exact exact_withClose length_ofFn hsent hzs hmem
  · obtain ⟨zs, hsent, hzs, hmem⟩ := (Operand.difference (inputRead (inputs i))
      (inputRead (inputs j))).complete_trace ⟨hstrict i, hstrict j⟩ ⟨rfl, rfl⟩
    rw [Operand.trace, Operand.messages, ← splitIter_eq, ← splitIter_eq] at hsent
    exact exact_withClose rfl hsent hzs hmem

/-- Two inputs in three messages and in one. -/
def twoInputs : Fin 2 → List (List String) := ![[["a"], [], ["b", "c"]], [["b", "d"]]]

theorem setOperations_exact_two :
    Exact (withClose resolveDifference [splitIter (twoInputs 0), splitIter (twoInputs 1)]) 2
      (fun o => o ∈ ["a", "b", "c"] ∧ o ∉ ["b", "d"]) :=
  (setOperations_exact twoInputs (by decide) (by decide)).2.2 0 1

end Kengen
