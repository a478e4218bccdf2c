import Kengen.Lib.Gather
import Kengen.Lib.GatherPair
import Kengen.Lib.DispatchPool

/-!
# Working through the operands in order

Each of the gathering loops has a schedule that runs the operands one after the other and
receives their outcomes in the order in which they were started.  It is a run of the loop
like any other, it is never cancelled, and it ends with a result: the loops return.

* `Gather.inOrder`, `GatherPair.inOrder`, `DispatchPool.inOrder` — the result of that schedule.
* **`Gather.exists_inOrder`**, **`GatherPair.exists_inOrder`**, **`DispatchPool.exists_inOrder`** — the
  schedule exists.
-/

namespace Kengen

open Runs List

variable {α β : Type}

/-! ### One channel -/

namespace Gather

/-- The result of receiving `rest` in order after `received`. -/
def inOrder (R : Reducer α β) : List α → List α → β
  | received, [] => R.conclude false received
  | received, o :: rest =>
    match R.stop o with
    | some b => b
    | none => inOrder R (received ++ [o]) rest

/-- The operands that wait are run one after the other. -/
theorem exists_started (R : Reducer α β) (hlimit : 0 < R.limit) (waiting buffer : List α)
    {s : State α β} {choices : List Choice}
    (h : run (step R) { known := [], waiting := [], buffer := buffer ++ waiting } choices = some s) :
    ∃ choices, run (step R) { known := [], waiting := waiting, buffer := buffer } choices = some s := by
  induction waiting generalizing buffer with
  | nil =>
    rw [append_nil] at h
    exact ⟨choices, h⟩
  | cons o waiting ih =>
    obtain ⟨choices, hrun⟩ := ih (buffer ++ [o]) (by rw [append_assoc]; exact h)
    refine ⟨.start :: .finish 0 true :: choices, ?_⟩
    show run (step R) _ (_ :: _) = _
    simp only [run, step, length_nil, hlimit, if_true, Option.bind_some, drop_zero,
      take_zero, nil_append, State.trySend]
    exact hrun

/-- The outcomes that are there are received one after the other. -/
theorem exists_received (R : Reducer α β) (buffer received : List α)
    (hcount : received.length + buffer.length = R.expected) :
    ∃ choices s, run (step R) { known := [], waiting := [], buffer := buffer, received := received }
        choices = some s
      ∧ s.cancelled = false ∧ s.result = some (inOrder R received buffer) := by
  induction buffer generalizing received with
  | nil =>
    rw [length_nil, Nat.add_zero] at hcount
    refine ⟨[.conclude],
      { known := [], waiting := [], received := received,
        result := some (R.conclude false received) }, ?_, rfl, rfl⟩
    simp [run, step, hcount]
  | cons o buffer ih =>
    have hloop : received.length < R.expected := by
      rw [← hcount, length_cons]
      omega
    have hstep : step R
        { known := [], waiting := [], buffer := o :: buffer, received := received } .receive
        = some
          { known := [], waiting := [], buffer := buffer, received := received ++ [o],
            result := R.stop o } := by
      simp [step, State.looping, hloop]
    rcases hstop : R.stop o with _ | b
    · obtain ⟨choices, s, hrun, hcancelled, hresult⟩ := ih (received ++ [o]) (by
        rw [← hcount, length_append, length_cons, length_cons, length_nil]
        omega)
      refine ⟨.receive :: choices, s, ?_, hcancelled, ?_⟩
      · rw [run, hstep, hstop]
        exact hrun
      · rw [hresult, inOrder, hstop]
    · refine ⟨[.receive], _, by rw [run, hstep, hstop]; rfl, rfl, ?_⟩
      show some b = _
      rw [inOrder, hstop]

/-- **A reducer returns.** -/
theorem exists_inOrder (R : Reducer α β) (hlimit : 0 < R.limit) (outcomes : List α)
    (hexpected : R.expected = outcomes.length) :
    ∃ choices s, run (step R) (enter R false [] outcomes) choices = some s
      ∧ s.cancelled = false ∧ s.result = some (inOrder R [] outcomes) := by
  obtain ⟨choices, s, hrun, hcancelled, hresult⟩ := exists_received R outcomes []
    (by rw [length_nil, hexpected]; omega)
  obtain ⟨choices', hrun'⟩ := exists_started R hlimit outcomes [] hrun
  exact ⟨choices', s, hrun', hcancelled, hresult⟩

end Gather

/-! ### A channel each -/

namespace GatherPair

variable (R : Reducer α β)

/-- The result of receiving the base first. -/
def inOrder (base sub : α) : β :=
  match R.onBase false base with
  | some b => b
  | none =>
    match R.onSub sub with
    | some b => b
    | none => R.conclude (some base) (some sub)

/-- The choices of that order, as far as they are needed. -/
def orderedChoices (base sub : α) : List Choice :=
  match R.onBase false base, R.onSub sub with
  | some _, _ => [.send .base true, .receive .base]
  | none, some _ => [.send .base true, .receive .base, .send .sub true, .receive .sub]
  | none, none => [.send .base true, .receive .base, .send .sub true, .receive .sub, .conclude]

/-- **A reducer of two operands returns.** -/
theorem exists_inOrder (hexpected : R.expected = 2) (base sub : α) :
    ∃ choices s, run (step R) (enter R false (some base) (some sub)) choices = some s
      ∧ s.cancelled = false ∧ s.result = some (inOrder R base sub) := by
  have hrun : (run (step R) (enter R false (some base) (some sub)) (orderedChoices R base sub)).map
      (fun s => (s.cancelled, s.result)) = some (false, some (inOrder R base sub)) := by
    rcases hb : R.onBase false base with _ | b
    · rcases hs : R.onSub sub with _ | b <;>
        simp [orderedChoices, inOrder, hb, hs, run, step, enter, Pipe.ofOutcome, State.pipe,
          State.setPipe, Pipe.send, Pipe.receive, State.received, State.count, State.subOff, hexpected]
    · simp [orderedChoices, inOrder, hb, run, step, enter, Pipe.ofOutcome, State.pipe,
        State.setPipe, Pipe.send, Pipe.receive, State.received, State.count, State.subOff, hexpected]
  obtain ⟨s, hs, heq⟩ := Option.map_eq_some_iff.mp hrun
  exact ⟨_, s, hs, (Prod.mk.inj heq).1, (Prod.mk.inj heq).2⟩

end GatherPair

/-! ### A pool -/

namespace DispatchPool

/-- The result of receiving the outcomes of `pending` in order after `received`. -/
def inOrder (C : Consumer α β) : List α → List (Message α) → β
  | received, [] => C.conclude received
  | received, m :: pending =>
    match C.stop m.outcome with
    | some b => b
    | none => inOrder C (received ++ [m.outcome]) pending

theorem exists_received (C : Consumer α β) (hlimit : 0 < C.limit) (pending : List (Message α))
    (received : List α) :
    ∃ choices s, run (step C) { pending := pending, received := received } choices = some s
      ∧ s.result = some (inOrder C received pending) := by
  induction pending generalizing received with
  | nil =>
    refine ⟨[.conclude],
      { pending := [], received := received, result := some (C.conclude received) }, ?_, rfl⟩
    simp [run, step]
  | cons m pending ih =>
    -- the message is taken, its check is done, and its outcome is received
    have hstep : ∃ choices, ∀ rest, run (step C) { pending := m :: pending, received := received }
        (choices ++ rest) = run (step C)
          { pending := pending, received := received ++ [m.outcome],
            result := C.stop m.outcome } rest := by
      cases m with
      | ready o =>
        refine ⟨[.take, .receive], fun rest => ?_⟩
        simp [run, step, hlimit, Message.outcome]
      | check o =>
        refine ⟨[.take, .finish 0, .receive], fun rest => ?_⟩
        simp [run, step, hlimit, Message.outcome]
    obtain ⟨choices, hchoices⟩ := hstep
    rcases hstop : C.stop m.outcome with _ | b
    · obtain ⟨choices', s, hrun, hresult⟩ := ih (received ++ [m.outcome])
      refine ⟨choices ++ choices', s, ?_, ?_⟩
      · rw [hchoices, hstop]
        exact hrun
      · rw [hresult, inOrder, hstop]
    · refine ⟨choices ++ [], _, (hchoices []).trans (by rw [hstop]; rfl), ?_⟩
      show some b = _
      rw [inOrder, hstop]

/-- **A pool returns.** -/
theorem exists_inOrder (C : Consumer α β) (hlimit : 0 < C.limit) (messages : List (Message α)) :
    ∃ choices s, run (step C) (enter messages) choices = some s
      ∧ s.result = some (inOrder C [] messages) :=
  exists_received C hlimit messages []

end DispatchPool

end Kengen
