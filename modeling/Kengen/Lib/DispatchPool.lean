import Kengen.Lib.Runs

/-!
# A pool that works through a list of messages

A dispatching routine takes messages one after another.  For a message that carries its
outcome it sends the outcome on; for the others it starts a check in a pool of limited
size, which sends its outcome when it is done.  A consumer receives the outcomes until one
of them settles the matter, or until the channel is closed, which happens when all messages
are taken and all checks are done.  The channel has room for as many outcomes as the pool
has routines.

* **`inv_step`** — no outcome is made up or lost.
* **`run_answer`** — an answer rests on one outcome that settles the matter, or on all of them.
-/

namespace Kengen.DispatchPool

open List

variable {α β : Type}

/-- A message with its outcome: known to the dispatching routine, or that of a check. -/
inductive Message (α : Type) where
  | ready (o : α)
  | check (o : α)

def Message.outcome : Message α → α
  | .ready o => o
  | .check o => o

/-- The consumer: the result of a single outcome that settles the matter, and the result of
all outcomes. -/
structure Consumer (α β : Type) where
  limit : ℕ
  stop : α → Option β
  conclude : List α → β

structure State (α β : Type) where
  pending : List (Message α)
  running : List α := []
  buffer : List α := []
  received : List α := []
  result : Option β := none

inductive Choice where
  | take
  | finish (i : ℕ)
  | receive
  | conclude
deriving DecidableEq, Repr

/-- One step. -/
def step (C : Consumer α β) (s : State α β) : Choice → Option (State α β)
  | .take =>
    match s.result, s.pending with
    | none, .ready o :: pending =>
      if s.buffer.length < C.limit then
        some { s with pending := pending, buffer := s.buffer ++ [o] }
      else none
    | none, .check o :: pending =>
      if s.running.length < C.limit then
        some { s with pending := pending, running := o :: s.running }
      else none
    | _, _ => none
  | .finish i =>
    match s.result, s.running.drop i with
    | none, o :: after =>
      if s.buffer.length < C.limit then
        some { s with running := s.running.take i ++ after, buffer := s.buffer ++ [o] }
      else none
    | _, _ => none
  | .receive =>
    match s.result, s.buffer with
    | none, o :: buffer =>
      some { s with buffer := buffer, received := s.received ++ [o], result := C.stop o }
    | _, _ => none
  | .conclude =>
    if s.result.isNone ∧ s.pending.isEmpty ∧ s.running.isEmpty ∧ s.buffer.isEmpty then
      some { s with result := some (C.conclude s.received) }
    else none

/-- Where the outcomes of all messages are. -/
def State.all (s : State α β) : List α :=
  s.pending.map Message.outcome ++ (s.running ++ (s.buffer ++ s.received))

/-- What a result rests on. -/
def Founded (C : Consumer α β) (outcomes : List α) (s : State α β) (b : β) : Prop :=
  (∃ o ∈ s.received, C.stop o = some b)
    ∨ s.received.Perm outcomes ∧ b = C.conclude s.received ∧ ∀ o ∈ s.received, C.stop o = none

structure Inv (C : Consumer α β) (outcomes : List α) (s : State α β) : Prop where
  all : s.all.Perm outcomes
  settled : s.result = none → ∀ o ∈ s.received, C.stop o = none
  result : ∀ b, s.result = some b → Founded C outcomes s b

/-- The start. -/
def enter (messages : List (Message α)) : State α β where
  pending := messages

theorem inv_enter (C : Consumer α β) (messages : List (Message α)) :
    Inv C (messages.map Message.outcome) (enter messages) where
  all := by simp [State.all, enter]
  settled := by simp [enter]
  result := by simp [enter]

/-- **A step keeps the invariant.** -/
theorem inv_step {C : Consumer α β} {outcomes : List α} {s s' : State α β} {c : Choice}
    (h : Inv C outcomes s) (hstep : step C s c = some s') : Inv C outcomes s' := by
  -- an outcome that moves on leaves the rest as it is
  have hmove : ∀ {t : State α β}, s.result = none → t.all.Perm s.all → t.received = s.received →
      t.result = none → Inv C outcomes t := by
    intro t hnone hperm hreceived hresult
    refine ⟨hperm.trans h.all, fun _ o ho => h.settled hnone o (hreceived ▸ ho), fun b hb => ?_⟩
    rw [hresult] at hb
    cases hb
  cases c with
  | take =>
    simp only [step] at hstep
    split at hstep
    · rename_i o pending hresult hpending
      split_ifs at hstep
      cases hstep
      refine hmove hresult ?_ rfl hresult
      classical
      refine perm_iff_count.mpr fun a => ?_
      simp only [State.all, hpending, map_cons, Message.outcome, count_append,
        count_cons, count_nil]
      omega
    · rename_i o pending hresult hpending
      split_ifs at hstep
      cases hstep
      refine hmove hresult ?_ rfl hresult
      classical
      refine perm_iff_count.mpr fun a => ?_
      simp only [State.all, hpending, map_cons, Message.outcome, count_append,
        count_cons]
      omega
    · cases hstep
  | finish i =>
    simp only [step] at hstep
    split at hstep
    · rename_i o after hresult hdrop
      split_ifs at hstep
      cases hstep
      refine hmove hresult ?_ rfl hresult
      have hsplit : s.running = s.running.take i ++ o :: after := by
        rw [← hdrop, take_append_drop]
      classical
      refine perm_iff_count.mpr fun a => ?_
      have hcount := congrArg (List.count a) hsplit
      simp only [count_append, count_cons] at hcount
      simp only [State.all, count_append, count_cons, count_nil]
      omega
    · cases hstep
  | receive =>
    simp only [step] at hstep
    split at hstep
    · rename_i o buffer hresult hbuffer
      cases hstep
      refine ⟨?_, fun hstop o' ho' => ?_, fun b hb => ?_⟩
      · refine List.Perm.trans ?_ h.all
        classical
        refine perm_iff_count.mpr fun a => ?_
        simp only [State.all, hbuffer, count_append, count_cons, count_nil]
        omega
      · rcases mem_append.mp ho' with ho' | ho'
        · exact h.settled hresult o' ho'
        · rw [mem_singleton.mp ho']
          exact hstop
      · exact .inl ⟨o, by simp, hb⟩
    · cases hstep
  | conclude =>
    simp only [step] at hstep
    split_ifs at hstep with hdone
    obtain ⟨hresult, hpending, hrunning, hbuffer⟩ := hdone
    have hnone : s.result = none := by simpa using hresult
    cases hstep
    refine ⟨h.all, (fun hb => nomatch hb), fun b hb => ?_⟩
    cases hb
    refine .inr ⟨?_, rfl, h.settled hnone⟩
    have hall := h.all
    rw [State.all, isEmpty_iff.mp hpending, isEmpty_iff.mp hrunning,
      isEmpty_iff.mp hbuffer] at hall
    exact hall

section Run

open Runs

variable {C : Consumer α β} {messages : List (Message α)} {s : State α β} {choices : List Choice}

theorem run_inv (hrun : run (step C) (enter messages) choices = some s) :
    Inv C (messages.map Message.outcome) s :=
  run_keeps (fun _ _ _ h hstep => inv_step h hstep) (inv_enter C messages) hrun

/-- **What an answer rests on**: a single outcome that settles the matter, or all of them. -/
theorem run_answer (hrun : run (step C) (enter messages) choices = some s) {b : β}
    (hb : s.result = some b) : Founded C (messages.map Message.outcome) s b :=
  (run_inv hrun).result b hb

end Run

end Kengen.DispatchPool
