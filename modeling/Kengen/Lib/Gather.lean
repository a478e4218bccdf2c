import Kengen.Lib.Runs

/-!
# Gathering the outcomes of operands

A main routine starts operands, a limited number at a time, and gathers their
outcomes.  An operand sends its outcome through a channel with room for all of
them; once the caller's context is cancelled it may drop the outcome instead.
The main routine receives a fixed number of times and can also see that the
context is cancelled, whichever is ready.  Some reducers close the channel as
soon as all operands have finished; a receive then finds nothing and is counted
all the same.

* **`inv_step`** — no outcome is made up: each is still to come, on its way, lost or received.
* **`complete_of_no_miss`** — whoever has received as often as there are operands, and has not
  found the channel empty, has received every outcome.
* **`cancelled_of_miss`** — the channel is found empty only after a cancellation.
* **`run_answer`** — what the answer of a run rests on.
-/

namespace Kengen.Gather

open List

variable {α β : Type}

/-- How a reducer gathers: whether the channel is closed when all operands are done, the result of
a single outcome that settles the matter, and the result of all outcomes received, which may look
at the context once more. -/
structure Reducer (α β : Type) where
  closes : Bool
  limit : ℕ
  expected : ℕ
  stop : α → Option β
  conclude : Bool → List α → β
  aborted : β

/-- The state of a reducer.  `known` are outcomes that the main routine sends itself, before it
starts the operands; `misses` counts the receives that found nothing. -/
structure State (α β : Type) where
  known : List α
  waiting : List α
  running : List α := []
  buffer : List α := []
  lost : List α := []
  received : List α := []
  misses : ℕ := 0
  cancelled : Bool := false
  closed : Bool := false
  result : Option β := none

/-- The choices of the scheduler and of `select`.  An outcome is sent or dropped. -/
inductive Choice where
  | cancel
  | known (send : Bool)
  | start
  | finish (i : ℕ) (send : Bool)
  | close
  | receive
  | giveUp
  | conclude
deriving DecidableEq, Repr

/-- `TrySendThroughChannel`: only a cancelled context loses a message. -/
def State.trySend (s : State α β) (o : α) (send : Bool) : Option (State α β) :=
  if send then some { s with buffer := s.buffer ++ [o] }
  else if s.cancelled then some { s with lost := o :: s.lost }
  else none

/-- The main routine is in its loop. -/
def State.looping (R : Reducer α β) (s : State α β) : Bool :=
  s.known.isEmpty && s.waiting.isEmpty && decide (s.received.length + s.misses < R.expected)

/-- One step. -/
def step (R : Reducer α β) (s : State α β) : Choice → Option (State α β)
  | .cancel => if s.result.isSome then none else some { s with cancelled := true }
  | .known send =>
    match s.result, s.known with
    | none, o :: known => { s with known := known }.trySend o send
    | _, _ => none
  | .start =>
    match s.result, s.known, s.waiting with
    | none, [], o :: waiting =>
      if s.running.length < R.limit then
        some { s with waiting := waiting, running := o :: s.running }
      else none
    | _, _, _ => none
  | .finish i send =>
    match s.result, s.running.drop i with
    | none, o :: after => { s with running := s.running.take i ++ after }.trySend o send
    | _, _ => none
  | .close =>
    if R.closes ∧ s.result.isNone ∧ s.known = [] ∧ s.waiting.isEmpty ∧ s.running.isEmpty then
      some { s with closed := true }
    else none
  | .receive =>
    if s.result.isSome ∨ s.looping R = false then none
    else
      match s.buffer with
      | o :: buffer =>
        some { s with
          buffer := buffer, received := s.received ++ [o], result := R.stop o }
      | [] => if s.closed then some { s with misses := s.misses + 1 } else none
  | .giveUp =>
    if s.result.isSome ∨ s.looping R = false ∨ s.cancelled = false then none
    else some { s with result := some R.aborted }
  | .conclude =>
    match s.result, s.known, s.waiting with
    | none, [], [] =>
      if s.received.length + s.misses = R.expected then
        some { s with result := some (R.conclude s.cancelled s.received) }
      else none
    | _, _, _ => none

/-- A receive takes an outcome, and does not find the closed channel empty. -/
def TakesOutcome (s : State α β) (c : Choice) : Prop := c = .receive → s.buffer ≠ []

instance [DecidableEq α] (s : State α β) (c : Choice) : Decidable (TakesOutcome s c) :=
  inferInstanceAs (Decidable (_ → _))

/-! ### No outcome is made up -/

/-- Where the outcomes of all operands are. -/
def State.all (s : State α β) : List α :=
  s.known ++ (s.waiting ++ (s.running ++ (s.buffer ++ (s.lost ++ s.received))))

/-- What a result rests on. -/
def Founded (R : Reducer α β) (s : State α β) (b : β) : Prop :=
  s.cancelled = true ∧ b = R.aborted ∨ (∃ o ∈ s.received, R.stop o = some b)
    ∨ ∃ c, b = R.conclude c s.received ∧ (∀ o ∈ s.received, R.stop o = none)
      ∧ s.received.length + s.misses = R.expected

/-- **The invariant of a reducer.** -/
structure Inv (R : Reducer α β) (outcomes : List α) (s : State α β) : Prop where
  all : s.all.Perm outcomes
  settled : s.result = none → ∀ o ∈ s.received, R.stop o = none
  closed : s.closed = true → s.known = [] ∧ s.waiting = [] ∧ s.running = []
  lost : s.lost ≠ [] → s.cancelled = true
  unclosed : R.closes = false → s.closed = false ∧ s.misses = 0
  result : ∀ b, s.result = some b → Founded R s b

/-- The start: a context that is cancelled already ends the reducer at once. -/
def enter (R : Reducer α β) (cancelled : Bool) (known waiting : List α) : State α β where
  known := known
  waiting := waiting
  cancelled := cancelled
  result := if cancelled then some R.aborted else none

theorem inv_enter (R : Reducer α β) (cancelled : Bool) (known waiting : List α) :
    Inv R (known ++ waiting) (enter R cancelled known waiting) where
  all := by simp [State.all, enter]
  settled := by simp [enter]
  closed := by simp [enter]
  lost := by simp [enter]
  unclosed := by simp [enter]
  result := by
    intro b hb
    cases cancelled with
    | false => cases hb
    | true => exact .inl ⟨rfl, (Option.some.inj hb).symm⟩

variable {R : Reducer α β} {outcomes : List α} {s s' : State α β}

theorem trySend_cases {o : α} {send : Bool} (h : s.trySend o send = some s') :
    s' = { s with buffer := s.buffer ++ [o] }
      ∨ s.cancelled = true ∧ s' = { s with lost := o :: s.lost } := by
  unfold State.trySend at h
  split_ifs at h with hsend hcancelled
  · exact .inl (Option.some.inj h).symm
  · exact .inr ⟨hcancelled, (Option.some.inj h).symm⟩

/-- Lists with the same counts are permutations of the same lists. -/
theorem perm_of_count {l l' : List α} (h : l.Perm outcomes)
    (hcount : ∀ [DecidableEq α] (a : α), l'.count a = l.count a) : l'.Perm outcomes := by
  classical
  exact (perm_iff_count.mpr hcount).trans h

/-- Sending or losing an outcome that was taken from elsewhere keeps the invariant. -/
theorem trySend_inv {o : α} {send : Bool}
    (h : s.trySend o send = some s') (hall : (o :: s.all).Perm outcomes)
    (hsettled : ∀ o ∈ s.received, R.stop o = none) (hresult : s.result = none)
    (hclosed : s.closed = false) (hlost : s.lost ≠ [] → s.cancelled = true)
    (hopen : R.closes = false → s.closed = false ∧ s.misses = 0) :
    Inv R outcomes s' ∧ s'.misses = s.misses := by
  rcases trySend_cases h with rfl | ⟨hcancelled, rfl⟩
  · refine ⟨⟨perm_of_count hall fun a => ?_, fun _ => hsettled,
      fun hc => (nomatch hclosed.symm.trans hc), hlost, hopen,
      fun b hb => (nomatch hresult.symm.trans hb)⟩, rfl⟩
    simp only [State.all, count_append, count_cons, count_nil]
    omega
  · refine ⟨⟨perm_of_count hall fun a => ?_, fun _ => hsettled,
      fun hc => (nomatch hclosed.symm.trans hc), fun _ => hcancelled, hopen,
      fun b hb => (nomatch hresult.symm.trans hb)⟩, rfl⟩
    simp only [State.all, count_append, count_cons]
    omega

variable {c : Choice}

/-- **A step keeps the invariant**, and only a receive that finds nothing is a miss. -/
theorem inv_step (h : Inv R outcomes s) (hstep : step R s c = some s') :
    Inv R outcomes s' ∧ (TakesOutcome s c → s'.misses = s.misses) := by
  have hopen : ∀ o : α, (o ∈ s.known ∨ o ∈ s.waiting ∨ o ∈ s.running) → s.closed = false := by
    intro o ho
    rcases hc : s.closed with _ | _
    · rfl
    · obtain ⟨hk, hw, hr⟩ := h.closed hc
      simp [hk, hw, hr] at ho
  rcases c with _ | send | _ | ⟨i, send⟩ | _ | _ | _ | _ <;> simp only [step] at hstep
  · split_ifs at hstep
    cases hstep
    exact ⟨⟨h.all, h.settled, h.closed, fun _ => rfl, h.unclosed,
      fun b hb => absurd hb (by simp_all)⟩, fun _ => rfl⟩
  · split at hstep
    · rename_i o known hresult hknown
      refine (trySend_inv hstep ?_ (h.settled hresult) hresult
        (hopen o (.inl (by simp [hknown]))) h.lost h.unclosed).imp_right fun hm _ => hm
      have hall := h.all
      simp only [State.all, hknown] at hall ⊢
      exact hall
    · cases hstep
  · split at hstep
    · rename_i o waiting hresult hknown hwaiting
      split_ifs at hstep
      cases hstep
      refine ⟨⟨?_, h.settled, fun hc => ?_, h.lost, h.unclosed, h.result⟩, fun _ => rfl⟩
      · refine perm_of_count h.all fun a => ?_
        simp only [State.all, hwaiting, count_append, count_cons]
        omega
      · have hfalse := hopen o (.inr (.inl (by simp [hwaiting])))
        rw [hfalse] at hc
        cases hc
    · cases hstep
  · split at hstep
    · rename_i o after hresult hdrop
      have hsplit : s.running = s.running.take i ++ o :: after := by
        rw [← hdrop, take_append_drop]
      refine (trySend_inv hstep ?_ (h.settled hresult) hresult
        (hopen o (.inr (.inr (by rw [hsplit]; simp)))) h.lost h.unclosed).imp_right fun hm _ => hm
      refine perm_of_count h.all fun a => ?_
      have hcount := congrArg (List.count a) hsplit
      simp only [count_append, count_cons] at hcount
      simp only [State.all, count_append, count_cons]
      omega
    · cases hstep
  · split_ifs at hstep with hdone
    obtain ⟨hcloses, -, hknown, hwaiting, hrunning⟩ := hdone
    cases hstep
    exact ⟨⟨h.all, h.settled, fun _ => ⟨hknown, isEmpty_iff.mp hwaiting,
      isEmpty_iff.mp hrunning⟩, h.lost, fun hc => absurd hcloses (by simp [hc]), h.result⟩,
      fun _ => rfl⟩
  · split at hstep
    · cases hstep
    · rename_i hfree
      obtain ⟨hresult, -⟩ := not_or.mp hfree
      have hnone : s.result = none := by simpa using hresult
      split at hstep
      · rename_i o buffer hbuffer
        cases hstep
        refine ⟨⟨?_, fun hstop o' ho' => ?_, h.closed, h.lost, h.unclosed, fun b hb => ?_⟩,
          fun _ => rfl⟩
        · refine perm_of_count h.all fun a => ?_
          simp only [State.all, hbuffer, count_append, count_cons, count_nil]
          omega
        · rcases mem_append.mp ho' with ho' | ho'
          · exact h.settled hnone o' ho'
          · rw [mem_singleton.mp ho']
            exact hstop
        · exact .inr (.inl ⟨o, by simp, hb⟩)
      · rename_i hbuffer
        split_ifs at hstep
        cases hstep
        refine ⟨⟨h.all, h.settled, h.closed, h.lost, fun hc => ?_, fun b hb => ?_⟩,
          fun htakes => absurd hbuffer (htakes rfl)⟩
        · rename_i hclosed
          exact absurd hclosed (by simp [(h.unclosed hc).1])
        · rw [hnone] at hb
          cases hb
  · split_ifs at hstep with hfree
    obtain ⟨hresult, hopen⟩ := not_or.mp hfree
    have hnone : s.result = none := by simpa using hresult
    cases hstep
    refine ⟨⟨h.all, fun _ => h.settled hnone, h.closed, h.lost, h.unclosed, fun b hb => ?_⟩,
      fun _ => rfl⟩
    exact .inl ⟨by simpa using (not_or.mp hopen).2, (Option.some.inj hb).symm⟩
  · split at hstep
    · rename_i hresult hknown hwaiting
      split_ifs at hstep with hcount
      cases hstep
      refine ⟨⟨h.all, fun _ => h.settled hresult, h.closed, h.lost, h.unclosed, fun b hb => ?_⟩,
        fun _ => rfl⟩
      exact .inr (.inr ⟨s.cancelled, (Option.some.inj hb).symm, h.settled hresult, hcount⟩)
    · cases hstep

/-- A context that is cancelled stays cancelled. -/
theorem cancelled_step (h : s.cancelled = true)
    (hstep : step R s c = some s') : s'.cancelled = true := by
  unfold step at hstep
  repeat' split at hstep
  all_goals first
    | (obtain rfl := Option.some.inj hstep; exact h)
    | (obtain rfl := Option.some.inj hstep; rfl)
    | (rcases trySend_cases hstep with rfl | ⟨-, rfl⟩ <;> exact h)
    | cases hstep

/-! ### When nothing is missing -/

/-- **Without a miss, all outcomes have been received.** -/
theorem complete_of_no_miss (h : Inv R outcomes s) (hexpected : R.expected = outcomes.length)
    (hcount : s.received.length + s.misses = R.expected) (hmiss : s.misses = 0) :
    s.received.Perm outcomes := by
  have hlen := h.all.length_eq
  simp only [State.all, length_append] at hlen
  have hknown : s.known = [] := length_eq_zero_iff.mp (by omega)
  have hwaiting : s.waiting = [] := length_eq_zero_iff.mp (by omega)
  have hrunning : s.running = [] := length_eq_zero_iff.mp (by omega)
  have hbuffer : s.buffer = [] := length_eq_zero_iff.mp (by omega)
  have hlost : s.lost = [] := length_eq_zero_iff.mp (by omega)
  have hall := h.all
  rw [State.all, hknown, hwaiting, hrunning, hbuffer, hlost] at hall
  exact hall

/-- What has been received is among the outcomes. -/
theorem Inv.mem (h : Inv R outcomes s) {o : α} (ho : o ∈ s.received) : o ∈ outcomes :=
  h.all.mem_iff.mp (by simp [State.all, ho])

/-- **The channel is found empty only after a cancellation**, which is when outcomes are lost. -/
theorem cancelled_of_miss (h : Inv R outcomes s) (hexpected : R.expected = outcomes.length)
    (hstep : step R s .receive = some s') (hbuffer : s.buffer = []) : s.cancelled = true := by
  simp only [step] at hstep
  split at hstep
  · cases hstep
  rename_i hfree
  obtain ⟨-, hloop⟩ := not_or.mp hfree
  rw [hbuffer] at hstep
  dsimp only at hstep
  split_ifs at hstep with hclosed
  obtain ⟨hknown, hwaiting, hrunning⟩ := h.closed hclosed
  refine h.lost fun hlost => ?_
  have hlen := h.all.length_eq
  simp only [State.all, hknown, hwaiting, hrunning, hbuffer, hlost, nil_append] at hlen
  simp only [State.looping, Bool.and_eq_false_iff, decide_eq_false_iff_not, not_or,
    Bool.not_eq_false, not_not] at hloop
  omega

section Run

variable {R : Reducer α β} {cancelled : Bool} {known waiting : List α} {s : State α β}
  {choices : List Choice}

open Runs

section

variable (hrun : run (step R) (enter R cancelled known waiting) choices = some s)
include hrun

theorem run_inv :
    Inv R (known ++ waiting) s :=
  run_keeps (fun _ _ _ h hstep => (inv_step h hstep).1) (inv_enter R cancelled known waiting) hrun

/-- No miss in a run whose receives take outcomes, or whose channel is never closed. -/
theorem run_no_miss (htakes : R.closes = false
      ∨ Along (step R) TakesOutcome (enter R cancelled known waiting) choices) :
    s.misses = 0 := by
  rcases htakes with hopen | htakes
  · exact ((run_inv hrun).unclosed hopen).2
  · have hinv : Inv R (known ++ waiting) s ∧ s.misses = 0 := by
      refine run_invariant (I := fun s => Inv R (known ++ waiting) s ∧ s.misses = 0) ?_
        ⟨inv_enter R cancelled known waiting, rfl⟩ htakes hrun
      intro s c s' h hP hstep
      obtain ⟨hinv, hmiss⟩ := inv_step h.1 hstep
      exact ⟨hinv, (hmiss hP).trans h.2⟩
    exact hinv.2

/-- **What an answer rests on**: a cancelled context, a single outcome received that settles the
matter, or all of them. -/
theorem run_answer (hexpected : R.expected = (known ++ waiting).length)
    (htakes : R.closes = false
      ∨ Along (step R) TakesOutcome (enter R cancelled known waiting) choices)
    {b : β} (hb : s.result = some b) :
    s.cancelled = true ∧ b = R.aborted ∨ (∃ o ∈ s.received, R.stop o = some b)
      ∨ s.received.Perm (known ++ waiting) ∧ (∀ o ∈ s.received, R.stop o = none)
        ∧ ∃ c, b = R.conclude c s.received := by
  have hinv := run_inv hrun
  rcases hinv.result b hb with haborted | ⟨o, ho, hstop⟩ | ⟨c, hconclude, hnone, hcount⟩
  · exact .inl haborted
  · exact .inr (.inl ⟨o, ho, hstop⟩)
  · have hperm := complete_of_no_miss hinv hexpected hcount (run_no_miss hrun htakes)
    exact .inr (.inr ⟨hperm, hnone, c, hconclude⟩)

/-- In a run without a cancellation every receive takes an outcome. -/
theorem takesOutcome_of_alive
    (hexpected : R.expected = (known ++ waiting).length) (halive : s.cancelled = false) :
    Along (step R) TakesOutcome (enter R cancelled known waiting) choices := by
  have hall : ∀ (choices : List Choice) (s₀ : State α β), Inv R (known ++ waiting) s₀ →
      run (step R) s₀ choices = some s → Along (step R) TakesOutcome s₀ choices := by
    intro choices
    induction choices with
    | nil => exact fun _ _ _ => trivial
    | cons c choices ih =>
      intro s₀ h₀ hrun
      obtain ⟨s₁, hstep, hrest⟩ := run_cons hrun
      refine ⟨?_, fun s' hs' => ?_⟩
      · rintro rfl hbuffer
        have hcancelled := cancelled_of_miss h₀ hexpected hstep hbuffer
        have hkeep := run_keeps (I := fun s => s.cancelled = true)
          (fun _ _ _ h hstep => cancelled_step h hstep) hcancelled hrun
        rw [halive] at hkeep
        cases hkeep
      · obtain rfl : s₁ = s' := Option.some.inj (hstep.symm.trans hs')
        exact ih s₁ (inv_step h₀ hstep).1 hrest
  exact hall choices _ (inv_enter R cancelled known waiting) hrun

end

end Run

end Kengen.Gather
