import Kengen.Lib.Runs

/-!
# Gathering the outcomes of two operands from a channel each

Each of two operands has its own channel with room for one outcome.  Its routine
sends the outcome, or drops it once the context is cancelled, and then closes the
channel.  The main routine selects among the two channels and the cancelled
context.  A channel that it finds closed it does not select any more; the reducer
may look at whether it still selects the second one.

* **`inv_step`** — what is received from a channel is the outcome of its operand; a channel is
  given up after its outcome was received, or because the outcome was lost; only a cancelled
  reducer gives up.  The second channel is off only if there is nothing more to come from it,
  unless a dropped outcome is taken for that.
* **`run_inv`**, **`run_subKept`** — the same along a run.
-/

namespace Kengen.GatherPair

variable {α β : Type}

/-- One operand and its channel: running, with its outcome sent, dropped or received, each before
or after the channel is closed; `off` is a channel that is not selected. -/
inductive Pipe (α : Type) where
  | running (o : α)
  | sent (o : α)
  | sentClosed (o : α)
  | dropped
  | taken
  | closed
  | off
deriving DecidableEq

/-- `TrySendThroughChannel`. -/
def Pipe.send (cancelled send : Bool) : Pipe α → Option (Pipe α)
  | .running o => if send then some (.sent o) else if cancelled then some .dropped else none
  | _ => none

/-- The routine of the operand closes its channel. -/
def Pipe.close : Pipe α → Option (Pipe α)
  | .sent o => some (.sentClosed o)
  | .dropped => some .closed
  | .taken => some .closed
  | _ => none

/-- A receive: an outcome, or nothing from a closed channel; otherwise it blocks. -/
def Pipe.receive : Pipe α → Option (Option α × Pipe α)
  | .sent o => some (some o, .taken)
  | .sentClosed o => some (some o, .closed)
  | .closed => some (none, .off)
  | _ => none

/-- How the two outcomes are reduced.  `onBase` is told whether the second channel is off. -/
structure Reducer (α β : Type) where
  expected : ℕ
  onBase : Bool → α → Option β
  onSub : α → Option β
  conclude : Option α → Option α → β
  aborted : β

/-- The state of the reducer, with the outcomes received. -/
structure State (α β : Type) where
  base : Pipe α
  sub : Pipe α
  fromBase : Option α := none
  fromSub : Option α := none
  cancelled : Bool := false
  result : Option β := none

/-- One of the two operands. -/
inductive Side where
  | base
  | sub
deriving DecidableEq, Repr

inductive Choice where
  | cancel
  | send (side : Side) (send : Bool)
  | close (side : Side)
  | receive (side : Side)
  | giveUp
  | conclude
deriving DecidableEq, Repr

def State.pipe (s : State α β) : Side → Pipe α
  | .base => s.base
  | .sub => s.sub

def State.setPipe (s : State α β) : Side → Pipe α → State α β
  | .base, p => { s with base := p }
  | .sub, p => { s with sub := p }

/-- The number of results received. -/
def State.count (s : State α β) : ℕ := s.fromBase.toList.length + s.fromSub.toList.length

/-- The second channel is not selected. -/
def State.subOff (s : State α β) : Bool :=
  match s.sub with
  | .off => true
  | _ => false

/-- What the main routine does with an outcome. -/
def State.received (R : Reducer α β) (s : State α β) (o : α) : Side → State α β
  | .base => { s with fromBase := some o, result := R.onBase s.subOff o }
  | .sub => { s with fromSub := some o, result := R.onSub o }

/-- One step. -/
def step (R : Reducer α β) (s : State α β) : Choice → Option (State α β)
  | .cancel => if s.result.isSome then none else some { s with cancelled := true }
  | .send side send => ((s.pipe side).send s.cancelled send).map (s.setPipe side)
  | .close side => (s.pipe side).close.map (s.setPipe side)
  | .receive side =>
    if s.result.isNone ∧ s.count < R.expected then
      match (s.pipe side).receive with
      | some (some o, p) => some ((s.setPipe side p).received R o side)
      | some (none, p) => some (s.setPipe side p)
      | none => none
    else none
  | .giveUp =>
    if s.result.isNone ∧ s.count < R.expected ∧ s.cancelled then
      some { s with result := some R.aborted }
    else none
  | .conclude =>
    if s.result.isNone ∧ s.count = R.expected then
      some { s with result := some (R.conclude s.fromBase s.fromSub) }
    else none

/-- The second channel is found closed only if its outcome has been received. -/
def TakesSub (s : State α β) (c : Choice) : Prop :=
  c = .receive .sub → s.sub = .closed → s.fromSub.isSome

instance [DecidableEq α] (s : State α β) (c : Choice) : Decidable (TakesSub s c) :=
  inferInstanceAs (Decidable (_ → _))

/-! ### What is received is the outcome of an operand -/

/-- What a channel may be, given the outcome of its operand and what was received from it. -/
def Pipe.Accounts (p : Pipe α) (outcome got : Option α) : Prop :=
  match p with
  | .running o => outcome = some o ∧ got = none
  | .sent o => outcome = some o ∧ got = none
  | .sentClosed o => outcome = some o ∧ got = none
  | .dropped => got = none
  | .taken => got = outcome ∧ outcome.isSome
  | _ => got = none ∨ got = outcome

/-- What a result rests on: a cancelled context, an outcome that settles the matter, or both. -/
def Founded (R : Reducer α β) (s : State α β) (b : β) : Prop :=
  s.cancelled = true ∧ b = R.aborted
    ∨ (∃ o, s.fromBase = some o ∧ R.onBase s.subOff o = some b
      ∧ ∀ o, s.fromSub = some o → R.onSub o = none)
    ∨ (∃ o, s.fromSub = some o ∧ R.onSub o = some b)
    ∨ s.count = R.expected ∧ (∀ o, s.fromBase = some o → ∃ off, R.onBase off o = none)
      ∧ (∀ o, s.fromSub = some o → R.onSub o = none) ∧ b = R.conclude s.fromBase s.fromSub

theorem Pipe.Accounts.got {p : Pipe α} {outcome got : Option α} (h : p.Accounts outcome got) {o : α}
    (ho : got = some o) : outcome = some o := by
  subst ho
  cases p <;> simp only [Pipe.Accounts] at h
  case running => cases h.2
  case sent => cases h.2
  case sentClosed => cases h.2
  case dropped => cases h
  case taken => exact h.1.symm
  case closed => exact (h.resolve_left (by simp)).symm
  case off => exact (h.resolve_left (by simp)).symm

variable {p p' : Pipe α} {outcome got : Option α}

/-- The routine of the operand goes on: the channel was selected, and still is. -/
def Pipe.Moves (p p' : Pipe α) : Prop :=
  (p ≠ .off ∧ p' ≠ .off) ∧ ∀ outcome got, p.Accounts outcome got → p'.Accounts outcome got

theorem Pipe.moves_of_send {cancelled send : Bool} (hs : p.send cancelled send = some p') :
    p.Moves p' := by
  rcases p with o | o | o | _ | _ | _ | _ <;> simp only [Pipe.send] at hs
  case running =>
    split_ifs at hs <;> cases hs
    · exact ⟨by simp, fun _ _ h => h⟩
    · exact ⟨by simp, fun _ _ h => h.2⟩
  all_goals cases hs

theorem Pipe.moves_of_close (hs : p.close = some p') : p.Moves p' := by
  rcases p with o | o | o | _ | _ | _ | _ <;> simp only [Pipe.close] at hs <;> cases hs
  · exact ⟨by simp, fun _ _ h => h⟩
  · exact ⟨by simp, fun _ _ h => .inl h⟩
  · exact ⟨by simp, fun _ _ h => .inr h.1⟩

theorem Pipe.Accounts.receive {o : α} (h : p.Accounts outcome got)
    (hs : p.receive = some (some o, p')) : p'.Accounts outcome (some o) := by
  rcases p with v | v | v | _ | _ | _ | _ <;> simp only [Pipe.receive] at hs <;> cases hs
  · exact ⟨h.1.symm, by rw [h.1]; rfl⟩
  · exact .inr h.1.symm

/-- Nothing is received from a closed channel only. -/
theorem Pipe.closed_of_receive (hs : p.receive = some (none, p')) : p = .closed ∧ p' = .off := by
  rcases p with v | v | v | _ | _ | _ | _ <;> simp only [Pipe.receive] at hs <;> cases hs
  exact ⟨rfl, rfl⟩

variable {s : State α β}

theorem subOff_iff : s.subOff = true ↔ s.sub = .off := by
  unfold State.subOff
  split <;> simp_all

/-- **The invariant of the reducer**, for the outcomes of the two operands; an operand that is not
there has none. -/
structure Inv (R : Reducer α β) (base sub : Option α) (s : State α β) : Prop where
  base : s.base.Accounts base s.fromBase
  sub : s.sub.Accounts sub s.fromSub
  onBase : s.result = none → ∀ o, s.fromBase = some o → ∃ off, R.onBase off o = none
  onSub : s.result = none → ∀ o, s.fromSub = some o → R.onSub o = none
  result : ∀ b, s.result = some b → Founded R s b

/-- Whoever has received as often as there are operands has received every outcome. -/
theorem Inv.all_of_count {R : Reducer α β} {base : α} {sub : Option α} (h : Inv R (some base) sub s)
    (hcount : s.count = 1 + sub.toList.length) : s.fromBase = some base ∧ s.fromSub = sub := by
  have hbase := @(h.base).got
  have hsub := @(h.sub).got
  unfold State.count at hcount
  cases h₁ : s.fromBase <;> cases h₂ : s.fromSub <;> cases sub <;> simp_all

/-- An operand that runs, or is not there. -/
def Pipe.ofOutcome : Option α → Pipe α
  | some o => .running o
  | none => .off

theorem Pipe.accounts_ofOutcome (outcome : Option α) :
    (Pipe.ofOutcome outcome).Accounts outcome none := by
  cases outcome with
  | none => exact .inl rfl
  | some o => exact ⟨rfl, rfl⟩

/-- The start: a context that is cancelled already ends the reducer at once. -/
def enter (R : Reducer α β) (cancelled : Bool) (base sub : Option α) : State α β where
  base := Pipe.ofOutcome base
  sub := Pipe.ofOutcome sub
  cancelled := cancelled
  result := if cancelled then some R.aborted else none

theorem inv_enter (R : Reducer α β) (cancelled : Bool) (base sub : Option α) :
    Inv R base sub (enter R cancelled base sub) where
  base := Pipe.accounts_ofOutcome base
  sub := Pipe.accounts_ofOutcome sub
  onBase := by simp [enter]
  onSub := by simp [enter]
  result := by
    intro b hb
    cases cancelled with
    | false => cases hb
    | true =>
      cases hb
      exact .inl ⟨rfl, rfl⟩

variable {R : Reducer α β} {base sub : Option α}

/-- A channel that goes on keeps the invariant, if it is selected as before. -/
theorem setPipe_inv (h : Inv R base sub s) {side : Side}
    (hp : ∀ outcome got, (s.pipe side).Accounts outcome got → p.Accounts outcome got)
    (hoff : s.result = none ∨ (s.setPipe side p).subOff = s.subOff) :
    Inv R base sub (s.setPipe side p) := by
  have hfounded : ∀ b, s.result = some b → Founded R (s.setPipe side p) b := by
    intro b hb
    have hoff : (s.setPipe side p).subOff = s.subOff :=
      hoff.resolve_left (by rw [hb]; exact Option.some_ne_none b)
    unfold Founded
    rw [hoff]
    cases side <;> exact h.result b hb
  cases side with
  | base => exact ⟨hp _ _ h.base, h.sub, h.onBase, h.onSub, hfounded⟩
  | sub => exact ⟨h.base, hp _ _ h.sub, h.onBase, h.onSub, hfounded⟩

/-- The second channel is off only if there is no second operand or its outcome was received. -/
def SubKept (sub : Option α) (s : State α β) : Prop :=
  s.sub = .off → sub = none ∨ s.fromSub.isSome

variable {s' : State α β} {c : Choice}

/-- The routine of an operand goes on. -/
theorem moves_inv (h : Inv R base sub s) {side : Side} (hp : (s.pipe side).Moves p) :
    Inv R base sub (s.setPipe side p) ∧ (SubKept sub s → SubKept sub (s.setPipe side p)) := by
  cases side with
  | base => exact ⟨setPipe_inv h hp.2 (.inr rfl), fun hkept => hkept⟩
  | sub =>
    refine ⟨setPipe_inv h hp.2 (.inr ?_), fun _ hoff => absurd hoff hp.1.2⟩
    rw [Bool.eq_iff_iff, subOff_iff, subOff_iff]
    exact iff_of_false hp.1.2 hp.1.1

/-- **A step keeps the invariant**, and the second channel unless it takes a dropped outcome for
the end of it. -/
theorem inv_step (h : Inv R base sub s) (hstep : step R s c = some s') :
    Inv R base sub s' ∧ (SubKept sub s → TakesSub s c → SubKept sub s') := by
  rcases c with _ | ⟨side, send⟩ | side | side | _ | _ <;> simp only [step] at hstep
  · split_ifs at hstep
    cases hstep
    exact ⟨⟨h.base, h.sub, h.onBase, h.onSub, fun b hb => absurd hb (by simp_all)⟩,
      fun hkept _ => hkept⟩
  · obtain ⟨p, hp, rfl⟩ := Option.map_eq_some_iff.mp hstep
    exact (moves_inv h (Pipe.moves_of_send hp)).imp_right fun hkept h _ => hkept h
  · obtain ⟨p, hp, rfl⟩ := Option.map_eq_some_iff.mp hstep
    exact (moves_inv h (Pipe.moves_of_close hp)).imp_right fun hkept h _ => hkept h
  · split_ifs at hstep with hfree
    have hnone : s.result = none := by simpa using hfree.1
    have hbaseNone := h.onBase hnone
    have hsubNone := h.onSub hnone
    split at hstep
    · rename_i o p hreceive
      cases hstep
      cases side with
      | base =>
        refine ⟨⟨h.base.receive hreceive, h.sub, fun hr o' ho' => ?_, fun _ => hsubNone,
          fun b hb => .inr (.inl ⟨o, rfl, hb, hsubNone⟩)⟩, fun hkept _ => hkept⟩
        obtain rfl : o = o' := Option.some.inj ho'
        exact ⟨_, hr⟩
      | sub =>
        refine ⟨⟨h.base, h.sub.receive hreceive, fun _ => hbaseNone, fun hr o' ho' => ?_,
          fun b hb => .inr (.inr (.inl ⟨o, rfl, hb⟩))⟩, fun _ _ _ => .inr rfl⟩
        obtain rfl : o = o' := Option.some.inj ho'
        exact hr
    · rename_i p hreceive
      obtain ⟨hclosed, rfl⟩ := Pipe.closed_of_receive hreceive
      cases hstep
      refine ⟨setPipe_inv h (fun _ _ hacc => ?_) (.inl hnone), fun hkept htakes => ?_⟩
      · rw [hclosed] at hacc
        exact hacc
      · cases side with
        | base => exact hkept
        | sub => exact fun _ => .inr (htakes rfl hclosed)
    · cases hstep
  · split_ifs at hstep with hfree
    have hnone : s.result = none := by simpa using hfree.1
    cases hstep
    refine ⟨⟨h.base, h.sub, fun _ => h.onBase hnone, fun _ => h.onSub hnone, fun b hb => ?_⟩,
      fun hkept _ => hkept⟩
    cases hb
    exact .inl ⟨hfree.2.2, rfl⟩
  · split_ifs at hstep with hfree
    have hnone : s.result = none := by simpa using hfree.1
    cases hstep
    refine ⟨⟨h.base, h.sub, fun _ => h.onBase hnone, fun _ => h.onSub hnone, fun b hb => ?_⟩,
      fun hkept _ => hkept⟩
    cases hb
    exact .inr (.inr (.inr ⟨hfree.2, h.onBase hnone, h.onSub hnone, rfl⟩))

section Run

variable {R : Reducer α β} {cancelled : Bool} {base sub : Option α} {s : State α β}
  {choices : List Choice}

open Runs

section

variable (hrun : run (step R) (enter R cancelled base sub) choices = some s)
include hrun

theorem run_inv : Inv R base sub s :=
  run_keeps (fun _ _ _ h hstep => (inv_step h hstep).1) (inv_enter R cancelled base sub) hrun

theorem run_subKept (htakes : Along (step R) TakesSub (enter R cancelled base sub) choices) :
    SubKept sub s :=
  (run_invariant (I := fun s => Inv R base sub s ∧ SubKept sub s)
    (fun _ _ _ h hP hstep => (inv_step h.1 hstep).imp_right fun hkept => hkept h.2 hP)
    ⟨inv_enter R cancelled base sub, fun hoff => .inl (by cases sub; rfl; cases hoff)⟩ htakes hrun).2

end

end Run

end Kengen.GatherPair
