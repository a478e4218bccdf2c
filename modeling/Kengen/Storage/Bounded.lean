import Mathlib

/-!
# The bounded reader

`BoundedTupleReader` sends to the channel `limiter` before it calls the wrapped reader and receives
from it behind the call.  The receive of `done` does not block, so that one too many would not be
noticed.

* `Phase`, `Call`, `State` — the calls of the four methods on one reader.
* `advance`, `step` — what one call does next, in any interleaving.
* **`inv_step`** — the channel has an element for each call that holds a slot.
* **`limiter_balanced`** — slots are bounded, released once, and all free in the end.
-/

namespace Kengen.Storage

open List

/-- The methods of the wrapped reader. -/
inductive Operation
  | readUserTuple
  | read
  | readUsersetTuples
  | readStartingWithUser

structure BoundedTupleReader where
  concurrency : ℕ
  /-- The channel has a buffer. -/
  concurrency_pos : 1 ≤ concurrency
  throttlingEnabled : Bool
  threshold : ℤ

namespace BoundedTupleReader

variable {ρ : Type}

/-- Where a call stands.  Results are values, errors and panics. -/
inductive Phase (ρ : Type)
  /-- At the `select` of `waitForLimiter`. -/
  | waiting
  /-- Behind it, with a slot. -/
  | admitted
  /-- At the `select` of `bound`. -/
  | throttled
  /-- In the wrapped call. -/
  | running
  /-- `done` is next, and then the result is returned. -/
  | leaving (result : ρ)
  | finished (result : ρ)

def Phase.isRunning : Phase ρ → Bool
  | .running => true
  | _ => false

/-- The call has a slot. -/
def Phase.holds : Phase ρ → Bool
  | .waiting | .finished _ => false
  | _ => true

structure Call (ρ : Type) where
  operation : Operation
  phase : Phase ρ := .waiting
  /-- How often the call has sent to the channel. -/
  acquired : ℕ := 0
  /-- How often the call has received from the channel. -/
  released : ℕ := 0

structure State (ρ : Type) where
  /-- The number of elements in the channel. -/
  limiter : ℕ := 0
  countReads : ℕ := 0
  /-- How often `done` has found the channel empty. -/
  missed : ℕ := 0
  calls : List (Call ρ) := []

/-- What happens to a call. -/
inductive Event (ρ : Type)
  /-- The context is done, and a `select` takes that case. -/
  | cancel (err : ρ)
  /-- The wrapped call ends. -/
  | returns (result : ρ)
  /-- The call goes on; at a `select` it takes the other case. -/
  | proceed

def throttles (r : BoundedTupleReader) (reads : ℕ) : Bool :=
  r.throttlingEnabled && 0 < r.threshold && r.threshold < reads

/-- The four methods, each with its own wrapped call: `bound`, the wrapped call, `done`. -/
def advance (r : BoundedTupleReader) (s : State ρ) (c : Call ρ) :
    Event ρ → Option (State ρ × Call ρ)
  | .cancel err =>
    match c.phase with
    | .waiting => some (s, { c with phase := .finished err })
    | .throttled => some (s, { c with phase := .leaving err })
    | _ => none
  | .returns result =>
    match c.phase with
    | .running => some (s, { c with phase := .leaving result })
    | _ => none
  | .proceed =>
    match c.phase with
    | .waiting =>
      if s.limiter < r.concurrency then
        some ({ s with limiter := s.limiter + 1 },
          { c with phase := .admitted, acquired := c.acquired + 1 })
      else none
    | .admitted =>
      -- `increaseReads`
      let reads := (s.countReads + 1) % 2 ^ 32
      some ({ s with countReads := reads },
        { c with phase := if r.throttles reads then .throttled else .running })
    | .throttled => some (s, { c with phase := .running })
    | .leaving result =>
      -- `done`
      if 0 < s.limiter then
        some ({ s with limiter := s.limiter - 1 },
          { c with phase := .finished result, released := c.released + 1 })
      else some ({ s with missed := s.missed + 1 }, { c with phase := .finished result })
    | _ => none

/-- A call is started, or one goes on. -/
inductive Choice (ρ : Type)
  | start (operation : Operation)
  | event (i : ℕ) (event : Event ρ)

/-- One step; a choice that is not possible changes nothing. -/
def step (r : BoundedTupleReader) (s : State ρ) : Choice ρ → State ρ
  | .start operation => { s with calls := s.calls ++ [{ operation }] }
  | .event i event =>
    match s.calls[i]?.bind (r.advance s · event) with
    | some (s', c) => { s' with calls := s.calls.set i c }
    | none => s

/-- What a call has sent and received, by where it stands. -/
def Call.Balanced (c : Call ρ) : Prop :=
  match c.phase with
  | .waiting => c.acquired = 0 ∧ c.released = 0
  | .finished _ => c.acquired ≤ 1 ∧ c.released = c.acquired
  | _ => c.acquired = 1 ∧ c.released = 0

/-- **The channel has an element for each call that holds a slot.** -/
structure Inv (r : BoundedTupleReader) (s : State ρ) : Prop where
  held : s.limiter = s.calls.countP (·.phase.holds)
  bounded : s.limiter ≤ r.concurrency
  missed : s.missed = 0
  balanced : ∀ c ∈ s.calls, c.Balanced

variable {r : BoundedTupleReader} {s s' : State ρ} {c c' : Call ρ}

/-- One call takes and gives back its own slot only. -/
theorem advance_spec {event : Event ρ} (hc : c.Balanced) (hheld : c.phase.holds → 0 < s.limiter)
    (h : r.advance s c event = some (s', c')) :
    c'.Balanced ∧ s'.limiter + c.phase.holds.toNat = s.limiter + c'.phase.holds.toNat
      ∧ s'.missed = s.missed ∧ (s'.limiter ≤ s.limiter ∨ s'.limiter ≤ r.concurrency) := by
  obtain ⟨operation, phase, acquired, released⟩ := c
  cases event with
  | cancel err | returns result =>
    cases phase <;> cases h
    all_goals simp_all [Call.Balanced, Phase.holds]
  | proceed =>
    cases phase with
    | waiting =>
      simp only [advance] at h
      split_ifs at h with hfree
      cases h
      obtain ⟨rfl, rfl⟩ := hc
      exact ⟨⟨rfl, rfl⟩, rfl, rfl, .inr hfree⟩
    | admitted =>
      cases h
      cases r.throttles ((s.countReads + 1) % 2 ^ 32)
      all_goals exact ⟨hc, rfl, rfl, .inl (Nat.le_refl _)⟩
    | throttled =>
      cases h
      exact ⟨hc, rfl, rfl, .inl (Nat.le_refl _)⟩
    | running | finished _ => cases h
    | leaving result =>
      -- the call's own slot is there: `done` receives
      have hpos := hheld rfl
      simp only [advance, if_pos hpos] at h
      cases h
      obtain ⟨rfl, rfl⟩ := hc
      exact ⟨⟨Nat.le_refl 1, rfl⟩, Nat.sub_add_cancel hpos, rfl, .inl (Nat.sub_le _ _)⟩

theorem inv_step (h : Inv r s) (choice : Choice ρ) : Inv r (r.step s choice) := by
  cases choice with
  | start operation =>
    refine ⟨by simpa [step, Phase.holds] using h.held, h.bounded, h.missed, ?_⟩
    exact forall_mem_append.mpr ⟨h.balanced, forall_mem_singleton.mpr ⟨rfl, rfl⟩⟩
  | event i event =>
    simp only [step]
    split
    · rename_i s' c' heq
      obtain ⟨c, hi, hadvance⟩ := Option.bind_eq_some_iff.mp heq
      have hmem := mem_of_getElem? hi
      have hheld : c.phase.holds → 0 < s.limiter := fun hc => by
        rw [h.held]
        exact countP_pos_iff.mpr ⟨c, hmem, hc⟩
      obtain ⟨hbalanced, hlimiter, hmissed, hle⟩ := advance_spec (h.balanced c hmem) hheld hadvance
      refine ⟨?_, hle.elim (Nat.le_trans · h.bounded) id, hmissed.trans h.missed, ?_⟩
      · obtain ⟨hlt, rfl⟩ := List.getElem?_eq_some_iff.mp hi
        simp only [countP_set hlt, ← h.held]
        grind [Bool.toNat]
      · intro d hd
        rcases mem_or_eq_of_mem_set hd with hd | rfl
        · exact h.balanced d hd
        · exact hbalanced
    · exact h

/-- **The limiter is balanced**, whatever the calls, their interleaving, the results of the
wrapped calls and the cancellations. -/
theorem limiter_balanced (r : BoundedTupleReader) (choices : List (Choice ρ)) :
    let s := choices.foldl r.step {}
    s.calls.countP (·.phase.isRunning) ≤ r.concurrency
      -- no call receives from the channel more often than it has sent, and none finds it empty
      ∧ (∀ c ∈ s.calls, c.acquired ≤ 1 ∧ c.released ≤ c.acquired) ∧ s.missed = 0
      -- a call that is over has released what it has acquired
      ∧ (∀ c ∈ s.calls, ∀ result, c.phase = .finished result → c.released = c.acquired)
      -- no call is in progress
      ∧ ((∀ c ∈ s.calls, ∃ result, c.phase = .finished result) → s.limiter = 0) := by
  intro s
  have h : Inv r s := foldlRecOn choices _ ⟨rfl, Nat.zero_le _, rfl, nofun⟩
    fun s hs choice _ => inv_step hs choice
  refine ⟨?_, fun c hc => ?_, h.missed, fun c hc result hphase => ?_, fun hall => ?_⟩
  · refine Nat.le_trans (countP_mono_left fun c _ hc => ?_) (h.held ▸ h.bounded)
    cases hphase : c.phase <;> simp_all [Phase.isRunning, Phase.holds]
  · have hbalanced := h.balanced c hc
    unfold Call.Balanced at hbalanced
    split at hbalanced <;> omega
  · have hbalanced := h.balanced c hc
    rw [Call.Balanced, hphase] at hbalanced
    exact hbalanced.2
  · rw [h.held, countP_eq_zero]
    intro c hc
    obtain ⟨result, hphase⟩ := hall c hc
    rw [hphase]
    exact Bool.false_ne_true

end BoundedTupleReader

end Kengen.Storage
