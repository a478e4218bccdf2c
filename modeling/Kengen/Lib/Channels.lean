import Mathlib

/-!
# Channels that several senders share, and maps filled from them

General facts about the message lists of concurrent senders.

* `Shuffle xs ys zs` — `zs` is what a receiver sees of two senders, each in its
  own order; `Received` is the same for any number of senders.
* `latest key messages k` — what a map holds under `k` once every message was
  stored under its key: the last one wins.
* `Enumerates keys p` — an iteration over a map: every key once, in any order.

Main facts:

* **`mem_received`** — a receiver sees exactly the messages of the senders.
* **`received_flatten`** — one sender after the other is a possible order.
* **`latest_mem`**, **`latest_isSome`** — the map holds a message of the key, and
  holds one as soon as there is one.
-/

namespace Kengen.Channels

open List

variable {α κ : Type}

/-! ### Several senders -/

/-- `zs` takes the messages of `xs` and of `ys`, each in its order. -/
inductive Shuffle : List α → List α → List α → Prop
  | nil : Shuffle [] [] []
  | left {x : α} {xs ys zs : List α} : Shuffle xs ys zs → Shuffle (x :: xs) ys (x :: zs)
  | right {y : α} {xs ys zs : List α} : Shuffle xs ys zs → Shuffle xs (y :: ys) (y :: zs)

theorem Shuffle.mem_iff {xs ys zs : List α} (h : Shuffle xs ys zs) (m : α) :
    m ∈ zs ↔ m ∈ xs ∨ m ∈ ys := by
  induction h with
  | nil => simp
  | left _ ih => simp only [mem_cons, ih, or_assoc]
  | right _ ih => simp only [mem_cons, ih]; tauto

theorem shuffle_append (xs ys : List α) : Shuffle xs ys (xs ++ ys) := by
  induction xs with
  | nil =>
    induction ys with
    | nil => exact .nil
    | cons y ys ih => exact .right ih
  | cons x xs ih => exact .left ih

/-- What a receiver sees of the senders `outs`. -/
def Received : List (List α) → List α → Prop
  | [], seen => seen = []
  | out :: outs, seen => ∃ rest, Received outs rest ∧ Shuffle out rest seen

/-- **The receiver sees exactly the messages of the senders.** -/
theorem mem_received {outs : List (List α)} {seen : List α} (h : Received outs seen) (m : α) :
    m ∈ seen ↔ ∃ out ∈ outs, m ∈ out := by
  induction outs generalizing seen with
  | nil =>
    have : seen = [] := h
    simp [this]
  | cons out outs ih =>
    obtain ⟨rest, hrest, hsh⟩ := h
    rw [hsh.mem_iff, ih hrest]
    simp

/-- **One sender after the other is a possible order.** -/
theorem received_flatten (outs : List (List α)) : Received outs outs.flatten := by
  induction outs with
  | nil => exact rfl
  | cons out outs ih => exact ⟨outs.flatten, ih, shuffle_append out outs.flatten⟩

/-- A sender of its own and a family of senders on one channel. -/
theorem mem_received_ofFn {n : ℕ} {own : List α} {outs : Fin n → List α} {seen : List α}
    (h : Received (own :: List.ofFn outs) seen) (m : α) : m ∈ seen ↔ m ∈ own ∨ ∃ i, m ∈ outs i := by
  rw [mem_received h]
  simp [mem_ofFn]

/-! ### Maps filled from a channel -/

variable [DecidableEq κ]

/-- The map entry under `k` after all the messages were stored under their keys. -/
def latest (key : α → κ) (messages : List α) (k : κ) : Option α :=
  messages.reverse.find? fun m => decide (key m = k)

variable {key : α → κ} {messages : List α} {k : κ}

theorem latest_mem {m : α} (h : latest key messages k = some m) : m ∈ messages ∧ key m = k := by
  refine ⟨mem_reverse.mp (mem_of_find?_eq_some h), ?_⟩
  simpa using List.find?_some h

theorem latest_eq_none :
    latest key messages k = none ↔ ∀ m ∈ messages, key m ≠ k := by
  simp [latest, List.find?_eq_none]

theorem latest_isSome :
    (latest key messages k).isSome = true ↔ ∃ m ∈ messages, key m = k := by
  rw [← not_iff_not, Bool.not_eq_true, Option.isSome_eq_false_iff, Option.isNone_iff_eq_none,
    latest_eq_none]
  simp

/-- An iteration over a map with the keys `p`. -/
def Enumerates (keys : List κ) (p : κ → Prop) : Prop := keys.Nodup ∧ ∀ k, k ∈ keys ↔ p k

/-! ### Counting -/

/-- Two counters of disjoint cases reach the number of entries together exactly
when every entry falls in one of the cases. -/
theorem countP_add_eq_length {p q : α → Bool} (hdisjoint : ∀ x, ¬ (p x = true ∧ q x = true))
    (l : List α) : l.countP p + l.countP q = l.length ↔ ∀ x ∈ l, p x = true ∨ q x = true := by
  have hsum : l.countP p + l.countP q = l.countP fun x => p x || q x := by
    induction l with
    | nil => rfl
    | cons x l ih =>
      simp only [countP_cons, ← ih]
      rcases hp : p x with _ | _ <;> rcases hq : q x with _ | _
      · simp
      · simp; omega
      · simp; omega
      · exact absurd ⟨hp, hq⟩ (hdisjoint x)
  rw [hsum, countP_eq_length]
  simp

end Kengen.Channels
