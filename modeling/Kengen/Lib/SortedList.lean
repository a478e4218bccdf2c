import Mathlib

/-!
# Multiplicities in sorted lists

Streams that are merged by comparing their heads are sorted lists that may
repeat a value.  What a merge does to them is a statement about
multiplicities.  The lemmas here are about one sorted list and hold over any
linear order.

* **`count_eq_zero_of_lt_head`** — nothing below the head occurs.
* **`count_dropWhile_lt`** — skipping to a target loses no copy of a value at
  or above it.
* **`differenceCount`** — how often a two-pointer difference emits a value, with
  one lemma for each way the two heads can compare.
-/

namespace Kengen.SortedList

open List

variable {α : Type} [LinearOrder α]

variable {b o : α} {xs : List α}

theorem head_le_of_mem (h : (b :: xs).Pairwise (· ≤ ·)) (ho : o ∈ b :: xs) : b ≤ o := by
  rcases mem_cons.mp ho with rfl | ho
  · exact le_refl o
  · exact (pairwise_cons.mp h).1 o ho

/-- **Below the head of a sorted list nothing occurs.** -/
theorem count_eq_zero_of_lt_head (h : (b :: xs).Pairwise (· ≤ ·))
    (ho : o < b) : (b :: xs).count o = 0 :=
  count_eq_zero.mpr fun hmem => absurd (head_le_of_mem h hmem) (not_le.mpr ho)

/-- **Skipping to a target** keeps every copy of a value at or above it. -/
theorem count_dropWhile_lt (target o : α) (xs : List α) (ho : target ≤ o) :
    (xs.dropWhile fun x => decide (x < target)).count o = xs.count o := by
  induction xs with
  | nil => rfl
  | cons x xs ih =>
    by_cases hx : x < target
    · have hne : x ≠ o := fun h => absurd (h ▸ hx) (not_lt.mpr ho)
      simp [hx, ih, hne]
    · simp [hx]

theorem mem_dropWhile_lt {target p : α} (hp : p ∈ xs) (h : target ≤ p) :
    p ∈ xs.dropWhile fun x => decide (x < target) := by
  have hpos := count_pos_iff.mpr hp
  rw [← count_dropWhile_lt target p xs h] at hpos
  exact count_pos_iff.mp hpos

omit [LinearOrder α] in
/-- A list of two has only one element beside a given one. -/
theorem mem_unique_of_length_le_two {l : List α} (hl : l.length ≤ 2) {a c : α} (ha : a ∈ l)
    (hb : b ∈ l) (hc : c ∈ l) (hab : a ≠ b) (hac : a ≠ c) : c = b := by
  match l, hl with
  | [], _ => simp at ha
  | [x], _ => simp_all
  | [x, y], _ =>
    simp only [mem_cons, not_mem_nil, or_false] at ha hb hc
    grind

/-! ### Truncated differences -/

/-- How often a difference emits a value, given the values of the two operands and
whether the subtrahend ends in an error. -/
def differenceCount (o : α) (xs ys : List α) (failing : Bool) : ℕ :=
  if failing ∧ ∀ p ∈ ys, p ≤ o then 0 else xs.count o - ys.count o

theorem differenceCount_eq_zero_of_lt (hx : (b :: xs).Pairwise (· ≤ ·)) (ho : o < b) (ys : List α)
    (failing : Bool) : differenceCount o (b :: xs) ys failing = 0 := by
  unfold differenceCount
  rw [count_eq_zero_of_lt_head hx ho, Nat.zero_sub, ite_self]

variable {ys : List α}

/-- Equal heads cancel. -/
theorem differenceCount_cons_self (hx : (b :: xs).Pairwise (· ≤ ·)) (o : α) (failing : Bool) :
    differenceCount o (b :: xs) (b :: ys) failing = differenceCount o xs ys failing := by
  rcases lt_or_ge o b with ho | ho
  · rw [differenceCount_eq_zero_of_lt hx ho]
    have hzero : xs.count o = 0 := by
      have := count_eq_zero_of_lt_head hx ho
      rw [count_cons] at this
      omega
    simp [differenceCount, hzero]
  · have hcond : (∀ p ∈ b :: ys, p ≤ o) ↔ ∀ p ∈ ys, p ≤ o := by simp [ho]
    simp only [differenceCount, hcond, count_cons]
    split
    · rfl
    · omega

/-- A base head below the subtrahend's head comes out. -/
theorem differenceCount_cons_of_lt {d : α}
    (hy : (d :: ys).Pairwise (· ≤ ·)) (hbd : b < d) (o : α) (failing : Bool) :
    differenceCount o (b :: xs) (d :: ys) failing
      = differenceCount o xs (d :: ys) failing + if b == o then 1 else 0 := by
  by_cases hob : b = o
  · subst hob
    have hnot : ¬ ∀ p ∈ d :: ys, p ≤ b := fun h => absurd (h d (by simp)) (not_le.mpr hbd)
    simp only [differenceCount, hnot, and_false, if_false, count_eq_zero_of_lt_head hy hbd]
    simp
  · simp [differenceCount, hob]

/-- Values of the subtrahend below the base head do not matter. -/
theorem differenceCount_dropWhile {d : α} (hx : (b :: xs).Pairwise (· ≤ ·))
    (hdb : d < b) (o : α) (failing : Bool) :
    differenceCount o (b :: xs) (d :: ys) failing
      = differenceCount o (b :: xs) (ys.dropWhile fun y => decide (y < b)) failing := by
  rcases lt_or_ge o b with ho | ho
  · rw [differenceCount_eq_zero_of_lt hx ho, differenceCount_eq_zero_of_lt hx ho]
  · have hcond : (∀ p ∈ d :: ys, p ≤ o) ↔ ∀ p ∈ ys.dropWhile fun y => decide (y < b), p ≤ o := by
      constructor
      · intro h p hp
        exact h p (mem_cons_of_mem d (dropWhile_sublist _ |>.mem hp))
      · intro h p hp
        rcases mem_cons.mp hp with rfl | hp
        · exact hdb.le.trans ho
        · rcases lt_or_ge p b with hpb | hpb
          · exact hpb.le.trans ho
          · exact h p (mem_dropWhile_lt hp hpb)
    have hcount : (d :: ys).count o = (ys.dropWhile fun y => decide (y < b)).count o := by
      rw [count_dropWhile_lt b o ys ho, count_cons_of_ne (by exact (hdb.trans_le ho).ne)]
    simp only [differenceCount, hcond, hcount]

end Kengen.SortedList
