import Mathlib

/-!
# Replaying a log of insertions and removals

A keyed collection is a list whose items have different keys.  Its log is a list of operations,
each of which inserts an item or removes a key.  Replaying the log is strict: `apply` refuses to
insert an item whose key is present and to remove a key that is absent, so a replay that
succeeds shows that neither ever happened.

* `replay_append` — a replay in two parts;
* `replay_insert` — the replay of one insertion of a new key;
* `replay_remove` — the replay of the removal of different keys that are all present.
-/

namespace Kengen.KeyedReplay

open List

variable {α κ : Type} [DecidableEq κ]

/-- One entry of the log. -/
inductive Op (α κ : Type) where
  | insert (a : α)
  | remove (k : κ)

/-- Apply one entry, if it is allowed. -/
def apply (key : α → κ) (l : List α) : Op α κ → Option (List α)
  | .insert a => if key a ∈ l.map key then none else some (l ++ [a])
  | .remove k => if k ∈ l.map key then some (l.filter fun a => key a ≠ k) else none

/-- Replay a log. -/
def replay (key : α → κ) (l : List α) : List (Op α κ) → Option (List α)
  | [] => some l
  | op :: rest => (apply key l op).bind fun l' => replay key l' rest

variable {key : α → κ}

theorem replay_append (l : List α) (ops ops' : List (Op α κ)) :
    replay key l (ops ++ ops') = (replay key l ops).bind fun l' => replay key l' ops' := by
  induction ops generalizing l with
  | nil => rfl
  | cons op rest ih =>
    simp only [cons_append, replay, Option.bind_assoc]
    exact congrArg (apply key l op).bind (funext ih)

theorem replay_insert {l : List α} {a : α} (h : key a ∉ l.map key) (rest : List (Op α κ)) :
    replay key l (.insert a :: rest) = replay key (l ++ [a]) rest := by
  rw [replay, apply, if_neg h, Option.bind_some]

/-- **Different keys that are all present are removed.** -/
theorem replay_remove {l : List α} {ks : List κ} (hnodup : ks.Nodup)
    (hpresent : ∀ k ∈ ks, k ∈ l.map key) :
    replay key l (ks.map .remove) = some (l.filter fun a => key a ∉ ks) := by
  induction ks generalizing l with
  | nil => simp [replay]
  | cons k ks ih =>
    obtain ⟨hk, hks⟩ := nodup_cons.mp hnodup
    have hrest : ∀ k' ∈ ks, k' ∈ (l.filter fun a => key a ≠ k).map key := by
      intro k' hk'
      obtain ⟨a, ha, rfl⟩ := mem_map.mp (hpresent k' (mem_cons_of_mem k hk'))
      refine mem_map_of_mem (mem_filter.mpr ⟨ha, ?_⟩)
      exact decide_eq_true fun he => hk (he ▸ hk')
    rw [map_cons, replay, apply, if_pos (hpresent k mem_cons_self), Option.bind_some,
      ih hks hrest, filter_filter]
    congr 1
    refine filter_congr fun a _ => ?_
    simp only [mem_cons, not_or, ne_eq, Bool.decide_and]
    rw [Bool.and_comm]

end Kengen.KeyedReplay
