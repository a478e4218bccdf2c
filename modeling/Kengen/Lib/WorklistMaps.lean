import Kengen.Lib.Worklist

/-!
# Traversals of graphs with cycles

Two facts about traversals that share a map of visited keys.

* **`Forgets.run`** — a traversal of tasks with some more data runs like the one without, if the data
  have no influence on keys, on children and on results.
* **`run_bounded_by_keys`** — tasks with a key are taken once for each key, so with finitely many keys
  every run ends, also when tasks lead back to themselves.
-/

namespace Kengen.Worklist

open Runs List

variable {τ τ' κ ω ω' : Type}

/-! ### Forgetting a part of the tasks -/

/-- The tasks of one traversal are those of another one, without a part that makes no difference. -/
structure Forgets (S : Search τ κ ω) (S' : Search τ' κ ω') (f : τ → τ') (g : ω → ω') : Prop where
  key : ∀ t, S'.key (f t) = S.key t
  children : ∀ t, S'.children (f t) = (S.children t).map (List.map f)
  results : ∀ t, S'.results (f t) = (S.results t).map g

def State.map (f : τ → τ') (g : ω → ω') (s : State τ κ ω) : State τ' κ ω' :=
  ⟨s.visited, s.pending.map f, s.emitted.map g, s.failed⟩

variable [DecidableEq κ] {S : Search τ κ ω} {S' : Search τ' κ ω'} {f : τ → τ'} {g : ω → ω'}

theorem Forgets.seen (h : Forgets S S' f g) (visited : List κ) (t : τ) :
    S'.seen visited (f t) = S.seen visited t := by
  simp only [Search.seen, h.key]

/-- **One step.** -/
theorem Forgets.step (h : Forgets S S' f g) {s s' : State τ κ ω} {i : ℕ}
    (hs : S.step s i = some s') : S'.step (s.map f g) i = some (s'.map f g) := by
  obtain ⟨t, ht, hf, -⟩ := step_cases S hs
  have ht' : (s.map f g).pending[i]? = some (f t) := by
    simp only [State.map, getElem?_map, ht, Option.map_some]
  have hf' : (s.map f g).failed = false := hf
  unfold Search.step at hs ⊢
  rw [hf', ht']
  rw [hf, ht] at hs
  simp only [Bool.false_eq_true, if_false, h.children] at hs ⊢
  have hseen : S'.seen (s.map f g).visited (f t) = S.seen s.visited t := h.seen _ t
  rw [hseen]
  split
  · rename_i hseen'
    rw [if_pos hseen'] at hs
    cases hs
    simp [State.map, eraseIdx_map]
  · rename_i hseen'
    rw [if_neg hseen'] at hs
    cases hchildren : S.children t with
    | none =>
      rw [hchildren] at hs
      cases hs
      simp [State.map, eraseIdx_map]
    | some ts =>
      rw [hchildren] at hs
      cases hs
      simp [State.map, eraseIdx_map, h.key, h.results]

/-- **A run of the tasks is a run of what is left of them.** -/
theorem Forgets.run (h : Forgets S S' f g) {choices : List ℕ} {s s' : State τ κ ω}
    (hrun : Runs.run S.step s choices = some s') :
    Runs.run S'.step (s.map f g) choices = some (s'.map f g) := by
  induction choices generalizing s with
  | nil =>
    cases hrun
    rfl
  | cons i choices ih =>
    obtain ⟨_, hstep, hrest⟩ := run_cons hrun
    rw [Runs.run, h.step hstep]
    exact ih hrest

/-! ### Runs end -/

/-- The keys that are not visited yet. -/
def keysLeft (keys visited : List κ) : ℕ := (keys.filter fun k => decide (k ∉ visited)).length

theorem keysLeft_cons_lt {keys visited : List κ} {k : κ} (hk : k ∈ keys) (hnot : k ∉ visited) :
    keysLeft keys (k :: visited) < keysLeft keys visited := by
  have hsplit : (keys.filter fun x => decide (x ∉ k :: visited))
      = (keys.filter fun x => decide (x ∉ visited)).filter fun x => decide (x ≠ k) := by
    rw [filter_filter]
    refine filter_congr fun x _ => ?_
    simp
  unfold keysLeft
  rw [hsplit]
  refine length_filter_lt_length_iff_exists.mpr ⟨k, ?_, by simp⟩
  exact mem_filter.mpr ⟨hk, by simpa using hnot⟩

/-- Tasks without a key are taken before all others. -/
def keyRank (S : Search τ κ ω) (t : τ) : ℕ := if (S.key t).isNone then 1 else 0

omit [DecidableEq κ] in
theorem keyRank_of_some {t : τ} {k : κ} (h : S.key t = some k) : keyRank S t = 0 := by
  simp [keyRank, h]

omit [DecidableEq κ] in
theorem potential_children_le {keys : List κ} {width : ℕ} {ts : List τ} (hlen : ts.length ≤ width)
    (hkeys : ∀ t ∈ ts, ∃ k ∈ keys, S.key t = some k) : potential (keyRank S) width ts ≤ width := by
  have hone : ∀ x ∈ ts.map fun t => (width + 2) ^ keyRank S t, x ≤ 1 := by
    intro x hx
    obtain ⟨t, ht, rfl⟩ := mem_map.mp hx
    obtain ⟨k, -, hk⟩ := hkeys t ht
    rw [keyRank_of_some hk, pow_zero]
  refine (sum_le_card_nsmul _ 1 hone).trans ?_
  simpa using hlen

/-- A task that is taken outweighs the keys and the tasks that come in its place. -/
theorem weight_step {keys visited : List κ} {t : τ} (width : ℕ) (hseen : S.seen visited t = false)
    (hkey : ∀ k, S.key t = some k → k ∈ keys) :
    keysLeft keys ((S.key t).toList ++ visited) * (width + 2) + width
      < keysLeft keys visited * (width + 2) + (width + 2) ^ keyRank S t := by
  cases hk : S.key t with
  | none =>
    have hrank : keyRank S t = 1 := by simp [keyRank, hk]
    rw [hrank, pow_one]
    simp
  | some k =>
    have hnot : k ∉ visited := by
      unfold Search.seen at hseen
      rw [hk] at hseen
      exact of_decide_eq_false hseen
    have hlt := keysLeft_cons_lt (hkey k hk) hnot
    have hmul := Nat.mul_le_mul_right (width + 2) (Nat.succ_le_of_lt hlt)
    rw [Nat.succ_mul] at hmul
    simp only [Option.toList_some, singleton_append, keyRank_of_some hk, pow_zero]
    omega

/-- **Finitely many keys bound the length of all runs**, if only tasks of the start have none. -/
theorem run_bounded_by_keys {start : List τ} {keys : List κ} {width : ℕ}
    (hwidth : ∀ t ts, S.Reach start t → S.children t = some ts → ts.length ≤ width)
    (hkeys : ∀ t ts, S.Reach start t → S.children t = some ts →
      ∀ t' ∈ ts, ∃ k ∈ keys, S.key t' = some k)
    (hstart : ∀ t ∈ start, ∀ k, S.key t = some k → k ∈ keys)
    {choices : List ℕ} {s : State τ κ ω}
    (hrun : run S.step (Search.init start) choices = some s) :
    choices.length ≤ keys.length * (width + 2) + potential (keyRank S) width start := by
  have hkey : ∀ t, S.Reach start t → ∀ k, S.key t = some k → k ∈ keys := by
    intro t ht
    induction ht with
    | start ht => exact hstart _ ht
    | child ht hts ht' _ =>
      obtain ⟨k, hk, hkey⟩ := hkeys _ _ ht hts _ ht'
      intro k' hk'
      obtain rfl := Option.some.inj (hkey.symm.trans hk')
      exact hk
  have hle := run_bounded_by_weight (keyRank S) width
    (fun visited => keysLeft keys visited * (width + 2))
    (fun t ts visited ht hts hseen => ?_) hrun
  · have hkeysLeft : keysLeft keys [] = keys.length := by simp [keysLeft]
    rwa [hkeysLeft] at hle
  · have hlt := potential_children_le (hwidth t ts ht hts) (hkeys t ts ht hts)
    have hweight := weight_step width hseen (hkey t ht)
    omega

end Kengen.Worklist
