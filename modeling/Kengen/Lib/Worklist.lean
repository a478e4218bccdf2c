import Kengen.Lib.Runs

/-!
# Traversals that share a map of visited keys

A traversal is a set of pending tasks.  A task that is taken gives results and
further tasks, or fails; a task whose key was visited before is dropped.  The
scheduler may take any pending task next.

* **`run_emitted`** — every result is one of a task that can be reached.
* **`run_exhausts`** — if tasks with the same key are the same task and none of them fails, no
  run fails, and one that leaves nothing pending has the results of every task that
  can be reached.
* **`reach_sound`**, **`reach_meaning`** — if each task means (at least) what its results and its
  children mean, the results of the reached tasks are (in) the meaning of the start.
* **`run_bounded`** — tasks whose rank goes down to their children, with a bounded number
  of children each, bound the length of all runs.

Without the condition of `run_exhausts` a task can be dropped in favour of another
one with other results, and the outcome depends on the schedule.
-/

namespace Kengen.Worklist

open Runs List

variable {τ κ ω : Type}

/-- The tasks of a traversal: the key under which a task is remembered, its
children, and its results. -/
structure Search (τ κ ω : Type) where
  key : τ → Option κ
  children : τ → Option (List τ)
  results : τ → List ω

structure State (τ κ ω : Type) where
  visited : List κ
  pending : List τ
  emitted : List ω
  failed : Bool

/-- The tasks that can be reached. -/
inductive Search.Reach (S : Search τ κ ω) (start : List τ) : τ → Prop
  | start {t : τ} (h : t ∈ start) : S.Reach start t
  | child {t t' : τ} {ts : List τ} (h : S.Reach start t) (hts : S.children t = some ts)
      (ht' : t' ∈ ts) : S.Reach start t'

/-- The tasks, their children, and so on for a number of generations. -/
def Search.generations (S : Search τ κ ω) : ℕ → List τ → List τ
  | 0, ts => ts
  | n + 1, ts => ts ++ S.generations n (ts.flatMap fun t => (S.children t).getD [])

variable [DecidableEq κ] (S : Search τ κ ω)

/-- The task was visited before. -/
def Search.seen (visited : List κ) (t : τ) : Bool :=
  match S.key t with
  | none => false
  | some k => decide (k ∈ visited)

/-- Take the pending task at a position. -/
def Search.step (s : State τ κ ω) (i : ℕ) : Option (State τ κ ω) :=
  if s.failed then none
  else match s.pending[i]? with
    | none => none
    | some t =>
      if S.seen s.visited t then some { s with pending := s.pending.eraseIdx i }
      else match S.children t with
        | none => some { s with pending := s.pending.eraseIdx i, failed := true }
        | some ts => some
            { s with
              visited := (S.key t).toList ++ s.visited
              pending := s.pending.eraseIdx i ++ ts
              emitted := s.emitted ++ S.results t }

def Search.init (start : List τ) : State τ κ ω := ⟨[], start, [], false⟩

variable {s s' : State τ κ ω} {i : ℕ}

/-- The three outcomes of a step. -/
theorem step_cases (h : S.step s i = some s') :
    ∃ t, s.pending[i]? = some t ∧ s.failed = false
      ∧ ((S.seen s.visited t = true ∧ s' = { s with pending := s.pending.eraseIdx i })
        ∨ (S.children t = none
          ∧ s' = { s with pending := s.pending.eraseIdx i, failed := true })
        ∨ ∃ ts, S.children t = some ts ∧ S.seen s.visited t = false
          ∧ s' = { s with
              visited := (S.key t).toList ++ s.visited
              pending := s.pending.eraseIdx i ++ ts
              emitted := s.emitted ++ S.results t }) := by
  unfold Search.step at h
  split_ifs at h with hf
  split at h
  · cases h
  rename_i t ht
  refine ⟨t, ht, by simpa using hf, ?_⟩
  split at h
  · rename_i hseen
    exact .inl ⟨hseen, (Option.some.inj h).symm⟩
  · rename_i hseen
    split at h
    · rename_i hnone
      exact .inr (.inl ⟨hnone, (Option.some.inj h).symm⟩)
    · rename_i ts hts
      exact .inr (.inr ⟨ts, hts, Bool.not_eq_true _ ▸ hseen, (Option.some.inj h).symm⟩)

variable {t : τ}

theorem mem_or_eraseIdx {l : List τ} {x : τ} (h : l[i]? = some t) (hx : x ∈ l) :
    x = t ∨ x ∈ l.eraseIdx i := by
  obtain ⟨hi, rfl⟩ := List.getElem?_eq_some_iff.mp h
  by_cases hxt : x = l[i]
  · exact .inl hxt
  · refine .inr (mem_eraseIdx_iff_getElem.mpr ?_)
    obtain ⟨j, hj, rfl⟩ := mem_iff_getElem.mp hx
    exact ⟨j, hj, fun hij => hxt (by subst hij; rfl), rfl⟩

/-! ### Results come from reached tasks -/

variable {S}

variable {start : List τ}

theorem step_sound
    (hs : (∀ t ∈ s.pending, S.Reach start t)
      ∧ ∀ o ∈ s.emitted, ∃ t, S.Reach start t ∧ o ∈ S.results t)
    (h : S.step s i = some s') :
    (∀ t ∈ s'.pending, S.Reach start t)
      ∧ ∀ o ∈ s'.emitted, ∃ t, S.Reach start t ∧ o ∈ S.results t := by
  obtain ⟨t, ht, -, ⟨-, rfl⟩ | ⟨-, rfl⟩ | ⟨ts, hts, -, rfl⟩⟩ := step_cases S h
  · exact ⟨fun t' ht' => hs.1 t' (mem_of_mem_eraseIdx ht'), hs.2⟩
  · exact ⟨fun t' ht' => hs.1 t' (mem_of_mem_eraseIdx ht'), hs.2⟩
  · have hreach := hs.1 t (mem_of_getElem? ht)
    refine ⟨fun t' ht' => ?_, fun o ho => ?_⟩
    · rcases mem_append.mp ht' with ht' | ht'
      · exact hs.1 t' (mem_of_mem_eraseIdx ht')
      · exact .child hreach hts ht'
    · rcases mem_append.mp ho with ho | ho
      · exact hs.2 o ho
      · exact ⟨t, hreach, ho⟩

variable {choices : List ℕ}

/-- **Every result is one of a task that can be reached.** -/
theorem run_emitted (hrun : run S.step (Search.init start) choices = some s) {o : ω}
    (ho : o ∈ s.emitted) : ∃ t, S.Reach start t ∧ o ∈ S.results t := by
  refine (run_keeps (fun s i s' hs h => step_sound hs h) ?_ hrun).2 o ho
  exact ⟨fun t ht => .start ht, fun o ho => absurd ho not_mem_nil⟩

/-! ### Every reached task is done -/

/-- What is done and what is pending cover the tasks found so far. -/
structure Covers (S : Search τ κ ω) (start : List τ) (done : List τ) (s : State τ κ ω) :
    Prop where
  starts : ∀ t ∈ start, t ∈ done ∨ t ∈ s.pending
  children : ∀ t ∈ done, ∀ ts, S.children t = some ts → ∀ t' ∈ ts, t' ∈ done ∨ t' ∈ s.pending
  reach : ∀ t, t ∈ done ∨ t ∈ s.pending → S.Reach start t
  visited : ∀ k ∈ s.visited, ∃ t ∈ done, S.key t = some k
  emitted : ∀ o, o ∈ s.emitted ↔ ∃ t ∈ done, o ∈ S.results t
  failed : s.failed = false

section

variable
  (hkey : ∀ t t' k, S.Reach start t → S.Reach start t' → S.key t = some k → S.key t' = some k → t = t')
  (hok : ∀ t, S.Reach start t → S.children t ≠ none)
include hkey hok

theorem step_covers {done : List τ} (hs : Covers S start done s) (h : S.step s i = some s') :
    ∃ done', Covers S start done' s' := by
  obtain ⟨t, ht, hf, ⟨hseen, rfl⟩ | ⟨hnone, -⟩ | ⟨ts, hts, -, rfl⟩⟩ := step_cases S h
  · -- The dropped task has the key of a task that is done, so it is that task.
    have hdone : t ∈ done := by
      unfold Search.seen at hseen
      split at hseen
      · cases hseen
      rename_i k hk
      obtain ⟨t', ht', hk'⟩ := hs.visited k (of_decide_eq_true hseen)
      rwa [hkey t t' k (hs.reach t (.inr (mem_of_getElem? ht))) (hs.reach t' (.inl ht'))
        hk hk']
    have hmove : ∀ x, x ∈ done ∨ x ∈ s.pending → x ∈ done ∨ x ∈ s.pending.eraseIdx i := by
      rintro x (hx | hx)
      · exact .inl hx
      · rcases mem_or_eraseIdx ht hx with rfl | hx
        · exact .inl hdone
        · exact .inr hx
    refine ⟨done, fun x hx => hmove x (hs.starts x hx),
      fun x hx xs hxs y hy => hmove y (hs.children x hx xs hxs y hy), fun x hx => hs.reach x ?_,
      hs.visited, hs.emitted, hf⟩
    exact hx.imp (fun hx => hx) mem_of_mem_eraseIdx
  · exact absurd hnone (hok t (hs.reach t (.inr (mem_of_getElem? ht))))
  · have hreach := hs.reach t (.inr (mem_of_getElem? ht))
    have hmove : ∀ x, x ∈ done ∨ x ∈ s.pending →
        x ∈ t :: done ∨ x ∈ s.pending.eraseIdx i ++ ts := by
      rintro x (hx | hx)
      · exact .inl (mem_cons_of_mem t hx)
      · rcases mem_or_eraseIdx ht hx with rfl | hx
        · exact .inl mem_cons_self
        · exact .inr (mem_append_left ts hx)
    refine ⟨t :: done, fun x hx => hmove x (hs.starts x hx), fun x hx xs hxs y hy => ?_,
      fun x hx => ?_, fun k hk => ?_, fun o => ?_, hf⟩
    · rcases mem_cons.mp hx with rfl | hx
      · obtain rfl : ts = xs := Option.some.inj (hts.symm.trans hxs)
        exact .inr (mem_append_right _ hy)
      · exact hmove y (hs.children x hx xs hxs y hy)
    · rcases hx with hx | hx
      · rcases mem_cons.mp hx with rfl | hx
        · exact hreach
        · exact hs.reach x (.inl hx)
      · rcases mem_append.mp hx with hx | hx
        · exact hs.reach x (.inr (mem_of_mem_eraseIdx hx))
        · exact .child hreach hts hx
    · rcases mem_append.mp hk with hk | hk
      · exact ⟨t, mem_cons_self, Option.mem_toList.mp hk⟩
      · obtain ⟨t', ht', hk'⟩ := hs.visited k hk
        exact ⟨t', mem_cons_of_mem t ht', hk'⟩
    · rw [mem_append, hs.emitted o]
      constructor
      · rintro (⟨t', ht', ho⟩ | ho)
        · exact ⟨t', mem_cons_of_mem t ht', ho⟩
        · exact ⟨t, mem_cons_self, ho⟩
      · rintro ⟨t', ht', ho⟩
        rcases mem_cons.mp ht' with rfl | ht'
        · exact .inr ho
        · exact .inl ⟨t', ht', ho⟩

/-- **If a key is the key of one task only, a run does not fail, and if it leaves nothing
pending it has the results of every task that can be reached.** -/
theorem run_exhausts (hrun : run S.step (Search.init start) choices = some s) :
    s.failed = false
      ∧ (s.pending = [] → ∀ o, o ∈ s.emitted ↔ ∃ t, S.Reach start t ∧ o ∈ S.results t) := by
  have hinit : ∃ done, Covers S start done (Search.init start) :=
    ⟨[], fun t ht => .inr ht, nofun, fun t ht => .start (ht.resolve_left not_mem_nil),
      nofun, fun o => by simp [Search.init], rfl⟩
  obtain ⟨done, hs⟩ := run_keeps (I := fun s => ∃ done, Covers S start done s)
    (fun s i s' ⟨done, hs⟩ h => step_covers hkey hok hs h) hinit hrun
  refine ⟨hs.failed, fun hdone o => (hs.emitted o).trans ⟨?_, ?_⟩⟩
  · rintro ⟨t, ht, ho⟩
    exact ⟨t, hs.reach t (.inl ht), ho⟩
  · have hall : ∀ t, S.Reach start t → t ∈ done := by
      intro t ht
      induction ht with
      | start h => exact (hs.starts _ h).resolve_right (by simp [hdone])
      | child _ hts ht' ih => exact (hs.children _ ih _ hts _ ht').resolve_right (by simp [hdone])
    rintro ⟨t, ht, ho⟩
    exact ⟨t, hall t ht, ho⟩

end

/-- A run that did not fail can go on as long as something is pending. -/
theorem step_enabled (hf : s.failed = false) (hp : s.pending ≠ []) :
    ∃ s', S.step s 0 = some s' := by
  obtain ⟨t, ts, hts⟩ := exists_cons_of_ne_nil hp
  unfold Search.step
  rw [hf, hts]
  simp only [Bool.false_eq_true, if_false, getElem?_cons_zero]
  split
  · exact ⟨_, rfl⟩
  · split
    · exact ⟨_, rfl⟩
    · exact ⟨_, rfl⟩

theorem step_eq_none (hp : s.pending = []) (i : ℕ) : S.step s i = none := by
  unfold Search.step
  rw [hp]
  split <;> rfl

/-! ### What the reached tasks mean -/

variable {rank : τ → ℕ}

section Meaning

variable {I : τ → Prop} {M : τ → ω → Prop} (hstart : ∀ t ∈ start, I t)
include hstart

omit [DecidableEq κ] in
/-- **The results of the reached tasks are in the meaning of the start**, for tasks in an
invariant that mean at least their results and what their children mean.  A task may fail. -/
theorem reach_sound
    (hstep : ∀ t ts, I t → S.children t = some ts → ∀ t' ∈ ts, I t' ∧ ∀ o, M t' o → M t o)
    (hresults : ∀ t, I t → ∀ o ∈ S.results t, M t o) :
    (∀ t, S.Reach start t → I t)
      ∧ ∀ o, (∃ t, S.Reach start t ∧ o ∈ S.results t) → ∃ t ∈ start, M t o := by
  have hreach : ∀ t, S.Reach start t → I t := by
    intro t ht
    induction ht with
    | start h => exact hstart _ h
    | child _ hts ht' ih => exact (hstep _ _ ih hts _ ht').1
  refine ⟨hreach, ?_⟩
  -- a result of a reached task is in the meaning of every task above it
  rintro o ⟨t, ht, ho⟩
  have hM : M t o := hresults t (hreach t ht) o ho
  clear ho
  induction ht with
  | start h => exact ⟨_, h, hM⟩
  | child hreached hts ht' ih => exact ih ((hstep _ _ (hreach _ hreached) hts _ ht').2 o hM)

omit [DecidableEq κ] in
/-- **The results of the reached tasks are the meaning of the start**, if the reached tasks mean
just their results and what their children mean. -/
theorem reach_meaning
    (hstep : ∀ t, S.Reach start t → I t → ∃ ts, S.children t = some ts
      ∧ (∀ t' ∈ ts, I t' ∧ rank t' < rank t)
      ∧ ∀ o, M t o ↔ o ∈ S.results t ∨ ∃ t' ∈ ts, M t' o) :
    (∀ t, S.Reach start t → I t)
      ∧ ∀ o, (∃ t, S.Reach start t ∧ o ∈ S.results t) ↔ ∃ t ∈ start, M t o := by
  obtain ⟨hreach, hsound⟩ := reach_sound (S := S) (I := fun t => S.Reach start t ∧ I t) (M := M)
    (fun t ht => ⟨.start ht, hstart t ht⟩)
    (fun t ts ht hts t' ht' => by
      obtain ⟨ts', hts', hkeep, hmean⟩ := hstep t ht.1 ht.2
      obtain rfl := Option.some.inj (hts.symm.trans hts')
      exact ⟨⟨.child ht.1 hts ht', (hkeep t' ht').1⟩, fun o hM => (hmean o).mpr (.inr ⟨t', ht', hM⟩)⟩)
    (fun t ht o ho => by
      obtain ⟨_, -, -, hmean⟩ := hstep t ht.1 ht.2
      exact (hmean o).mpr (.inl ho))
  refine ⟨fun t ht => (hreach t ht).2, fun o => ⟨hsound o, ?_⟩⟩
  rintro ⟨t, ht, hM⟩
  have hdown : ∀ n t, rank t = n → S.Reach start t → M t o →
      ∃ t', S.Reach start t' ∧ o ∈ S.results t' := by
    intro n
    induction n using Nat.strongRecOn with
    | _ n ih =>
      intro t hn ht hM
      obtain ⟨ts, hts, hkeep, hmean⟩ := hstep t ht (hreach t ht).2
      rcases (hmean o).mp hM with ho | ⟨t', ht', hM'⟩
      · exact ⟨t, ht, ho⟩
      · exact ih (rank t') (hn ▸ (hkeep t' ht').2) t' rfl (.child ht hts ht') hM'
  exact hdown (rank t) t rfl (.start ht) hM

end Meaning

omit [DecidableEq κ] in
/-- The reached tasks lie in every list that contains the start and all children. -/
theorem reach_subset {all : List τ} (hstart : ∀ t ∈ start, t ∈ all)
    (hclosed : ∀ t ∈ all, ∀ t' ∈ (S.children t).getD [], t' ∈ all)
    (ht : S.Reach start t) : t ∈ all := by
  induction ht with
  | start h => exact hstart _ h
  | child _ hts ht' ih =>
    refine hclosed _ ih _ ?_
    rw [hts]
    exact ht'

/-! ### Runs end -/

/-- The weight of pending tasks: a task outweighs all its children together. -/
def potential (rank : τ → ℕ) (width : ℕ) (pending : List τ) : ℕ :=
  (pending.map fun t => (width + 2) ^ rank t).sum

theorem potential_eraseIdx (rank : τ → ℕ) (width : ℕ) {l : List τ} (h : l[i]? = some t) :
    potential rank width (l.eraseIdx i) + (width + 2) ^ rank t = potential rank width l := by
  induction l generalizing i with
  | nil => simp at h
  | cons x l ih =>
    cases i with
    | zero =>
      obtain rfl : x = t := by simpa using h
      simp [potential, add_comm]
    | succ i =>
      have hl : l[i]? = some t := by simpa using h
      have := ih hl
      simp only [potential, eraseIdx_cons_succ, map_cons, sum_cons] at this ⊢
      omega

theorem potential_children_lt {width : ℕ} {ts : List τ} (hlen : ts.length ≤ width)
    (hrank : ∀ t' ∈ ts, rank t' < rank t) : potential rank width ts < (width + 2) ^ rank t := by
  rcases hr : rank t with _ | r
  · have hnil : ts = [] := by
      refine eq_nil_iff_forall_not_mem.mpr fun t' ht' => ?_
      have := hrank t' ht'
      omega
    simp [hnil, potential]
  · have hle : potential rank width ts ≤ ts.length * (width + 2) ^ r := by
      refine (sum_le_card_nsmul _ ((width + 2) ^ r) ?_).trans_eq (by simp)
      intro x hx
      obtain ⟨t', ht', rfl⟩ := mem_map.mp hx
      have := hrank t' ht'
      exact Nat.pow_le_pow_right (by omega) (by omega)
    have hpos : 0 < (width + 2) ^ r := Nat.pow_pos (by omega)
    calc potential rank width ts
        ≤ ts.length * (width + 2) ^ r := hle
      _ ≤ width * (width + 2) ^ r := Nat.mul_le_mul_right _ hlen
      _ < (width + 2) * (width + 2) ^ r := Nat.mul_lt_mul_of_pos_right (by omega) hpos
      _ = (width + 2) ^ (r + 1) := by ring

/-- **A weight of the visited keys and the ranks bound the length of all runs**, if a task outweighs
its key and the tasks that come in its place. -/
theorem run_bounded_by_weight (rank : τ → ℕ) (width : ℕ) (weight : List κ → ℕ)
    (hdown : ∀ t ts visited, S.Reach start t → S.children t = some ts → S.seen visited t = false →
      weight ((S.key t).toList ++ visited) + potential rank width ts
        < weight visited + (width + 2) ^ rank t)
    (hrun : run S.step (Search.init start) choices = some s) :
    choices.length ≤ weight [] + potential rank width start := by
  have hle := run_length_le
    (μ := fun s : State τ κ ω => weight s.visited + potential rank width s.pending)
    (I := fun s => ∀ t ∈ s.pending, S.Reach start t) (fun s i s' hs h => ?_)
    (fun t ht => Search.Reach.start ht) hrun
  · exact le_of_add_le_left hle
  · obtain ⟨t, ht, -, hcases⟩ := step_cases S h
    have hpos : 0 < (width + 2) ^ rank t := Nat.pow_pos (by omega)
    have herase := potential_eraseIdx rank width ht
    have hrest : ∀ t' ∈ s.pending.eraseIdx i, S.Reach start t' :=
      fun t' ht' => hs t' (mem_of_mem_eraseIdx ht')
    obtain ⟨-, rfl⟩ | ⟨-, rfl⟩ | ⟨ts, hts, hseen, rfl⟩ := hcases
    · refine ⟨hrest, ?_⟩
      simp only
      omega
    · refine ⟨hrest, ?_⟩
      simp only
      omega
    · have hreach := hs t (mem_of_getElem? ht)
      refine ⟨fun t' ht' => ?_, ?_⟩
      · rcases mem_append.mp ht' with ht' | ht'
        · exact hrest t' ht'
        · exact .child hreach hts ht'
      · have hlt := hdown t ts s.visited hreach hts hseen
        simp only [potential, map_append, sum_append] at *
        omega

/-- **Ranks that go down bound the length of all runs.** -/
theorem run_bounded {width : ℕ}
    (hwidth : ∀ t ts, S.Reach start t → S.children t = some ts → ts.length ≤ width)
    (hrank : ∀ t ts, S.Reach start t → S.children t = some ts → ∀ t' ∈ ts, rank t' < rank t)
    (hrun : run S.step (Search.init start) choices = some s) :
    choices.length ≤ potential rank width start := by
  have hle := run_bounded_by_weight rank width (fun _ => 0) (fun t ts _ ht hts _ => ?_) hrun
  · rwa [Nat.zero_add] at hle
  · rw [Nat.zero_add, Nat.zero_add]
    exact potential_children_lt (hwidth t ts ht hts) (hrank t ts ht hts)

end Kengen.Worklist
