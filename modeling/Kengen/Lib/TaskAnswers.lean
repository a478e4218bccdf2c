import Kengen.Lib.TaskRuns

/-!
# When the answers of the task machine are right

An answer is as good as the answers of the children and the reasons for which
items were dropped.

* **`true_local`**, **`false_local`** — one task: from the children to the task.
* **`answer_right`** — if whatever is dropped is not true, every answer is right.
* **`run_right`** — along a run that drops only calls that are not true, every answer
  and every cached answer is right.
-/

namespace Kengen.TaskMachine

open List

variable {Call Key CKey ε : Type} {expand : Call → Plan Call Key CKey ε}

/-! ### One task -/

/-- An answered operand is a child with a call of the list. -/
theorem answered_operand {cfg : Config Call Key CKey ε} {ids : List ℕ} {calls : List Call} {n k : ℕ}
    {a : Except ε Bool} (h : ids.map cfg.callOf = (calls.take k).map some)
    (ha : (ids[n]?).bind cfg.answerOf = some a) :
    ∃ c, calls[n]? = some c ∧ ∃ id ∈ ids, cfg.callOf id = some c ∧ cfg.answerOf id = some a := by
  obtain ⟨id, hid, ha⟩ := Option.bind_eq_some_iff.mp ha
  have hn : ((calls.take k).map some)[n]? = some (cfg.callOf id) := by
    rw [← h, getElem?_map, hid, Option.map_some]
  rw [getElem?_map] at hn
  obtain ⟨c, hc, hcall⟩ := Option.map_eq_some_iff.mp hn
  rw [getElem?_take] at hc
  split_ifs at hc
  exact ⟨c, hc, id, mem_of_getElem? hid, hcall.symm, ha⟩

theorem mem_callOf {cfg : Config Call Key CKey ε} {ids : List ℕ} {calls : List Call}
    (h : ids.map cfg.callOf = calls.map some) :
    (∀ c ∈ calls, ∃ id ∈ ids, cfg.callOf id = some c)
      ∧ ∀ id ∈ ids, ∃ c ∈ calls, cfg.callOf id = some c := by
  constructor
  · intro c hc
    have hmem : some c ∈ ids.map cfg.callOf := h ▸ mem_map_of_mem hc
    obtain ⟨id, hid, heq⟩ := mem_map.mp hmem
    exact ⟨id, hid, heq⟩
  · intro id hid
    have hmem : cfg.callOf id ∈ calls.map some := h ▸ mem_map_of_mem hid
    obtain ⟨c, hc, heq⟩ := mem_map.mp hmem
    exact ⟨c, hc, heq.symm⟩

section Local

variable {M : Meaning expand} {skipped : Config Call Key CKey ε → Call → Prop}
  {cfg : Config Call Key CKey ε} {i : ℕ} {t : Task Call CKey ε}

/-- **A granting task is right if its granting children are**, and, for an exclusion, its
refusing ones. -/
theorem true_local (hs : Structured M skipped cfg) (hi : cfg.tasks[i]? = some t)
    (hans : t.answer = some (.ok true))
    (hT : ∀ id ∈ t.children, ∀ c, cfg.callOf id = some c → cfg.answerOf id = some (.ok true) →
      M.truth c)
    (hF : ∀ base sub, expand t.call = .butNot base sub → ∀ id ∈ t.children, ∀ c,
      cfg.callOf id = some c → cfg.answerOf id = some (.ok false) → ¬ M.truth c) :
    M.truth t.call := by
  obtain ⟨hvalid, -, hprog, hjust, -⟩ := hs.tasks i t hi
  replace hjust := hjust true hans
  rcases hplan : expand t.call with a | bs | ⟨map, items⟩ | calls | ⟨base, sub⟩ | ⟨root, body⟩
  · simp only [canFinish, hplan] at hjust
    subst hjust
    exact (M.ret t.call true hvalid hplan).mpr rfl
  · simp only [canFinish, hplan, if_true] at hjust
    simp only [Progress, hplan] at hprog
    rw [M.any t.call bs hvalid hplan]
    rcases hjust with h | ⟨id, hid, ha⟩
    · exact hprog.2.1 h
    · obtain ⟨p, hp, hc⟩ := hprog.2.2 id hid
      exact ⟨p, hp, hT id hid p.2 hc ha⟩
  · simp only [canFinish, hplan, if_true] at hjust
    simp only [Progress, hplan] at hprog
    rw [M.scan t.call map items hvalid hplan]
    obtain ⟨id, hid, ha⟩ := hjust
    obtain ⟨item, hitem, hcond, hc⟩ := hprog.2 id hid
    exact ⟨item, hitem, hcond, hT id hid item.call hc ha⟩
  · simp only [canFinish, hplan, if_true] at hjust
    simp only [Progress, hplan] at hprog
    rw [hjust.1, take_length] at hprog
    rw [M.every t.call calls hvalid hplan]
    intro c hc
    obtain ⟨id, hid, hcall⟩ := (mem_callOf hprog).1 c hc
    exact hT id hid c hcall (hjust.2 id hid)
  · simp only [canFinish, hplan, if_true] at hjust
    simp only [Progress, hplan] at hprog
    rw [M.butNot t.call base sub hvalid hplan]
    obtain ⟨hbase, hsub⟩ := hjust
    obtain ⟨_, ⟨⟩, id, hid, hcall, ha⟩ := answered_operand hprog hbase
    refine ⟨hT id hid base hcall ha, fun s hmem => ?_⟩
    obtain rfl : sub = some s := hmem
    rcases hsub with ⟨⟨⟩⟩ | hsub
    obtain ⟨_, ⟨⟩, id, hid, hcall, ha⟩ := answered_operand hprog hsub
    exact hF base (some s) hplan id hid s hcall ha
  · simp only [canFinish, hplan] at hjust
    simp only [Progress, hplan] at hprog
    obtain ⟨id, hid, ha⟩ := hjust
    obtain ⟨m, hm⟩ := hprog id hid
    rw [M.fresh t.call root body m hvalid hplan]
    exact hT id hid (body m) hm ha

/-- **A refusing task is right if its refusing children are**, for an exclusion its granting ones,
and if what it dropped is not true. -/
theorem false_local (hs : Structured M skipped cfg) (hi : cfg.tasks[i]? = some t)
    (hans : t.answer = some (.ok false))
    (hF : ∀ id ∈ t.children, ∀ c, cfg.callOf id = some c → cfg.answerOf id = some (.ok false) →
      ¬ M.truth c)
    (hT : ∀ base sub, expand t.call = .butNot base sub → ∀ id ∈ t.children, ∀ c,
      cfg.callOf id = some c → cfg.answerOf id = some (.ok true) → M.truth c)
    (hsk : ∀ map items, expand t.call = .scan map items → map.isSome → ∀ item ∈ items,
      skipped cfg item.call → ¬ M.truth item.call) :
    ¬ M.truth t.call := by
  obtain ⟨hvalid, -, hprog, hjust, -⟩ := hs.tasks i t hi
  replace hjust := hjust false hans
  rcases hplan : expand t.call with a | bs | ⟨map, items⟩ | calls | ⟨base, sub⟩ | ⟨root, body⟩
  · simp only [canFinish, hplan] at hjust
    subst hjust
    rw [M.ret t.call false hvalid hplan]
    simp
  · simp only [canFinish, hplan, Bool.false_eq_true, if_false] at hjust
    simp only [Progress, hplan] at hprog
    obtain ⟨hpos, hhit, hall⟩ := hjust
    rw [hpos, take_length] at hprog
    rw [M.any t.call bs hvalid hplan]
    rintro ⟨p, hp, htrue⟩
    rcases hprog.1 p hp with ⟨id, hid, hc⟩ | h | h
    · exact hF id hid p.2 hc (hall id hid) htrue
    · rw [hhit] at h
      cases h
    · exact h htrue
  · simp only [canFinish, hplan, Bool.false_eq_true, if_false] at hjust
    simp only [Progress, hplan] at hprog
    obtain ⟨hpos, -, hall⟩ := hjust
    rw [hpos, take_length] at hprog
    rw [M.scan t.call map items hvalid hplan]
    rintro ⟨item, hitem, hcond, htrue⟩
    rcases hprog.1 item hitem hcond with ⟨id, hid, hc⟩ | h
    · exact hF id hid item.call hc (hall id hid) htrue
    · exact hsk map items hplan h.1 item hitem h.2 htrue
  · simp only [canFinish, hplan, Bool.false_eq_true, if_false] at hjust
    simp only [Progress, hplan] at hprog
    rw [M.every t.call calls hvalid hplan]
    intro h
    obtain ⟨id, hid, ha⟩ := hjust
    obtain ⟨c, hc, hcall⟩ := (mem_callOf hprog).2 id hid
    exact hF id hid c hcall ha (h c (mem_of_mem_take hc))
  · simp only [canFinish, hplan, Bool.false_eq_true, if_false] at hjust
    simp only [Progress, hplan] at hprog
    rw [M.butNot t.call base sub hvalid hplan]
    rintro ⟨hbase, hsub⟩
    rcases hjust with h | h
    · obtain ⟨_, ⟨⟩, id, hid, hcall, ha⟩ := answered_operand hprog h
      exact hF id hid base hcall ha hbase
    · obtain ⟨s, hs, id, hid, hcall, ha⟩ := answered_operand hprog h
      have hmem : s ∈ sub := by cases sub <;> [cases hs; exact hs]
      exact hsub s hmem (hT base sub hplan id hid s hcall ha)
  · simp only [canFinish, hplan] at hjust
    simp only [Progress, hplan] at hprog
    obtain ⟨id, hid, ha⟩ := hjust
    obtain ⟨m, hm⟩ := hprog id hid
    rw [M.fresh t.call root body m hvalid hplan]
    exact hF id hid (body m) hm ha

end Local

/-! ### All tasks -/

section All

variable {M : Meaning expand} {cfg : Config Call Key CKey ε}

/-- A child's call and answer are those of a task. -/
theorem task_of_callOf {id : ℕ} {c : Call} {a : Except ε Bool} (hc : cfg.callOf id = some c)
    (ha : cfg.answerOf id = some a) :
    ∃ u : Task Call CKey ε, cfg.tasks[id]? = some u ∧ u.call = c ∧ u.answer = some a := by
  obtain ⟨u, hu, rfl⟩ := Option.map_eq_some_iff.mp hc
  rw [Config.answerOf, hu, Option.bind_some] at ha
  exact ⟨u, hu, rfl, ha⟩

/-- **If everything that was dropped is not true, every answer is right.**  Children come after
their parents, so the induction goes from the last task to the first. -/
theorem answer_right (hs : Structured M (fun _ c => ¬ M.truth c) cfg) (i : ℕ)
    (t : Task Call CKey ε) (b : Bool) (hi : cfg.tasks[i]? = some t)
    (hans : t.answer = some (.ok b)) : b = true ↔ M.truth t.call := by
  induction hn : cfg.tasks.length - i using Nat.strongRecOn generalizing i t b with
  | _ n ih =>
    have hchild : ∀ id ∈ t.children, ∀ c b', cfg.callOf id = some c →
        cfg.answerOf id = some (.ok b') → (b' = true ↔ M.truth c) := by
      intro id hid c b' hc ha
      obtain ⟨u, hu, rfl, hua⟩ := task_of_callOf hc ha
      have hlt := (hs.tasks i t hi).ids id hid
      exact ih (cfg.tasks.length - id) (by omega) id u b' hu hua rfl
    cases b with
    | true =>
      refine iff_of_true rfl (true_local hs hi hans (fun id hid c hc ha => ?_)
        (fun base sub _ id hid c hc ha => ?_))
      · exact (hchild id hid c true hc ha).mp rfl
      · exact fun h => by simpa using (hchild id hid c false hc ha).mpr h
    | false =>
      refine iff_of_false (by simp) (false_local hs hi hans (fun id hid c hc ha => ?_)
        (fun base sub _ id hid c hc ha => ?_) (fun map items _ _ item _ h => h))
      · exact fun h => by simpa using (hchild id hid c false hc ha).mpr h
      · exact (hchild id hid c true hc ha).mp rfl

end All

/-! ### Runs -/

variable [DecidableEq Key] [DecidableEq CKey] [DecidableEq ε]

/-- Every step of the run meets the condition. -/
def Along (expand : Call → Plan Call Key CKey ε)
    (P : Config Call Key CKey ε → Choice Call ε → Prop) :
    Config Call Key CKey ε → List (Choice Call ε) → Prop
  | _, [] => True
  | cfg, choice :: choices =>
    P cfg choice ∧ ∀ cfg', step expand cfg choice = some cfg' → Along expand P cfg' choices

instance decidableAlong (P : Config Call Key CKey ε → Choice Call ε → Prop)
    [∀ cfg choice, Decidable (P cfg choice)] :
    ∀ (cfg : Config Call Key CKey ε) (choices : List (Choice Call ε)),
      Decidable (Along expand P cfg choices)
  | _, [] => .isTrue trivial
  | cfg, choice :: choices =>
    have : Decidable (∀ cfg', step expand cfg choice = some cfg' → Along expand P cfg' choices) :=
      match h : step expand cfg choice with
      | none => .isTrue fun _ h' => by cases h'
      | some cfg' =>
        match decidableAlong P cfg' choices with
        | .isTrue hA => .isTrue fun _ h' => Option.some.inj h' ▸ hA
        | .isFalse hA => .isFalse fun hall => hA (hall cfg' rfl)
    inferInstanceAs (Decidable (P cfg choice ∧ _))

theorem Along.imp {P Q : Config Call Key CKey ε → Choice Call ε → Prop}
    (h : ∀ cfg choice, P cfg choice → Q cfg choice) {choices : List (Choice Call ε)}
    {cfg : Config Call Key CKey ε} (hP : Along expand P cfg choices) :
    Along expand Q cfg choices := by
  induction choices generalizing cfg with
  | nil => trivial
  | cons choice choices ih => exact ⟨h _ _ hP.1, fun cfg' hstep => ih (hP.2 cfg' hstep)⟩

/-- **The invariant rule for runs.** -/
theorem run_invariant {P : Config Call Key CKey ε → Choice Call ε → Prop}
    {I : Config Call Key CKey ε → Prop}
    (hstep : ∀ cfg choice cfg', I cfg → P cfg choice → Stepped expand cfg choice cfg' → I cfg')
    (choices : List (Choice Call ε)) (cfg cfg' : Config Call Key CKey ε) (hI : I cfg)
    (hP : Along expand P cfg choices) (hrun : run expand cfg choices = some cfg') : I cfg' := by
  induction choices generalizing cfg with
  | nil =>
    cases hrun
    exact hI
  | cons choice choices ih =>
    obtain ⟨cfg'', hcfg, hrest⟩ := Option.bind_eq_some_iff.mp hrun
    exact ih cfg'' (hstep cfg choice cfg'' hI hP.1 (stepped_of_step hcfg)) (hP.2 cfg'' hcfg) hrest

omit [DecidableEq Key] [DecidableEq CKey] [DecidableEq ε] in
theorem structured_empty (M : Meaning expand) (skipped : Config Call Key CKey ε → Call → Prop) :
    Structured M skipped {} := by
  refine ⟨fun i t h => ?_, fun p hp => ?_⟩ <;> simp at *

/-- **Runs that drop only calls that are not true.**  Every answer and every cached answer
is right. -/
theorem run_right (M : Meaning expand) (choices : List (Choice Call ε))
    (cfg : Config Call Key CKey ε)
    (hP : Along expand (fun cfg choice => (∀ c, choice = .request c → M.valid c)
      ∧ ∀ c, Drops expand cfg choice c → ¬ M.truth c) {} choices)
    (hrun : run expand {} choices = some cfg) :
    (∀ (i : ℕ) (t : Task Call CKey ε) (b : Bool), cfg.tasks[i]? = some t →
        t.answer = some (.ok b) → (b = true ↔ M.truth t.call))
      ∧ ∀ p ∈ cfg.cache, (p.2 = true ↔ M.keyTruth p.1) := by
  have hs : Structured M (fun _ c => ¬ M.truth c) cfg := by
    refine run_invariant (fun cfg choice cfg' hI hP hstep => ?_) choices {} cfg
      (structured_empty M _) hP hrun
    refine structured_step (fun _ _ _ _ h => h) hI hstep hP.1 hP.2 ?_
    intro i t b _ hi hans
    exact answer_right hI i t b hi hans
  exact ⟨answer_right hs, hs.cached⟩

end Kengen.TaskMachine
