import Kengen.Lib.TaskMachine

/-!
# What holds along the runs of the task machine

A `Meaning` says when a call is true, by one equation for each kind of plan.
Along every run each task accounts for the branches and items it has gone
through: a branch has a child or a cached answer, an item with a true condition
has a child or was dropped because its key had been visited.

Two readings of "dropped" are used: a call that is not true, and a call that a
task is already working on.  They are the parameter `skipped`.

* **`structured_step`** — a step keeps the accounts.
* **`answer_right`** — if every dropped call is not true, every answer is right.
* **`run_right`** — the same along a run, for the answers and for the cache.
-/

namespace Kengen.TaskMachine

open List

variable {Call Key CKey ε : Type}

/-- The plan can start the call. -/
def Plan.Starts (c : Call) : Plan Call Key CKey ε → Prop
  | .ret _ => False
  | .any branches => ∃ p ∈ branches, p.2 = c
  | .scan _ items => ∃ item ∈ items, item.call = c
  | .every calls => c ∈ calls
  | .butNot base sub => c ∈ base :: sub.toList
  | .fresh _ body => ∃ m, c = body m

/-- How many branches, items or operands the plan goes through. -/
def Plan.size : Plan Call Key CKey ε → ℕ
  | .ret _ => 0
  | .any branches => branches.length
  | .scan _ items => items.length
  | .every calls => calls.length
  | .butNot base sub => (base :: sub.toList).length
  | .fresh _ _ => 1

/-- When a call is true, and when a cached answer should be. -/
structure Meaning (expand : Call → Plan Call Key CKey ε) where
  /-- The calls that come up. -/
  valid : Call → Prop
  truth : Call → Prop
  keyTruth : CKey → Prop
  starts : ∀ c c', valid c → (expand c).Starts c' → valid c'
  ret : ∀ c b, valid c → expand c = .ret (.ok b) → (truth c ↔ b = true)
  any : ∀ c branches, valid c → expand c = .any branches → (truth c ↔ ∃ p ∈ branches, truth p.2)
  scan : ∀ c map items, valid c → expand c = .scan map items →
    (truth c ↔ ∃ item ∈ items, item.cond = .ok true ∧ truth item.call)
  every : ∀ c calls, valid c → expand c = .every calls → (truth c ↔ ∀ c' ∈ calls, truth c')
  butNot : ∀ c base sub, valid c → expand c = .butNot base sub →
    (truth c ↔ truth base ∧ ∀ s ∈ sub, ¬ truth s)
  fresh : ∀ c root body m, valid c → expand c = .fresh root body → (truth c ↔ truth (body m))
  key : ∀ c branches k c', valid c → expand c = .any branches → (some k, c') ∈ branches →
    (truth c' ↔ keyTruth k)

variable {expand : Call → Plan Call Key CKey ε}

/-! ### Accounts -/

/-- A child of the task evaluates the call. -/
def HasChild (cfg : Config Call Key CKey ε) (t : Task Call CKey ε) (c : Call) : Prop :=
  ∃ id ∈ t.children, cfg.callOf id = some c

/-- What a task has to show for the branches or items it has gone through. -/
def Progress (M : Meaning expand) (skipped : Config Call Key CKey ε → Call → Prop)
    (cfg : Config Call Key CKey ε) (t : Task Call CKey ε) : Prop :=
  match expand t.call with
  | .ret _ => t.children = []
  | .any branches =>
    (∀ p ∈ branches.take t.pos, HasChild cfg t p.2 ∨ t.hit = true ∨ ¬ M.truth p.2)
      ∧ (t.hit = true → ∃ p ∈ branches, M.truth p.2)
      ∧ ∀ id ∈ t.children, ∃ p ∈ branches, cfg.callOf id = some p.2
  | .scan map items =>
    (∀ item ∈ items.take t.pos, item.cond = .ok true →
        HasChild cfg t item.call ∨ (map.isSome ∧ skipped cfg item.call))
      ∧ ∀ id ∈ t.children, ∃ item ∈ items, item.cond = .ok true ∧ cfg.callOf id = some item.call
  | .every calls => t.children.map cfg.callOf = (calls.take t.pos).map some
  | .butNot base sub => t.children.map cfg.callOf = ((base :: sub.toList).take t.pos).map some
  | .fresh _ body => ∀ id ∈ t.children, ∃ m, cfg.callOf id = some (body m)

/-- The accounts of the task at place `i`. -/
structure Accounted (M : Meaning expand) (skipped : Config Call Key CKey ε → Call → Prop)
    (cfg : Config Call Key CKey ε) (i : ℕ) (t : Task Call CKey ε) : Prop where
  valid : M.valid t.call
  ids : ∀ id ∈ t.children, i < id ∧ id < cfg.tasks.length
  progress : Progress M skipped cfg t
  justified : ∀ b, t.answer = some (.ok b) → canFinish expand cfg t (.ok b)
  /-- The answer of a task is cached under a key of its call. -/
  stored : ∀ k, t.store = some k → (M.truth t.call ↔ M.keyTruth k)

/-- The invariant of a run. -/
structure Structured (M : Meaning expand) (skipped : Config Call Key CKey ε → Call → Prop)
    (cfg : Config Call Key CKey ε) : Prop where
  tasks : ∀ (i : ℕ) (t : Task Call CKey ε), cfg.tasks[i]? = some t → Accounted M skipped cfg i t
  cached : ∀ p ∈ cfg.cache, (p.2 = true ↔ M.keyTruth p.1)

variable {cfg cfg' : Config Call Key CKey ε} {t : Task Call CKey ε} {c : Call}

theorem HasChild.mono {t' : Task Call CKey ε} (hext : Extends cfg cfg')
    (hsub : t.children <+: t'.children) (h : HasChild cfg t c) : HasChild cfg' t' c := by
  obtain ⟨id, hid, hc⟩ := h
  exact ⟨id, hsub.subset hid, hext.callOf hc⟩

/-- Answers and calls of the listed tasks do not change. -/
theorem map_callOf_eq (hext : Extends cfg cfg') {ids : List ℕ} {calls : List Call}
    (h : ids.map cfg.callOf = calls.map some) : ids.map cfg'.callOf = calls.map some := by
  rw [← h]
  apply map_congr_left
  intro id hid
  have hmem : cfg.callOf id ∈ calls.map some := h ▸ mem_map_of_mem hid
  obtain ⟨c, -, hc⟩ := mem_map.mp hmem
  rw [← hc]
  exact hext.callOf hc.symm

section Mono

variable {M : Meaning expand} {skipped : Config Call Key CKey ε → Call → Prop}
  (hskip : ∀ cfg cfg' c, Extends cfg cfg' → skipped cfg c → skipped cfg' c)

include hskip in
theorem Progress.mono
    (hext : Extends cfg cfg') (h : Progress M skipped cfg t) : Progress M skipped cfg' t := by
  unfold Progress at h ⊢
  split at h
  · exact h
  · obtain ⟨hall, hhit, hch⟩ := h
    refine ⟨fun p hp => ?_, hhit, fun id hid => ?_⟩
    · rcases hall p hp with h | h
      · exact .inl (h.mono hext prefix_rfl)
      · exact .inr h
    · obtain ⟨p, hp, hc⟩ := hch id hid
      exact ⟨p, hp, hext.callOf hc⟩
  · obtain ⟨hall, hch⟩ := h
    refine ⟨fun item hitem hcond => ?_, fun id hid => ?_⟩
    · rcases hall item hitem hcond with h | h
      · exact .inl (h.mono hext prefix_rfl)
      · exact .inr ⟨h.1, hskip cfg cfg' _ hext h.2⟩
    · obtain ⟨item, hitem, hcond, hc⟩ := hch id hid
      exact ⟨item, hitem, hcond, hext.callOf hc⟩
  · exact map_callOf_eq hext h
  · exact map_callOf_eq hext h
  · intro id hid
    obtain ⟨m, hm⟩ := h id hid
    exact ⟨m, hext.callOf hm⟩

theorem answerOf_getElem (hext : Extends cfg cfg')
    {ids ids' : List ℕ} (hsub : ids <+: ids') {n : ℕ} {a : Except ε Bool}
    (h : (ids[n]?).bind cfg.answerOf = some a) : (ids'[n]?).bind cfg'.answerOf = some a := by
  obtain ⟨id, hid, ha⟩ := Option.bind_eq_some_iff.mp h
  have hid' : ids'[n]? = some id := by
    obtain ⟨_, rfl⟩ := hsub
    rw [List.getElem?_append_left (List.getElem?_eq_some_iff.mp hid).1, hid]
  rw [hid', Option.bind_some, hext.answerOf ha]

/-- The reason of an answer stays, as long as a task that has gone through its plan does not move. -/
theorem canFinish_mono {t' : Task Call CKey ε} {b : Bool}
    (hext : Extends cfg cfg') (hcall : t'.call = t.call) (hsub : t.children <+: t'.children)
    (hhit : t.hit = true → t'.hit = true) (hsame : t.pos = (expand t.call).size → t' = t)
    (h : canFinish expand cfg t (.ok b)) : canFinish expand cfg' t' (.ok b) := by
  unfold canFinish at h ⊢
  simp only at h ⊢
  rw [hcall]
  split at h
  · exact h
  · rename_i bs hplan
    cases b with
    | true =>
      simp only [if_true] at h ⊢
      rcases h with h | ⟨id, hid, ha⟩
      · exact .inl (hhit h)
      · exact .inr ⟨id, hsub.subset hid, hext.answerOf ha⟩
    | false =>
      simp only [Bool.false_eq_true, if_false] at h ⊢
      obtain rfl := hsame (by rw [hplan, Plan.size, h.1])
      exact ⟨h.1, h.2.1, fun id hid => hext.answerOf (h.2.2 id hid)⟩
  · rename_i m items hplan
    cases b with
    | true =>
      simp only [if_true] at h ⊢
      obtain ⟨id, hid, ha⟩ := h
      exact ⟨id, hsub.subset hid, hext.answerOf ha⟩
    | false =>
      simp only [Bool.false_eq_true, if_false] at h ⊢
      obtain rfl := hsame (by rw [hplan, Plan.size, h.1])
      exact ⟨h.1, h.2.1, fun id hid => hext.answerOf (h.2.2 id hid)⟩
  · rename_i cs hplan
    cases b with
    | true =>
      simp only [if_true] at h ⊢
      obtain rfl := hsame (by rw [hplan, Plan.size, h.1])
      exact ⟨h.1, fun id hid => hext.answerOf (h.2 id hid)⟩
    | false =>
      simp only [Bool.false_eq_true, if_false] at h ⊢
      obtain ⟨id, hid, ha⟩ := h
      exact ⟨id, hsub.subset hid, hext.answerOf ha⟩
  · cases b with
    | true =>
      simp only [if_true] at h ⊢
      exact ⟨answerOf_getElem hext hsub h.1, h.2.imp id (answerOf_getElem hext hsub)⟩
    | false =>
      simp only [Bool.false_eq_true, if_false] at h ⊢
      exact h.imp (answerOf_getElem hext hsub) (answerOf_getElem hext hsub)
  · obtain ⟨id, hid, ha⟩ := h
    exact ⟨id, hsub.subset hid, hext.answerOf ha⟩

end Mono

/-! ### One move -/

variable [DecidableEq Key] [DecidableEq CKey]

/-- The move drops an item with a true condition because its key has been visited. -/
def Drops (expand : Call → Plan Call Key CKey ε) (cfg : Config Call Key CKey ε)
    (choice : Choice Call ε) (c : Call) : Prop :=
  match choice with
  | .look i _ => ∃ t map items item, cfg.tasks[i]? = some t ∧ expand t.call = .scan map items
      ∧ items[t.pos]? = some item ∧ seen cfg.maps map item.key = true ∧ item.cond = .ok true
      ∧ item.call = c
  | _ => False

/-- The call of the item that a move drops. -/
def dropped (expand : Call → Plan Call Key CKey ε) (cfg : Config Call Key CKey ε)
    (choice : Choice Call ε) : Option Call :=
  match choice with
  | .look i _ =>
    match cfg.tasks[i]? with
    | none => none
    | some t =>
      match expand t.call with
      | .scan map items =>
        match items[t.pos]? with
        | none => none
        | some item =>
          match seen cfg.maps map item.key, item.cond with
          | true, .ok true => some item.call
          | _, _ => none
      | _ => none
  | _ => none

omit [DecidableEq CKey] in
theorem dropped_of_drops {choice : Choice Call ε}
    (h : Drops expand cfg choice c) : dropped expand cfg choice = some c := by
  unfold Drops at h
  split at h
  · obtain ⟨t, _, _, _, ht, hplan, hitem, hseen, hcond, rfl⟩ := h
    simp only [dropped, ht, hplan, hitem, hseen, hcond]
  · exact absurd h id

/-- **What one move does**, by the plan of the task. -/
inductive Moves (expand : Call → Plan Call Key CKey ε) (maps : List (List Key))
    (cache : List (CKey × Bool)) (t : Task Call CKey ε) : Move Call Key CKey → Prop where
  | branch (bs : List (Option CKey × Call)) (p : Option CKey × Call)
    (hplan : expand t.call = .any bs) (hget : bs[t.pos]? = some p) :
    Moves expand maps cache t ⟨maps, t.hit, t.failed, some p⟩
  | cached (bs : List (Option CKey × Call)) (key : CKey) (c : Call) (b : Bool)
    (hplan : expand t.call = .any bs) (hget : bs[t.pos]? = some (some key, c))
    (hmem : (key, b) ∈ cache) :
    Moves expand maps cache t ⟨maps, t.hit || b, t.failed, none⟩
  | visited (map : Option ℕ) (items : List (Item Call Key ε)) (item : Item Call Key ε)
    (hplan : expand t.call = .scan map items) (hget : items[t.pos]? = some item)
    (hseen : seen maps map item.key = true) :
    Moves expand maps cache t ⟨maps, t.hit, t.failed, none⟩
  | started (map : Option ℕ) (items : List (Item Call Key ε)) (item : Item Call Key ε)
    (hplan : expand t.call = .scan map items) (hget : items[t.pos]? = some item)
    (hcond : item.cond = .ok true) :
    Moves expand maps cache t ⟨mark maps map item.key, t.hit, t.failed, some (none, item.call)⟩
  | refused (map : Option ℕ) (items : List (Item Call Key ε)) (item : Item Call Key ε)
    (failed : Bool) (hplan : expand t.call = .scan map items) (hget : items[t.pos]? = some item)
    (hcond : item.cond ≠ .ok true) :
    Moves expand maps cache t ⟨mark maps map item.key, t.hit, failed, none⟩
  | operand (calls : List Call) (c : Call)
    (hplan : expand t.call = .every calls ∨ ∃ base sub, expand t.call = .butNot base sub
      ∧ calls = base :: sub.toList)
    (hget : calls[t.pos]? = some c) :
    Moves expand maps cache t ⟨maps, t.hit, t.failed, some (none, c)⟩
  | opened (root : Key) (body : ℕ → Call) (hplan : expand t.call = .fresh root body)
    (hpos : t.pos = 0) :
    Moves expand maps cache t
      ⟨maps ++ [[root]], t.hit, t.failed, some (none, body maps.length)⟩

theorem moves_of_move {maps : List (List Key)} {cache : List (CKey × Bool)} {cached : Option Bool}
    {mv : Move Call Key CKey} (h : move expand maps cache t cached = some mv) :
    Moves expand maps cache t mv := by
  unfold move at h
  split at h
  · cases h
  · rename_i bs hplan
    split at h
    · cases h
    · rename_i hget
      cases h
      exact .branch bs _ hplan hget
    · cases h
    · rename_i hget
      split_ifs at h with hmem
      cases h
      exact .cached bs _ _ _ hplan hget hmem
  · rename_i map items hplan
    split at h
    · cases h
    rename_i item hget
    split at h
    · rename_i hseen
      cases h
      exact .visited map items item hplan hget hseen
    · split at h
      · rename_i hcond
        cases h
        exact .started map items item hplan hget hcond
      · rename_i hcond
        cases h
        exact .refused map items item _ hplan hget (by rw [hcond]; simp)
      · rename_i hcond
        cases h
        exact .refused map items item _ hplan hget (by rw [hcond]; simp)
  · rename_i calls hplan
    split at h
    · cases h
    rename_i hget
    cases h
    exact .operand calls _ (.inl hplan) hget
  · rename_i base sub hplan
    split at h
    · cases h
    rename_i hget
    cases h
    exact .operand _ _ (.inr ⟨base, sub, hplan, rfl⟩) hget
  · rename_i root body hplan
    split_ifs at h with hpos
    cases h
    exact .opened root body hplan hpos

section Moved

omit [DecidableEq CKey]

variable {M : Meaning expand} {skipped : Config Call Key CKey ε → Call → Prop}
  {cfg : Config Call Key CKey ε} {i : ℕ} {t : Task Call CKey ε} {mv : Move Call Key CKey}

/-- The child of a move is a call of the plan. -/
theorem moves_starts (hmv : Moves expand cfg.maps cfg.cache t mv) {c : Option CKey × Call}
    (hc : mv.child = some c) : (expand t.call).Starts c.2 := by
  cases hmv with
  | branch bs p hplan hget =>
    obtain rfl := Option.some.inj hc
    rw [hplan]
    exact ⟨p, mem_of_getElem? hget, rfl⟩
  | cached | visited => cases hc
  | started map items item hplan hget =>
    cases hc
    rw [hplan]
    exact ⟨item, mem_of_getElem? hget, rfl⟩
  | refused => cases hc
  | operand calls c' hplan hget =>
    cases hc
    rcases hplan with hplan | ⟨_, _, hplan, rfl⟩
    · rw [hplan]
      exact mem_of_getElem? hget
    · rw [hplan]
      exact mem_of_getElem? hget
  | opened root body hplan =>
    cases hc
    rw [hplan]
    exact ⟨_, rfl⟩

/-- The answer of a started branch is cached under a key of its call. -/
theorem moves_stored (hvalid : M.valid t.call) (hmv : Moves expand cfg.maps cfg.cache t mv)
    {c : Option CKey × Call} (hc : mv.child = some c) (k : CKey) (hk : c.1 = some k) :
    M.truth c.2 ↔ M.keyTruth k := by
  cases hmv with
  | branch bs p hplan hget =>
    obtain rfl := Option.some.inj hc
    refine M.key t.call bs k p.2 hvalid hplan ?_
    rw [← hk]
    exact mem_of_getElem? hget
  | cached | visited => cases hc
  | started | operand | opened =>
    cases hc
    cases hk
  | refused => cases hc

/-- A task that has gone through its whole plan does not move. -/
theorem moves_pos (hmv : Moves expand cfg.maps cfg.cache t mv) : t.pos < (expand t.call).size := by
  cases hmv with
  | branch bs p hplan hget | cached bs key c' b hplan hget | visited map items item hplan hget
  | started map items item hplan hget | refused map items item failed hplan hget =>
    rw [hplan]
    exact (List.getElem?_eq_some_iff.mp hget).1
  | operand calls c' hplan hget =>
    rcases hplan with hplan | ⟨_, _, hplan, rfl⟩ <;> rw [hplan] <;>
      exact (List.getElem?_eq_some_iff.mp hget).1
  | opened root body hplan hpos =>
    rw [hplan, hpos]
    exact Nat.zero_lt_one

omit [DecidableEq Key] in
/-- A started call is the call of a child. -/
theorem hasChild_moved {store : Option CKey} (hc : mv.child = some (store, c)) :
    HasChild (cfg.moved i t mv) (t.moved mv cfg.tasks.length) c :=
  ⟨cfg.tasks.length, by simp [Task.moved, hc], callOf_moved_child mv hc⟩

omit [DecidableEq Key] in
/-- The children after a move. -/
theorem mem_children_moved {id : ℕ} (hid : id ∈ (t.moved mv cfg.tasks.length).children) :
    id ∈ t.children ∨ (id = cfg.tasks.length ∧ ∃ c, mv.child = some c) := by
  rcases mem_append.mp hid with h | h
  · exact .inl h
  · rcases hc : mv.child with _ | c
    · simp [hc] at h
    · simp [hc] at h
      exact .inr ⟨h, c, rfl⟩

/-- The moved task accounts for the branch or item it has just gone through. -/
theorem progress_moved
    (hskip : ∀ cfg cfg' c, Extends cfg cfg' → skipped cfg c → skipped cfg' c)
    (hvalid : M.valid t.call) (hcached : ∀ p ∈ cfg.cache, (p.2 = true ↔ M.keyTruth p.1))
    (hi : cfg.tasks[i]? = some t) (hprog : Progress M skipped cfg t)
    (hmv : Moves expand cfg.maps cfg.cache t mv)
    (hdrop : ∀ map items item, expand t.call = .scan map items → items[t.pos]? = some item →
      seen cfg.maps map item.key = true → item.cond = .ok true → skipped cfg item.call) :
    Progress M skipped (cfg.moved i t mv) (t.moved mv cfg.tasks.length) := by
  have hext := moved_extends mv hi
  replace hprog := hprog.mono hskip hext
  have hold : ∀ {c}, HasChild (cfg.moved i t mv) t c →
      HasChild (cfg.moved i t mv) (t.moved mv cfg.tasks.length) c :=
    HasChild.mono (.refl _) (prefix_append _ _)
  have hcall : (t.moved mv cfg.tasks.length).call = t.call := rfl
  have hpos : (t.moved mv cfg.tasks.length).pos = t.pos + 1 := rfl
  have hhit : (t.moved mv cfg.tasks.length).hit = mv.hit := rfl
  -- a scan goes through one more item
  have hscan : ∀ map items item, expand t.call = .scan map items → items[t.pos]? = some item →
      (item.cond = .ok true → HasChild (cfg.moved i t mv) (t.moved mv cfg.tasks.length) item.call
        ∨ (map.isSome ∧ skipped (cfg.moved i t mv) item.call)) →
      (∀ c, mv.child = some c → c.2 = item.call ∧ item.cond = .ok true) →
      Progress M skipped (cfg.moved i t mv) (t.moved mv cfg.tasks.length) := by
    intro map items item hplan hget hnew hchild
    simp only [Progress, hplan] at hprog
    simp only [Progress, hcall, hplan, hpos, take_add_one, hget, Option.toList_some, mem_append,
      mem_singleton]
    refine ⟨fun q hq hcond => ?_, fun id hid => ?_⟩
    · rcases hq with hq | rfl
      · exact (hprog.1 q hq hcond).imp_left hold
      · exact hnew hcond
    · rcases mem_children_moved hid with h | ⟨rfl, c, hc⟩
      · exact hprog.2 id h
      · obtain ⟨heq, hcond⟩ := hchild c hc
        exact ⟨item, mem_of_getElem? hget, hcond, heq ▸ callOf_moved_child mv hc⟩
  have hoperand : ∀ {calls : List Call} {c}, calls[t.pos]? = some c → mv.child = some (none, c) →
      t.children.map (cfg.moved i t mv).callOf = (calls.take t.pos).map some →
      (t.moved mv cfg.tasks.length).children.map (cfg.moved i t mv).callOf
        = (calls.take (t.pos + 1)).map some := by
    intro calls c hget hc hprog
    simp [take_add_one, hget, Task.moved, hc, hprog, callOf_moved_child mv hc]
  cases hmv with
  | branch bs p hplan hget =>
    simp only [Progress, hplan] at hprog
    obtain ⟨hall, hhit', hch⟩ := hprog
    simp only [Progress, hcall, hplan, hpos, hhit, take_add_one, hget, Option.toList_some,
      mem_append, mem_singleton]
    refine ⟨fun q hq => ?_, hhit', fun id hid => ?_⟩
    · rcases hq with hq | rfl
      · exact (hall q hq).imp_left hold
      · exact .inl (hasChild_moved rfl)
    · rcases mem_children_moved hid with h | ⟨rfl, -⟩
      · exact hch id h
      · exact ⟨p, mem_of_getElem? hget, callOf_moved_child _ rfl⟩
  | cached bs key c b hplan hget hmem =>
    simp only [Progress, hplan] at hprog
    obtain ⟨hall, hhit', hch⟩ := hprog
    have hright := hcached (key, b) hmem
    have hkey := M.key t.call bs key c hvalid hplan (mem_of_getElem? hget)
    simp only [Progress, hcall, hplan, hpos, hhit, take_add_one, hget, Option.toList_some,
      mem_append, mem_singleton, Bool.or_eq_true]
    refine ⟨fun q hq => ?_, fun h => ?_, fun id hid => ?_⟩
    · rcases hq with hq | rfl
      · exact (hall q hq).imp hold (Or.imp_left .inl)
      · by_cases hb : b = true
        · exact .inr (.inl (.inr hb))
        · exact .inr (.inr fun htrue => hb (hright.mpr (hkey.mp htrue)))
    · rcases h with h | h
      · exact hhit' h
      · exact ⟨_, mem_of_getElem? hget, hkey.mpr (hright.mp h)⟩
    · rcases mem_children_moved hid with h | ⟨-, _, ⟨⟩⟩
      exact hch id h
  | visited map items item hplan hget hseen =>
    refine hscan map items item hplan hget (fun hcond => .inr ⟨?_, ?_⟩) nofun
    · cases map with
      | none => cases hseen
      | some => rfl
    · exact hskip _ _ _ hext (hdrop map items item hplan hget hseen hcond)
  | started map items item hplan hget hcond =>
    refine hscan map items item hplan hget (fun _ => .inl (hasChild_moved rfl)) ?_
    rintro _ ⟨⟩
    exact ⟨rfl, hcond⟩
  | refused map items item failed hplan hget hcond =>
    exact hscan map items item hplan hget (absurd · hcond) nofun
  | operand calls c hplan hget =>
    rcases hplan with hplan | ⟨_, _, hplan, rfl⟩ <;>
    · simp only [Progress, hplan] at hprog
      simp only [Progress, hcall, hplan, hpos]
      exact hoperand hget rfl hprog
  | opened root body hplan =>
    simp only [Progress, hplan] at hprog
    simp only [Progress, hcall, hplan]
    intro id hid
    rcases mem_children_moved hid with h | ⟨rfl, -⟩
    · exact hprog id h
    · exact ⟨_, callOf_moved_child _ rfl⟩

end Moved

/-! ### One step -/

omit [DecidableEq Key] [DecidableEq CKey] in
/-- A task that has not moved has nothing to show. -/
theorem Progress.initial (M : Meaning expand) (skipped : Config Call Key CKey ε → Call → Prop)
    (cfg : Config Call Key CKey ε) (c : Call) (store : Option CKey) :
    Progress M skipped cfg { call := c, store := store } := by
  unfold Progress
  split <;> simp

/-- **A step keeps the accounts**, if it drops only what `skipped` allows and caches only right
answers. -/
theorem structured_step {M : Meaning expand} {skipped : Config Call Key CKey ε → Call → Prop}
    (hskip : ∀ cfg cfg' c, Extends cfg cfg' → skipped cfg c → skipped cfg' c) {choice : Choice Call ε}
    (hs : Structured M skipped cfg) (hstep : Stepped expand cfg choice cfg')
    (hreq : ∀ c, choice = .request c → M.valid c)
    (hdrop : ∀ c, Drops expand cfg choice c → skipped cfg c)
    (hput : ∀ i t b, choice = .put i → cfg.tasks[i]? = some t → t.answer = some (.ok b) →
      (b = true ↔ M.truth t.call)) :
    Structured M skipped cfg' := by
  have hext := step_extends hstep
  have hlength : cfg.tasks.length ≤ cfg'.tasks.length := Extends.length_le hext
  -- tasks that are not touched keep what they have
  have hkeep : ∀ j u, cfg.tasks[j]? = some u → Accounted M skipped cfg' j u := by
    intro j u hu
    obtain ⟨hvalid, hids, hprog, hjust, hstored⟩ := hs.tasks j u hu
    exact ⟨hvalid, fun id hid => (hids id hid).imp_right (Nat.lt_of_lt_of_le · hlength),
      hprog.mono hskip hext,
      fun b ha => canFinish_mono hext rfl prefix_rfl id (fun _ => rfl) (hjust b ha), hstored⟩
  cases hstep with
  | request c =>
    refine ⟨fun j u hu => ?_, hs.cached⟩
    rcases Nat.lt_or_ge j cfg.tasks.length with h | h
    · rw [getElem?_append_left h] at hu
      exact hkeep j u hu
    · rw [getElem?_append_right h] at hu
      obtain rfl : u = { call := c, store := none } := by simpa using mem_of_getElem? hu
      exact ⟨hreq c rfl, by simp, Progress.initial M skipped _ c none, by simp, by simp⟩
  | look i cached t mv hi hmv =>
    have hmoves := moves_of_move hmv
    obtain ⟨hvalid, hids, hprog, hjust, hstored⟩ := hs.tasks i t hi
    refine ⟨fun j u hu => ?_, hs.cached⟩
    rcases lookup_moved mv hi hu with ⟨rfl, rfl⟩ | ⟨-, h⟩ | ⟨rfl, c, hc, rfl⟩
    · refine ⟨hvalid, fun id hid => ?_, ?_, fun b ha => canFinish_mono (t := t) hext rfl
        (prefix_append _ _) (fun hhit => show mv.hit = true by cases hmoves <;> simp [hhit])
        (fun hpos => absurd hpos (Nat.ne_of_lt (moves_pos hmoves))) (hjust b ha), hstored⟩
      · rcases mem_children_moved hid with h | ⟨rfl, c, hc⟩
        · exact (hids id h).imp_right (Nat.lt_of_lt_of_le · hlength)
        · exact ⟨(List.getElem?_eq_some_iff.mp hi).1, by simp [Config.moved, hc]⟩
      · refine progress_moved hskip hvalid hs.cached hi hprog hmoves ?_
        intro map items item hplan hget hseen hcond
        exact hdrop item.call ⟨t, map, items, item, hi, hplan, hget, hseen, hcond, rfl⟩
    · exact hkeep j u h
    · exact ⟨M.starts t.call c.2 hvalid (moves_starts hmoves hc), by simp,
        Progress.initial M skipped _ c.2 c.1, by simp, moves_stored hvalid hmoves hc⟩
  | finish i a t hi hnone hfin =>
    refine ⟨fun j u hu => ?_, hs.cached⟩
    rcases lookup_set _ hu with ⟨rfl, rfl⟩ | ⟨-, h⟩
    · obtain ⟨hvalid, hids, hprog, -, hstored⟩ := hkeep j t hi
      refine ⟨hvalid, hids, hprog, fun b ha => ?_, hstored⟩
      obtain rfl : a = .ok b := Option.some.inj ha
      exact canFinish_mono hext rfl prefix_rfl id (fun _ => rfl) hfin
    · exact hkeep j u h
  | put i t key b hi hstore hans =>
    refine ⟨hkeep, fun p hp => ?_⟩
    rcases mem_cons.mp hp with rfl | hp
    · exact (hput i t b rfl hi hans).trans ((hs.tasks i t hi).stored key hstore)
    · exact hs.cached p hp

end Kengen.TaskMachine
