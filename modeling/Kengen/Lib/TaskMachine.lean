import Mathlib

/-!
# A machine of concurrent evaluations

Evaluating a call may start further calls and combine their answers.  All
evaluations run concurrently, share sets of visited keys and a cache of
answers, and can be cancelled at any time.  What a call does is its *plan*:

* `ret` answers at once;
* `any` is a union: each branch is looked up in the cache or started;
* `scan` goes through a list of items: an item is dropped if its key has been
  visited or its condition is not true, otherwise its call is started;
* `every` and `butNot` are an intersection and an exclusion;
* `fresh` opens a new set of visited keys and continues inside it.

A configuration lists the tasks, one for each call that was started, with their
progress; tasks refer to their children by position.  A run is a list of
choices, each of which says which task moves and how, so every interleaving is
a run.  A task may end in an error at any time, which covers cancellation, and a
task that has answered may still move, as a goroutine does before it notices.

* **`step_extends`** — a step keeps every task, its call, its answer and its children.
* **`run_extends`** — so does a run.
-/

namespace Kengen.TaskMachine

open List

variable {Call Key CKey ε : Type}

/-! ### Plans -/

/-- An item of a scan: the key it is visited under, its condition and its call. -/
structure Item (Call Key ε : Type) where
  key : Key
  cond : Except ε Bool
  call : Call

/-- What evaluating a call does. -/
inductive Plan (Call Key CKey ε : Type) where
  | ret (answer : Except ε Bool)
  | any (branches : List (Option CKey × Call))
  | scan (map : Option ℕ) (items : List (Item Call Key ε))
  | every (calls : List Call)
  | butNot (base : Call) (sub : Option Call)
  | fresh (root : Key) (body : ℕ → Call)

/-! ### Tasks and configurations -/

/-- A started call. -/
structure Task (Call CKey ε : Type) where
  call : Call
  /-- The key its answer is cached under. -/
  store : Option CKey
  /-- How many branches or items it has gone through. -/
  pos : ℕ := 0
  children : List ℕ := []
  /-- It met a cached `true`. -/
  hit : Bool := false
  /-- A condition failed to evaluate. -/
  failed : Bool := false
  answer : Option (Except ε Bool) := none

/-- All tasks, the sets of visited keys and the cache. -/
structure Config (Call Key CKey ε : Type) where
  tasks : List (Task Call CKey ε) := []
  maps : List (List Key) := []
  cache : List (CKey × Bool) := []

/-- The call of a task. -/
def Config.callOf (cfg : Config Call Key CKey ε) (id : ℕ) : Option Call :=
  (cfg.tasks[id]?).map Task.call

/-- The answer of a task. -/
def Config.answerOf (cfg : Config Call Key CKey ε) (id : ℕ) : Option (Except ε Bool) :=
  (cfg.tasks[id]?).bind Task.answer

/-- A choice of the scheduler. -/
inductive Choice (Call ε : Type) where
  /-- A new call comes in. -/
  | request (c : Call)
  /-- A task goes through its next branch or item; a cached answer may be used. -/
  | look (i : ℕ) (cached : Option Bool)
  /-- A task answers. -/
  | finish (i : ℕ) (answer : Except ε Bool)
  /-- The answer of a task is cached. -/
  | put (i : ℕ)

variable [DecidableEq Key] [DecidableEq CKey]

/-- The key has been visited. -/
def seen (maps : List (List Key)) (map : Option ℕ) (key : Key) : Bool :=
  match map with
  | none => false
  | some m => decide (key ∈ (maps[m]?).getD [])

/-- Mark the key as visited (`LoadOrStore`). -/
def mark (maps : List (List Key)) (map : Option ℕ) (key : Key) : List (List Key) :=
  match map with
  | none => maps
  | some m => maps.modify m (key :: ·)

/-- What going through one branch or item changes. -/
structure Move (Call Key CKey : Type) where
  maps : List (List Key)
  hit : Bool
  failed : Bool
  /-- The call that is started, with the key of its answer. -/
  child : Option (Option CKey × Call)

section Step

variable (expand : Call → Plan Call Key CKey ε)

/-- A task goes through its next branch or item. -/
def move (maps : List (List Key)) (cache : List (CKey × Bool)) (t : Task Call CKey ε)
    (cached : Option Bool) : Option (Move Call Key CKey) :=
  match expand t.call with
  | .ret _ => none
  | .any branches =>
    match branches[t.pos]?, cached with
    | none, _ => none
    | some (store, c), none => some ⟨maps, t.hit, t.failed, some (store, c)⟩
    | some (none, _), some _ => none
    | some (some key, _), some b =>
      if (key, b) ∈ cache then some ⟨maps, t.hit || b, t.failed, none⟩ else none
  | .scan map items =>
    match items[t.pos]? with
    | none => none
    | some item =>
      if seen maps map item.key then some ⟨maps, t.hit, t.failed, none⟩
      else match item.cond with
        | .ok true => some ⟨mark maps map item.key, t.hit, t.failed, some (none, item.call)⟩
        | .ok false => some ⟨mark maps map item.key, t.hit, t.failed, none⟩
        | .error _ => some ⟨mark maps map item.key, t.hit, true, none⟩
  | .every calls =>
    match calls[t.pos]? with
    | none => none
    | some c => some ⟨maps, t.hit, t.failed, some (none, c)⟩
  | .butNot base sub =>
    match (base :: sub.toList)[t.pos]? with
    | none => none
    | some c => some ⟨maps, t.hit, t.failed, some (none, c)⟩
  | .fresh root body =>
    if t.pos = 0 then
      some ⟨maps ++ [[root]], t.hit, t.failed, some (none, body maps.length)⟩
    else none

/-- The task after a move. -/
def Task.moved (t : Task Call CKey ε) (mv : Move Call Key CKey) (id : ℕ) : Task Call CKey ε :=
  { t with
    pos := t.pos + 1
    hit := mv.hit
    failed := mv.failed
    children := t.children ++ (mv.child.map fun _ => id).toList }

/-- The configuration after a move of task `i`. -/
def Config.moved (cfg : Config Call Key CKey ε) (i : ℕ) (t : Task Call CKey ε)
    (mv : Move Call Key CKey) : Config Call Key CKey ε :=
  { tasks := cfg.tasks.set i (t.moved mv cfg.tasks.length)
      ++ (mv.child.map fun c => { call := c.2, store := c.1 }).toList
    maps := mv.maps
    cache := cfg.cache }

/-- The answer that a task's children allow.  An error is always possible. -/
def canFinish (cfg : Config Call Key CKey ε) (t : Task Call CKey ε) : Except ε Bool → Prop
  | .error _ => True
  | .ok b =>
    match expand t.call with
    | .ret answer => answer = .ok b
    | .any branches =>
      if b then t.hit = true ∨ ∃ id ∈ t.children, cfg.answerOf id = some (.ok true)
      else t.pos = branches.length ∧ t.hit = false
        ∧ ∀ id ∈ t.children, cfg.answerOf id = some (.ok false)
    | .scan _ items =>
      if b then ∃ id ∈ t.children, cfg.answerOf id = some (.ok true)
      else t.pos = items.length ∧ (t.children ≠ [] ∨ t.failed = false)
        ∧ ∀ id ∈ t.children, cfg.answerOf id = some (.ok false)
    | .every calls =>
      if b then t.pos = calls.length ∧ ∀ id ∈ t.children, cfg.answerOf id = some (.ok true)
      else ∃ id ∈ t.children, cfg.answerOf id = some (.ok false)
    | .butNot _ sub =>
      if b then (t.children[0]?).bind cfg.answerOf = some (.ok true)
        ∧ (sub.isNone ∨ (t.children[1]?).bind cfg.answerOf = some (.ok false))
      else (t.children[0]?).bind cfg.answerOf = some (.ok false)
        ∨ (t.children[1]?).bind cfg.answerOf = some (.ok true)
    | .fresh _ _ => ∃ id ∈ t.children, cfg.answerOf id = some (.ok b)

instance [DecidableEq ε] (cfg : Config Call Key CKey ε) (t : Task Call CKey ε)
    (a : Except ε Bool) : Decidable (canFinish expand cfg t a) := by
  unfold canFinish
  split
  · infer_instance
  · split <;> infer_instance

/-- One step. -/
def step [DecidableEq ε] (cfg : Config Call Key CKey ε) :
    Choice Call ε → Option (Config Call Key CKey ε)
  | .request c => some { cfg with tasks := cfg.tasks ++ [{ call := c, store := none }] }
  | .look i cached =>
    match cfg.tasks[i]? with
    | none => none
    | some t => (move expand cfg.maps cfg.cache t cached).map (cfg.moved i t)
  | .finish i answer =>
    match cfg.tasks[i]? with
    | none => none
    | some t =>
      if t.answer = none ∧ canFinish expand cfg t answer then
        some { cfg with tasks := cfg.tasks.set i { t with answer := some answer } }
      else none
  | .put i =>
    match (cfg.tasks[i]?).bind Task.store, cfg.answerOf i with
    | some key, some (.ok b) => some { cfg with cache := (key, b) :: cfg.cache }
    | _, _ => none

/-- A run from a configuration. -/
def run [DecidableEq ε] (cfg : Config Call Key CKey ε) :
    List (Choice Call ε) → Option (Config Call Key CKey ε)
  | [] => some cfg
  | choice :: choices => (step expand cfg choice).bind fun cfg' => run cfg' choices

end Step

/-! ### A step only extends a configuration -/

/-- Every task is kept, with its call, its answer and its children. -/
def Extends (cfg cfg' : Config Call Key CKey ε) : Prop :=
  ∀ (id : ℕ) (t : Task Call CKey ε), cfg.tasks[id]? = some t →
    ∃ t' : Task Call CKey ε, cfg'.tasks[id]? = some t' ∧ t'.call = t.call ∧ t'.store = t.store
      ∧ t.children <+: t'.children ∧ ∀ a, t.answer = some a → t'.answer = some a

section Lookup

omit [DecidableEq Key] [DecidableEq CKey]

theorem Extends.refl (cfg : Config Call Key CKey ε) : Extends cfg cfg :=
  fun _ t ht => ⟨t, ht, rfl, rfl, prefix_rfl, fun _ h => h⟩

variable {cfg cfg' : Config Call Key CKey ε}

theorem Extends.trans {cfg'' : Config Call Key CKey ε} (h : Extends cfg cfg')
    (h' : Extends cfg' cfg'') : Extends cfg cfg'' := by
  intro id t ht
  obtain ⟨t', ht', hcall, hstore, hpre, hans⟩ := h id t ht
  obtain ⟨t'', ht'', hcall', hstore', hpre', hans'⟩ := h' id t' ht'
  exact ⟨t'', ht'', hcall'.trans hcall, hstore'.trans hstore, hpre.trans hpre',
    fun a ha => hans' a (hans a ha)⟩

theorem Extends.length_le (h : Extends cfg cfg') : cfg.tasks.length ≤ cfg'.tasks.length := by
  by_contra hlt
  obtain ⟨t', ht', -⟩ := h cfg'.tasks.length _ (List.getElem?_eq_getElem (Nat.lt_of_not_le hlt))
  simp at ht'

theorem Extends.callOf (h : Extends cfg cfg') {id : ℕ}
    {c : Call} (hc : cfg.callOf id = some c) : cfg'.callOf id = some c := by
  obtain ⟨t, ht, rfl⟩ := Option.map_eq_some_iff.mp hc
  obtain ⟨t', ht', hcall, -⟩ := h id t ht
  rw [Config.callOf, ht', Option.map_some, hcall]

theorem Extends.answerOf (h : Extends cfg cfg') {id : ℕ}
    {a : Except ε Bool} (ha : cfg.answerOf id = some a) : cfg'.answerOf id = some a := by
  obtain ⟨t, ht, hta⟩ := Option.bind_eq_some_iff.mp ha
  obtain ⟨t', ht', -, -, -, hans⟩ := h id t ht
  rw [Config.answerOf, ht', Option.bind_some, hans a hta]

variable {i j : ℕ} {t : Task Call CKey ε}

section

variable (mv : Move Call Key CKey)
include mv

/-- The tasks after a move: the one that moved, the others, and the child. -/
theorem lookup_moved (hi : cfg.tasks[i]? = some t)
    {u : Task Call CKey ε} (hj : (cfg.moved i t mv).tasks[j]? = some u) :
    (j = i ∧ u = t.moved mv cfg.tasks.length) ∨ (j ≠ i ∧ cfg.tasks[j]? = some u)
      ∨ (j = cfg.tasks.length ∧ ∃ c, mv.child = some c ∧ u = { call := c.2, store := c.1 }) := by
  have hlt : i < cfg.tasks.length := (List.getElem?_eq_some_iff.mp hi).1
  simp only [Config.moved] at hj
  rcases Nat.lt_or_ge j cfg.tasks.length with h | h
  · rw [getElem?_append_left (by simpa using h), getElem?_set] at hj
    split at hj
    · rename_i hij
      subst hij
      exact .inl ⟨rfl, by simpa [h] using hj.symm⟩
    · rename_i hij
      exact .inr (.inl ⟨fun h => hij h.symm, hj⟩)
  · rw [getElem?_append_right (by simpa using h), length_set] at hj
    rcases hc : mv.child with _ | c
    · simp [hc] at hj
    simp only [hc, Option.map_some, Option.toList_some] at hj
    have hzero : j - cfg.tasks.length = 0 := by
      have := (List.getElem?_eq_some_iff.mp hj).1
      simpa using this
    rw [hzero] at hj
    exact .inr (.inr ⟨by omega, c, rfl, (Option.some.inj hj).symm⟩)

theorem lookup_moved_self (hi : cfg.tasks[i]? = some t) :
    (cfg.moved i t mv).tasks[i]? = some (t.moved mv cfg.tasks.length) := by
  have hlt : i < cfg.tasks.length := (List.getElem?_eq_some_iff.mp hi).1
  simp only [Config.moved]
  rw [getElem?_append_left (by simpa using hlt), getElem?_set_self hlt]

theorem lookup_moved_of_ne {u : Task Call CKey ε} (hne : j ≠ i)
    (hj : cfg.tasks[j]? = some u) : (cfg.moved i t mv).tasks[j]? = some u := by
  have hlt : j < cfg.tasks.length := (List.getElem?_eq_some_iff.mp hj).1
  simp only [Config.moved]
  rw [getElem?_append_left (by simpa using hlt), getElem?_set_ne (Ne.symm hne), hj]

theorem callOf_moved_child {store : Option CKey} {c : Call}
    (hc : mv.child = some (store, c)) : (cfg.moved i t mv).callOf cfg.tasks.length = some c := by
  simp [Config.callOf, Config.moved, hc]

theorem moved_extends (hi : cfg.tasks[i]? = some t) : Extends cfg (cfg.moved i t mv) := by
  intro id u hu
  by_cases h : id = i
  · subst h
    obtain rfl : t = u := by simpa [hi] using hu
    exact ⟨_, lookup_moved_self mv hi, rfl, rfl, prefix_append _ _, fun _ ha => ha⟩
  · exact ⟨u, lookup_moved_of_ne mv h hu, rfl, rfl, prefix_rfl, fun _ ha => ha⟩

end

/-- The tasks after an answer. -/
theorem lookup_set (u : Task Call CKey ε) {w : Task Call CKey ε}
    (hj : (cfg.tasks.set i u)[j]? = some w) :
    (j = i ∧ w = u) ∨ (j ≠ i ∧ cfg.tasks[j]? = some w) := by
  rw [getElem?_set] at hj
  split at hj
  · rename_i hij
    split_ifs at hj
    exact .inl ⟨hij.symm, (Option.some.inj hj).symm⟩
  · rename_i hij
    exact .inr ⟨fun h => hij h.symm, hj⟩

theorem answer_extends (a : Except ε Bool) (hi : cfg.tasks[i]? = some t) (ht : t.answer = none) :
    Extends cfg { cfg with tasks := cfg.tasks.set i { t with answer := some a } } := by
  intro id u hu
  by_cases h : id = i
  · subst h
    obtain rfl : t = u := by simpa [hi] using hu
    have hlt : id < cfg.tasks.length := (List.getElem?_eq_some_iff.mp hi).1
    exact ⟨_, List.getElem?_set_self hlt, rfl, rfl, List.prefix_rfl, fun b hb => by simp [ht] at hb⟩
  · exact ⟨u, (getElem?_set_ne (Ne.symm h)).trans hu, rfl, rfl, prefix_rfl, fun _ ha => ha⟩

theorem append_extends (u : Task Call CKey ε) :
    Extends cfg { cfg with tasks := cfg.tasks ++ [u] } := by
  intro id w hw
  have hlt : id < cfg.tasks.length := (List.getElem?_eq_some_iff.mp hw).1
  exact ⟨w, (List.getElem?_append_left hlt).trans hw, rfl, rfl, List.prefix_rfl, fun _ ha => ha⟩

end Lookup

/-- **What a step does.**  A new call comes in, a task moves, a task answers, or an answer
is cached. -/
inductive Stepped (expand : Call → Plan Call Key CKey ε) (cfg : Config Call Key CKey ε) :
    Choice Call ε → Config Call Key CKey ε → Prop where
  | request (c : Call) :
    Stepped expand cfg (.request c)
      { cfg with tasks := cfg.tasks ++ [{ call := c, store := none }] }
  | look (i : ℕ) (cached : Option Bool) (t : Task Call CKey ε) (mv : Move Call Key CKey)
    (hi : cfg.tasks[i]? = some t) (hmv : move expand cfg.maps cfg.cache t cached = some mv) :
    Stepped expand cfg (.look i cached) (cfg.moved i t mv)
  | finish (i : ℕ) (a : Except ε Bool) (t : Task Call CKey ε) (hi : cfg.tasks[i]? = some t)
    (hnone : t.answer = none) (hfin : canFinish expand cfg t a) :
    Stepped expand cfg (.finish i a)
      { cfg with tasks := cfg.tasks.set i { t with answer := some a } }
  | put (i : ℕ) (t : Task Call CKey ε) (key : CKey) (b : Bool) (hi : cfg.tasks[i]? = some t)
    (hstore : t.store = some key) (hans : t.answer = some (.ok b)) :
    Stepped expand cfg (.put i) { cfg with cache := (key, b) :: cfg.cache }

variable {expand : Call → Plan Call Key CKey ε}

theorem stepped_of_step [DecidableEq ε] {choice : Choice Call ε}
    (h : step expand cfg choice = some cfg') : Stepped expand cfg choice cfg' := by
  cases choice with
  | request c =>
    cases h
    exact .request c
  | look i cached =>
    simp only [step] at h
    split at h
    · cases h
    rename_i t hi
    obtain ⟨mv, hmv, rfl⟩ := Option.map_eq_some_iff.mp h
    exact .look i cached t mv hi hmv
  | finish i a =>
    simp only [step] at h
    split at h
    · cases h
    rename_i t hi
    split_ifs at h with hfin
    cases h
    exact .finish i a t hi hfin.1 hfin.2
  | put i =>
    simp only [step] at h
    split at h
    · rename_i key b hstore hans
      cases h
      obtain ⟨t, hi, hts⟩ := Option.bind_eq_some_iff.mp hstore
      rw [Config.answerOf, hi, Option.bind_some] at hans
      exact .put i t key b hi hts hans
    · cases h

/-- **A step keeps every task.** -/
theorem step_extends
    {choice : Choice Call ε} (h : Stepped expand cfg choice cfg') : Extends cfg cfg' := by
  cases h with
  | request => exact append_extends _
  | look i cached t mv hi => exact moved_extends mv hi
  | finish i a t hi hnone => exact answer_extends a hi hnone
  | put => exact Extends.refl cfg

/-- A run only extends a configuration. -/
theorem run_extends [DecidableEq ε]
    (choices : List (Choice Call ε)) (cfg cfg' : Config Call Key CKey ε)
    (h : run expand cfg choices = some cfg') : Extends cfg cfg' := by
  induction choices generalizing cfg with
  | nil =>
    obtain rfl : cfg = cfg' := Option.some.inj h
    exact Extends.refl cfg
  | cons choice choices ih =>
    obtain ⟨cfg'', hstep, hrest⟩ := Option.bind_eq_some_iff.mp h
    exact (step_extends (stepped_of_step hstep)).trans (ih cfg'' hrest)

end Kengen.TaskMachine
