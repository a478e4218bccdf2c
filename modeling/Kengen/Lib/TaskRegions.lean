import Kengen.Lib.TaskAnswers

/-!
# Regions: evaluations that share a set of visited keys

A `fresh` plan opens a set of visited keys, and the calls below it that use
the set form its region.  Inside a region a refusal is provisional: an item was
perhaps dropped because another task of the region is working on its call.
When the root of a region refuses, all its tasks have refused, so together they
are an unfounded set, and none of their calls is true in a least model.

* **`region_refuses`** — if the root of a region refuses, so does every task of it.
* **`region_answer_right`** — the answers of the tasks outside of all regions are right.
* **`run_regions`** — the same along runs without a cache in which an item with a true
  condition is only dropped while a task with its call is there.
-/

namespace Kengen.TaskMachine

open List

variable {Call Key CKey ε : Type} {expand : Call → Plan Call Key CKey ε}

/-- Which set of visited keys a call uses, and how the plans pass it on. -/
structure Regions (expand : Call → Plan Call Key CKey ε) where
  mapOf : Call → Option ℕ
  any : ∀ c branches, expand c = .any branches → ∀ p ∈ branches,
    mapOf p.2 = none ∨ mapOf p.2 = mapOf c
  scan : ∀ c map items, expand c = .scan map items →
    map = mapOf c ∧ ∀ item ∈ items, mapOf item.call = map
  every : ∀ c calls, expand c = .every calls → mapOf c = none ∧ ∀ c' ∈ calls, mapOf c' = none
  butNot : ∀ c base sub, expand c = .butNot base sub →
    mapOf c = none ∧ ∀ c' ∈ base :: sub.toList, mapOf c' = none
  fresh : ∀ c root body, expand c = .fresh root body →
    mapOf c = none ∧ ∀ m, mapOf (body m) = some m

/-- A set of calls each of which is false when the calls of the set are taken to be false. -/
def Unfounded (M : Meaning expand) (P : Call → Prop) (c : Call) : Prop :=
  match expand c with
  | .ret a => a = .ok false
  | .any branches => ∀ p ∈ branches, P p.2 ∨ ¬ M.truth p.2
  | .scan _ items => ∀ item ∈ items, item.cond = .ok true → P item.call ∨ ¬ M.truth item.call
  | _ => False

/-- Truth is least: an unfounded set of calls contains no true call. -/
def Founded (M : Meaning expand) : Prop :=
  ∀ P : Call → Prop, (∀ c, P c → M.valid c ∧ Unfounded M P c) → ∀ c, P c → ¬ M.truth c

/-- Some task has the call. -/
def Started (cfg : Config Call Key CKey ε) (c : Call) : Prop := ∃ id, cfg.callOf id = some c

variable {cfg cfg' : Config Call Key CKey ε} {c : Call}

theorem Started.mono (hext : Extends cfg cfg') (h : Started cfg c) : Started cfg' c := by
  obtain ⟨id, hid⟩ := h
  exact ⟨id, hext.callOf hid⟩

/-- The plan opens a set of visited keys. -/
def Opens (expand : Call → Plan Call Key CKey ε) (c : Call) : Prop :=
  ∃ root body, expand c = .fresh root body

/-- How the tasks of a region hang together. -/
structure RegionTree (R : Regions expand) (cfg : Config Call Key CKey ε) : Prop where
  bound : ∀ (i : ℕ) (t : Task Call CKey ε) (m : ℕ), cfg.tasks[i]? = some t →
    R.mapOf t.call = some m → m < cfg.maps.length
  parent : ∀ (i : ℕ) (t : Task Call CKey ε) (m : ℕ), cfg.tasks[i]? = some t →
    R.mapOf t.call = some m → ∃ (p : ℕ) (u : Task Call CKey ε), cfg.tasks[p]? = some u
      ∧ i ∈ u.children ∧ (R.mapOf u.call = some m ∨ Opens expand u.call)
  opener : ∀ (p : ℕ) (u : Task Call CKey ε), cfg.tasks[p]? = some u → Opens expand u.call →
    u.children.length ≤ u.pos ∧ u.pos ≤ 1
  /-- A region has one opener. -/
  unique : ∀ (p p' : ℕ) (u u' : Task Call CKey ε) (id id' : ℕ) (c c' : Call),
    cfg.tasks[p]? = some u → cfg.tasks[p']? = some u' → Opens expand u.call →
    Opens expand u'.call → id ∈ u.children → id' ∈ u'.children → cfg.callOf id = some c →
    cfg.callOf id' = some c' → R.mapOf c = R.mapOf c' → p = p'

/-! ### A refusing region -/

section Region

variable {M : Meaning expand} {R : Regions expand} {cfg : Config Call Key CKey ε}

variable {i : ℕ} {t : Task Call CKey ε}

/-- The children of a refusing task inside a region refuse. -/
theorem children_refuse (hs : Structured M Started cfg) {m : ℕ} (hi : cfg.tasks[i]? = some t)
    (hm : R.mapOf t.call = some m) (hans : t.answer = some (.ok false)) :
    ∀ id ∈ t.children, cfg.answerOf id = some (.ok false) := by
  have hprog := (hs.tasks i t hi).progress
  have hjust := (hs.tasks i t hi).justified false hans
  have hsome : R.mapOf t.call ≠ none := by simp [hm]
  rcases hplan : expand t.call with a | bs | ⟨map, items⟩ | calls | ⟨base, sub⟩ | ⟨root, body⟩
  · simp only [Progress, hplan] at hprog
    simp [hprog]
  · simp only [canFinish, hplan, Bool.false_eq_true, if_false] at hjust
    exact hjust.2.2
  · simp only [canFinish, hplan, Bool.false_eq_true, if_false] at hjust
    exact hjust.2.2
  · exact absurd (R.every _ _ hplan).1 hsome
  · exact absurd (R.butNot _ _ _ hplan).1 hsome
  · exact absurd (R.fresh _ _ _ hplan).1 hsome

variable {q r m : ℕ} {opener : Task Call CKey ε} {c : Call}

/-- **If the root of a region refuses, so does every task of it**, and all of them come after
the task that opened it. -/
theorem region_refuses (hs : Structured M Started cfg) (ht : RegionTree R cfg)
    (hq : cfg.tasks[q]? = some opener) (hopen : Opens expand opener.call)
    (hr : r ∈ opener.children) (hc : cfg.callOf r = some c) (hm : R.mapOf c = some m)
    (hans : cfg.answerOf r = some (.ok false)) (i : ℕ) (t : Task Call CKey ε)
    (hi : cfg.tasks[i]? = some t) (htm : R.mapOf t.call = some m) :
    q < i ∧ t.answer = some (.ok false) := by
  induction i using Nat.strongRecOn generalizing t with
  | _ i ih =>
    obtain ⟨p, u, hp, hmem, hcase⟩ := ht.parent i t m hi htm
    have hlt := (hs.tasks p u hp).ids i hmem
    have hcall : cfg.callOf i = some t.call := by rw [Config.callOf, hi, Option.map_some]
    have hanswer : cfg.answerOf i = t.answer := by rw [Config.answerOf, hi, Option.bind_some]
    rcases hcase with hum | hu
    · -- the parent belongs to the region
      obtain ⟨hqp, hpans⟩ := ih p hlt.1 u hp hum
      refine ⟨by omega, ?_⟩
      rw [← hanswer]
      exact children_refuse hs hp hum hpans i hmem
    · -- the parent opened the region, so the task is its root
      obtain rfl := ht.unique p q u opener i r t.call c hp hq hu hopen hmem hr hcall hc
        (htm.trans hm.symm)
      obtain rfl : u = opener := by simpa [hp] using hq
      have hone : u.children.length ≤ 1 := Nat.le_trans (ht.opener p u hp hu).1 (ht.opener p u hp hu).2
      obtain rfl : i = r := by
        rcases hch : u.children with _ | ⟨x, _ | _⟩ <;> simp_all
      refine ⟨hlt.1, ?_⟩
      rw [← hanswer]
      exact hans

/-- Outside of the regions only an opener has children inside one. -/
theorem child_mapOf_none (hs : Structured M Started cfg) (hi : cfg.tasks[i]? = some t)
    (hnone : R.mapOf t.call = none) (hopen : ¬ Opens expand t.call) {id : ℕ} (hid : id ∈ t.children)
    (hc : cfg.callOf id = some c) : R.mapOf c = none := by
  have hprog := (hs.tasks i t hi).progress
  rcases hplan : expand t.call with a | bs | ⟨map, items⟩ | calls | ⟨base, sub⟩ | ⟨root, body⟩
  · simp only [Progress, hplan] at hprog
    simp [hprog] at hid
  · simp only [Progress, hplan] at hprog
    obtain ⟨p, hp, hcall⟩ := hprog.2.2 id hid
    obtain rfl : p.2 = c := by simpa [hc] using hcall.symm
    rcases R.any _ _ hplan p hp with h | h
    · exact h
    · exact h.trans hnone
  · simp only [Progress, hplan] at hprog
    obtain ⟨item, hitem, -, hcall⟩ := hprog.2 id hid
    obtain rfl : item.call = c := by simpa [hc] using hcall.symm
    obtain ⟨hmap, hitems⟩ := R.scan _ _ _ hplan
    rw [hitems item hitem, hmap, hnone]
  · simp only [Progress, hplan] at hprog
    obtain ⟨c', hc', hcall⟩ := (mem_callOf hprog).2 id hid
    obtain rfl : c' = c := by simpa [hc] using hcall.symm
    exact (R.every _ _ hplan).2 c' (mem_of_mem_take hc')
  · simp only [Progress, hplan] at hprog
    obtain ⟨c', hc', hcall⟩ := (mem_callOf hprog).2 id hid
    obtain rfl : c' = c := by simpa [hc] using hcall.symm
    exact (R.butNot _ _ _ hplan).2 c' (mem_of_mem_take hc')
  · exact absurd ⟨root, body, hplan⟩ hopen

/-- The calls of a refusing region are an unfounded set, given that the refusals outside of
regions below it are right. -/
theorem region_unfounded (hs : Structured M Started cfg) (ht : RegionTree R cfg)
    (hq : cfg.tasks[q]? = some opener) (hopen : Opens expand opener.call)
    (hr : r ∈ opener.children) (hc : cfg.callOf r = some c) (hm : R.mapOf c = some m)
    (hans : cfg.answerOf r = some (.ok false))
    (hbelow : ∀ (id : ℕ) (u : Task Call CKey ε), q < id → cfg.tasks[id]? = some u →
      R.mapOf u.call = none → u.answer = some (.ok false) → ¬ M.truth u.call)
    (c' : Call) (hc' : Started cfg c') (hm' : R.mapOf c' = some m) :
    M.valid c' ∧ Unfounded M (fun x => Started cfg x ∧ R.mapOf x = some m) c' := by
  obtain ⟨i, hci⟩ := hc'
  obtain ⟨t, hi, rfl⟩ := Option.map_eq_some_iff.mp hci
  obtain ⟨hlt, hfalse⟩ := region_refuses hs ht hq hopen hr hc hm hans i t hi hm'
  have hprog := (hs.tasks i t hi).progress
  have hjust := (hs.tasks i t hi).justified false hfalse
  have hsome : R.mapOf t.call ≠ none := by simp [hm']
  refine ⟨(hs.tasks i t hi).valid, ?_⟩
  unfold Unfounded
  rcases hplan : expand t.call with a | bs | ⟨map, items⟩ | calls | ⟨base, sub⟩ | ⟨root, body⟩
  · simp only [canFinish, hplan] at hjust
    exact hjust
  · simp only [canFinish, hplan, Bool.false_eq_true, if_false] at hjust
    simp only [Progress, hplan] at hprog
    obtain ⟨hpos, hhit, hall⟩ := hjust
    rw [hpos, take_length] at hprog
    intro p hp
    rcases hprog.1 p hp with ⟨id, hid, hcall⟩ | h | h
    · rcases R.any _ _ hplan p hp with hn | hn
      · -- a branch that leaves the region has its own answer
        obtain ⟨u, hu, hucall, hua⟩ := task_of_callOf hcall (hall id hid)
        have := (hs.tasks i t hi).ids id hid
        rw [← hucall] at hn ⊢
        exact .inr (hbelow id u (by omega) hu hn hua)
      · exact .inl ⟨⟨id, hcall⟩, hn.trans hm'⟩
    · rw [hhit] at h
      cases h
    · exact .inr h
  · simp only [canFinish, hplan, Bool.false_eq_true, if_false] at hjust
    simp only [Progress, hplan] at hprog
    rw [hjust.1, take_length] at hprog
    obtain ⟨hmap, hitems⟩ := R.scan _ _ _ hplan
    intro item hitem hcond
    have him : R.mapOf item.call = some m := by rw [hitems item hitem, hmap, hm']
    rcases hprog.1 item hitem hcond with ⟨id, -, hcall⟩ | h
    · exact .inl ⟨⟨id, hcall⟩, him⟩
    · exact .inl ⟨h.2, him⟩
  · exact absurd (R.every _ _ hplan).1 hsome
  · exact absurd (R.butNot _ _ _ hplan).1 hsome
  · exact absurd (R.fresh _ _ _ hplan).1 hsome

/-- **Every granting answer is right, and every refusal outside of the regions.**  The induction
goes from the last task to the first. -/
theorem region_answer_right (hM : Founded M) (hs : Structured M Started cfg)
    (ht : RegionTree R cfg) (i : ℕ) (t : Task Call CKey ε) (hi : cfg.tasks[i]? = some t) :
    (t.answer = some (.ok true) → M.truth t.call)
      ∧ (R.mapOf t.call = none → t.answer = some (.ok false) → ¬ M.truth t.call) := by
  induction hn : cfg.tasks.length - i using Nat.strongRecOn generalizing i t with
  | _ n ih =>
    have hlen : i < cfg.tasks.length := (List.getElem?_eq_some_iff.mp hi).1
    have hbelow : ∀ (id : ℕ) (u : Task Call CKey ε), i < id → cfg.tasks[id]? = some u →
        (u.answer = some (.ok true) → M.truth u.call)
          ∧ (R.mapOf u.call = none → u.answer = some (.ok false) → ¬ M.truth u.call) := by
      intro id u hlt hu
      exact ih (cfg.tasks.length - id) (by omega) id u hu rfl
    have hT : ∀ id ∈ t.children, ∀ c, cfg.callOf id = some c →
        cfg.answerOf id = some (.ok true) → M.truth c := by
      intro id hid c hc ha
      obtain ⟨u, hu, rfl, hua⟩ := task_of_callOf hc ha
      exact (hbelow id u ((hs.tasks i t hi).ids id hid).1 hu).1 hua
    have hF : ∀ id ∈ t.children, ∀ c, cfg.callOf id = some c → R.mapOf c = none →
        cfg.answerOf id = some (.ok false) → ¬ M.truth c := by
      intro id hid c hc hm ha
      obtain ⟨u, hu, rfl, hua⟩ := task_of_callOf hc ha
      exact (hbelow id u ((hs.tasks i t hi).ids id hid).1 hu).2 hm hua
    constructor
    · intro hans
      refine true_local hs hi hans hT (fun base sub hplan id hid c hc ha => ?_)
      have hopen : ¬ Opens expand t.call := by
        rintro ⟨root, body, h⟩
        rw [hplan] at h
        cases h
      exact hF id hid c hc
        (child_mapOf_none hs hi (R.butNot _ _ _ hplan).1 hopen hid hc) ha
    · intro hnone hans
      by_cases hopen : Opens expand t.call
      · -- a region has been refused as a whole
        obtain ⟨root, body, hplan⟩ := hopen
        have hprog := (hs.tasks i t hi).progress
        have hjust := (hs.tasks i t hi).justified false hans
        simp only [canFinish, hplan] at hjust
        simp only [Progress, hplan] at hprog
        obtain ⟨id, hid, ha⟩ := hjust
        obtain ⟨m, hc⟩ := hprog id hid
        have hm : R.mapOf (body m) = some m := (R.fresh _ _ _ hplan).2 m
        rw [M.fresh t.call root body m (hs.tasks i t hi).valid hplan]
        refine hM (fun x => Started cfg x ∧ R.mapOf x = some m) (fun x hx => ?_) (body m)
          ⟨⟨id, hc⟩, hm⟩
        exact region_unfounded hs ht hi ⟨root, body, hplan⟩ hid hc hm ha
          (fun j u hlt hu => (hbelow j u hlt hu).2) x hx.1 hx.2
      · refine false_local hs hi hans (fun id hid c hc ha => ?_)
          (fun base sub _ id hid c hc ha => hT id hid c hc ha)
          (fun map items hplan hsome item _ _ => ?_)
        · exact hF id hid c hc (child_mapOf_none hs hi hnone hopen hid hc) ha
        · rw [(R.scan _ _ _ hplan).1, hnone] at hsome
          cases hsome

end Region

/-! ### Steps keep the regions -/

variable [DecidableEq Key]

omit [DecidableEq Key] in
theorem length_mark (maps : List (List Key)) (map : Option ℕ) (key : Key) :
    (mark maps map key).length = maps.length := by
  cases map with
  | none => rfl
  | some => simp [mark]

variable {t : Task Call CKey ε}

/-- A move keeps the sets of visited keys, or opens a new one; the child stays in the region of
its parent, or is the root of the new one. -/
theorem moves_mapOf (R : Regions expand)
    {mv : Move Call Key CKey} (hmv : Moves expand cfg.maps cfg.cache t mv) :
    cfg.maps.length ≤ mv.maps.length ∧ ∀ c m, mv.child = some c → R.mapOf c.2 = some m →
      R.mapOf t.call = some m
        ∨ (Opens expand t.call ∧ t.pos = 0 ∧ m = cfg.maps.length ∧ m < mv.maps.length) := by
  cases hmv with
  | branch bs p hplan hget =>
    refine ⟨Nat.le_refl _, fun c m hc hm => .inl ?_⟩
    cases hc
    rcases R.any _ _ hplan p (mem_of_getElem? hget) with h | h
    · rw [hm] at h
      cases h
    · rw [← h, hm]
  | cached bs key c => exact ⟨Nat.le_refl _, fun c m hc => by cases hc⟩
  | visited =>
    exact ⟨Nat.le_refl _, fun c m hc => by cases hc⟩
  | started map items item hplan hget =>
    refine ⟨Nat.le_of_eq (length_mark _ _ _).symm, fun c m hc hm => .inl ?_⟩
    cases hc
    obtain ⟨hmap, hitems⟩ := R.scan _ _ _ hplan
    rw [← hmap, ← hitems item (mem_of_getElem? hget), hm]
  | refused =>
    exact ⟨Nat.le_of_eq (length_mark _ _ _).symm, fun c m hc => by cases hc⟩
  | operand calls c hplan hget =>
    refine ⟨Nat.le_refl _, fun c' m hc hm => ?_⟩
    cases hc
    have hnone : R.mapOf c = none := by
      rcases hplan with hplan | ⟨base, sub, hplan, rfl⟩
      · exact (R.every _ _ hplan).2 c (mem_of_getElem? hget)
      · exact (R.butNot _ _ _ hplan).2 c (mem_of_getElem? hget)
    rw [hnone] at hm
    cases hm
  | opened root body hplan hpos =>
    have hlen : (cfg.maps ++ [[root]]).length = cfg.maps.length + 1 := by simp
    refine ⟨by simp, fun c m hc hm => .inr ⟨⟨root, body, hplan⟩, hpos, ?_⟩⟩
    cases hc
    rw [(R.fresh _ _ _ hplan).2] at hm
    cases hm
    exact ⟨rfl, by rw [hlen]; exact Nat.lt_succ_self _⟩

variable {M : Meaning expand} {R : Regions expand}

variable {skipped : Config Call Key CKey ε → Call → Prop}

omit [DecidableEq Key] in
/-- The call of an old child has not changed. -/
theorem callOf_old (hs : Structured M skipped cfg) (hext : Extends cfg cfg') {p : ℕ}
    {u : Task Call CKey ε} (hp : cfg.tasks[p]? = some u) {id : ℕ} (hid : id ∈ u.children)
    (hc : cfg'.callOf id = some c) : ∃ w, cfg.tasks[id]? = some w ∧ w.call = c := by
  obtain ⟨w, hw⟩ : ∃ w, cfg.tasks[id]? = some w :=
    ⟨_, getElem?_eq_getElem ((hs.tasks p u hp).ids id hid).2⟩
  have hold : cfg.callOf id = some w.call := by rw [Config.callOf, hw, Option.map_some]
  have hnew := hext.callOf hold
  rw [hc] at hnew
  exact ⟨w, hw, (Option.some.inj hnew).symm⟩

omit [DecidableEq Key] in
/-- A change of the tasks keeps the regions if each task has its call and at most one new child, the
root of a region that is opened now, or is new and has a parent in its region. -/
theorem RegionTree.of_lookup (hs : Structured M skipped cfg) (ht : RegionTree R cfg)
    (hext : Extends cfg cfg') (hlen : cfg.maps.length ≤ cfg'.maps.length) (i : ℕ)
    (hlook : ∀ (j : ℕ) (u : Task Call CKey ε), cfg'.tasks[j]? = some u →
      (∃ w : Task Call CKey ε, cfg.tasks[j]? = some w ∧ w.call = u.call
        ∧ (Opens expand u.call → u.children.length ≤ u.pos ∧ u.pos ≤ 1)
        ∧ ∀ id ∈ u.children, id ∈ w.children ∨ (j = i ∧ ∀ c, cfg'.callOf id = some c →
          Opens expand u.call → R.mapOf c = some cfg.maps.length))
      ∨ (u.children = [] ∧ u.pos = 0 ∧ ∀ m, R.mapOf u.call = some m → m < cfg'.maps.length
        ∧ ∃ (p : ℕ) (x : Task Call CKey ε), cfg'.tasks[p]? = some x ∧ j ∈ x.children
          ∧ (R.mapOf x.call = some m ∨ Opens expand x.call))) : RegionTree R cfg' := by
  refine ⟨fun j u m hu hm => ?_, fun j u m hu hm => ?_, fun p u hu hopen => ?_, ?_⟩
  · rcases hlook j u hu with ⟨w, hw, hcall, -⟩ | ⟨-, -, hnew⟩
    · exact Nat.lt_of_lt_of_le (ht.bound j w m hw (hcall ▸ hm)) hlen
    · exact (hnew m hm).1
  · rcases hlook j u hu with ⟨w, hw, hcall, -⟩ | ⟨-, -, hnew⟩
    · obtain ⟨p, x, hp, hmem, hcase⟩ := ht.parent j w m hw (hcall ▸ hm)
      obtain ⟨x', hx', hcall', -, hpre, -⟩ := hext p x hp
      exact ⟨p, x', hx', hpre.subset hmem, by rw [hcall']; exact hcase⟩
    · exact (hnew m hm).2
  · rcases hlook p u hu with ⟨w, -, -, hopener, -⟩ | ⟨hch, hpos, -⟩
    · exact hopener hopen
    · rw [hch, hpos]
      exact ⟨Nat.le_refl _, Nat.zero_le _⟩
  · intro p p' u u' id id' c c' hu hu' hopen hopen' hid hid' hc hc' hmap
    -- a child of an opener is old, or the root of the region that is opened now
    have hcases : ∀ (p : ℕ) (u : Task Call CKey ε) (id : ℕ) (c : Call),
        cfg'.tasks[p]? = some u → Opens expand u.call → id ∈ u.children → cfg'.callOf id = some c →
        (∃ w, cfg.tasks[p]? = some w ∧ Opens expand w.call ∧ id ∈ w.children
            ∧ cfg.callOf id = some c ∧ ∀ m, R.mapOf c = some m → m < cfg.maps.length)
          ∨ (p = i ∧ R.mapOf c = some cfg.maps.length) := by
      intro p u id c hu hopen hid hc
      rcases hlook p u hu with ⟨w, hw, hcall, -, hchildren⟩ | ⟨hch, -⟩
      · rcases hchildren id hid with hmem | ⟨rfl, hroot⟩
        · obtain ⟨x, hx, rfl⟩ := callOf_old hs hext hw hmem hc
          exact .inl ⟨w, hw, by rw [hcall]; exact hopen, hmem,
            by rw [Config.callOf, hx, Option.map_some], fun m hm => ht.bound id x m hx hm⟩
        · exact .inr ⟨rfl, hroot c hc hopen⟩
      · rw [hch] at hid
        cases hid
    rcases hcases p u id c hu hopen hid hc with ⟨w, hw, hwo, hmem, hcc, hb⟩ | ⟨rfl, hcm⟩
    · rcases hcases p' u' id' c' hu' hopen' hid' hc' with ⟨w', hw', hwo', hmem', hcc', hb'⟩ | ⟨-, hcm'⟩
      · exact ht.unique p p' w w' id id' c c' hw hw' hwo hwo' hmem hmem' hcc hcc' hmap
      · exact absurd (hb _ (hmap.trans hcm')) (Nat.lt_irrefl _)
    · rcases hcases p' u' id' c' hu' hopen' hid' hc' with ⟨w', hw', hwo', hmem', hcc', hb'⟩ | ⟨rfl, -⟩
      · exact absurd (hb' _ (hmap.symm.trans hcm)) (Nat.lt_irrefl _)
      · rfl

/-- **A move keeps the regions.** -/
theorem regionTree_moved (hs : Structured M skipped cfg) (ht : RegionTree R cfg) {i : ℕ}
    {mv : Move Call Key CKey} (hi : cfg.tasks[i]? = some t)
    (hmv : Moves expand cfg.maps cfg.cache t mv) : RegionTree R (cfg.moved i t mv) := by
  obtain ⟨hlen, hchild⟩ := moves_mapOf R hmv
  refine ht.of_lookup hs (moved_extends mv hi) hlen i fun j u hu => ?_
  rcases lookup_moved mv hi hu with ⟨rfl, rfl⟩ | ⟨-, h⟩ | ⟨rfl, c, hc, rfl⟩
  · refine .inl ⟨t, hi, rfl, fun ⟨root, body, hplan⟩ => ?_, fun id hid => ?_⟩
    · have hpos := moves_pos hmv
      have hplan' : expand t.call = .fresh root body := hplan
      rw [hplan', Plan.size] at hpos
      have hold := ht.opener j t hi ⟨root, body, hplan'⟩
      have hlen' : (t.moved mv cfg.tasks.length).children.length ≤ t.children.length + 1 := by
        simp only [Task.moved, length_append]
        cases mv.child <;> simp
      show (t.moved mv cfg.tasks.length).children.length ≤ t.pos + 1 ∧ t.pos + 1 ≤ 1
      omega
    · rcases mem_children_moved hid with h | ⟨rfl, d, hd⟩
      · exact .inl h
      · refine .inr ⟨rfl, fun c hc ⟨root, body, hplan⟩ => ?_⟩
        obtain rfl : d.2 = c := Option.some.inj ((callOf_moved_child mv hd).symm.trans hc)
        have hst := moves_starts hmv hd
        have hplan' : expand t.call = .fresh root body := hplan
        rw [hplan'] at hst
        obtain ⟨m, hm⟩ := hst
        have hdm : R.mapOf d.2 = some m := by rw [hm]; exact (R.fresh _ _ _ hplan).2 m
        rcases hchild d m hd hdm with h | ⟨-, -, h, -⟩
        · cases (R.fresh _ _ _ hplan).1.symm.trans h
        · rw [hdm, h]
  · exact .inl ⟨u, h, rfl, ht.opener j u h, fun id hid => .inl hid⟩
  · refine .inr ⟨rfl, rfl, fun m hm => ⟨?_, i, _, lookup_moved_self mv hi, by simp [Task.moved, hc],
      (hchild c m hc hm).imp id fun h => h.1⟩⟩
    rcases hchild c m hc hm with h | ⟨-, -, -, h⟩
    · exact Nat.lt_of_lt_of_le (ht.bound i t m hi h) hlen
    · exact h

/-- **A step keeps the regions**: one other than a move changes no child and adds no task inside a
region. -/
theorem regionTree_step {choice : Choice Call ε} [DecidableEq CKey] (hs : Structured M skipped cfg)
    (ht : RegionTree R cfg) (hstep : Stepped expand cfg choice cfg')
    (hreq : ∀ c, choice = .request c → R.mapOf c = none) : RegionTree R cfg' := by
  have hext := step_extends hstep
  cases hstep with
  | request c =>
    refine ht.of_lookup hs hext (Nat.le_refl _) 0 fun j u hu => ?_
    rcases Nat.lt_or_ge j cfg.tasks.length with h | h
    · rw [getElem?_append_left h] at hu
      exact .inl ⟨u, hu, rfl, ht.opener j u hu, fun id hid => .inl hid⟩
    · rw [getElem?_append_right h] at hu
      obtain rfl : u = { call := c, store := none } := by simpa using mem_of_getElem? hu
      refine .inr ⟨rfl, rfl, fun m hm => ?_⟩
      cases (hreq c rfl).symm.trans hm
  | look i cached t mv hi hmv => exact regionTree_moved hs ht hi (moves_of_move hmv)
  | finish i a t hi =>
    refine ht.of_lookup hs hext (Nat.le_refl _) 0 fun j u hu => ?_
    rcases lookup_set _ hu with ⟨rfl, rfl⟩ | ⟨-, h⟩
    · exact .inl ⟨t, hi, rfl, ht.opener j t hi, fun id hid => .inl hid⟩
    · exact .inl ⟨u, h, rfl, ht.opener j u h, fun id hid => .inl hid⟩
  | put => exact ⟨ht.bound, ht.parent, ht.opener, ht.unique⟩

omit [DecidableEq Key] in
theorem regionTree_empty (R : Regions expand) : RegionTree R {} := by
  refine ⟨fun i t m h => ?_, fun i t m h => ?_, fun p u h => ?_,
    fun p p' u u' id id' c c' h => ?_⟩ <;> simp at h

/-- **Runs without a cache in which an item with a true condition is only dropped while a task
has its call.**  Every answer outside of the regions is right. -/
theorem run_regions [DecidableEq CKey] [DecidableEq ε] (M : Meaning expand) (R : Regions expand)
    (hM : Founded M) (choices : List (Choice Call ε)) (cfg : Config Call Key CKey ε)
    (hP : Along expand (fun cfg choice => (∀ c, choice = .request c → M.valid c ∧ R.mapOf c = none)
      ∧ (∀ i, choice ≠ .put i) ∧ ∀ c, Drops expand cfg choice c → Started cfg c) {} choices)
    (hrun : run expand {} choices = some cfg) (i : ℕ) (t : Task Call CKey ε) (b : Bool)
    (hi : cfg.tasks[i]? = some t) (hmap : R.mapOf t.call = none)
    (hans : t.answer = some (.ok b)) : b = true ↔ M.truth t.call := by
  have hinv : Structured M Started cfg ∧ RegionTree R cfg := by
    refine run_invariant (I := fun cfg => Structured M Started cfg ∧ RegionTree R cfg)
      (fun cfg choice cfg' hI hP hstep => ?_) choices {} cfg
      ⟨structured_empty M _, regionTree_empty R⟩ hP hrun
    refine ⟨structured_step (fun _ _ _ hext h => h.mono hext) hI.1 hstep (fun c hc => (hP.1 c hc).1)
      hP.2.2 fun i t b h => absurd h (hP.2.1 i), ?_⟩
    exact regionTree_step hI.1 hI.2 hstep fun c hc => (hP.1 c hc).2
  have hright := region_answer_right hM hinv.1 hinv.2 i t hi
  cases b with
  | true => exact iff_of_true rfl (hright.1 hans)
  | false => exact iff_of_false (by simp) (hright.2 hmap hans)

end Kengen.TaskMachine
