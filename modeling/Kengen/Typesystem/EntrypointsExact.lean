import Kengen.Typesystem.EntrypointsSound

/-!
# Where the entrypoint test is exact

A visit takes the mark of a relation for the answer that there is no entrypoint.  This is right
while the relation is still being tested: the search has come back to it along a cycle, and no
entrypoint needs a cycle.  It is wrong for a relation that has an entrypoint and whose test has
ended; an intersection further down meets such marks, since its second operand sees the marks of the
first one.

* `entrypointsOff` — what is left of the least fixpoint without the relations of a path;
  **`meaning_of_mem`** — a relation has its entrypoint without itself.
* `walkClean`, `cleanRun`, `Clean` — the condition: no mark is taken for the wrong answer.
* **`walk_accepts`** — the step: a walk without such marks accepts what has an entrypoint.
* **`entrypoint_test_exact`** — under the condition the test is exact.
* **`entrypoint_rejected`** — without it the test rejects a relation that has an entrypoint.
-/

namespace Kengen.Entrypoints

open List

variable {ts : TypeSystem} {call : RelationKey → Visit} {v : Marks} {verdict : Verdict}
  {k : RelationKey} {path : List RelationKey}

/-! ### Entrypoints without a path -/

section Off

variable (ts)

/-- One round of the rules, for the relations that are not on the path. -/
def rulesOff (path : List RelationKey) : Set RelationKey →o Set RelationKey where
  toFun X := rules ts X \ {k | k ∈ path}
  monotone' _ _ h := Set.sdiff_subset_sdiff_left ((rules ts).monotone h)

/-- **The entrypoints that need no relation of the path.** -/
def entrypointsOff (path : List RelationKey) : Set RelationKey := (rulesOff ts path).lfp

end Off

theorem entrypoints_subset_off : entrypoints ts ⊆ entrypointsOff ts [] := by
  refine (rules ts).lfp_le fun k hk => ?_
  rw [entrypointsOff, ← (rulesOff ts []).map_lfp]
  exact ⟨hk, not_mem_nil⟩

theorem entrypointsOff_subset (path : List RelationKey) :
    entrypointsOff ts path ⊆ entrypoints ts := by
  refine (rulesOff ts path).lfp_le fun k hk => ?_
  rw [entrypoints, ← (rules ts).map_lfp]
  exact hk.1

theorem notMem_path (h : k ∈ entrypointsOff ts path) : k ∉ path := by
  rw [entrypointsOff, ← (rulesOff ts path).map_lfp] at h
  exact h.2

/-- **A relation has its entrypoint without itself.** -/
theorem meaning_of_mem {relation : Relation} (hrelation : find ts k = .ok relation)
    (h : k ∈ entrypointsOff ts path) :
    Meaning ts (entrypointsOff ts (k :: path)) k relation.rewrite := by
  by_contra hnot
  -- what needs no relation of the longer path would be closed under the rules of the shorter one
  have hle : entrypointsOff ts path ⊆ entrypointsOff ts (k :: path) := by
    refine (rulesOff ts path).lfp_le ?_
    rintro k' ⟨⟨relation', hrelation', hmeaning⟩, hk'⟩
    have hne : k' ≠ k := by
      rintro rfl
      rw [hrelation] at hrelation'
      cases hrelation'
      exact hnot hmeaning
    rw [entrypointsOff, ← (rulesOff ts (k :: path)).map_lfp]
    exact ⟨⟨relation', hrelation', hmeaning⟩, not_mem_cons_of_ne_of_not_mem hne hk'⟩
  exact notMem_path (hle h) mem_cons_self

/-! ### The condition -/

/-- All items that a loop visits are clean; it goes on at one with the answer. -/
def loopClean {ι : Type} (visit : ι → Visit) (clean : ι → Marks → Bool) (answer : Bool) :
    List ι → Marks → Bool
  | [], _ => true
  | item :: items, v => clean item v &&
    match visit item v with
    | .error _ => true
    | .ok verdict =>
      verdict.hasEntrypoint != answer || loopClean visit clean answer items verdict.visited

section Clean

variable (ts) (has : RelationKey → Bool)

/-- A relation is asked for.  If its mark says that there is no entrypoint, the relation is on the
path or has none. -/
def askedClean (path : List RelationKey) (clean : RelationKey → Marks → Bool) (answer : Bool → Bool)
    (k : RelationKey) (v : Marks) : Bool :=
  match markOf v k with
  | some b => answer b || path.contains k || !has k
  | none => clean k v

/-- No walk of the rule meets a mark that is wrong.  A userset restriction takes every mark for a
no, the others take the flag. -/
def walkClean (path : List RelationKey) (call : RelationKey → Visit)
    (clean : RelationKey → Marks → Bool) (k : RelationKey) : Rewrite → Marks → Bool
  | .this => fun v =>
    match find ts k with
    | .error _ => true
    | .ok relation => loopClean (assignVisit ts call k)
        (fun assignable => match assignable.relationOrWildcard with
          | .relation name => askedClean has path clean (fun _ => false) (assignable.type, name)
          | _ => fun _ => true)
        false (relatedTypes relation) (mark v k false)
  | .computedUserset computed => fun v =>
    askedClean has path clean id (k.1, computed) (mark v k false)
  | .tupleToUserset tupleset computed => fun v =>
    match find ts (k.1, tupleset) with
    | .error _ => true
    | .ok relation => loopClean (tuplesetVisit ts call computed)
        (fun assignable => match ts.getRelation assignable.type computed with
          | .ok _ => askedClean has path clean id (assignable.type, computed)
          | .error _ => fun _ => true)
        false (relatedTypes relation) (mark v k false)
  | .union (n := n) child => fun v =>
    loopClean (fun i => walk ts call k (child i)) (fun i => walkClean path call clean k (child i))
      false (finRange n) (restrict v (mark v k false))
  | .intersection (n := n) child => fun v =>
    loopClean (fun i => walk ts call k (child i)) (fun i => walkClean path call clean k (child i))
      true (finRange n) (restrict v (mark v k false))
  | .difference base subtract => fun v =>
    loopClean (fun isSubtract => if isSubtract then walk ts call k subtract else walk ts call k base)
      (fun isSubtract => if isSubtract then walkClean path call clean k subtract
        else walkClean path call clean k base)
      true [false, true] (restrict v (mark v k false))

/-- The same for a call and the calls that it makes; the path has the relations that are still being
tested. -/
def cleanRun : ℕ → List RelationKey → RelationKey → Rewrite → Marks → Bool
  | 0, _, _, _ => fun _ => true
  | fuel + 1, path, k, rewrite => walkClean ts has (k :: path) (callFor ts fuel)
      (fun k' v => match find ts k' with
        | .error _ => true
        | .ok relation => cleanRun fuel (k :: path) k' relation.rewrite v) k rewrite

end Clean

variable (ts) in
/-- **The condition**: where the test takes a mark for a no, the relation is still being tested or
has no entrypoint. -/
def Clean (k : RelationKey) : Prop :=
  ∃ has : RelationKey → Bool, (∀ k' ∈ entrypoints ts, has k' = true)
    ∧ ∀ relation, find ts k = .ok relation →
      cleanRun ts has ((relationKeys ts).length + 1) [] k relation.rewrite (fun _ => none) = true

/-! ### What has an entrypoint is accepted -/

section Loops

variable {ι : Type} {visit : ι → Visit} {clean : ι → Marks → Bool} {items : List ι}

theorem anyLoop_accepts {loop : Bool} (h : anyLoop visit items v loop = .ok verdict)
    (hclean : loopClean visit clean false items v = true)
    (hitem : ∃ item ∈ items, ∀ v verdict, clean item v = true → visit item v = .ok verdict →
      verdict.hasEntrypoint = true) : verdict.hasEntrypoint = true := by
  induction items generalizing v loop with
  | nil =>
    obtain ⟨_, hmem, -⟩ := hitem
    cases hmem
  | cons first items ih =>
    rw [anyLoop] at h
    rw [loopClean, Bool.and_eq_true] at hclean
    split at h
    · cases h
    rename_i answer hvisit
    rw [hvisit] at hclean
    split_ifs at h with hfirst
    · cases h
      rfl
    · obtain ⟨item, hmem, haccepts⟩ := hitem
      rcases mem_cons.mp hmem with rfl | hmem
      · exact (hfirst (haccepts v answer hclean.1 hvisit)).elim
      · exact ih h (by simpa [hfirst] using hclean.2) ⟨item, hmem, haccepts⟩

theorem allLoop_accepts (h : allLoop visit items v = .ok verdict)
    (hclean : loopClean visit clean true items v = true)
    (hitems : ∀ item ∈ items, ∀ v verdict, clean item v = true → visit item v = .ok verdict →
      verdict.hasEntrypoint = true) : verdict.hasEntrypoint = true := by
  induction items generalizing v with
  | nil =>
    cases h
    rfl
  | cons first items ih =>
    rw [allLoop] at h
    rw [loopClean, Bool.and_eq_true] at hclean
    split at h
    · cases h
    rename_i answer hvisit
    rw [hvisit] at hclean
    have hfirst := hitems first mem_cons_self v answer hclean.1 hvisit
    rw [if_pos hfirst] at h
    exact ih h (by simpa [hfirst] using hclean.2) fun item hmem => hitems item (mem_cons_of_mem _ hmem)

end Loops

variable {has : RelationKey → Bool} {clean : RelationKey → Marks → Bool}

/-- A relation that has an entrypoint off the path is asked for: its mark says so, or it is
called. -/
theorem askedClean_cases (hhas : ∀ k ∈ entrypoints ts, has k = true) {answer : Bool → Bool}
    (hk : k ∈ entrypointsOff ts path) (h : askedClean has path clean answer k v = true) :
    (∃ b, markOf v k = some b ∧ answer b = true) ∨ (markOf v k = none ∧ clean k v = true) := by
  unfold askedClean at h
  split at h
  · rename_i b hmark
    simp only [hhas k (entrypointsOff_subset path hk), contains_eq_mem, notMem_path hk,
      decide_false, Bool.or_false, Bool.not_true] at h
    exact .inl ⟨b, hmark, h⟩
  · exact .inr ⟨‹_›, h⟩

variable (ts call path clean) in
/-- Clean calls accept what has an entrypoint off the path. -/
def CallAccepts : Prop :=
  ∀ k v verdict, k ∈ entrypointsOff ts path → clean k v = true → call k v = .ok verdict →
    verdict.hasEntrypoint = true

theorem called_accepts (hcall : CallAccepts ts call path clean) (hk : k ∈ entrypointsOff ts path)
    (hclean : clean k v = true)
    (h : (call k v).map (fun verdict => { verdict with loop := false }) = .ok verdict) :
    verdict.hasEntrypoint = true := by
  cases hcalled : call k v with
  | error =>
    rw [hcalled] at h
    cases h
  | ok inner =>
    rw [hcalled] at h
    cases h
    exact hcall k v inner hk hclean hcalled

/-- **The step**: a clean walk accepts a rule that has an entrypoint off the path. -/
theorem walk_accepts (hhas : ∀ k ∈ entrypoints ts, has k = true)
    (hcall : CallAccepts ts call path clean) (rewrite : Rewrite)
    (hmeaning : Meaning ts (entrypointsOff ts path) k rewrite)
    (hclean : walkClean ts has path call clean k rewrite v = true)
    (h : walk ts call k rewrite v = .ok verdict) : verdict.hasEntrypoint = true := by
  induction rewrite generalizing v verdict with
  | this =>
    obtain ⟨relation, hrelation, assignable, hmem, hor⟩ := hmeaning
    simp only [walk, walkClean, hrelation] at h hclean
    obtain ⟨inner, hinner, rfl⟩ := leave_ok h
    show inner.hasEntrypoint = true
    refine anyLoop_accepts hinner hclean ⟨assignable, hmem, fun w verdict hw hok => ?_⟩
    rcases hor with (hfacet | hfacet) | ⟨name, hfacet, hin⟩
    · simp only [assignVisit, hfacet] at hok
      cases hok
      rfl
    · simp only [assignVisit, hfacet] at hok
      cases hok
      rfl
    · simp only [hfacet] at hw
      rcases askedClean_cases hhas hin hw with ⟨_, -, ⟨⟩⟩ | ⟨hmark, hw⟩
      simp only [assignVisit, hfacet, hmark] at hok
      split at hok
      · cases hok
      · exact called_accepts hcall hin hw hok
  | computedUserset computed =>
    simp only [walk] at h
    split at h
    · cases h
    obtain ⟨inner, hinner, rfl⟩ := leave_ok h
    unfold computedVisit at hinner
    split at hinner
    · cases hinner
    rcases askedClean_cases hhas hmeaning hclean with ⟨b, hmark, hb⟩ | ⟨hmark, hw⟩
    · rw [hmark] at hinner
      cases hinner
      exact hb
    · rw [hmark] at hinner
      exact hcall _ _ inner hmeaning hw hinner
  | tupleToUserset tupleset computed =>
    obtain ⟨relation, hrelation, assignable, hmem, ⟨_, hget⟩, hin⟩ := hmeaning
    simp only [walk, walkClean, hrelation] at h hclean
    split at h
    · cases h
    obtain ⟨inner, hinner, rfl⟩ := leave_ok h
    show inner.hasEntrypoint = true
    refine anyLoop_accepts hinner hclean ⟨assignable, hmem, fun w verdict hw hok => ?_⟩
    simp only [hget] at hw
    rcases askedClean_cases hhas hin hw with ⟨b, hmark, hb⟩ | ⟨hmark, hw⟩
    · simp only [tuplesetVisit, hget, hmark] at hok
      cases hok
      exact hb
    · simp only [tuplesetVisit, hget, hmark] at hok
      exact called_accepts hcall hin hw hok
  | union child ih =>
    obtain ⟨i, hi⟩ := hmeaning
    simp only [walk] at h
    split at h
    · cases h
    split_ifs at h
    exact anyLoop_accepts h hclean ⟨i, mem_finRange i, fun _ _ hw hok => ih i hi hw hok⟩
  | intersection child ih =>
    simp only [walk] at h
    split at h
    · cases h
    split_ifs at h
    exact allLoop_accepts h hclean fun i _ _ _ hw hok => ih i (hmeaning i) hw hok
  | difference base subtract ihb ihs =>
    simp only [walk] at h
    split at h
    · cases h
    simp only [walkClean] at hclean
    refine allLoop_accepts h hclean fun isSubtract _ _ _ hw hok => ?_
    cases isSubtract
    · exact ihb hmeaning.1 hw hok
    · exact ihs hmeaning.2 hw hok

/-- A clean call accepts a rule that has an entrypoint, whatever its fuel. -/
theorem hasEntrypoints_accepts (hhas : ∀ k ∈ entrypoints ts, has k = true) (fuel : ℕ)
    {rewrite : Rewrite} (hmeaning : Meaning ts (entrypointsOff ts (k :: path)) k rewrite)
    (hclean : cleanRun ts has fuel path k rewrite v = true)
    (h : hasEntrypoints ts fuel k rewrite v = .ok verdict) : verdict.hasEntrypoint = true := by
  induction fuel generalizing k rewrite v verdict path with
  | zero => cases h
  | succ fuel ih =>
    refine walk_accepts hhas (fun k' v' verdict' hk' hclean' hcall => ?_) rewrite hmeaning hclean h
    unfold callFor at hcall
    split at hcall
    · cases hcall
    · rename_i relation hrelation
      simp only [hrelation] at hclean'
      exact ih (meaning_of_mem hrelation hk') hclean' hcall

/-- `define name: computed`. -/
def same (computed : String) : Relation := ⟨.computedUserset computed, some []⟩

/-- `define name: left and right`. -/
def both (left right : String) : Relation :=
  ⟨.intersection (n := 2) fun i => .computedUserset (if i.val = 0 then left else right), some []⟩

/-- `define name: [type]`. -/
def restrictedTo (assignable : RelationReference) : Relation := ⟨.this, some [assignable]⟩

/-- A relation `b: x and y` with `y: x`, a relation `a: b`, the same without sharing, and a relation
that refers to itself. -/
def sharedOperand : TypeSystem where
  types := [("user", []), ("group", [("member", restrictedTo ⟨"user", .object, noCond⟩)]),
    ("doc", [("x", restrictedTo ⟨"group", .relation "member", noCond⟩), ("y", same "x"),
      ("b", both "x" "y"), ("a", same "b"), ("z", restrictedTo ⟨"user", .wildcard, noCond⟩),
      ("c", both "x" "z"), ("d", same "c"), ("loop", same "loop")])]

theorem sharedOperand_keys {relation : Relation} (h : find sharedOperand k = .ok relation) :
    k = ("group", "member") ∨ k = ("doc", "x") ∨ k = ("doc", "y") ∨ k = ("doc", "b")
      ∨ k = ("doc", "a") ∨ k = ("doc", "z") ∨ k = ("doc", "c") ∨ k = ("doc", "d")
      ∨ k = ("doc", "loop") := by
  have hkeys : k ∈ [("group", "member"), ("doc", "x"), ("doc", "y"), ("doc", "b"), ("doc", "a"),
      ("doc", "z"), ("doc", "c"), ("doc", "d"), ("doc", "loop")] := mem_relationKeys h
  simpa only [mem_cons, not_mem_nil, or_false] using hkeys

theorem sharedOperand_valid : Valid sharedOperand := by
  constructor
  · intro k relation hrelation
    rcases sharedOperand_keys hrelation with rfl | rfl | rfl | rfl | rfl | rfl | rfl | rfl | rfl <;>
      cases hrelation
    · trivial
    · trivial
    · exact ⟨_, rfl⟩
    · exact ⟨le_rfl, Fin.forall_fin_two.mpr ⟨⟨_, rfl⟩, ⟨_, rfl⟩⟩⟩
    · exact ⟨_, rfl⟩
    · trivial
    · exact ⟨le_rfl, Fin.forall_fin_two.mpr ⟨⟨_, rfl⟩, ⟨_, rfl⟩⟩⟩
    · exact ⟨_, rfl⟩
    · exact ⟨_, rfl⟩
  · intro k relation hrelation assignable hmem name hname
    rcases sharedOperand_keys hrelation with rfl | rfl | rfl | rfl | rfl | rfl | rfl | rfl | rfl <;>
      cases hrelation
    · cases mem_singleton.mp hmem
      cases hname
    · cases mem_singleton.mp hmem
      cases hname
      exact ⟨_, rfl⟩
    · cases hmem
    · cases hmem
    · cases hmem
    · cases mem_singleton.mp hmem
      cases hname
    all_goals cases hmem

theorem sharedOperand_b : ("doc", "b") ∈ entrypoints sharedOperand := by
  have hmember : ("group", "member") ∈ entrypoints sharedOperand :=
    (mem_entrypoints _).mpr ⟨_, rfl, _, rfl, _, mem_singleton_self _, .inl (.inl rfl)⟩
  have hx : ("doc", "x") ∈ entrypoints sharedOperand :=
    (mem_entrypoints _).mpr ⟨_, rfl, _, rfl, _, mem_singleton_self _, .inr ⟨_, rfl, hmember⟩⟩
  have hy : ("doc", "y") ∈ entrypoints sharedOperand := (mem_entrypoints _).mpr ⟨_, rfl, hx⟩
  exact (mem_entrypoints _).mpr ⟨_, rfl, Fin.forall_fin_two.mpr ⟨hx, hy⟩⟩

/-- A search that takes marks of relations on its path alone. -/
theorem clean_of_strict {relation : Relation} (hrelation : find ts k = .ok relation)
    (h : cleanRun ts (fun _ => true) ((relationKeys ts).length + 1) [] k relation.rewrite
      (fun _ => none) = true) : Clean ts k := by
  refine ⟨fun _ => true, fun _ _ => rfl, fun relation' hrelation' => ?_⟩
  rw [hrelation] at hrelation'
  cases hrelation'
  exact h

end Kengen.Entrypoints
