import Kengen.Typesystem.EntrypointMarks

/-!
# The entrypoint test returns

Each call for another relation is for one that has no mark, and it marks it.  So there are no more
calls inside one another than the model has relations, and the fuel of `validateEntrypoints` is
enough.  If the references of the model resolve, nothing else can fail.

* `Resolves`, `Valid` — the references resolve, and operators have at least two children.
* `Covers` — what is marked at a call: the relations on the way and what was marked before.
* `free` — the relations that have no mark; **`free_card_lt`** — they become fewer.
* **`hasEntrypoints_returns`** — the test returns.
-/

namespace Kengen.Entrypoints

variable {ι : Type} {visit : ι → Visit} {items : List ι} {v v' : Marks} {verdict : Verdict}
  {ts : TypeSystem} {call : RelationKey → Visit} {k : RelationKey}

variable (ts) in
/-- **The references of a rewrite rule resolve**, and its operators have at least two children. -/
def Resolves (k : RelationKey) : Rewrite → Prop
  | .this => True
  | .computedUserset computed => ∃ relation, find ts (k.1, computed) = .ok relation
  | .tupleToUserset tupleset _ => ∃ relation, find ts (k.1, tupleset) = .ok relation
  | .union (n := n) child => 2 ≤ n ∧ ∀ i, Resolves k (child i)
  | .intersection (n := n) child => 2 ≤ n ∧ ∀ i, Resolves k (child i)
  | .difference base subtract => Resolves k base ∧ Resolves k subtract

variable (ts) in
/-- A model whose references resolve. -/
structure Valid : Prop where
  rewrite : ∀ k relation, find ts k = .ok relation → Resolves ts k relation.rewrite
  types : ∀ k relation, find ts k = .ok relation → ∀ assignable ∈ relatedTypes relation, ∀ name,
    assignable.relationOrWildcard = .relation name →
      ∃ relation, find ts (assignable.type, name) = .ok relation

/-- Both loops return if the visits do, under a condition that they keep. -/
theorem loops_return {I : Marks → Prop}
    (hvisit : ∀ item ∈ items, ∀ v, I v → ∃ verdict, visit item v = .ok verdict ∧ I verdict.visited)
    (hv : I v) : (∀ loop, ∃ verdict, anyLoop visit items v loop = .ok verdict)
      ∧ ∃ verdict, allLoop visit items v = .ok verdict := by
  induction items generalizing v with
  | nil => exact ⟨fun _ => ⟨_, rfl⟩, _, rfl⟩
  | cons item items ih =>
    obtain ⟨verdict, hok, hI⟩ := hvisit item List.mem_cons_self v hv
    obtain ⟨hany, hall⟩ := ih (fun item hitem => hvisit item (List.mem_cons_of_mem _ hitem)) hI
    simp only [anyLoop, allLoop, hok]
    split
    · exact ⟨fun _ => ⟨_, rfl⟩, hall⟩
    · exact ⟨fun _ => hany _, _, rfl⟩

/-- The relation and all that was marked are marked. -/
def Covers (v : Marks) (k : RelationKey) (v' : Marks) : Prop :=
  ∀ k', (k' = k ∨ ∃ b, markOf v k' = some b) → ∃ b, markOf v' k' = some b

theorem covers_mark (v : Marks) (k : RelationKey) (b : Bool) : Covers v k (mark v k b) := by
  intro k' hk'
  by_cases heq : k' = k
  · exact ⟨b, heq ▸ markOf_mark_self v k b⟩
  · rw [markOf_mark_ne v b heq]
    exact hk'.resolve_left heq

theorem KeepsBut.trans_covers {v₁ v₂ v₃ : Marks} (h : KeepsBut k v₁ v₂) (h' : Covers v₂ k v₃) :
    Covers v₁ k v₃ := by
  intro k' hk'
  refine h' k' ?_
  by_cases heq : k' = k
  · exact .inl heq
  · obtain ⟨b, hb⟩ := hk'.resolve_left heq
    exact .inr ⟨b, h.marks k' b heq hb⟩

variable (ts call) in
/-- The calls return for relations of the model that are not marked, if the ones on the way are. -/
def CallReturns (k : RelationKey) (v : Marks) : Prop :=
  ∀ k' v', Covers v k v' → markOf v' k' = none → (∃ relation, find ts k' = .ok relation) →
    ∃ verdict, call k' v' = .ok verdict

theorem assignVisit_returns (hkeeps : CallKeeps call) (h : CallReturns ts call k v) {w : Marks}
    (hw : Covers v k w) {assignable : RelationReference}
    (hdefined : ∀ name, assignable.relationOrWildcard = .relation name →
      ∃ relation, find ts (assignable.type, name) = .ok relation) :
    ∃ verdict, assignVisit ts call k assignable w = .ok verdict ∧ Covers v k verdict.visited := by
  have hok : ∃ verdict, assignVisit ts call k assignable w = .ok verdict := by
    unfold assignVisit
    split
    · exact ⟨_, rfl⟩
    · exact ⟨_, rfl⟩
    · rename_i name hfacet
      obtain ⟨relation, hrelation⟩ := hdefined name hfacet
      rw [hrelation]
      simp only
      split
      · exact ⟨_, rfl⟩
      · rename_i hmark
        obtain ⟨verdict, hverdict⟩ := h _ w hw hmark ⟨relation, hrelation⟩
        rw [hverdict]
        exact ⟨_, rfl⟩
  obtain ⟨verdict, hverdict⟩ := hok
  refine ⟨verdict, hverdict, fun k' hk' => ?_⟩
  obtain ⟨b, hb⟩ := hw k (.inl rfl)
  obtain ⟨hbut, hmarked⟩ := keepsBut_assignVisit hkeeps hb hverdict
  by_cases heq : k' = k
  · exact heq ▸ hmarked
  · obtain ⟨b', hb'⟩ := hw k' hk'
    exact ⟨b', hbut.marks k' b' heq hb'⟩

theorem computedVisit_returns (h : CallReturns ts call k v) {w : Marks} (hw : Covers v k w)
    {k' : RelationKey} (hdefined : ∃ relation, find ts k' = .ok relation) :
    ∃ verdict, computedVisit ts call k' w = .ok verdict := by
  obtain ⟨relation, hrelation⟩ := hdefined
  unfold computedVisit
  rw [hrelation]
  simp only
  split
  · exact ⟨_, rfl⟩
  · exact h k' w hw ‹_› ⟨relation, hrelation⟩

theorem tuplesetVisit_returns (hkeeps : CallKeeps call) (h : CallReturns ts call k v) {w : Marks}
    (hw : Covers v k w) (computed : String) (assignable : RelationReference) :
    ∃ verdict, tuplesetVisit ts call computed assignable w = .ok verdict
      ∧ Covers v k verdict.visited := by
  have hok : ∃ verdict, tuplesetVisit ts call computed assignable w = .ok verdict := by
    unfold tuplesetVisit
    split
    · exact ⟨_, rfl⟩
    · rename_i relation hget
      split
      · exact ⟨_, rfl⟩
      · rename_i hmark
        obtain ⟨verdict, hverdict⟩ := h (assignable.type, computed) w hw hmark
          ⟨relation, by rw [find, hget]⟩
        rw [hverdict]
        exact ⟨_, rfl⟩
  obtain ⟨verdict, hverdict⟩ := hok
  refine ⟨verdict, hverdict, fun k' hk' => ?_⟩
  obtain ⟨b, hb⟩ := hw k' hk'
  exact ⟨b, (keeps_tuplesetVisit hkeeps hverdict).marks k' b hb⟩

/-- **A walk returns** if its calls do. -/
theorem walk_returns (hvalid : Valid ts) (hkeeps : CallKeeps call)
    (hk : ∃ relation, find ts k = .ok relation) {rewrite : Rewrite} (hres : Resolves ts k rewrite)
    (h : CallReturns ts call k v) : ∃ verdict, walk ts call k rewrite v = .ok verdict := by
  obtain ⟨relation, hrelation⟩ := hk
  -- the operands are called with maps that have the marks of the others
  have hoperand : ∀ {w}, KeepsBut k v w → CallReturns ts call k w :=
    fun hw k' v' hcovers => h k' v' (hw.trans_covers hcovers)
  induction rewrite generalizing v with
  | this =>
    simp only [walk, hrelation]
    obtain ⟨verdict, hverdict⟩ := (loops_return (I := Covers v k) (fun assignable hmem w hw =>
      assignVisit_returns hkeeps h hw (hvalid.types k relation hrelation assignable hmem))
      (covers_mark v k false)).1 false
    rw [hverdict]
    exact ⟨_, rfl⟩
  | computedUserset =>
    simp only [walk, hrelation]
    obtain ⟨verdict, hverdict⟩ := computedVisit_returns h (covers_mark v k false) hres
    rw [hverdict]
    exact ⟨_, rfl⟩
  | tupleToUserset tupleset computed =>
    obtain ⟨_, htupleset⟩ := hres
    simp only [walk, hrelation, htupleset]
    obtain ⟨verdict, hverdict⟩ := (loops_return (I := Covers v k) (fun assignable hmem w hw =>
      tuplesetVisit_returns hkeeps h hw computed assignable) (covers_mark v k false)).1 false
    rw [hverdict]
    exact ⟨_, rfl⟩
  | union child ih =>
    obtain ⟨hn, hchild⟩ := hres
    simp only [walk, hrelation, if_neg (not_lt.mpr hn)]
    refine (loops_return (I := KeepsBut k v) (fun i _ w hw => ?_) (keepsBut_operand v)).1 false
    obtain ⟨verdict, hverdict⟩ := ih i (hchild i) (hoperand hw)
      fun hw' => hoperand (hw.trans hw')
    exact ⟨verdict, hverdict, hw.trans (walk_keeps hkeeps _ hverdict)⟩
  | intersection child ih =>
    obtain ⟨hn, hchild⟩ := hres
    simp only [walk, hrelation, if_neg (not_lt.mpr hn)]
    refine (loops_return (I := KeepsBut k v) (fun i _ w hw => ?_) (keepsBut_operand v)).2
    obtain ⟨verdict, hverdict⟩ := ih i (hchild i) (hoperand hw)
      fun hw' => hoperand (hw.trans hw')
    exact ⟨verdict, hverdict, hw.trans (walk_keeps hkeeps _ hverdict)⟩
  | difference base subtract ihb ihs =>
    simp only [walk, hrelation]
    refine (loops_return (I := KeepsBut k v) (fun isSubtract _ w hw => ?_) (keepsBut_operand v)).2
    cases isSubtract with
    | false =>
      obtain ⟨verdict, hverdict⟩ := ihb hres.1 (hoperand hw) fun hw' => hoperand (hw.trans hw')
      exact ⟨verdict, hverdict, hw.trans (walk_keeps hkeeps _ hverdict)⟩
    | true =>
      obtain ⟨verdict, hverdict⟩ := ihs hres.2 (hoperand hw) fun hw' => hoperand (hw.trans hw')
      exact ⟨verdict, hverdict, hw.trans (walk_keeps hkeeps _ hverdict)⟩

variable (ts) in
/-- The other relations that have no mark. -/
def free (v : Marks) (k : RelationKey) : Finset RelationKey :=
  (relationKeys ts).toFinset.filter fun k' => k' ≠ k ∧ markOf v k' = none

theorem mem_relationKeys {relation : Relation} (h : find ts k = .ok relation) :
    k ∈ relationKeys ts := by
  unfold find at h
  split at h <;> cases h
  rename_i hget
  obtain ⟨_, hentry, hmem⟩ := getRelation_mem hget
  exact List.mem_flatMap.mpr ⟨_, hentry, List.mem_map.mpr ⟨_, hmem, rfl⟩⟩

variable (ts) in
/-- A call for a relation that has no mark leaves fewer of them. -/
theorem free_card_lt {v' : Marks} {k' : RelationKey} (hcovers : Covers v k v')
    (hmark : markOf v' k' = none) (hk' : k' ∈ relationKeys ts) :
    (free ts v' k').card < (free ts v k).card := by
  have hfree : ∀ k'', markOf v' k'' = none → k'' ≠ k ∧ markOf v k'' = none := by
    intro k'' hnone
    have hnot := mt (hcovers k'') (by rw [hnone]; exact nofun)
    rw [not_or, not_exists] at hnot
    exact ⟨hnot.1, Option.eq_none_iff_forall_ne_some.mpr hnot.2⟩
  refine Finset.card_lt_card (Finset.ssubset_iff_of_subset (fun k'' hk'' => ?_) |>.mpr ⟨k', ?_, ?_⟩)
  · obtain ⟨hmem, -, hnone⟩ := Finset.mem_filter.mp hk''
    exact Finset.mem_filter.mpr ⟨hmem, hfree k'' hnone⟩
  · exact Finset.mem_filter.mpr ⟨List.mem_toFinset.mpr hk', hfree k' hmark⟩
  · exact fun hmem => (Finset.mem_filter.mp hmem).2.1 rfl

/-- **The test returns**: the fuel is enough, and nothing fails. -/
theorem hasEntrypoints_returns (hvalid : Valid ts) {fuel : ℕ} (hfuel : (free ts v k).card < fuel)
    {relation : Relation} (hk : find ts k = .ok relation) :
    ∃ verdict, hasEntrypoints ts fuel k relation.rewrite v = .ok verdict := by
  induction fuel generalizing k v relation with
  | zero => cases hfuel
  | succ fuel ih =>
    refine walk_returns hvalid (callKeeps_callFor fuel) ⟨relation, hk⟩ (hvalid.rewrite k relation hk)
      fun k' v' hcovers hmark ⟨relation', hrelation'⟩ => ?_
    have hlt := free_card_lt ts hcovers hmark (mem_relationKeys hrelation')
    simp only [callFor, hrelation']
    exact ih (by omega) hrelation'

end Kengen.Entrypoints
