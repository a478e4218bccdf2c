import Kengen.Typesystem.Entrypoints

/-!
# What a call of the entrypoint test does to the visited map

A call enters relations that have no mark only.  So it keeps the marks it finds, apart from the one
of its own relation, which it sets back first.

* `Keeps`, `KeepsBut` — all marks are kept, or all but the one of a relation.
* `Asked` — where the answer for a relation comes from: its flag, or a call.
* **`assignVisit_ok`**, **`computedVisit_ok`**, **`tuplesetVisit_ok`** — what the visits do.
* **`walk_keeps`**, **`callKeeps_callFor`** — calls keep the marks.
-/

namespace Kengen.Entrypoints

variable {ι : Type} {visit : ι → Visit} {items : List ι} {v v' : Marks} {verdict : Verdict}
  {ts : TypeSystem} {call : RelationKey → Visit} {k : RelationKey}

/-- All marks are kept. -/
structure Keeps (v v' : Marks) : Prop where
  marks : ∀ k b, markOf v k = some b → markOf v' k = some b

/-- The same for all relations but one. -/
structure KeepsBut (k : RelationKey) (v v' : Marks) : Prop where
  marks : ∀ k' b, k' ≠ k → markOf v k' = some b → markOf v' k' = some b

theorem Keeps.refl (v : Marks) : Keeps v v := ⟨fun _ _ h => h⟩

theorem Keeps.but (h : Keeps v v') (k : RelationKey) : KeepsBut k v v' :=
  ⟨fun k' b _ hk' => h.marks k' b hk'⟩

theorem KeepsBut.refl (k : RelationKey) (v : Marks) : KeepsBut k v v := (Keeps.refl v).but k

theorem KeepsBut.trans {v₁ v₂ v₃ : Marks} (h : KeepsBut k v₁ v₂) (h' : KeepsBut k v₂ v₃) :
    KeepsBut k v₁ v₃ :=
  ⟨fun k' b hne hk' => h'.marks k' b hne (h.marks k' b hne hk')⟩

/-- A relation that had no mark has lost none. -/
theorem KeepsBut.keeps (h : KeepsBut k v v') (hk : markOf v k = none) : Keeps v v' := by
  refine ⟨fun k' b hk' => h.marks k' b ?_ hk'⟩
  rintro rfl
  rw [hk] at hk'
  cases hk'

theorem keepsBut_mark (b : Bool) : KeepsBut k v (mark v k b) :=
  ⟨fun _ _ hne hk' => (markOf_mark_ne v b hne).trans hk'⟩

/-- What the caller sees. -/
theorem KeepsBut.restrict (h : KeepsBut k (mark v k false) v') : KeepsBut k v (restrict v v') := by
  constructor
  intro k' b hne hk'
  have hmark := h.marks k' b hne (by rwa [markOf_mark_ne v false hne])
  unfold markOf Entrypoints.restrict
  rwa [if_pos (isSome_of_markOf hk')]

theorem leave_ok {visited : Marks} {r : Except Error Verdict} (h : leave visited r = .ok verdict) :
    ∃ inner, r = .ok inner ∧ verdict = { inner with visited := restrict visited inner.visited } := by
  cases r with
  | error => cases h
  | ok inner =>
    cases h
    exact ⟨inner, rfl, rfl⟩

variable (call) in
/-- Calls for relations that have no mark keep the marks. -/
def CallKeeps : Prop :=
  ∀ k v verdict, markOf v k = none → call k v = .ok verdict → Keeps v verdict.visited

/-- The answer for a relation comes from its flag or from a call.  A flag that is not set gives no
entrypoint. -/
inductive Asked (call : RelationKey → Visit) (v : Marks) (k : RelationKey) (verdict : Verdict) : Prop
  | marked (b : Bool) (hmark : markOf v k = some b)
      (hflag : verdict.hasEntrypoint = true → b = true) (hvisited : verdict.visited = v)
  | called (hmark : markOf v k = none) (loop : Bool)
      (hcall : call k v = .ok ⟨verdict.hasEntrypoint, loop, verdict.visited⟩)

/-- The objects of the type, or its wildcard, are assignable. -/
def IsDirect (assignable : RelationReference) : Prop :=
  assignable.relationOrWildcard = .object ∨ assignable.relationOrWildcard = .wildcard

variable {k' : RelationKey}

theorem called_of_map (hmark : markOf v k' = none)
    (h : (call k' v).map (fun verdict => { verdict with loop := false }) = .ok verdict) :
    Asked call v k' verdict := by
  cases hcall : call k' v with
  | error =>
    rw [hcall] at h
    cases h
  | ok inner =>
    rw [hcall] at h
    cases h
    exact .called hmark inner.loop hcall

variable {assignable : RelationReference}

/-- What one type restriction does. -/
theorem assignVisit_ok (h : assignVisit ts call k assignable v = .ok verdict) :
    (IsDirect assignable ∧ verdict.hasEntrypoint = true ∧ verdict.visited = mark v k true)
      ∨ ∃ name, assignable.relationOrWildcard = .relation name
        ∧ Asked call v (assignable.type, name) verdict := by
  unfold assignVisit at h
  split at h
  · rename_i hfacet
    cases h
    exact .inl ⟨.inl hfacet, rfl, rfl⟩
  · rename_i hfacet
    cases h
    exact .inl ⟨.inr hfacet, rfl, rfl⟩
  · rename_i name hfacet
    refine .inr ⟨name, hfacet, ?_⟩
    split at h
    · cases h
    split at h
    · rename_i b hmark
      cases h
      exact .marked b hmark nofun rfl
    · exact called_of_map ‹_› h

theorem computedVisit_ok (h : computedVisit ts call k' v = .ok verdict) :
    Asked call v k' verdict := by
  unfold computedVisit at h
  split at h
  · cases h
  split at h
  · rename_i b hmark
    cases h
    exact .marked b hmark id rfl
  · exact .called ‹_› verdict.loop h

theorem tuplesetVisit_ok {computed : String}
    (h : tuplesetVisit ts call computed assignable v = .ok verdict) :
    ((∃ e, ts.getRelation assignable.type computed = .error e) ∧ verdict.hasEntrypoint = false
        ∧ verdict.visited = v)
      ∨ ((∃ relation, ts.getRelation assignable.type computed = .ok relation)
        ∧ Asked call v (assignable.type, computed) verdict) := by
  unfold tuplesetVisit at h
  split at h
  · rename_i e hget
    cases h
    exact .inl ⟨⟨e, hget⟩, rfl, rfl⟩
  · rename_i relation hget
    refine .inr ⟨⟨relation, hget⟩, ?_⟩
    split at h
    · rename_i b hmark
      cases h
      exact .marked b hmark id rfl
    · exact called_of_map ‹_› h

theorem Asked.keeps (h : Asked call v k' verdict) (hcall : CallKeeps call) :
    Keeps v verdict.visited := by
  cases h with
  | marked b hmark hflag hvisited =>
    rw [hvisited]
    exact Keeps.refl v
  | called hmark loop hcalled => exact hcall k' v ⟨_, loop, verdict.visited⟩ hmark hcalled

/-- A relation that is marked stays marked. -/
theorem keepsBut_assignVisit (hcall : CallKeeps call) {b : Bool}
    (hk : markOf v k = some b) (h : assignVisit ts call k assignable v = .ok verdict) :
    KeepsBut k v verdict.visited ∧ ∃ b', markOf verdict.visited k = some b' := by
  rcases assignVisit_ok h with ⟨-, -, hvisited⟩ | ⟨name, -, hasked⟩
  · rw [hvisited]
    exact ⟨keepsBut_mark true, true, markOf_mark_self v k true⟩
  · have hkeeps := hasked.keeps hcall
    exact ⟨hkeeps.but k, b, hkeeps.marks k b hk⟩

theorem keeps_tuplesetVisit (hcall : CallKeeps call) {computed : String}
    (h : tuplesetVisit ts call computed assignable v = .ok verdict) : Keeps v verdict.visited := by
  rcases tuplesetVisit_ok h with ⟨-, -, hvisited⟩ | ⟨-, hasked⟩
  · rw [hvisited]
    exact Keeps.refl v
  · exact hasked.keeps hcall

/-- The operands see the mark of their relation if its type is known. -/
theorem keepsBut_operand (visited : Marks) :
    KeepsBut k visited (restrict visited (mark visited k false)) :=
  (KeepsBut.refl k _).restrict

/-- **A call keeps the marks it finds**, apart from the one of its own relation. -/
theorem walk_keeps (hcall : CallKeeps call) (rewrite : Rewrite)
    (h : walk ts call k rewrite v = .ok verdict) : KeepsBut k v verdict.visited := by
  induction rewrite generalizing v verdict with
  | this =>
    simp only [walk] at h
    split at h
    · cases h
    obtain ⟨inner, hinner, rfl⟩ := leave_ok h
    have hloop := (anyLoop_ok hinner).invariant
      (I := fun w => KeepsBut k (mark v k false) w ∧ ∃ b, markOf w k = some b)
      (fun item _ w verdict hw hok => ?_) ⟨KeepsBut.refl k _, false, markOf_mark_self v k false⟩
    · exact hloop.1.restrict
    · obtain ⟨hw, b, hb⟩ := hw
      obtain ⟨hkeeps, hmarked⟩ := keepsBut_assignVisit hcall hb hok
      exact ⟨hw.trans hkeeps, hmarked⟩
  | computedUserset =>
    simp only [walk] at h
    split at h
    · cases h
    · obtain ⟨inner, hinner, rfl⟩ := leave_ok h
      exact (((computedVisit_ok hinner).keeps hcall).but k).restrict
  | tupleToUserset =>
    simp only [walk] at h
    split at h
    · cases h
    split at h
    · cases h
    · obtain ⟨inner, hinner, rfl⟩ := leave_ok h
      refine KeepsBut.restrict ((anyLoop_ok hinner).invariant
        (fun item _ w verdict hw hok => ?_) (KeepsBut.refl k _))
      exact hw.trans ((keeps_tuplesetVisit hcall hok).but k)
  | union child ih =>
    simp only [walk] at h
    split at h
    · cases h
    split_ifs at h
    exact (anyLoop_ok h).invariant (fun i _ w verdict hw hok => hw.trans (ih i hok))
      (keepsBut_operand v)
  | intersection child ih =>
    simp only [walk] at h
    split at h
    · cases h
    split_ifs at h
    exact (allLoop_ok h).invariant (fun i _ w verdict hw hok => hw.trans (ih i hok))
      (keepsBut_operand v)
  | difference base subtract ihb ihs =>
    simp only [walk] at h
    split at h
    · cases h
    refine (allLoop_ok h).invariant (fun isSubtract _ w verdict hw hok => ?_) (keepsBut_operand v)
    cases isSubtract
    · exact hw.trans (ihb hok)
    · exact hw.trans (ihs hok)

variable (ts) in
/-- The calls of `hasEntrypoints`. -/
def callFor (fuel : ℕ) : RelationKey → Visit := fun k v =>
  match find ts k with
  | .error e => .error e
  | .ok relation => hasEntrypoints ts fuel k relation.rewrite v

theorem hasEntrypoints_keeps (fuel : ℕ) (rewrite : Rewrite)
    (h : hasEntrypoints ts fuel k rewrite v = .ok verdict) : KeepsBut k v verdict.visited := by
  induction fuel generalizing k rewrite v verdict with
  | zero => cases h
  | succ fuel ih =>
    refine walk_keeps (fun k' v' verdict' hmark hcall => ?_) rewrite h
    split at hcall
    · cases hcall
    · exact (ih _ hcall).keeps hmark

theorem callKeeps_callFor (fuel : ℕ) : CallKeeps (callFor ts fuel) := by
  intro k v verdict hmark hcall
  unfold callFor at hcall
  split at hcall
  · cases hcall
  · exact (hasEntrypoints_keeps fuel _ hcall).keeps hmark

end Kengen.Entrypoints
