import Kengen.Typesystem.EntrypointReturns

/-!
# What the entrypoint test accepts

A relation has an entrypoint if it is in the least set that is closed under the rewrite rules: a
type whose objects can be assigned is an entrypoint, a reference has one if its relation has, and
the operators ask for one or for all of their operands.

A flag that is set says that a relation has an entrypoint.  It is set by a direct assignment alone,
which may be one operand of an intersection; but every operand that follows sets it back first, so
it is found set only where the whole rule has one.

* `Meaning`, `entrypoints` — the least fixpoint.
* `Justified` — an entrypoint has a reason, and the flags are right.
* **`walk_justified`** — a walk is right if its calls are.
* **`accepted_has_entrypoint`** — what the test accepts has an entrypoint, in every model.
-/

namespace Kengen.Entrypoints

variable {v v' : Marks} {verdict : Verdict} {k : RelationKey}

/-! ### The least fixpoint -/

section Meaning

variable (ts : TypeSystem)

/-- A rewrite rule has an entrypoint, given the relations that have one. -/
def Meaning (X : Set RelationKey) (k : RelationKey) : Rewrite → Prop
  | .this => ∃ relation, find ts k = .ok relation ∧ ∃ assignable ∈ relatedTypes relation,
      IsDirect assignable ∨ ∃ name, assignable.relationOrWildcard = .relation name
        ∧ (assignable.type, name) ∈ X
  | .computedUserset computed => (k.1, computed) ∈ X
  | .tupleToUserset tupleset computed => ∃ relation, find ts (k.1, tupleset) = .ok relation
      ∧ ∃ assignable ∈ relatedTypes relation,
        (∃ r, ts.getRelation assignable.type computed = .ok r) ∧ (assignable.type, computed) ∈ X
  | .union child => ∃ i, Meaning X k (child i)
  | .intersection child => ∀ i, Meaning X k (child i)
  | .difference base subtract => Meaning X k base ∧ Meaning X k subtract

theorem meaning_mono {X Y : Set RelationKey} (h : X ⊆ Y) {rewrite : Rewrite}
    (hX : Meaning ts X k rewrite) : Meaning ts Y k rewrite := by
  induction rewrite with
  | this =>
    obtain ⟨relation, hrelation, assignable, hmem, hor⟩ := hX
    refine ⟨relation, hrelation, assignable, hmem, hor.imp_right ?_⟩
    exact fun ⟨name, hname, hin⟩ => ⟨name, hname, h hin⟩
  | computedUserset => exact h hX
  | tupleToUserset =>
    obtain ⟨relation, hrelation, assignable, hmem, hdefined, hin⟩ := hX
    exact ⟨relation, hrelation, assignable, hmem, hdefined, h hin⟩
  | union child ih =>
    obtain ⟨i, hi⟩ := hX
    exact ⟨i, ih i hi⟩
  | intersection child ih => exact fun i => ih i (hX i)
  | difference base subtract ihb ihs => exact ⟨ihb hX.1, ihs hX.2⟩

/-- One round of the rules. -/
def rules : Set RelationKey →o Set RelationKey where
  toFun X := {k | ∃ relation, find ts k = .ok relation ∧ Meaning ts X k relation.rewrite}
  monotone' _ _ h _ := fun ⟨relation, hrelation, hX⟩ => ⟨relation, hrelation, meaning_mono ts h hX⟩

/-- **The relations that have an entrypoint.** -/
def entrypoints : Set RelationKey := (rules ts).lfp

theorem mem_entrypoints : k ∈ entrypoints ts
    ↔ ∃ relation, find ts k = .ok relation ∧ Meaning ts (entrypoints ts) k relation.rewrite := by
  have hfix : rules ts (entrypoints ts) = entrypoints ts := (rules ts).map_lfp
  conv_lhs => rw [← hfix]
  rfl

end Meaning

variable {ts : TypeSystem} {call : RelationKey → Visit}

/-! ### What is accepted has an entrypoint -/

variable (ts) in
/-- The flags that are set are right. -/
def Sound (v : Marks) : Prop := ∀ k, markOf v k = some true → k ∈ entrypoints ts

variable (ts) in
def SoundBut (k : RelationKey) (v : Marks) : Prop :=
  ∀ k', k' ≠ k → markOf v k' = some true → k' ∈ entrypoints ts

variable (ts call) in
/-- Calls for relations that have no mark are right and leave right flags. -/
def CallSound : Prop :=
  ∀ k v verdict, markOf v k = none → Sound ts v → call k v = .ok verdict →
    Sound ts verdict.visited ∧ (verdict.hasEntrypoint = true → k ∈ entrypoints ts)

theorem Asked.sound {k' : RelationKey} (h : Asked call v k' verdict) (hcall : CallSound ts call)
    (hv : Sound ts v) :
    Sound ts verdict.visited ∧ (verdict.hasEntrypoint = true → k' ∈ entrypoints ts) := by
  cases h with
  | marked b hmark hflag hvisited =>
    rw [hvisited]
    exact ⟨hv, fun htrue => hv k' (hmark.trans (congrArg some (hflag htrue)))⟩
  | called hmark loop hcalled => exact hcall k' v ⟨_, loop, verdict.visited⟩ hmark hv hcalled

theorem soundBut_mark (h : SoundBut ts k v) : Sound ts (mark v k false) := by
  intro k' hk'
  by_cases heq : k' = k
  · rw [heq, markOf_mark_self] at hk'
    cases hk'
  · exact h k' heq ((markOf_mark_ne v false heq).symm.trans hk')

theorem soundBut_restrict {outer inner : Marks} (h : SoundBut ts k inner) :
    SoundBut ts k (restrict outer inner) :=
  fun k' hne hk' => h k' hne (markOf_restrict hk')

theorem Sound.but (h : Sound ts v) (k : RelationKey) : SoundBut ts k v := fun k' _ hk' => h k' hk'

variable (ts) in
/-- The flags are right, and the one of the relation is not set. -/
def Unset (k : RelationKey) (v : Marks) : Prop := SoundBut ts k v ∧ markOf v k ≠ some true

variable (ts) in
/-- The same where the relation is marked. -/
def Entered (k : RelationKey) (v : Marks) : Prop := SoundBut ts k v ∧ markOf v k = some false

theorem Entered.unset (h : Entered ts k v) : Unset ts k v := ⟨h.1, by rw [h.2]; exact nofun⟩

theorem Entered.sound (h : Entered ts k v) : Sound ts v := by
  intro k' hk'
  refine h.1 k' ?_ hk'
  rintro rfl
  rw [h.2] at hk'
  cases hk'

theorem entered_mark (h : SoundBut ts k v) : Entered ts k (mark v k false) :=
  ⟨(soundBut_mark h).but k, markOf_mark_self v k false⟩

theorem Unset.restrict {outer inner : Marks} (h : Unset ts k inner) :
    Unset ts k (restrict outer inner) :=
  ⟨soundBut_restrict h.1, fun hk => h.2 (markOf_restrict hk)⟩

variable (ts) in
/-- **An entrypoint has a reason**, and where none is found the flag of the relation is not set.  An
operand before may have set it, but the next one sets it back. -/
def Justified (k : RelationKey) (I : Marks → Prop) (reason : Prop) (verdict : Verdict) : Prop :=
  (verdict.hasEntrypoint = false ∧ I verdict.visited)
    ∨ (verdict.hasEntrypoint = true ∧ SoundBut ts k verdict.visited ∧ reason)

theorem Justified.imp {I : Marks → Prop} {p q : Prop} (h : Justified ts k I p verdict)
    (hpq : p → q) : Justified ts k I q verdict :=
  h.imp_right fun ⟨htrue, hsound, hp⟩ => ⟨htrue, hsound, hpq hp⟩

theorem Justified.sound {p : Prop} (h : Justified ts k (Unset ts k) p verdict) :
    SoundBut ts k verdict.visited := by
  rcases h with ⟨-, hunset⟩ | ⟨-, hsound, -⟩
  · exact hunset.1
  · exact hsound

theorem Justified.leave {p : Prop} {visited : Marks} {r : Except Error Verdict}
    (h : leave visited r = .ok verdict)
    (hr : ∀ inner, r = .ok inner → Justified ts k (Entered ts k) p inner) :
    Justified ts k (Unset ts k) p verdict := by
  obtain ⟨inner, hinner, rfl⟩ := leave_ok h
  rcases hr inner hinner with ⟨hfalse, hentered⟩ | ⟨htrue, hsound, hp⟩
  · exact .inl ⟨hfalse, hentered.unset.restrict⟩
  · exact .inr ⟨htrue, soundBut_restrict hsound, hp⟩

section Loops

variable {ι : Type} {visit : ι → Visit} {items : List ι} {p : ι → Prop}

theorem anyLoop_justified {I : Marks → Prop} {loop : Bool}
    (hvisit : ∀ item ∈ items, ∀ v verdict, I v → visit item v = .ok verdict →
      Justified ts k I (p item) verdict)
    (h : anyLoop visit items v loop = .ok verdict) (hv : I v) :
    Justified ts k I (∃ item ∈ items, p item) verdict := by
  have hfalse : ∀ item ∈ items, ∀ v loop v₁, I v → visit item v = .ok ⟨false, loop, v₁⟩ → I v₁ := by
    intro item hitem v loop v₁ hv hok
    rcases hvisit item hitem v _ hv hok with ⟨-, hI⟩ | ⟨⟨⟩, -⟩
    · exact hI
  rcases anyLoop_ok h with ⟨hans, hsteps⟩ | ⟨hans, before, item, after, v₁, _, rfl, hsteps, hlast⟩
  · exact .inl ⟨hans, hsteps.invariant hfalse hv⟩
  · have hv₁ := hsteps.invariant
      (fun item' hitem' => hfalse item' (List.mem_append_left _ hitem')) hv
    have hitem : item ∈ before ++ item :: after := by simp
    rcases hvisit item hitem v₁ _ hv₁ hlast with ⟨⟨⟩, -⟩ | ⟨-, hsound, hp⟩
    · exact .inr ⟨hans, hsound, item, hitem, hp⟩

theorem allLoop_justified
    (hvisit : ∀ item ∈ items, ∀ v verdict, SoundBut ts k v → visit item v = .ok verdict →
      Justified ts k (Unset ts k) (p item) verdict)
    (h : allLoop visit items v = .ok verdict) (hv : SoundBut ts k v) :
    Justified ts k (Unset ts k) (∀ item ∈ items, p item) verdict := by
  have htrue : ∀ item ∈ items, ∀ v loop v₁, SoundBut ts k v →
      visit item v = .ok ⟨true, loop, v₁⟩ → SoundBut ts k v₁ :=
    fun item hitem v loop v₁ hv hok => (hvisit item hitem v _ hv hok).sound
  rcases allLoop_ok h with ⟨hans, hsteps⟩ | ⟨hans, _, item, _, v₁, _, rfl, hsteps, hlast⟩
  · refine .inr ⟨hans, hsteps.invariant htrue hv, fun item hitem => ?_⟩
    obtain ⟨v₁, loop, _, hv₁, hok⟩ := hsteps.exists_visit hitem htrue hv
    rcases hvisit item hitem v₁ _ hv₁ hok with ⟨⟨⟩, -⟩ | ⟨-, -, hp⟩
    · exact hp
  · have hv₁ := hsteps.invariant
      (fun item' hitem' => htrue item' (List.mem_append_left _ hitem')) hv
    rcases hvisit item (by simp) v₁ _ hv₁ hlast with ⟨-, hunset⟩ | ⟨⟨⟩, -⟩
    · exact .inl ⟨hans, hunset⟩

end Loops

/-- An answer from a flag or from a call. -/
theorem Asked.justified {k' : RelationKey} (h : Asked call v k' verdict) (hkeeps : CallKeeps call)
    (hcall : CallSound ts call) (hv : Entered ts k v) :
    Justified ts k (Entered ts k) (k' ∈ entrypoints ts) verdict := by
  obtain ⟨hsound, hin⟩ := h.sound hcall hv.sound
  cases hans : verdict.hasEntrypoint with
  | true => exact .inr ⟨hans, hsound.but k, hin hans⟩
  | false => exact .inl ⟨hans, hsound.but k, (h.keeps hkeeps).marks k false hv.2⟩

/-- **A walk is right** if its calls are. -/
theorem walk_justified (hkeeps : CallKeeps call) (hcall : CallSound ts call) (rewrite : Rewrite)
    (hv : SoundBut ts k v) (h : walk ts call k rewrite v = .ok verdict) :
    Justified ts k (Unset ts k) (Meaning ts (entrypoints ts) k rewrite) verdict := by
  induction rewrite generalizing v verdict with
  | this =>
    simp only [walk] at h
    split at h
    · cases h
    rename_i relation hrelation
    refine Justified.leave h fun inner hinner => ?_
    refine (anyLoop_justified (p := fun assignable => IsDirect assignable
      ∨ ∃ name, assignable.relationOrWildcard = .relation name
        ∧ (assignable.type, name) ∈ entrypoints ts) ?_ hinner (entered_mark hv)).imp
      fun hreason => ⟨relation, hrelation, hreason⟩
    intro assignable _ w verdict hw hok
    rcases assignVisit_ok hok with ⟨hdirect, htrue, hvisited⟩ | ⟨name, hname, hasked⟩
    · refine .inr ⟨htrue, ?_, .inl hdirect⟩
      intro k' hne hk'
      rw [hvisited, markOf_mark_ne w true hne] at hk'
      exact hw.1 k' hne hk'
    · exact (hasked.justified hkeeps hcall hw).imp fun hin => .inr ⟨name, hname, hin⟩
  | computedUserset =>
    simp only [walk] at h
    split at h
    · cases h
    · refine Justified.leave h fun inner hinner => ?_
      exact (computedVisit_ok hinner).justified hkeeps hcall (entered_mark hv)
  | tupleToUserset tupleset computed =>
    simp only [walk] at h
    split at h
    · cases h
    split at h
    · cases h
    · rename_i relation hrelation
      refine Justified.leave h fun inner hinner => ?_
      refine (anyLoop_justified (p := fun assignable =>
        (∃ r, ts.getRelation assignable.type computed = .ok r)
          ∧ (assignable.type, computed) ∈ entrypoints ts) ?_ hinner (entered_mark hv)).imp
        fun hreason => ⟨relation, hrelation, hreason⟩
      intro assignable _ w verdict hw hok
      rcases tuplesetVisit_ok hok with ⟨-, hfalse, hvisited⟩ | ⟨hdefined, hasked⟩
      · exact .inl ⟨hfalse, hvisited ▸ hw⟩
      · exact (hasked.justified hkeeps hcall hw).imp fun hin => ⟨hdefined, hin⟩
  | union child ih =>
    simp only [walk] at h
    split at h
    · cases h
    split_ifs at h
    refine (anyLoop_justified (fun i _ w verdict hw hok => ih i hw.1 hok) h
      (entered_mark hv).unset.restrict).imp ?_
    rintro ⟨i, _, hi⟩
    exact ⟨i, hi⟩
  | intersection child ih =>
    simp only [walk] at h
    split at h
    · cases h
    split_ifs at h
    refine (allLoop_justified (fun i _ w verdict hw hok => ih i hw hok) h
      (entered_mark hv).unset.restrict.1).imp ?_
    exact fun hall i => hall i (List.mem_finRange i)
  | difference base subtract ihb ihs =>
    simp only [walk] at h
    split at h
    · cases h
    refine (allLoop_justified (p := fun isSubtract => Meaning ts (entrypoints ts) k
      (if isSubtract then subtract else base)) ?_ h (entered_mark hv).unset.restrict.1).imp
      fun hall => ⟨hall false (by simp), hall true (by simp)⟩
    intro isSubtract _ w verdict hw hok
    cases isSubtract
    · exact ihb hw hok
    · exact ihs hw hok

theorem hasEntrypoints_justified (fuel : ℕ) (rewrite : Rewrite) (hv : SoundBut ts k v)
    (h : hasEntrypoints ts fuel k rewrite v = .ok verdict) :
    Justified ts k (Unset ts k) (Meaning ts (entrypoints ts) k rewrite) verdict := by
  induction fuel generalizing k rewrite v verdict with
  | zero => cases h
  | succ fuel ih =>
    refine walk_justified (callKeeps_callFor fuel) ?_ rewrite hv h
    intro k' v' verdict' hmark hsound hcall
    unfold callFor at hcall
    split at hcall
    · cases hcall
    rename_i relation hrelation
    rcases ih relation.rewrite (hsound.but k') hcall with ⟨hfalse, hunset⟩ | ⟨htrue, hbut, hmeaning⟩
    · refine ⟨fun k'' hk'' => hunset.1 k'' ?_ hk'', fun htrue => ?_⟩
      · rintro rfl
        exact hunset.2 hk''
      · rw [hfalse] at htrue
        cases htrue
    · have hin : k' ∈ entrypoints ts := (mem_entrypoints ts).mpr ⟨relation, hrelation, hmeaning⟩
      refine ⟨fun k'' hk'' => ?_, fun _ => hin⟩
      by_cases heq : k'' = k'
      · exact heq ▸ hin
      · exact hbut k'' heq hk''

/-- **What is accepted has an entrypoint**, in every model. -/
theorem accepted_has_entrypoint (h : validateEntrypoints ts k = .ok ()) : k ∈ entrypoints ts := by
  unfold validateEntrypoints at h
  split at h
  · cases h
  rename_i relation hrelation
  split at h
  · cases h
  rename_i verdict hverdict
  split_ifs at h with htrue
  have hempty : SoundBut ts k fun _ => none := fun _ _ hk' => by cases hk'
  rcases hasEntrypoints_justified _ _ hempty hverdict with ⟨hfalse, -⟩ | ⟨-, -, hmeaning⟩
  · rw [hfalse] at htrue
    cases htrue
  · exact (mem_entrypoints ts).mpr ⟨relation, hrelation, hmeaning⟩

end Kengen.Entrypoints
