import Kengen.ListUsers.Right

/-!
# Schedules that agree

Where all steps meet their conditions, for a reader that relies on both that nobody is granted
wrongly and that nobody is missing, the messages about users and about the wildcard do not depend on
the schedule: neither on the order of the senders nor on the order in which the maps are iterated.

* **`agree_sendsIn`** — two such runs without a loss say the same of every user and of the wildcard.
* **`grants_of_partial`** — if messages are lost, but none below an operand of an intersection or an
  exclusion, every grant to a user is one that every such run without a loss makes.

Usersets are left out: a request that filters for usersets may also get objects of the same type, and
only those are users.
-/

namespace Kengen.ListUsers

open Channels Expansion List

/-! ### Agreement -/

/-- The two lists say the same of the key. -/
def Agree (xs ys : List FoundUser) (k : UserKey) : Prop :=
  (Has xs k ↔ Has ys k) ∧ (HasNot xs k ↔ HasNot ys k)

variable {xs ys : List FoundUser} {k : UserKey}

theorem Agree.symm (h : Agree xs ys k) : Agree ys xs k :=
  ⟨h.1.symm, h.2.symm⟩

/-- Where two lists agree, they have entries for the same keys. -/
theorem Agree.isSome (h : Agree xs ys k) (hx : (foundUsersMap xs k).isSome = true) :
    (foundUsersMap ys k).isSome = true := by
  obtain ⟨m, hm, hk⟩ := foundUsersMap_isSome.mp hx
  rcases hs : m.relationshipStatus with _ | _
  · obtain ⟨m', hm', hk', -⟩ := h.1.mp ⟨m, hm, hk, hs⟩
    exact foundUsersMap_isSome.mpr ⟨m', hm', hk'⟩
  · obtain ⟨m', hm', hk', -⟩ := h.2.mp ⟨m, hm, hk, hs⟩
    exact foundUsersMap_isSome.mpr ⟨m', hm', hk'⟩

theorem Agree.none (h : Agree xs ys k) (hx : foundUsersMap xs k = none) :
    foundUsersMap ys k = none := by
  rw [← Option.not_isSome_iff_eq_none] at hx ⊢
  exact fun hy => hx (h.symm.isSome hy)

/-- The entries of two lists that agree have one status, if neither denies last what it grants. -/
theorem Agree.status (h : Agree xs ys k) {m m' : FoundUser} (hm : foundUsersMap xs k = some m)
    (hm' : foundUsersMap ys k = some m') (hx : Has xs k → ¬ Denied xs k)
    (hy : Has ys k → ¬ Denied ys k) : m'.relationshipStatus = m.relationshipStatus := by
  rcases hs : m.relationshipStatus with _ | _
  · rcases hs' : m'.relationshipStatus with _ | _
    · rfl
    · exact absurd ((denied_iff _ _).mpr ⟨m', hm', hs'⟩)
        (hy (h.1.mp (has_of_foundUsersMap hm hs)))
  · exact foundUsersMap_hasNot
      (fun hhas => hx (h.1.mpr hhas) ((denied_iff _ _).mpr ⟨m, hm, hs⟩)) hm'

/-! ### Exclusions -/

section Exclusions

variable {care : Care} {base subtract : Expansion} {outBase outSubtract : List FoundUser}

/-- A side of an exclusion whose messages are as the reader relies on. -/
structure Sides (care : Care) (base subtract : Expansion) (outBase outSubtract : List FoundUser) :
    Prop where
  clear : ExclusionClear care base subtract outBase outSubtract
  base : Right care base outBase
  subtract : Right care.subtract subtract outSubtract
  wildcards : ¬ HasNot outBase .wildcard ∧ ¬ HasNot outSubtract .wildcard

variable (hg : care.grants ≠ .none) (hm : care.members ≠ .none)
include hg hm

/-- A key that the subtract side does not mention is not denied last where the base grants it. -/
theorem Sides.base_clear (h : Sides care base subtract outBase outSubtract) (hk : k.Concrete)
    (hnone : foundUsersMap outSubtract k = none) (hw : foundUsersMap outSubtract .wildcard = none)
    (hhas : Has outBase k) : ¬ Denied outBase k := by
  cases k with
  | user id => exact fun hd => h.clear.2.2.2 hm id hd hhas hnone hw (h.base.grants hg id hhas)
  | wildcard => exact not_denied_of_not_hasNot h.wildcards.1
  | userset o r => exact absurd rfl (hk o r)

/-- A key that is decided by the subtract side is not denied last where it is granted there. -/
theorem Sides.subtract_clear (h : Sides care base subtract outBase outSubtract) (hk : k.Concrete)
    (hd : DecidedBySubtract outBase k) (hhas : Has outSubtract k) : ¬ Denied outSubtract k := by
  cases k with
  | user id =>
    intro hdenied
    have hcare := subtract_grants hm
    exact (h.clear.1 hg id hdenied hd).2 (h.subtract.grants (by simp [hcare]) id hhas)
  | wildcard => exact not_denied_of_not_hasNot h.wildcards.2
  | userset o r => exact absurd rfl (hk o r)

variable {outBase' outSubtract' sent sent' : List FoundUser}

/-- Exclusions of agreeing sides say the same, one direction. -/
theorem exclusion_says_of_agree (h : ExclusionSends outBase outSubtract sent)
    (h' : ExclusionSends outBase' outSubtract' sent')
    (hsides : Sides care base subtract outBase outSubtract)
    (hsides' : Sides care base subtract outBase' outSubtract') (hk : k.Concrete)
    (hbase : ∀ j : UserKey, j.Concrete → Agree outBase outBase' j)
    (hsub : ∀ j : UserKey, j.Concrete → Agree outSubtract outSubtract' j) {s : RelationshipStatus}
    (hs : ∃ m ∈ sent, m.user = k ∧ m.relationshipStatus = s) :
    ∃ m ∈ sent', m.user = k ∧ m.relationshipStatus = s := by
  have hw := UserKey.concrete_wildcard
  refine (exclusion_table h' k s).mpr ?_
  rcases (exclusion_table h k s).mp hs with ⟨fu, hfu, hnone, hsw, hst⟩
    | ⟨fu, f, hfu, hnone, hf, hst⟩ | ⟨f, hd, hf, hst⟩
  · obtain ⟨fu', hfu'⟩ := Option.isSome_iff_exists.mp
      ((hbase k hk).isSome (Option.isSome_of_eq_some hfu))
    have hnone' := (hsub k hk).none hnone
    have hsw' := (hsub _ hw).none hsw
    exact .inl ⟨fu', hfu', hnone', hsw', ((hbase k hk).status hfu hfu'
      (hsides.base_clear hg hm hk hnone hsw) (hsides'.base_clear hg hm hk hnone' hsw')).trans hst⟩
  · obtain ⟨fu', hfu'⟩ := Option.isSome_iff_exists.mp
      ((hbase k hk).isSome (Option.isSome_of_eq_some hfu))
    obtain ⟨f', hf'⟩ := Option.isSome_iff_exists.mp
      ((hsub _ hw).isSome (Option.isSome_of_eq_some hf))
    exact .inr (.inl ⟨fu', f', hfu', (hsub k hk).none hnone, hf', hst⟩)
  · obtain ⟨f', hf'⟩ := Option.isSome_iff_exists.mp
      ((hsub k hk).isSome (Option.isSome_of_eq_some hf))
    have hd' : DecidedBySubtract outBase' k :=
      hd.imp (And.imp_left (hbase _ hw).isSome) (And.imp (hbase _ hw).none (hbase k hk).isSome)
    refine .inr (.inr ⟨f', hd', hf', ?_⟩)
    rw [(hsub k hk).status hf hf' (hsides.subtract_clear hg hm hk hd)
      (hsides'.subtract_clear hg hm hk hd'), hst]

end Exclusions

/-! ### Runs without a loss -/

variable {care : Care} {e : Expansion} {sent sent' : List FoundUser}

/-- An operand that has the user or the wildcard excludes just the users that it does not have. -/
theorem excluded_iff_of_operand {out : List FoundUser} (h : Right care.operand e out)
    (hg : care.grants ≠ .none) (hm : care.members ≠ .none) {id : String}
    (hhas : Has out (.user id) ∨ Has out .wildcard) :
    Excluded out (.user id) ↔ ¬ e.Member id :=
  ⟨h.spares (operand_members hm) id,
    fun hnot => by_contra fun hex => hnot (h.member_of_operand hg hhas hex)⟩

theorem has_intersection_agree {n : ℕ} {operands : Fin n → Expansion}
    {outs outs' : Fin n → List FoundUser} (h : IntersectionSends outs sent)
    (h' : IntersectionSends outs' sent') (hg : care.grants ≠ .none) (hm : care.members ≠ .none)
    (hright : ∀ i, Right care.operand (operands i) (outs i))
    (hright' : ∀ i, Right care.operand (operands i) (outs' i))
    (hwild : ∀ i, ¬ Excluded (outs' i) .wildcard) (hk : k.Concrete)
    (hagree : ∀ i, ∀ j : UserKey, j.Concrete → Agree (outs i) (outs' i) j) (hhas : Has sent k) :
    Has sent' k := by
  obtain ⟨⟨i, hi⟩, hall, hex⟩ := (has_intersection h k).mp hhas
  have hall' : ∀ i, Has (outs' i) k ∨ Has (outs' i) .wildcard := fun i =>
    (hall i).imp (hagree i k hk).1.mp (hagree i _ UserKey.concrete_wildcard).1.mp
  refine (has_intersection h' k).mpr ⟨⟨i, (hagree i k hk).1.mp hi⟩, hall', fun j => ?_⟩
  cases k with
  | user id =>
    rw [excluded_iff_of_operand (hright' j) hg hm (hall' j),
      ← excluded_iff_of_operand (hright j) hg hm (hall j)]
    exact hex j
  | wildcard => exact hwild j
  | userset o r => exact absurd rfl (hk o r)

theorem operand_ne_none (hg : care.grants ≠ .none) (hm : care.members ≠ .none) :
    care.operand.grants ≠ .none ∧ care.operand.members ≠ .none := by
  simp [operand_grants hg, operand_members hm]

/-- **Without a loss, every schedule says the same of users and of the wildcard.** -/
theorem agree_sendsIn (hg : care.grants ≠ .none) (hm : care.members ≠ .none)
    (h : e.SendsIn care .nowhere sent) (h' : e.SendsIn care .nowhere sent') (k : UserKey)
    (hk : k.Concrete) : Agree sent sent' k := by
  induction e generalizing care sent sent' k with
  | error | cycle | undefined => cases h; cases h'; exact ⟨Iff.rfl, Iff.rfl⟩
  | relation matched rewrite ih =>
    obtain ⟨_, rest, rfl, hrest, rfl⟩ := h
    obtain ⟨_, rest', rfl, hrest', rfl⟩ := h'
    have hagree := ih hg hm hrest hrest' k hk
    exact ⟨(says_relation hk _).trans (hagree.1.trans (says_relation hk _).symm),
      (says_relation hk _).trans (hagree.2.trans (says_relation hk _).symm)⟩
  | tuples direct found dispatched ih =>
    obtain ⟨_, outs, rfl, houts, hreceived, -⟩ := h
    obtain ⟨_, outs', rfl, houts', hreceived', -⟩ := h'
    have hagree := fun i => ih i hg hm (houts i) (houts' i) k hk
    rw [Agree, has_tuples hreceived, has_tuples hreceived', hasNot_tuples hreceived,
      hasNot_tuples hreceived']
    exact ⟨or_congr_right (exists_congr fun i => (hagree i).1),
      exists_congr fun i => (hagree i).2⟩
  | union operands ih =>
    obtain ⟨outs, _, houts, hsends, rfl, -⟩ := h
    obtain ⟨outs', _, houts', hsends', rfl, -⟩ := h'
    refine ⟨?_, iff_of_false (not_hasNot_of_positive (union_positive hsends) k)
      (not_hasNot_of_positive (union_positive hsends') k)⟩
    rw [has_union hsends, has_union hsends']
    exact exists_congr fun i => (ih i hg hm (houts i) (houts' i) k hk).1
  | intersection operands ih =>
    obtain ⟨outs, _, houts, hsends, rfl⟩ := h
    obtain ⟨outs', _, houts', hsends', rfl⟩ := h'
    obtain ⟨hg', hm'⟩ := operand_ne_none hg hm
    have hagree := fun i => ih i hg' hm' (houts i) (houts' i)
    have hright := fun i => right_sendsIn (houts i)
    have hright' := fun i => right_sendsIn (houts' i)
    have hwild := fun i => (wildcard_sends (sends_of_sendsIn (houts i))).2
    have hwild' := fun i => (wildcard_sends (sends_of_sendsIn (houts' i))).2
    refine ⟨⟨has_intersection_agree hsends hsends' hg hm hright hright' hwild' hk hagree,
        has_intersection_agree hsends' hsends hg hm hright' hright hwild hk
          fun i j hj => (hagree i j hj).symm⟩,
      iff_of_false (not_hasNot_of_positive (intersection_positive hsends) k)
        (not_hasNot_of_positive (intersection_positive hsends') k)⟩
  | exclusion base subtract ihb ihs =>
    rcases h with ⟨hc, rfl⟩ | ⟨hc, _, _, _, hb, hs, hsends, rfl, hclear⟩ <;>
      rcases h' with ⟨hc', rfl⟩ | ⟨hc', _, _, _, hb', hs', hsends', rfl, hclear'⟩
    · exact ⟨Iff.rfl, Iff.rfl⟩
    · simp [hc] at hc'
    · simp [hc'] at hc
    · have hsides : Sides care base subtract _ _ := ⟨hclear, right_sendsIn hb, right_sendsIn hs,
        (wildcard_sends (sends_of_sendsIn hb)).1, (wildcard_sends (sends_of_sendsIn hs)).1⟩
      have hsides' : Sides care base subtract _ _ := ⟨hclear', right_sendsIn hb',
        right_sendsIn hs', (wildcard_sends (sends_of_sendsIn hb')).1,
        (wildcard_sends (sends_of_sendsIn hs')).1⟩
      have hagreeb := ihb hg hm hb hb'
      have hagrees := ihs (by simp [subtract_grants hm]) (subtract_members hg) hs hs'
      have hto := fun s => exclusion_says_of_agree (s := s) hg hm hsends hsends' hsides hsides' hk
        hagreeb hagrees
      have hfrom := fun s => exclusion_says_of_agree (s := s) hg hm hsends' hsends hsides' hsides hk
        (fun j hj => (hagreeb j hj).symm) fun j hj => (hagrees j hj).symm
      exact ⟨⟨hto _, hfrom _⟩, ⟨hto _, hfrom _⟩⟩

/-! ### Losses -/

theorem keeps_refl (loss : Loss) (messages : List FoundUser) : loss.Keeps messages messages := by
  cases loss with
  | nowhere => exact rfl
  | outsideOperands | anywhere => exact List.Sublist.refl messages

/-- Where messages may be lost, none has to be. -/
theorem sendsIn_of_nowhere (loss : Loss) (h : e.SendsIn care .nowhere sent) :
    e.SendsIn care loss sent := by
  induction e generalizing care loss sent with
  | error | cycle | undefined => exact h
  | relation matched rewrite ih =>
    obtain ⟨own, rest, rfl, hrest, rfl⟩ := h
    exact ⟨_, rest, keeps_refl loss _, ih loss hrest, rfl⟩
  | tuples direct found dispatched ih =>
    obtain ⟨own, outs, rfl, houts, hreceived, hclear⟩ := h
    exact ⟨_, outs, keeps_refl loss _, fun i => ih i loss (houts i), hreceived, hclear⟩
  | union operands ih =>
    obtain ⟨outs, messages, houts, hsends, rfl, hclear⟩ := h
    exact ⟨outs, _, fun i => ih i loss (houts i), hsends, keeps_refl loss _, hclear⟩
  | intersection operands ih =>
    obtain ⟨outs, messages, houts, hsends, rfl⟩ := h
    exact ⟨outs, _, fun i => ih i loss.inOperand (houts i), hsends, keeps_refl loss _⟩
  | exclusion base subtract ihb ihs =>
    rcases h with hc | ⟨hc, outBase, outSubtract, messages, hb, hs, hsends, rfl, hclear⟩
    · exact .inl hc
    · exact .inr ⟨.inl (hc.resolve_right (by rintro ⟨⟩)), outBase, outSubtract, _,
        ihb loss.inOperand hb, ihs loss.inOperand hs, hsends, keeps_refl loss _, hclear⟩

/-- Outside the operands, messages of a union may be lost. -/
theorem sendsIn_union {n : ℕ} {operands : Fin n → Expansion}
    (h : (Expansion.union operands).meets care = true)
    (hsent : sent.Sublist (unionRun fun i => (operands i).run)) :
    (Expansion.union operands).SendsIn care .outsideOperands sent := by
  simp only [meets, Bool.and_eq_true, decide_eq_true_eq] at h
  exact ⟨_, _, fun i => sendsIn_of_nowhere _ (run_sendsIn (h.1 i)), unionRun_sends _, hsent, h.2⟩

theorem keeps_subset {loss : Loss} {messages arrived : List FoundUser}
    (h : loss.Keeps messages arrived) {m : FoundUser} (hm : m ∈ arrived) : m ∈ messages := by
  cases loss with
  | nowhere => exact (show arrived = messages from h) ▸ hm
  | outsideOperands | anywhere => exact (show arrived.Sublist messages from h).subset hm

theorem has_of_keeps {loss : Loss} {messages arrived : List FoundUser}
    (h : loss.Keeps messages arrived) (hk : Has arrived k) : Has messages k := by
  obtain ⟨m, hm, hmk, hs⟩ := hk
  exact ⟨m, keeps_subset h hm, hmk, hs⟩

/-- **Losses outside the operands of intersections and exclusions add no grant.** -/
theorem grants_of_partial (hg : care.grants ≠ .none) (hm : care.members ≠ .none)
    (h : e.SendsIn care .outsideOperands sent) (h' : e.SendsIn care .nowhere sent')
    (hk : k.Concrete) (hhas : Has sent k) : Has sent' k := by
  induction e generalizing sent sent' with
  | error | cycle | undefined => cases h; simp [Has] at hhas
  | relation matched rewrite ih =>
    obtain ⟨own, rest, hown, hrest, rfl⟩ := h
    obtain ⟨_, rest', rfl, hrest', rfl⟩ := h'
    refine (says_relation hk _).mpr ?_
    obtain ⟨m, hmem, hmk, hs⟩ := hhas
    rcases mem_append.mp hmem with hmem | hmem
    · obtain ⟨⟨o, r, ho⟩, -⟩ := mem_matchedMessages (keeps_subset hown hmem)
      exact absurd (hmk.symm.trans ho) (hk o r)
    · exact ih hrest hrest' ⟨m, hmem, hmk, hs⟩
  | tuples direct found dispatched ih =>
    obtain ⟨own, outs, hown, houts, hreceived, -⟩ := h
    obtain ⟨_, outs', rfl, houts', hreceived', -⟩ := h'
    rw [has_tuples hreceived']
    obtain ⟨m, hmem, hmk, hs⟩ := hhas
    rcases (mem_received_ofFn hreceived m).mp hmem with hmem | ⟨i, hi⟩
    · obtain ⟨_, hk', rfl⟩ := mem_map.mp (keeps_subset hown hmem)
      exact .inl (hmk ▸ hk')
    · exact .inr ⟨i, ih i (houts i) (houts' i) ⟨m, hi, hmk, hs⟩⟩
  | union operands ih =>
    obtain ⟨outs, messages, houts, hsends, hkeeps, -⟩ := h
    obtain ⟨outs', _, houts', hsends', rfl, -⟩ := h'
    obtain ⟨i, hi⟩ := (has_union hsends k).mp (has_of_keeps hkeeps hhas)
    exact (has_union hsends' k).mpr ⟨i, ih i (houts i) (houts' i) hi⟩
  | intersection operands =>
    -- The operands lost nothing, so this is a run without a loss.
    obtain ⟨outs, messages, houts, hsends, hkeeps⟩ := h
    have hwhole : (Expansion.intersection operands).SendsIn care .nowhere messages :=
      ⟨outs, messages, houts, hsends, rfl⟩
    exact (agree_sendsIn hg hm hwhole h' k hk).1.mp (has_of_keeps hkeeps hhas)
  | exclusion base subtract =>
    rcases h with ⟨-, rfl⟩ | ⟨hc, outBase, outSubtract, messages, hb, hs, hsends, hkeeps, hclear⟩
    · simp [Has] at hhas
    have hwhole : (Expansion.exclusion base subtract).SendsIn care .nowhere messages :=
      .inr ⟨.inl (hc.resolve_right (by rintro ⟨⟩)), outBase, outSubtract, messages, hb, hs, hsends,
        rfl, hclear⟩
    exact (agree_sendsIn hg hm hwhole h' k hk).1.mp (has_of_keeps hkeeps hhas)

/-- After the deadline every message may be lost. -/
theorem sends_nil (e : Expansion) : e.Sends .anywhere [] := by
  induction e with
  | error | cycle | undefined => exact rfl
  | relation matched rewrite ih => exact ⟨[], [], nil_sublist _, ih, rfl⟩
  | @tuples n direct found dispatched ih =>
    refine ⟨[], fun _ => [], nil_sublist _, ih, ?_⟩
    have hreceived := received_flatten (([] : List FoundUser) :: List.ofFn fun _ : Fin n => [])
    simpa using hreceived
  | union operands ih =>
    exact ⟨fun _ => [], _, ih, unionRun_sends _, nil_sublist _⟩
  | intersection operands ih =>
    exact ⟨fun _ => [], _, ih, intersectionRun_sends _, nil_sublist _⟩
  | exclusion base subtract ihb ihs =>
    exact .inr ⟨.inr rfl, [], [], _, ihb, ihs, exclusionRun_sends _ _, nil_sublist _⟩

/-- **After the deadline an exclusion may send what its base alone would give.** -/
theorem sends_base (base subtract : Expansion) :
    (Expansion.exclusion base subtract).Sends .anywhere (exclusionRun base.run []) :=
  .inr ⟨.inr rfl, base.run, [], _,
    sends_of_sendsIn (sendsIn_of_nowhere .anywhere (run_sendsIn (meets_none base))),
    sends_nil subtract, exclusionRun_sends _ _, List.Sublist.refl _⟩

end Kengen.ListUsers
