import Kengen.ListUsers.Steps

/-!
# Message lists that are right

A message list is `Right` for an expansion if it says what its reader relies on: the users it grants
are members, and with the excluded users also the wildcard's; every member is granted, by itself or
by the wildcard, and with the excluded users none is excluded.

Each operator keeps this under the condition of its step (`Right.tuples`, `Right.union`,
`Right.intersection`, **`Right.exclusion`**), an intersection without one.  **`right_sendsIn`**: in
every run whose steps all meet their conditions, without a loss, every list is right.

**`wildcard_sends`**: the wildcard is never denied and never excluded, in any run.
**`sendsIn_of_exclusionFree`**, **`sendsIn_exclusion`**: the conditions are about exclusions that other
operators read; without those every run meets them.
-/

namespace Kengen.ListUsers

open Channels List Expansion

/-- **The list says what its reader relies on.** -/
structure Right (care : Care) (e : Expansion) (messages : List FoundUser) : Prop where
  grants : care.grants ≠ .none → ∀ id, Has messages (.user id) → e.Member id
  covers : care.grants = .exclusions → Has messages .wildcard → ∀ id, ¬ e.Member id →
    Excluded messages (.user id)
  members : care.members ≠ .none → ∀ id, e.Member id →
    Has messages (.user id) ∨ Has messages .wildcard
  spares : care.members = .exclusions → ∀ id, Excluded messages (.user id) → ¬ e.Member id

variable {care : Care} {sent : List FoundUser}

/-- An expansion without members that sends nothing. -/
theorem Right.nil {e : Expansion} (h : ∀ id, ¬ e.Member id) : Right care e [] where
  grants _ id hid := by simp [Has] at hid
  covers _ hw := by simp [Has] at hw
  members _ id hid := absurd hid (h id)
  spares _ id hid := by simp [Excluded] at hid

/-! ### Usersets and reads -/

section Channels

variable {n : ℕ} {found : List UserKey} {dispatched : Fin n → Expansion}
  {outs : Fin n → List FoundUser}

/-- The message about a matched userset says nothing of users and of the wildcard. -/
theorem mem_matchedMessages {matched : Option (Object × String)} {m : FoundUser}
    (h : m ∈ matchedMessages matched) : (∃ o r, m.user = .userset o r)
      ∧ m.relationshipStatus = .hasRelationship ∧ m.excludedUsers = [] := by
  obtain ⟨q, -, rfl⟩ := mem_map.mp h
  exact ⟨⟨q.1, q.2, rfl⟩, rfl, rfl⟩

/-- The key is a user or the wildcard. -/
def UserKey.Concrete (k : UserKey) : Prop := ∀ o r, k ≠ .userset o r

theorem UserKey.concrete_user (id : String) : (UserKey.user id).Concrete := by
  rintro o r ⟨⟩

theorem UserKey.concrete_wildcard : UserKey.wildcard.Concrete := by
  rintro o r ⟨⟩

/-- What a userset says of a user or of the wildcard is what its rewrite rule says. -/
theorem says_relation {matched : Option (Object × String)} {rest : List FoundUser} {k : UserKey}
    (hk : k.Concrete) (p : FoundUser → Prop) :
    (∃ m ∈ matchedMessages matched ++ rest, m.user = k ∧ p m) ↔ ∃ m ∈ rest, m.user = k ∧ p m := by
  constructor
  · rintro ⟨m, hm, hmk, hp⟩
    rcases mem_append.mp hm with hown | hrest
    · obtain ⟨⟨o, r, ho⟩, -⟩ := mem_matchedMessages hown
      exact absurd (hmk.symm.trans ho) (hk o r)
    · exact ⟨m, hrest, hmk, hp⟩
  · rintro ⟨m, hm, hp⟩
    exact ⟨m, mem_append_right _ hm, hp⟩

theorem excluded_relation {matched : Option (Object × String)} {rest : List FoundUser}
    (k : UserKey) : Excluded (matchedMessages matched ++ rest) k ↔ Excluded rest k := by
  constructor
  · rintro ⟨m, hm, hk⟩
    rcases mem_append.mp hm with hown | hrest
    · rw [(mem_matchedMessages hown).2.2] at hk
      cases hk
    · exact ⟨m, hrest, hk⟩
  · rintro ⟨m, hm, hk⟩
    exact ⟨m, mem_append_right _ hm, hk⟩

theorem Right.relation {matched : Option (Object × String)} {rewrite : Expansion}
    {rest : List FoundUser} (h : Right care rewrite rest) :
    Right care (.relation matched rewrite) (matchedMessages matched ++ rest) where
  grants hg id hid := h.grants hg id ((says_relation (UserKey.concrete_user id) _).mp hid)
  covers hg hw id hid := (excluded_relation _).mpr
    (h.covers hg ((says_relation UserKey.concrete_wildcard _).mp hw) id hid)
  members hm id hid := (h.members hm id hid).imp (says_relation (UserKey.concrete_user id) _).mpr
    (says_relation UserKey.concrete_wildcard _).mpr
  spares hm id hid := h.spares hm id ((excluded_relation _).mp hid)

section Read

variable (h : Received ((found.map fun k => { user := k }) :: List.ofFn outs) sent)
include h

theorem has_tuples (k : UserKey) : Has sent k ↔ k ∈ found ∨ ∃ i, Has (outs i) k := by
  simp only [Has, mem_received_ofFn h]
  constructor
  · rintro ⟨m, hm | ⟨i, hi⟩, hk, hs⟩
    · obtain ⟨k', hk', rfl⟩ := mem_map.mp hm
      exact .inl (hk ▸ hk')
    · exact .inr ⟨i, m, hi, hk, hs⟩
  · rintro (hk | ⟨i, m, hi, hk, hs⟩)
    · exact ⟨_, .inl (mem_map.mpr ⟨k, hk, rfl⟩), rfl, rfl⟩
    · exact ⟨m, .inr ⟨i, hi⟩, hk, hs⟩

theorem hasNot_tuples (k : UserKey) : HasNot sent k ↔ ∃ i, HasNot (outs i) k := by
  simp only [HasNot, mem_received_ofFn h]
  constructor
  · rintro ⟨m, hm | ⟨i, hi⟩, hk, hs⟩
    · obtain ⟨k', -, rfl⟩ := mem_map.mp hm
      cases hs
    · exact ⟨i, m, hi, hk, hs⟩
  · rintro ⟨i, m, hi, hk, hs⟩
    exact ⟨m, .inr ⟨i, hi⟩, hk, hs⟩

theorem excluded_tuples (k : UserKey) : Excluded sent k ↔ ∃ i, Excluded (outs i) k := by
  simp only [Excluded, mem_received_ofFn h]
  constructor
  · rintro ⟨m, hm | ⟨i, hi⟩, hk⟩
    · obtain ⟨k', -, rfl⟩ := mem_map.mp hm
      cases hk
    · exact ⟨i, m, hi, hk⟩
  · rintro ⟨i, m, hi, hk⟩
    exact ⟨m, .inr ⟨i, hi⟩, hk⟩

theorem Right.tuples {direct : Bool} (hclear : ReadClear care found dispatched outs)
    (hout : ∀ i, Right care (dispatched i) (outs i)) :
    Right care (.tuples direct found dispatched) sent where
  grants hg id hid := by
    rcases (has_tuples h _).mp hid with hfound | ⟨i, hi⟩
    · exact .inl (.inl hfound)
    · exact .inr ⟨i, (hout i).grants hg id hi⟩
  covers hg hw id hid := by
    rcases (has_tuples h _).mp hw with hfound | ⟨i, hi⟩
    · exact absurd (.inl (.inr hfound)) hid
    · exact (excluded_tuples h _).mpr ⟨i, (hout i).covers hg hi id fun hi => hid (.inr ⟨i, hi⟩)⟩
  members hm id hid := by
    rw [has_tuples h, has_tuples h]
    rcases hid with (hfound | hfound) | ⟨i, hi⟩
    · exact .inl (.inl hfound)
    · exact .inr (.inl hfound)
    · exact ((hout i).members hm id hi).imp (fun hu => .inr ⟨i, hu⟩) fun hw => .inr ⟨i, hw⟩
  spares hm id hid := by
    obtain ⟨i, hi⟩ := (excluded_tuples h _).mp hid
    have hother := hclear hm i id hi
    rintro (hfound | ⟨j, hj⟩)
    · exact hother (.inl hfound)
    · by_cases hij : j = i
      · exact (hout i).spares hm id hi (hij ▸ hj)
      · exact hother (.inr ⟨j, hij, hj⟩)

end Read

end Channels

/-! ### Unions and intersections -/

section Operands

variable {n : ℕ} {operands : Fin n → Expansion} {outs : Fin n → List FoundUser}

theorem Right.union (h : UnionSends outs sent) (hclear : UnionClear care operands outs)
    (hout : ∀ i, Right care (operands i) (outs i)) : Right care (.union operands) sent where
  grants hg id hid := by
    obtain ⟨i, hi⟩ := (has_union h _).mp hid
    exact ⟨i, (hout i).grants hg id hi⟩
  covers hg hw id hid := by
    obtain ⟨i, hi⟩ := (has_union h _).mp hw
    have hexcluded := (hout i).covers hg hi id fun hi => hid ⟨i, hi⟩
    have hcount := (hclear i id hexcluded).1 hg hi hid
    obtain ⟨m, hm, -⟩ := hw
    exact ⟨m, hm, (union_excluded h hm _).mpr
      ⟨(excludedUsersCount_pos outs _).mpr ⟨i, hexcluded⟩, hcount⟩⟩
  members hm id hid := by
    obtain ⟨i, hi⟩ := hid
    exact ((hout i).members hm id hi).imp (fun hu => (has_union h _).mpr ⟨i, hu⟩)
      fun hw => (has_union h _).mpr ⟨i, hw⟩
  spares hm id hid := by
    obtain ⟨m, hmem, hk⟩ := hid
    obtain ⟨hpos, hcount⟩ := (union_excluded h hmem _).mp hk
    obtain ⟨i, hi⟩ := (excludedUsersCount_pos outs _).mp hpos
    exact fun hmember => (hclear i id hi).2 hm hmember hcount

theorem operand_grants (hg : care.grants ≠ .none) : care.operand.grants = .exclusions := by
  unfold Care.operand
  cases h : care.grants <;> simp_all [Reliance.withExclusions]

theorem operand_members (hm : care.members ≠ .none) : care.operand.members = .exclusions := by
  unfold Care.operand
  cases h : care.members <;> simp_all [Reliance.withExclusions]

/-- An operand that has the user or the wildcard, and does not exclude the user, has it. -/
theorem Right.member_of_operand {e : Expansion} {out : List FoundUser}
    (h : Right care.operand e out) (hg : care.grants ≠ .none) {id : String}
    (hhas : Has out (.user id) ∨ Has out .wildcard) (hex : ¬ Excluded out (.user id)) :
    e.Member id := by
  have hcare := operand_grants hg
  rcases hhas with hid | hw
  · exact h.grants (by simp [hcare]) id hid
  · by_contra hmember
    exact hex (h.covers hcare hw id hmember)

theorem Right.intersection (h : IntersectionSends outs sent)
    (hwild : ∀ i, ¬ Excluded (outs i) .wildcard)
    (hout : ∀ i, Right care.operand (operands i) (outs i)) :
    Right care (.intersection operands) sent where
  grants hg id hid := by
    obtain ⟨⟨i, -⟩, hall, hex⟩ := (has_intersection h _).mp hid
    exact ⟨i.pos, fun j => (hout j).member_of_operand hg (hall j) (hex j)⟩
  covers hg hw id hid := by
    obtain ⟨⟨i, -⟩, hall, -⟩ := (has_intersection h _).mp hw
    obtain ⟨j, hj⟩ : ∃ j, ¬ (operands j).Member id :=
      not_forall.mp fun hmember => hid ⟨i.pos, hmember⟩
    obtain ⟨m, hm, -⟩ := hw
    have hcare : care.operand.grants = .exclusions := operand_grants (by simp [hg])
    exact ⟨m, hm, (intersection_excluded h hm _).mpr
      ⟨j, (hout j).covers hcare (or_self_iff.mp (hall j)) id hj⟩⟩
  members hm id hid := by
    obtain ⟨hn, hmember⟩ := hid
    have hcare := operand_members hm
    have hall := fun i => (hout i).members (by simp [hcare]) id (hmember i)
    by_cases hsome : ∃ i, Has (outs i) (.user id)
    · exact .inl ((has_intersection h _).mpr
        ⟨hsome, hall, fun i hi => (hout i).spares hcare id hi (hmember i)⟩)
    · -- no operand has the user itself, so they all have the wildcard
      have hw := fun i => (hall i).resolve_left fun hi => hsome ⟨i, hi⟩
      exact .inr ((has_intersection h _).mpr ⟨⟨⟨0, hn⟩, hw _⟩, fun i => .inl (hw i), hwild⟩)
  spares hm id hid := by
    obtain ⟨m, hmem, hk⟩ := hid
    obtain ⟨i, hi⟩ := (intersection_excluded h hmem _).mp hk
    exact fun hmember => (hout i).spares (operand_members (by simp [hm])) id hi (hmember.2 i)

end Operands

/-! ### Exclusions -/

section Exclusions

variable {base subtract : Expansion} {outBase outSubtract : List FoundUser}

theorem subtract_grants (hm : care.members ≠ .none) : care.subtract.grants = .exclusions := by
  unfold Care.subtract
  cases h : care.members <;> simp_all [Reliance.withExclusions]

theorem subtract_members (hg : care.grants ≠ .none) : care.subtract.members ≠ .none := by
  unfold Care.subtract
  cases h : care.grants <;> simp_all [Reliance.usersOnly]

/-- A key that was granted has an entry. -/
theorem isSome_of_has {messages : List FoundUser} {k : UserKey} (h : Has messages k) :
    (foundUsersMap messages k).isSome = true := by
  obtain ⟨m, hm, hk, -⟩ := h
  exact foundUsersMap_isSome.mpr ⟨m, hm, hk⟩

theorem negate_eq_has {s : RelationshipStatus} :
    s.negate = .hasRelationship ↔ s = .noRelationship := by
  cases s <;> simp [RelationshipStatus.negate]

section

variable (h : ExclusionSends outBase outSubtract sent)
  (hclear : ExclusionClear care base subtract outBase outSubtract)
  (hb : Right care base outBase) (hs : Right care.subtract subtract outSubtract)
include h hclear hb hs

/-- **The grants of an exclusion are right.** -/
theorem exclusion_grants (hg : care.grants ≠ .none) {id : String} (hid : Has sent (.user id)) :
    base.Member id ∧ ¬ subtract.Member id := by
  rcases (exclusion_table h _ _).mp hid with ⟨fu, hfu, hk, hsw, hst⟩ | ⟨fu, f, -, -, -, ⟨⟩⟩
    | ⟨f, hd, hf, hst⟩
  · refine ⟨hb.grants hg id (has_of_foundUsersMap hfu hst), fun hmember => ?_⟩
    rcases hs.members (subtract_members hg) id hmember with hhas | hhas
    · simpa [hk] using isSome_of_has hhas
    · simpa [hsw] using isSome_of_has hhas
  · exact hclear.1 hg id ((denied_iff _ _).mpr ⟨f, hf, negate_eq_has.mp hst⟩) hd

/-- Under the wildcard of an exclusion, everybody else is excluded. -/
theorem exclusion_covers (hg : care.grants = .exclusions) (hw : Has sent .wildcard) {id : String}
    (hid : ¬ (base.Member id ∧ ¬ subtract.Member id)) : Excluded sent (.user id) := by
  have hg' : care.grants ≠ .none := by simp [hg]
  obtain ⟨⟨fw, hfw, hst⟩, hsw⟩ := exclusion_wildcard h _ hw
  have hbw : (foundUsersMap outBase .wildcard).isSome = true := by simp [hfw]
  have hne : UserKey.user id ≠ .wildcard := by simp
  -- a user that the subtract side denies would be a member
  have hlisted : ∀ f, foundUsersMap outSubtract (.user id) = some f → Excluded sent (.user id) := by
    intro f hf
    rcases hfs : f.relationshipStatus with _ | _
    · exact ⟨_, (mem_exclusion_iff h _).mpr (.listed hbw hne hf), by simp [subtractedMessage, hfs]⟩
    · exact absurd (hclear.1 hg' id ((denied_iff _ _).mpr ⟨f, hf, hfs⟩) (.inl ⟨hbw, hne⟩)) hid
  rcases hsub : foundUsersMap outSubtract (.user id) with _ | f
  · have hnot : ¬ base.Member id := by
      refine fun hmember => hid ⟨hmember, fun hsubtract => ?_⟩
      rcases hs.members (subtract_members hg') id hsubtract with hhas | hhas
      · simpa [hsub] using isSome_of_has hhas
      · simpa [hsw] using isSome_of_has hhas
    have hexcluded := hb.covers hg (has_of_foundUsersMap hfw hst) id hnot
    rcases hclear.2.1 hg id hexcluded hbw hsw hnot with hmem | hmem
    · rw [entryExcludes, hfw] at hmem
      exact ⟨_, (mem_exclusion_iff h _).mpr (.kept hfw hsw hsw), by simpa [hbw] using hmem⟩
    · rcases hfu : foundUsersMap outBase (.user id) with _ | fu
      · simp [entryExcludes, hfu] at hmem
      · rw [entryExcludes, hfu] at hmem
        exact ⟨_, (mem_exclusion_iff h _).mpr (.kept hfu hsub hsw), by simpa [hbw] using hmem⟩
  · exact hlisted f hsub

/-- **An exclusion misses nobody.** -/
theorem exclusion_members (hm : care.members ≠ .none) {id : String} (hbase : base.Member id)
    (hsubtract : ¬ subtract.Member id) (hbw : ¬ HasNot outBase .wildcard)
    (hsw : ¬ HasNot outSubtract .wildcard) : Has sent (.user id) ∨ Has sent .wildcard := by
  have hcare := subtract_grants hm
  have hhas := hb.members hm id hbase
  rcases hsub : foundUsersMap outSubtract (.user id) with _ | f
  · rcases hw : foundUsersMap outSubtract .wildcard with _ | f
    · rcases hhas with hid | hid
      · obtain ⟨fu, hfu⟩ := Option.isSome_iff_exists.mp (isSome_of_has hid)
        refine .inl ((exclusion_table h _ _).mpr (.inl ⟨fu, hfu, hsub, hw, ?_⟩))
        rcases hst : fu.relationshipStatus with _ | _
        · rfl
        · exact absurd hbase (hclear.2.2.2 hm id ((denied_iff _ _).mpr ⟨fu, hfu, hst⟩) hid hsub hw)
      · obtain ⟨fu, hfu⟩ := Option.isSome_iff_exists.mp (isSome_of_has hid)
        exact .inr ((exclusion_table h _ _).mpr
          (.inl ⟨fu, hfu, hw, hw, foundUsersMap_has hbw hfu⟩))
    · -- the wildcard would have to send the user itself
      have hexcluded := hs.covers hcare (has_of_foundUsersMap hw (foundUsersMap_has hsw hw)) id
        hsubtract
      have hnamed := hclear.2.2.1 hm id hexcluded (by simp [hw]) hbase hsubtract
      simp [hsub] at hnamed
  · have hst := foundUsersMap_hasNot (fun hid => hsubtract (hs.grants (by simp [hcare]) id hid)) hsub
    refine .inl ((exclusion_table h _ _).mpr (.inr (.inr ⟨f, ?_, hsub, negate_eq_has.mpr hst⟩)))
    rcases hw : foundUsersMap outBase .wildcard with _ | fw
    · rcases hhas with hid | hid
      · exact .inr ⟨hw, isSome_of_has hid⟩
      · simpa [hw] using isSome_of_has hid
    · exact .inl ⟨by simp [hw], by simp⟩

/-- **An exclusion whose sides are right is right.** -/
theorem Right.exclusion (hcycle : subtract.hasCycle = false) (hbw : ¬ HasNot outBase .wildcard)
    (hsw : ¬ HasNot outSubtract .wildcard) : Right care (.exclusion base subtract) sent where
  grants hg id hid := ⟨hcycle, exclusion_grants h hclear hb hs hg hid⟩
  covers hg hw id hid := exclusion_covers h hclear hb hs hg hw fun hmember => hid ⟨hcycle, hmember⟩
  members hm id hid := exclusion_members h hclear hb hs hm hid.2.1 hid.2.2 hbw hsw
  spares hm id hid := by
    rintro ⟨-, hbase, hsubtract⟩
    rcases exclusion_excluded h hid with hex | ⟨-, hhas⟩
    · exact hb.spares hm id hex hbase
    · exact hsubtract (hs.grants (by rw [subtract_grants (by simp [hm])]; simp) id hhas)

end

end Exclusions

/-! ### Runs -/

variable {e : Expansion}

theorem not_hasNot_of_positive {messages : List FoundUser}
    (h : ∀ m ∈ messages, m.relationshipStatus = .hasRelationship) (k : UserKey) :
    ¬ HasNot messages k := by
  rintro ⟨m, hm, -, hst⟩
  rw [h m hm] at hst
  cases hst

/-- No exclusion is reached. -/
def Expansion.exclusionFree : Expansion → Bool
  | .relation _ rewrite => rewrite.exclusionFree
  | .tuples _ _ dispatched => decide (∀ i, (dispatched i).exclusionFree = true)
  | .union operands => decide (∀ i, (operands i).exclusionFree = true)
  | .intersection operands => decide (∀ i, (operands i).exclusionFree = true)
  | .exclusion _ _ => false
  | _ => true

/-- **Only exclusions deny and exclude**, and they deny and exclude no wildcard. -/
theorem silent_sends {k : UserKey} (hk : k.Concrete)
    (hfree : k ≠ .wildcard → e.exclusionFree = true) (h : e.Sends .nowhere sent) :
    ¬ HasNot sent k ∧ ¬ Excluded sent k := by
  induction e generalizing sent with
  | error | cycle | undefined => cases h; simp [HasNot, Excluded]
  | relation matched rewrite ih =>
    obtain ⟨_, rest, rfl, hrest, rfl⟩ := h
    rw [excluded_relation]
    exact (ih hfree hrest).imp_left fun hno hnot => hno ((says_relation hk _).mp hnot)
  | tuples direct found dispatched ih =>
    obtain ⟨_, outs, rfl, houts, hreceived⟩ := h
    have hi := fun i => ih i (fun hne => of_decide_eq_true (hfree hne) i) (houts i)
    rw [hasNot_tuples hreceived, excluded_tuples hreceived, not_exists, not_exists]
    exact ⟨fun i => (hi i).1, fun i => (hi i).2⟩
  | union operands ih =>
    obtain ⟨outs, _, houts, hsends, rfl⟩ := h
    refine ⟨not_hasNot_of_positive (union_positive hsends) _, ?_⟩
    rintro ⟨m, hm, hk⟩
    obtain ⟨i, hi⟩ := (excludedUsersCount_pos outs _).mp ((union_excluded hsends hm _).mp hk).1
    exact (ih i (fun hne => of_decide_eq_true (hfree hne) i) (houts i)).2 hi
  | intersection operands ih =>
    obtain ⟨outs, _, houts, hsends, rfl⟩ := h
    refine ⟨not_hasNot_of_positive (intersection_positive hsends) _, ?_⟩
    rintro ⟨m, hm, hk⟩
    obtain ⟨i, hi⟩ := (intersection_excluded hsends hm _).mp hk
    exact (ih i (fun hne => of_decide_eq_true (hfree hne) i) (houts i)).2 hi
  | exclusion base subtract ihb =>
    obtain rfl : k = .wildcard := by_contra fun hne => by cases hfree hne
    rcases h with ⟨-, rfl⟩ | ⟨-, outBase, outSubtract, _, hb, -, hsends, rfl⟩
    · simp [HasNot, Excluded]
    constructor
    · intro hnot
      obtain ⟨⟨fu, hfu, hst⟩, -⟩ := exclusion_wildcard hsends _ hnot
      exact (ihb (absurd rfl ·) hb).1 (hasNot_of_foundUsersMap hfu hst)
    · intro hex
      rcases exclusion_excluded hsends hex with hex | ⟨hne, -⟩
      · exact (ihb (absurd rfl ·) hb).2 hex
      · exact hne rfl

/-- **No run denies the wildcard or excludes it.** -/
theorem wildcard_sends (h : e.Sends .nowhere sent) :
    ¬ HasNot sent .wildcard ∧ ¬ Excluded sent .wildcard :=
  silent_sends UserKey.concrete_wildcard (absurd rfl ·) h

/-- **Where all steps meet their conditions, and nothing is lost, every list is right.** -/
theorem right_sendsIn (h : e.SendsIn care .nowhere sent) : Right care e sent := by
  induction e generalizing care sent with
  | error | cycle | undefined => cases h; exact Right.nil fun id hid => hid
  | relation matched rewrite ih =>
    obtain ⟨_, rest, rfl, hrest, rfl⟩ := h
    exact (ih hrest).relation
  | tuples direct found dispatched ih =>
    obtain ⟨_, outs, rfl, houts, hreceived, hclear⟩ := h
    exact Right.tuples hreceived hclear fun i => ih i (houts i)
  | union operands ih =>
    obtain ⟨outs, _, houts, hsends, rfl, hclear⟩ := h
    exact Right.union hsends hclear fun i => ih i (houts i)
  | intersection operands ih =>
    obtain ⟨outs, _, houts, hsends, rfl⟩ := h
    exact Right.intersection hsends (fun i => (wildcard_sends (sends_of_sendsIn (houts i))).2)
      fun i => ih i (houts i)
  | exclusion base subtract ihb ihs =>
    rcases h with ⟨hc, rfl⟩ | ⟨hc, outBase, outSubtract, _, hb, hs, hsends, rfl, hclear⟩
    · exact Right.nil fun id hid => by simp [Member, hc] at hid
    · exact Right.exclusion hsends hclear (ihb hb) (ihs hs) (hc.resolve_right (by simp))
        (wildcard_sends (sends_of_sendsIn hb)).1 (wildcard_sends (sends_of_sendsIn hs)).1

/-! ### Expansions with few exclusions -/

/-- **Without exclusions every run meets the conditions.** -/
theorem sendsIn_of_exclusionFree (he : e.exclusionFree = true) (h : e.Sends .nowhere sent) :
    e.SendsIn care .nowhere sent := by
  induction e generalizing care sent with
  | error | cycle | undefined => exact h
  | relation matched rewrite ih =>
    obtain ⟨own, rest, hown, hrest, hsent⟩ := h
    exact ⟨own, rest, hown, ih he hrest, hsent⟩
  | tuples direct found dispatched ih =>
    obtain ⟨own, outs, hown, houts, hreceived⟩ := h
    have hfree := of_decide_eq_true he
    have hsilent := fun i id =>
      silent_sends (UserKey.concrete_user id) (fun _ => hfree i) (houts i)
    exact ⟨own, outs, hown, fun i => ih i (hfree i) (houts i), hreceived,
      fun _ i id hi => absurd hi (hsilent i id).2⟩
  | union operands ih =>
    obtain ⟨outs, messages, houts, hsends, hkeeps⟩ := h
    have hfree := of_decide_eq_true he
    have hsilent := fun i id =>
      silent_sends (UserKey.concrete_user id) (fun _ => hfree i) (houts i)
    exact ⟨outs, messages, fun i => ih i (hfree i) (houts i), hsends, hkeeps,
      fun i id hi => absurd hi (hsilent i id).2⟩
  | intersection operands ih =>
    obtain ⟨outs, messages, houts, hsends, hkeeps⟩ := h
    exact ⟨outs, messages, fun i => ih i (of_decide_eq_true he i) (houts i), hsends, hkeeps⟩
  | exclusion => cases he

theorem not_denied_of_not_hasNot {messages : List FoundUser} {k : UserKey}
    (h : ¬ HasNot messages k) : ¬ Denied messages k := by
  intro hd
  obtain ⟨m, hm, hs⟩ := (denied_iff _ _).mp hd
  exact h (hasNot_of_foundUsersMap hm hs)

/-- **So does every run of an exclusion whose sides have none.** -/
theorem sendsIn_exclusion {base subtract : Expansion} (hb : base.exclusionFree = true)
    (hs : subtract.exclusionFree = true) (h : (Expansion.exclusion base subtract).Sends .nowhere sent) :
    (Expansion.exclusion base subtract).SendsIn care .nowhere sent := by
  rcases h with hc | ⟨hc, outBase, outSubtract, messages, hbase, hsubtract, hsends, hkeeps⟩
  · exact .inl hc
  have hsilent := fun id => silent_sends (UserKey.concrete_user id) (fun _ => hb) hbase
  have hsilent' := fun id => silent_sends (UserKey.concrete_user id) (fun _ => hs) hsubtract
  refine .inr ⟨hc, outBase, outSubtract, messages, sendsIn_of_exclusionFree hb hbase,
    sendsIn_of_exclusionFree hs hsubtract, hsends, hkeeps, ?_, ?_, ?_, ?_⟩
  · exact fun _ id hd => absurd hd (not_denied_of_not_hasNot (hsilent' id).1)
  · exact fun _ id hex => absurd hex (hsilent id).2
  · exact fun _ id hex => absurd hex (hsilent' id).2
  · exact fun _ id hd => absurd hd (not_denied_of_not_hasNot (hsilent id).1)

end Kengen.ListUsers
