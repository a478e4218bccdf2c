import Kengen.ListUsers.Operators

/-!
# What an exclusion says

An exclusion reads both sides into maps and decides each key by the entries of
the two maps.  **`exclusion_table`** is the whole table: a key gets the status of
its base entry if the subtract side knows neither it nor the wildcard; it is
denied if the subtract side has the wildcard and not the key; and it gets the
opposite of its status on the subtract side if it has one there.

The last line is what goes wrong under two exclusions: the status on the subtract
side decides alone, whatever the base said of the key.

* **`exclusion_wildcard`** — when the wildcard is sent.
* **`exclusion_excluded`** — whom the messages exclude.
-/

namespace Kengen.ListUsers

open Channels

variable {base subtract sent : List FoundUser}

/-- A key is decided by its entry on the subtract side when the base has the
wildcard, or the key itself. -/
def DecidedBySubtract (base : List FoundUser) (key : UserKey) : Prop :=
  ((foundUsersMap base .wildcard).isSome = true ∧ key ≠ .wildcard)
    ∨ (foundUsersMap base .wildcard = none ∧ (foundUsersMap base key).isSome = true)

instance (base : List FoundUser) (key : UserKey) : Decidable (DecidedBySubtract base key) :=
  inferInstanceAs (Decidable (_ ∨ _))

theorem decided_ne_wildcard {key : UserKey} (h : DecidedBySubtract base key) :
    key ≠ .wildcard := by
  rcases h with ⟨-, hne⟩ | ⟨hnone, hsome⟩
  · exact hne
  · rintro rfl
    rw [hnone] at hsome
    cases hsome

theorem subtractedMessage_user (k : UserKey) (f : FoundUser) :
    (subtractedMessage k f).user = k := by
  unfold subtractedMessage
  split <;> rfl

theorem subtractedMessage_status (k : UserKey) (f : FoundUser) :
    (subtractedMessage k f).relationshipStatus = f.relationshipStatus.negate := by
  unfold subtractedMessage
  split <;> rename_i h <;> rw [h] <;> rfl

/-- **The table of an exclusion.** -/
theorem exclusion_table (h : ExclusionSends base subtract sent) (k : UserKey)
    (s : RelationshipStatus) :
    (∃ m ∈ sent, m.user = k ∧ m.relationshipStatus = s) ↔
      (∃ fu, foundUsersMap base k = some fu ∧ foundUsersMap subtract k = none
        ∧ foundUsersMap subtract .wildcard = none ∧ fu.relationshipStatus = s)
      ∨ (∃ fu f, foundUsersMap base k = some fu ∧ foundUsersMap subtract k = none
        ∧ foundUsersMap subtract .wildcard = some f ∧ s = .noRelationship)
      ∨ ∃ f, DecidedBySubtract base k ∧ foundUsersMap subtract k = some f
        ∧ f.relationshipStatus.negate = s := by
  simp only [mem_exclusion_iff h]
  constructor
  · rintro ⟨m, hm, rfl, rfl⟩
    cases hm with
    | kept hfu hk hsw => exact .inl ⟨_, hfu, hk, hsw, rfl⟩
    | covered hfu hk hf => exact .inr (.inl ⟨_, _, hfu, hk, hf, rfl⟩)
    | listed hw hne hf =>
      rw [subtractedMessage_user, subtractedMessage_status]
      exact .inr (.inr ⟨_, .inl ⟨hw, hne⟩, hf, rfl⟩)
    | negated hw hfu hf => exact .inr (.inr ⟨_, .inr ⟨hw, Option.isSome_of_eq_some hfu⟩, hf, rfl⟩)
  · rintro (⟨fu, hfu, hk, hsw, rfl⟩ | ⟨fu, f, hfu, hk, hf, rfl⟩
      | ⟨f, ⟨hw, hne⟩ | ⟨hw, hfu⟩, hf, rfl⟩)
    · exact ⟨_, .kept hfu hk hsw, rfl, rfl⟩
    · exact ⟨_, .covered hfu hk hf, rfl, rfl⟩
    · exact ⟨_, .listed hw hne hf, subtractedMessage_user k f, subtractedMessage_status k f⟩
    · obtain ⟨fu, hfu⟩ := Option.isSome_iff_exists.mp hfu
      exact ⟨_, .negated hw hfu hf, rfl, rfl⟩

/-- An exclusion sends the wildcard just if the base does and the subtract side does not. -/
theorem exclusion_wildcard (h : ExclusionSends base subtract sent) (s : RelationshipStatus)
    (hs : ∃ m ∈ sent, m.user = .wildcard ∧ m.relationshipStatus = s) :
    (∃ fu, foundUsersMap base .wildcard = some fu ∧ fu.relationshipStatus = s)
      ∧ foundUsersMap subtract .wildcard = none := by
  rcases (exclusion_table h _ s).mp hs with ⟨fu, hfu, -, hsw, hst⟩ | ⟨fu, f, hfu, hk, hf, -⟩
    | ⟨f, hd, -, -⟩
  · exact ⟨⟨fu, hfu, hst⟩, hsw⟩
  · rw [hk] at hf
    cases hf
  · exact absurd rfl (decided_ne_wildcard hd)

/-- The excluded users of an exclusion are those of the base and the subtracted ones. -/
theorem exclusion_excluded (h : ExclusionSends base subtract sent) {k : UserKey}
    (hk : Excluded sent k) : Excluded base k ∨ (k ≠ .wildcard ∧ Has subtract k) := by
  obtain ⟨m, hm, hmem⟩ := hk
  cases (mem_exclusion_iff h m).mp hm with
  | kept hfu =>
    dsimp only at hmem
    split at hmem
    · exact .inl ⟨_, (latest_mem hfu).1, hmem⟩
    · cases hmem
  | covered | negated => cases hmem
  | listed hw hne hf =>
    unfold subtractedMessage at hmem
    split at hmem
    · cases hmem
    rename_i hst
    obtain rfl := List.mem_singleton.mp hmem
    exact .inr ⟨hne, has_of_foundUsersMap hf hst⟩

end Kengen.ListUsers
