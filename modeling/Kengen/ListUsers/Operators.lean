import Kengen.ListUsers.Expand

/-!
# What the set operators send

For each set operator of the expansion, the messages it sends in terms of the
messages of its operands, for every iteration order of the maps.

* **`has_union`** — a union sends the keys that some operand found.
* **`has_intersection`** — an intersection sends the keys that every operand found
  or covers by the wildcard, and that none excluded.
* **`mem_exclusion_iff`** — the messages of an exclusion, by the entries of its two
  sides.

Unions and intersections never send `NoRelationship`; an exclusion does.

`Expansion.run` is one schedule without a loss: senders one after the other, maps
in the order of their first entries (`unionRun_sends`, `intersectionRun_sends`,
`exclusionRun_sends`).
-/

namespace Kengen.ListUsers

open Channels List

/-! ### The maps -/

variable {messages : List FoundUser} {key : UserKey} {m : FoundUser}

theorem has_of_foundUsersMap (h : foundUsersMap messages key = some m)
    (hs : m.relationshipStatus = .hasRelationship) : Has messages key :=
  ⟨m, (latest_mem h).1, (latest_mem h).2, hs⟩

theorem hasNot_of_foundUsersMap (h : foundUsersMap messages key = some m)
    (hs : m.relationshipStatus = .noRelationship) : HasNot messages key :=
  ⟨m, (latest_mem h).1, (latest_mem h).2, hs⟩

theorem foundUsersMap_isSome :
    (foundUsersMap messages key).isSome = true ↔ ∃ m ∈ messages, m.user = key := latest_isSome

/-- A key that no message denies has an entry with `HasRelationship` once it was sent. -/
theorem foundUsersMap_has (hnot : ¬ HasNot messages key) (h : foundUsersMap messages key = some m) :
    m.relationshipStatus = .hasRelationship := by
  rcases hs : m.relationshipStatus with _ | _
  · rfl
  · exact absurd (hasNot_of_foundUsersMap h hs) hnot

/-- A key that no message grants has an entry with `NoRelationship` once it was sent. -/
theorem foundUsersMap_hasNot (hnot : ¬ Has messages key) (h : foundUsersMap messages key = some m) :
    m.relationshipStatus = .noRelationship := by
  rcases hs : m.relationshipStatus with _ | _
  · exact absurd (has_of_foundUsersMap h hs) hnot
  · rfl

/-! ### Unions and intersections -/

section Families

variable {n : ℕ} {outs : Fin n → List FoundUser} {sent : List FoundUser}

/-- **A union sends the keys that some operand found.** -/
theorem has_union (h : UnionSends outs sent) (k : UserKey) : Has sent k ↔ ∃ i, Has (outs i) k := by
  obtain ⟨keys, _, hkeys, -, rfl⟩ := h
  have hk : k ∈ keys ↔ ∃ i, Has (outs i) k := hkeys.2 k
  rw [← hk]
  simp [Has]

theorem union_positive (h : UnionSends outs sent) :
    ∀ m ∈ sent, m.relationshipStatus = .hasRelationship := by
  obtain ⟨_, _, -, -, rfl⟩ := h
  simp

/-- Every message of a union carries the users whose exclusions were counted once for each
operand. -/
theorem union_excluded (h : UnionSends outs sent) (hm : m ∈ sent) (k : UserKey) :
    k ∈ m.excludedUsers ↔ 0 < excludedUsersCount outs k ∧ excludedUsersCount outs k = n := by
  obtain ⟨_, excludedUsers, -, hex, rfl⟩ := h
  obtain ⟨_, -, rfl⟩ := mem_map.mp hm
  exact hex.2 k

/-- The counters of an intersection say that every operand found the key or the wildcard. -/
theorem foundUsersCount_eq (outs : Fin n → List FoundUser) (k : UserKey) :
    foundUsersCount outs k + wildcardCount outs = n ↔
      ∀ i, Has (outs i) k ∨ Has (outs i) .wildcard := by
  have hcount := countP_add_eq_length
    (p := fun i => decide (Has (outs i) k ∧ ¬ Has (outs i) .wildcard))
    (q := fun i => decide (Has (outs i) .wildcard))
    (fun i => by simp only [decide_eq_true_eq]; tauto) (List.finRange n)
  rw [length_finRange] at hcount
  refine hcount.trans ?_
  simp only [decide_eq_true_eq, mem_finRange, forall_true_left]
  exact forall_congr' fun i => by tauto

/-- **An intersection sends the keys that every operand found or covers by the
wildcard, and that none excluded.** -/
theorem has_intersection (h : IntersectionSends outs sent) (k : UserKey) :
    Has sent k ↔ (∃ i, Has (outs i) k) ∧ (∀ i, Has (outs i) k ∨ Has (outs i) .wildcard)
      ∧ ∀ i, ¬ Excluded (outs i) k := by
  obtain ⟨keys, excludedUsers, hkeys, hex, rfl⟩ := h
  have hnot : k ∉ excludedUsers ↔ ∀ i, ¬ Excluded (outs i) k := by
    rw [hex.2 k]
    simp
  have hkey : k ∈ keys ↔ ∃ i, Has (outs i) k := hkeys.2 k
  rw [← hkey, ← foundUsersCount_eq, ← hnot]
  simp only [Has, mem_map, mem_filter, decide_eq_true_eq]
  constructor
  · rintro ⟨_, ⟨_, ⟨hk', hne, hc⟩, rfl⟩, rfl, -⟩
    exact ⟨hk', hc, hne⟩
  · rintro ⟨hk, hc, hne⟩
    exact ⟨_, ⟨k, ⟨hk, hne, hc⟩, rfl⟩, rfl, rfl⟩

theorem intersection_positive (h : IntersectionSends outs sent) :
    ∀ m ∈ sent, m.relationshipStatus = .hasRelationship := by
  obtain ⟨_, _, -, -, rfl⟩ := h
  intro m hm
  obtain ⟨k, -, rfl⟩ := mem_map.mp hm
  rfl

/-- Every message of an intersection carries the users that some operand excluded. -/
theorem intersection_excluded (h : IntersectionSends outs sent) (hm : m ∈ sent)
    (k : UserKey) : k ∈ m.excludedUsers ↔ ∃ i, Excluded (outs i) k := by
  obtain ⟨_, excludedUsers, -, hex, rfl⟩ := h
  obtain ⟨_, -, rfl⟩ := mem_map.mp hm
  exact hex.2 k

end Families

/-! ### Exclusions -/

section Exclusions

variable {base subtract sent : List FoundUser}

/-- What an exclusion over a wildcard says of a user of the subtract side. -/
def subtractedMessage (key : UserKey) (fu : FoundUser) : FoundUser :=
  match fu.relationshipStatus with
  | .noRelationship => ⟨key, [], .hasRelationship⟩
  | .hasRelationship => ⟨key, [key], .noRelationship⟩

theorem mem_exclusion (h : ExclusionSends base subtract sent) (m : FoundUser) :
    m ∈ sent ↔ ∃ k fu, foundUsersMap base k = some fu ∧ m ∈ exclusionRound (foundUsersMap base)
      (foundUsersMap subtract) (subtract.map FoundUser.user) k fu := by
  obtain ⟨_, order, hkeys, horder, rfl⟩ := h
  -- the order in which the subtract side is listed does not matter
  have hround : ∀ k fu, m ∈ exclusionRound (foundUsersMap base) (foundUsersMap subtract) (order k) k fu
      ↔ m ∈ exclusionRound (foundUsersMap base) (foundUsersMap subtract)
        (subtract.map FoundUser.user) k fu := by
    intro k fu
    simp only [exclusionRound]
    split_ifs <;> simp only [mem_append, mem_flatMap, (horder k).2, foundUsersMap_isSome, mem_map]
  simp only [mem_flatMap, hkeys.2, Option.isSome_iff_exists]
  constructor
  · rintro ⟨k, ⟨fu, hfu⟩, hm⟩
    simp only [exclusionRoundOf, hfu] at hm
    exact ⟨k, fu, hfu, (hround k fu).mp hm⟩
  · rintro ⟨k, fu, hfu, hm⟩
    refine ⟨k, ⟨fu, hfu⟩, ?_⟩
    simpa only [exclusionRoundOf, hfu] using (hround k fu).mpr hm

theorem mem_subtractedSends {sub : UserKey → Option FoundUser} {userKey j : UserKey} :
    m ∈ subtractedSends sub userKey j ↔
      (j = .wildcard ∧ sub userKey = none ∧ m = ⟨userKey, [], .noRelationship⟩)
      ∨ (j ≠ .wildcard ∧ ∃ f, sub j = some f ∧ m = subtractedMessage j f) := by
  by_cases hj : j = .wildcard
  · simp only [subtractedSends, if_pos hj]
    rcases sub userKey with _ | f <;> simp [hj]
  · simp only [subtractedSends, if_neg hj, subtractedMessage]
    rcases hs : sub j with _ | f
    · simp [hj]
    · rcases hf : f.relationshipStatus with _ | _ <;> simp [hj, hf]

/-- **The messages of an exclusion**, by the entries of the two sides. -/
inductive Excluding (base subtract : List FoundUser) : FoundUser → Prop
  | kept {k : UserKey} {fu : FoundUser} (hfu : foundUsersMap base k = some fu)
      (hk : foundUsersMap subtract k = none) (hsw : foundUsersMap subtract .wildcard = none) :
      Excluding base subtract ⟨k, if (foundUsersMap base .wildcard).isSome then fu.excludedUsers
        else [], fu.relationshipStatus⟩
  | covered {k : UserKey} {fu f : FoundUser} (hfu : foundUsersMap base k = some fu)
      (hk : foundUsersMap subtract k = none) (hf : foundUsersMap subtract .wildcard = some f) :
      Excluding base subtract ⟨k, [], .noRelationship⟩
  | listed {k : UserKey} {f : FoundUser} (hw : (foundUsersMap base .wildcard).isSome = true)
      (hne : k ≠ .wildcard) (hf : foundUsersMap subtract k = some f) :
      Excluding base subtract (subtractedMessage k f)
  | negated {k : UserKey} {fu f : FoundUser} (hw : foundUsersMap base .wildcard = none)
      (hfu : foundUsersMap base k = some fu) (hf : foundUsersMap subtract k = some f) :
      Excluding base subtract ⟨k, [], f.relationshipStatus.negate⟩

theorem mem_exclusion_iff (h : ExclusionSends base subtract sent) (m : FoundUser) :
    m ∈ sent ↔ Excluding base subtract m := by
  rw [mem_exclusion h]
  constructor
  · rintro ⟨k, fu, hfu, hm⟩
    rcases hw : foundUsersMap base .wildcard with _ | fw
    · simp only [exclusionRound, hw, Option.isSome_none, Bool.false_eq_true, if_false] at hm
      rcases hk : foundUsersMap subtract k with _ | f
      · rcases hsw : foundUsersMap subtract .wildcard with _ | f'
        · have hkept := Excluding.kept hfu hk hsw
          simp_all
        · have hcovered := Excluding.covered hfu hk hsw
          simp_all [statusOf, RelationshipStatus.negate]
      · have hnegated := Excluding.negated hw hfu hk
        simp_all [statusOf]
    · have hws : (foundUsersMap base .wildcard).isSome = true := by rw [hw]; rfl
      rw [exclusionRound, if_pos hws, mem_append, mem_flatMap] at hm
      rcases hm with hm | ⟨j, hj, hm⟩
      · have hkept := @Excluding.kept base subtract k fu hfu
        split_ifs at hm with hnone
        · cases hm
        · simp_all
      · rcases mem_subtractedSends.mp hm with ⟨rfl, hk, rfl⟩ | ⟨hne, f, hf, rfl⟩
        · obtain ⟨f, hf⟩ := Option.isSome_iff_exists.mp (foundUsersMap_isSome.mpr (mem_map.mp hj))
          exact .covered hfu hk hf
        · exact .listed hws hne hf
  · have hround : ∀ {j f k fu}, (foundUsersMap base .wildcard).isSome = true →
        foundUsersMap subtract j = some f → m ∈ subtractedSends (foundUsersMap subtract) k j →
        m ∈ exclusionRound (foundUsersMap base) (foundUsersMap subtract)
          (subtract.map FoundUser.user) k fu := by
      intro j f k fu hw hf hm
      rw [exclusionRound, if_pos hw]
      refine mem_append_right _ (mem_flatMap.mpr ⟨j, mem_map.mpr ?_, hm⟩)
      exact foundUsersMap_isSome.mp (Option.isSome_iff_exists.mpr ⟨f, hf⟩)
    rintro (⟨hfu, hk, hsw⟩ | ⟨hfu, hk, hf⟩ | ⟨hw, hne, hf⟩ | ⟨hw, hfu, hf⟩)
    · refine ⟨_, _, hfu, ?_⟩
      rw [exclusionRound]
      split <;> simp [hk, hsw]
    · refine ⟨_, _, hfu, ?_⟩
      by_cases hw : (foundUsersMap base .wildcard).isSome = true
      · exact hround hw hf (mem_subtractedSends.mpr (.inl ⟨rfl, hk, rfl⟩))
      · simp [exclusionRound, hw, hk, hf, statusOf, RelationshipStatus.negate]
    · obtain ⟨fw, hfw⟩ := Option.isSome_iff_exists.mp hw
      exact ⟨_, fw, hfw, hround hw hf (mem_subtractedSends.mpr (.inr ⟨hne, _, hf, rfl⟩))⟩
    · exact ⟨_, _, hfu, by simp [exclusionRound, hw, hf, statusOf]⟩

end Exclusions

/-! ### One schedule -/

section Run

variable {n : ℕ}

/-- The keys that some operand found, in the order of their first messages. -/
def foundKeys (outs : Fin n → List FoundUser) : List UserKey :=
  ((List.finRange n).flatMap fun i =>
    ((outs i).filter fun m => decide (m.relationshipStatus = .hasRelationship)).map
      FoundUser.user).dedup

/-- The users that some message excludes. -/
def excludedKeys (outs : Fin n → List FoundUser) : List UserKey :=
  ((List.finRange n).flatMap fun i => (outs i).flatMap FoundUser.excludedUsers).dedup

section

variable (outs : Fin n → List FoundUser)
include outs

theorem enumerates_foundKeys :
    Enumerates (foundKeys outs) fun k => ∃ i, Has (outs i) k := by
  refine ⟨nodup_dedup _, fun k => ?_⟩
  simp only [foundKeys, mem_dedup, mem_flatMap, mem_finRange, true_and,
    mem_map, mem_filter, decide_eq_true_eq, Has]
  exact exists_congr fun i => exists_congr fun m => by tauto

theorem mem_excludedKeys (k : UserKey) : k ∈ excludedKeys outs ↔ ∃ i, Excluded (outs i) k := by
  simp [excludedKeys, Excluded]

theorem excludedUsersCount_pos (k : UserKey) :
    0 < excludedUsersCount outs k ↔ ∃ i, Excluded (outs i) k := by
  rw [Nat.pos_iff_ne_zero, ne_eq, excludedUsersCount, List.sum_eq_zero_iff_forall_eq_nat]
  simp only [List.mem_map, List.mem_finRange, true_and, forall_exists_index,
    forall_apply_eq_imp_iff, List.sum_eq_zero_iff_forall_eq_nat, not_forall]
  refine exists_congr fun i => ?_
  simp [Excluded, List.count_eq_zero]

/-- The users whose exclusions a union counts once for each operand. -/
def commonExcludedKeys (outs : Fin n → List FoundUser) : List UserKey :=
  (excludedKeys outs).filter fun k => decide (excludedUsersCount outs k = n)

def unionRun (outs : Fin n → List FoundUser) : List FoundUser :=
  (foundKeys outs).map fun k => { user := k, excludedUsers := commonExcludedKeys outs }

theorem unionRun_sends : UnionSends outs (unionRun outs) := by
  refine ⟨_, commonExcludedKeys outs, enumerates_foundKeys outs,
    ⟨(nodup_dedup _).filter _, fun k => ?_⟩, rfl⟩
  show k ∈ commonExcludedKeys outs ↔
    0 < excludedUsersCount outs k ∧ excludedUsersCount outs k = n
  rw [commonExcludedKeys, mem_filter, mem_excludedKeys, excludedUsersCount_pos,
    decide_eq_true_eq]

def intersectionRun (outs : Fin n → List FoundUser) : List FoundUser :=
  ((foundKeys outs).filter fun k => decide (k ∉ excludedKeys outs
      ∧ foundUsersCount outs k + wildcardCount outs = n)).map
    fun k => { user := k, excludedUsers := excludedKeys outs }

theorem intersectionRun_sends :
    IntersectionSends outs (intersectionRun outs) :=
  ⟨_, _, enumerates_foundKeys outs, ⟨nodup_dedup _, mem_excludedKeys outs⟩, rfl⟩

end

def exclusionRun (base subtract : List FoundUser) : List FoundUser :=
  (base.map FoundUser.user).dedup.flatMap (exclusionRoundOf (foundUsersMap base)
    (foundUsersMap subtract) fun _ => (subtract.map FoundUser.user).dedup)

theorem enumerates_users (messages : List FoundUser) :
    Enumerates (messages.map FoundUser.user).dedup
      fun k => (foundUsersMap messages k).isSome = true :=
  ⟨nodup_dedup _, fun k => by simp [foundUsersMap_isSome]⟩

theorem exclusionRun_sends (base subtract : List FoundUser) :
    ExclusionSends base subtract (exclusionRun base subtract) :=
  ⟨_, _, enumerates_users base, fun _ => enumerates_users subtract, rfl⟩

/-- One schedule without a loss: senders one after the other. -/
def Expansion.run : Expansion → List FoundUser
  | .error _ => []
  | .cycle => []
  | .undefined => []
  | .relation matched rewrite => matchedMessages matched ++ rewrite.run
  | .tuples _ found dispatched =>
      (found.map fun k => { user := k }) ++ (List.ofFn fun i => (dispatched i).run).flatten
  | .union operands => unionRun fun i => (operands i).run
  | .intersection operands => intersectionRun fun i => (operands i).run
  | .exclusion base subtract =>
      if subtract.hasCycle then [] else exclusionRun base.run subtract.run

/-- The answer to a message list. -/
theorem Request.responds_of_arrive (req : Request) (env : Environment) (loss : Loss)
    {arrive : List FoundUser → Prop} (hexpands : req.expands env = .ok true)
    (hok : loss = .nowhere → (req.expansion env).fails = false) (h : arrive messages) :
    ∃ users, req.RespondsTo env arrive loss users ∧ ∀ k, k ∈ users ↔ Reported messages k := by
  have husers : Enumerates ((messages.map FoundUser.user).dedup.filter
      fun k => decide (Reported messages k)) (Reported messages) := by
    refine ⟨(nodup_dedup _).filter _, fun k => ?_⟩
    rw [mem_filter, decide_eq_true_eq, (enumerates_users messages).2 k]
    exact and_iff_right_of_imp fun h => Option.isSome_iff_exists.mpr (h.imp fun _ => And.left)
  refine ⟨_, ?_, husers.2⟩
  rw [RespondsTo, hexpands]
  exact ⟨hok, messages, h, husers⟩

end Run

end Kengen.ListUsers
