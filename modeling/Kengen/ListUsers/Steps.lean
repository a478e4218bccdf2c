import Kengen.ListUsers.Exclusions
import Kengen.ListUsers.Meaning

/-!
# Steps of an expansion that go right

The operators combine the messages of their operands in ways that are not always right: an
exclusion grants a user that its subtract side denies, a map keeps the last message about a user, and
a union counts exclusions by messages.  Here is what each step needs of the messages it receives, as
far as the reader of its own messages relies on them.

* `Reliance`, `Care` — what the reader of a channel relies on: that nobody is granted wrongly, that
  nobody is missing, or both.  An intersection also relies on the excluded users; on the subtract
  side of an exclusion the two change places.
* `ReadClear`, `UnionClear`, `ExclusionClear`, `LastClear` — the conditions of the steps.
* `Expansion.SendsIn` — the runs whose steps all meet them.  **`sends_of_sendsIn`**: they are runs.
* `Expansion.meets` — the conditions, computed along the schedule `Expansion.run`; with no care
  there are none, so that every expansion has a run (**`run_sends`**).
-/

namespace Kengen.ListUsers

open Channels List

/-! ### What the reader of a channel relies on -/

/-- How far a reader relies on one half of what it is told. -/
inductive Reliance where
  | none
  /-- On the users that are sent. -/
  | users
  /-- On the excluded users too. -/
  | exclusions
deriving DecidableEq, Repr

def Reliance.withExclusions : Reliance → Reliance
  | .none => .none
  | _ => .exclusions

def Reliance.usersOnly : Reliance → Reliance
  | .none => .none
  | _ => .users

/-- What the reader of a channel relies on. -/
structure Care where
  /-- Nobody is granted wrongly. -/
  grants : Reliance
  /-- Nobody is missing. -/
  members : Reliance
deriving DecidableEq, Repr

/-- An operand of an intersection. -/
def Care.operand (care : Care) : Care :=
  ⟨care.grants.withExclusions, care.members.withExclusions⟩

/-- On the subtract side of an exclusion a grant too many makes a member too few. -/
def Care.subtract (care : Care) : Care :=
  ⟨care.members.withExclusions, care.grants.usersOnly⟩

/-! ### The conditions of the steps -/

section Messages

variable (messages : List FoundUser) (key : UserKey)

/-- The last message about the key denies it. -/
def Denied : Prop := statusOf (foundUsersMap messages key) = .noRelationship

instance : Decidable (Denied messages key) := inferInstanceAs (Decidable (_ = _))

/-- The excluded users of the map entry of a key. -/
def entryExcludes : List UserKey :=
  ((foundUsersMap messages key).map FoundUser.excludedUsers).getD []

theorem denied_iff : Denied messages key ↔
    ∃ m, foundUsersMap messages key = some m ∧ m.relationshipStatus = .noRelationship := by
  unfold Denied
  cases foundUsersMap messages key <;> simp [statusOf]

end Messages

section Conditions

variable {n : ℕ} (care : Care)

/-- A read: no userset excludes a user that was found, or that another userset has. -/
def ReadClear (found : List UserKey) (dispatched : Fin n → Expansion)
    (outs : Fin n → List FoundUser) : Prop :=
  care.members = .exclusions → ∀ i id, Excluded (outs i) (.user id) →
    ¬ ((UserKey.user id ∈ found ∨ UserKey.wildcard ∈ found)
      ∨ ∃ j, j ≠ i ∧ (dispatched j).Member id)

/-- A union: the exclusions of a user are counted once for each operand if no operand has the user,
and are not if one has. -/
def UnionClear (operands : Fin n → Expansion) (outs : Fin n → List FoundUser) : Prop :=
  ∀ i id, Excluded (outs i) (.user id) →
    (care.grants = .exclusions → Has (outs i) .wildcard → (¬ ∃ j, (operands j).Member id) →
      excludedUsersCount outs (.user id) = n)
    ∧ (care.members = .exclusions → (∃ j, (operands j).Member id) →
      excludedUsersCount outs (.user id) ≠ n)

variable (base subtract : Expansion) (outBase outSubtract : List FoundUser)

/-- The subtract side denies only users of the base that are not subtracted, as far as its denials
decide. -/
def NegatesRightly : Prop :=
  ∀ id, Denied outSubtract (.user id) → DecidedBySubtract outBase (.user id) →
    base.Member id ∧ ¬ subtract.Member id

/-- Under a wildcard of the base, its map keeps the exclusion of each user that the base does not
have. -/
def RetainsExclusions : Prop :=
  ∀ id, Excluded outBase (.user id) → (foundUsersMap outBase .wildcard).isSome = true →
    foundUsersMap outSubtract .wildcard = none → ¬ base.Member id →
      UserKey.user id ∈ entryExcludes outBase .wildcard
        ∨ UserKey.user id ∈ entryExcludes outBase (.user id)

/-- Under a wildcard of the subtract side, a user of the base that it excludes is sent itself. -/
def NamesExcluded : Prop :=
  ∀ id, Excluded outSubtract (.user id) → (foundUsersMap outSubtract .wildcard).isSome = true →
    base.Member id → ¬ subtract.Member id → (foundUsersMap outSubtract (.user id)).isSome = true

/-- A user that the base has and the subtract side does not mention is not denied last where it is
granted. -/
def KeepsGrants : Prop :=
  ∀ id, Denied outBase (.user id) → Has outBase (.user id) →
    foundUsersMap outSubtract (.user id) = none → foundUsersMap outSubtract .wildcard = none →
      ¬ base.Member id

/-- An exclusion. -/
def ExclusionClear : Prop :=
  (care.grants ≠ .none → NegatesRightly base subtract outBase outSubtract)
    ∧ (care.grants = .exclusions → RetainsExclusions base outBase outSubtract)
    ∧ (care.members ≠ .none → NamesExcluded base subtract outSubtract)
    ∧ (care.members ≠ .none → KeepsGrants base outBase outSubtract)

/-- The response: no user of the expansion is denied last where it is granted. -/
def LastClear (e : Expansion) (messages : List FoundUser) : Prop :=
  care.members ≠ .none → ∀ id, Denied messages (.user id) → Has messages (.user id) → ¬ e.Member id

end Conditions

/-! ### Runs -/

/-- **The message lists of the runs whose steps all meet their conditions.** -/
def Expansion.SendsIn (care : Care) (loss : Loss) : Expansion → List FoundUser → Prop
  | .error _, sent => sent = []
  | .cycle, sent => sent = []
  | .undefined, sent => sent = []
  | .relation matched rewrite, sent =>
      ∃ own rest, loss.Keeps (matchedMessages matched) own
        ∧ rewrite.SendsIn care loss rest ∧ sent = own ++ rest
  | .tuples (n := n) _ found dispatched, sent =>
      ∃ (own : List FoundUser) (outs : Fin n → List FoundUser),
        loss.Keeps (found.map fun k => { user := k }) own
        ∧ (∀ i, (dispatched i).SendsIn care loss (outs i))
        ∧ Received (own :: List.ofFn outs) sent ∧ ReadClear care found dispatched outs
  | .union (n := n) operands, sent =>
      ∃ (outs : Fin n → List FoundUser) (messages : List FoundUser),
        (∀ i, (operands i).SendsIn care loss (outs i))
        ∧ UnionSends outs messages ∧ loss.Keeps messages sent ∧ UnionClear care operands outs
  | .intersection (n := n) operands, sent =>
      ∃ (outs : Fin n → List FoundUser) (messages : List FoundUser),
        (∀ i, (operands i).SendsIn care.operand loss.inOperand (outs i))
        ∧ IntersectionSends outs messages ∧ loss.Keeps messages sent
  | .exclusion base subtract, sent =>
      (subtract.hasCycle = true ∧ sent = [])
      ∨ ((subtract.hasCycle = false ∨ loss = .anywhere)
        ∧ ∃ outBase outSubtract messages, base.SendsIn care loss.inOperand outBase
          ∧ subtract.SendsIn care.subtract loss.inOperand outSubtract
          ∧ ExclusionSends outBase outSubtract messages ∧ loss.Keeps messages sent
          ∧ ExclusionClear care base subtract outBase outSubtract)

/-- The answers to the runs whose steps all meet their conditions. -/
def Request.RespondsIn (req : Request) (env : Environment) (care : Care) (loss : Loss)
    (users : List UserKey) : Prop :=
  req.RespondsTo env (fun messages => (req.expansion env).SendsIn care loss messages
    ∧ (loss = .nowhere → LastClear care (req.expansion env) messages)) loss users

/-- **They are runs.** -/
theorem sends_of_sendsIn {care : Care} {loss : Loss} {e : Expansion} {sent : List FoundUser}
    (h : e.SendsIn care loss sent) : e.Sends loss sent := by
  induction e generalizing care loss sent with
  | error | cycle | undefined => exact h
  | relation matched rewrite ih =>
    obtain ⟨own, rest, hown, hrest, hsent⟩ := h
    exact ⟨own, rest, hown, ih hrest, hsent⟩
  | tuples direct found dispatched ih =>
    obtain ⟨own, outs, hown, houts, hreceived, -⟩ := h
    exact ⟨own, outs, hown, fun i => ih i (houts i), hreceived⟩
  | union operands ih =>
    obtain ⟨outs, messages, houts, hsends, hkeeps, -⟩ := h
    exact ⟨outs, messages, fun i => ih i (houts i), hsends, hkeeps⟩
  | intersection operands ih =>
    obtain ⟨outs, messages, houts, hsends, hkeeps⟩ := h
    exact ⟨outs, messages, fun i => ih i (houts i), hsends, hkeeps⟩
  | exclusion base subtract ihb ihs =>
    rcases h with hc | ⟨hc, outBase, outSubtract, messages, hb, hs, hsends, hkeeps, -⟩
    · exact .inl hc
    · exact .inr ⟨hc, outBase, outSubtract, messages, ihb hb, ihs hs, hsends, hkeeps⟩

/-! ### The conditions along one schedule -/

section Decidable

variable {messages : List FoundUser} {p : String → Prop} [DecidablePred p]

instance decidableForallUser (k : UserKey) : Decidable (∀ id, k = .user id → p id) :=
  match k with
  | .user id => decidable_of_iff (p id) (by simp)
  | .wildcard => isTrue (by simp)
  | .userset _ _ => isTrue (by simp)

instance decidableForallDenied : Decidable (∀ id, Denied messages (.user id) → p id) :=
  decidable_of_iff (∀ m ∈ messages, ∀ id, m.user = .user id → Denied messages (.user id) → p id) <| by
    constructor
    · intro h id hid
      obtain ⟨m, hm, -⟩ := (denied_iff _ _).mp hid
      exact h m (latest_mem hm).1 id (latest_mem hm).2 hid
    · exact fun h m _ id _ => h id

instance decidableForallExcluded : Decidable (∀ id, Excluded messages (.user id) → p id) :=
  decidable_of_iff (∀ m ∈ messages, ∀ k ∈ m.excludedUsers, ∀ id, k = .user id → p id) <| by
    constructor
    · rintro h id ⟨m, hm, hk⟩
      exact h m hm _ hk id rfl
    · rintro h m hm k hk id rfl
      exact h id ⟨m, hm, hk⟩

variable {n : ℕ} (care : Care)

instance (found : List UserKey) (dispatched : Fin n → Expansion) (outs : Fin n → List FoundUser) :
    Decidable (ReadClear care found dispatched outs) :=
  inferInstanceAs (Decidable (_ → ∀ i id, Excluded (outs i) (.user id) → _))

instance (operands : Fin n → Expansion) (outs : Fin n → List FoundUser) :
    Decidable (UnionClear care operands outs) :=
  inferInstanceAs (Decidable (∀ i id, Excluded (outs i) (.user id) → _))

section

variable (base subtract : Expansion) (outBase outSubtract : List FoundUser)

instance : Decidable (NegatesRightly base subtract outBase outSubtract) :=
  inferInstanceAs (Decidable (∀ id, Denied outSubtract (.user id) → _))

instance : Decidable (RetainsExclusions base outBase outSubtract) :=
  inferInstanceAs (Decidable (∀ id, Excluded outBase (.user id) → _))

instance : Decidable (NamesExcluded base subtract outSubtract) :=
  inferInstanceAs (Decidable (∀ id, Excluded outSubtract (.user id) → _))

instance : Decidable (KeepsGrants base outBase outSubtract) :=
  inferInstanceAs (Decidable (∀ id, Denied outBase (.user id) → _))

instance : Decidable (ExclusionClear care base subtract outBase outSubtract) :=
  inferInstanceAs (Decidable (_ ∧ _ ∧ _ ∧ _))

end

instance (e : Expansion) : Decidable (LastClear care e messages) :=
  inferInstanceAs (Decidable (_ → ∀ id, Denied messages (.user id) → _))

end Decidable

namespace Expansion

/-- The steps of `run` all meet their conditions. -/
def meets (care : Care) : Expansion → Bool
  | .relation _ rewrite => rewrite.meets care
  | .tuples _ found dispatched => decide (∀ i, (dispatched i).meets care = true)
      && decide (ReadClear care found dispatched fun i => (dispatched i).run)
  | .union operands => decide (∀ i, (operands i).meets care = true)
      && decide (UnionClear care operands fun i => (operands i).run)
  | .intersection operands => decide (∀ i, (operands i).meets care.operand = true)
  | .exclusion base subtract => base.meets care && subtract.meets care.subtract
      && decide (ExclusionClear care base subtract base.run subtract.run)
  | _ => true

theorem run_sendsIn {care : Care} {e : Expansion} (h : e.meets care = true) :
    e.SendsIn care .nowhere e.run := by
  induction e generalizing care with
  | error | cycle | undefined => exact rfl
  | relation matched rewrite ih => exact ⟨_, _, rfl, ih h, rfl⟩
  | tuples direct found dispatched ih =>
    simp only [meets, Bool.and_eq_true, decide_eq_true_eq] at h
    exact ⟨_, _, rfl, fun i => ih i (h.1 i),
      received_flatten (_ :: List.ofFn fun i => (dispatched i).run), h.2⟩
  | union operands ih =>
    simp only [meets, Bool.and_eq_true, decide_eq_true_eq] at h
    exact ⟨_, _, fun i => ih i (h.1 i), unionRun_sends _, rfl, h.2⟩
  | intersection operands ih =>
    exact ⟨_, _, fun i => ih i (of_decide_eq_true h i), intersectionRun_sends _, rfl⟩
  | exclusion base subtract ihb ihs =>
    simp only [meets, Bool.and_eq_true, decide_eq_true_eq] at h
    rcases hc : subtract.hasCycle with _ | _
    · exact .inr ⟨.inl hc, _, _, _, ihb h.1.1, ihs h.1.2, exclusionRun_sends _ _,
        by simp [run, hc, Loss.Keeps], h.2⟩
    · exact .inl ⟨hc, by simp [run, hc]⟩

/-- A reader that relies on nothing. -/
theorem meets_none (e : Expansion) : e.meets ⟨.none, .none⟩ = true := by
  induction e with
  | error | cycle | undefined => rfl
  | relation matched rewrite ih => exact ih
  | tuples direct found dispatched ih => simp [meets, ih, ReadClear]
  | union operands ih => simp [meets, ih, UnionClear]
  | intersection operands ih => exact decide_eq_true ih
  | exclusion base subtract ihb ihs =>
    simpa [meets, ihb, ExclusionClear, Care.subtract, Reliance.withExclusions, Reliance.usersOnly]
      using ihs

/-- **Every expansion has a run without a loss.** -/
theorem run_sends (e : Expansion) : e.Sends .nowhere e.run :=
  sends_of_sendsIn (run_sendsIn (meets_none e))

end Expansion

end Kengen.ListUsers
