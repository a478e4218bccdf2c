import Kengen.ClassicExpand.Reached
import Kengen.ListUsers.Expand

/-!
# What an expansion means

`Expansion.Member` evaluates an expansion for one user of the filter's type, as
Check evaluates the rewrite rules: the users of a read and of its usersets, any
operand of a union, every operand of an intersection, the base without the
subtract side.  An exclusion whose subtract side meets a cycle has no members.

* **`cycleFree_expand`** — over an acyclic tuple graph no path of the expansion
  comes back to a visited userset.
* **`related_iff_member`** — an expansion without cycles that did not fail has
  exactly the members that Check relates to the userset.
* **`expands_of_related`** — a request for users is expanded if a user has the
  relation: the early exit leaves nobody out.

The first two go up the rewrite rules of one userset (`…_expandRewrite`) and then
by the depth that is left.
-/

namespace Kengen.ListUsers

open List

namespace Expansion

/-- The user of the filter's type with this id is in the expanded set. -/
def Member (id : String) : Expansion → Prop
  | .error _ => False
  | .cycle => False
  | .undefined => False
  | .relation _ rewrite => rewrite.Member id
  | .tuples _ found dispatched =>
      (UserKey.user id ∈ found ∨ UserKey.wildcard ∈ found) ∨ ∃ i, (dispatched i).Member id
  | .union operands => ∃ i, (operands i).Member id
  | .intersection (n := n) operands => 0 < n ∧ ∀ i, (operands i).Member id
  | .exclusion base subtract =>
      subtract.hasCycle = false ∧ base.Member id ∧ ¬ subtract.Member id

/-- Members are computed. -/
def decidableMember (id : String) : (e : Expansion) → Decidable (e.Member id)
  | .error _ => isFalse fun h => h
  | .cycle => isFalse fun h => h
  | .undefined => isFalse fun h => h
  | .relation _ rewrite => rewrite.decidableMember id
  | .tuples _ found dispatched =>
      have : DecidablePred fun i => (dispatched i).Member id :=
        fun i => (dispatched i).decidableMember id
      inferInstanceAs (Decidable ((UserKey.user id ∈ found ∨ UserKey.wildcard ∈ found)
        ∨ ∃ i, (dispatched i).Member id))
  | .union operands =>
      have : DecidablePred fun i => (operands i).Member id :=
        fun i => (operands i).decidableMember id
      inferInstanceAs (Decidable (∃ i, (operands i).Member id))
  | .intersection (n := n) operands =>
      have : DecidablePred fun i => (operands i).Member id :=
        fun i => (operands i).decidableMember id
      inferInstanceAs (Decidable (0 < n ∧ ∀ i, (operands i).Member id))
  | .exclusion base subtract =>
      have := base.decidableMember id
      have := subtract.decidableMember id
      inferInstanceAs (Decidable (subtract.hasCycle = false ∧ base.Member id
        ∧ ¬ subtract.Member id))

instance (id : String) (e : Expansion) : Decidable (e.Member id) := e.decidableMember id

/-- No path of the expansion came back to a visited userset. -/
def CycleFree : Expansion → Prop
  | .error _ => True
  | .cycle => False
  | .undefined => True
  | .relation _ rewrite => rewrite.CycleFree
  | .tuples _ _ dispatched => ∀ i, (dispatched i).CycleFree
  | .union operands => ∀ i, (operands i).CycleFree
  | .intersection operands => ∀ i, (operands i).CycleFree
  | .exclusion base subtract => base.CycleFree ∧ subtract.CycleFree

theorem hasCycle_of_cycleFree {e : Expansion} (h : e.CycleFree) : e.hasCycle = false := by
  induction e with
  | error => rfl
  | cycle => exact h.elim
  | undefined => rfl
  | relation matched rewrite ih => exact ih h
  | tuples direct found dispatched ih =>
    cases direct with
    | false => rfl
    | true => simpa [hasCycle] using fun i => ih i (h i)
  | union | intersection | exclusion => rfl

end Expansion

open Expansion

section Tuples

variable {env : Environment} {dispatch : Object → String → Expansion}

variable {t : TupleKey}

theorem mem_passing {object : Object} {relation : String} :
    t ∈ env.passing object relation ↔
      t ∈ env.read object relation ∧ env.conditionMet t = .ok true := by
  simp only [Environment.passing, mem_filter]
  rcases h : env.conditionMet t with e | met <;> simp

variable {e : Expansion}

/-- What a tuple of a direct relation dispatches. -/
theorem directDispatch_cases (h : directDispatch env dispatch t = some e) :
    (∃ err, e = .error (.condition err)) ∨
      (env.conditionMet t = .ok true ∧ ∃ o r, t.user = .userset o r ∧ e = dispatch o r) := by
  unfold directDispatch at h
  split at h
  · cases h
    exact .inl ⟨_, rfl⟩
  · cases h
  · rename_i hmet
    split at h
    · rename_i o r huser
      cases h
      exact .inr ⟨hmet, o, r, huser, rfl⟩
    · cases h

/-- What a tuple of a tupleset dispatches. -/
theorem ttuDispatch_cases {computed : String} (h : ttuDispatch env dispatch computed t = some e) :
    (∃ err, e = .error (.condition err)) ∨
      (env.conditionMet t = .ok true ∧ e = dispatch t.user.splitObject computed) := by
  unfold ttuDispatch at h
  split at h
  · cases h
    exact .inl ⟨_, rfl⟩
  · cases h
  · rename_i hmet
    cases h
    exact .inr ⟨hmet, rfl⟩

end Tuples

/-! ### Acyclic tuple graphs -/

variable {object : Object} {relation : String} {env : Environment} {filter : UserFilter}

theorem cycleFree_expandRewrite {dispatch : Object → String → Expansion} (rewrite : Rewrite)
    (h : ∀ q, env.RefersTo object relation rewrite q → (dispatch q.1 q.2).CycleFree) :
    (expandRewrite env filter dispatch object relation rewrite).CycleFree := by
  induction rewrite with
  | this =>
    refine forall_mem_iff_get.mp fun e he => ?_
    obtain ⟨t, ht, hd⟩ := mem_filterMap.mp he
    rcases directDispatch_cases hd with ⟨err, rfl⟩ | ⟨hmet, o, r, huser, rfl⟩
    · exact trivial
    · exact h (o, r) ⟨t, mem_passing.mpr ⟨ht, hmet⟩, huser⟩
  | computedUserset r => exact h (object, r) rfl
  | tupleToUserset tupleset computed =>
    refine forall_mem_iff_get.mp fun e he => ?_
    obtain ⟨t, ht, hd⟩ := mem_filterMap.mp he
    rcases ttuDispatch_cases hd with ⟨err, rfl⟩ | ⟨hmet, rfl⟩
    · exact trivial
    · exact h (_, computed) ⟨t, mem_passing.mpr ⟨ht, hmet⟩, rfl⟩
  | union child ih | intersection child ih => exact fun i => ih i fun q hq => h q ⟨i, hq⟩
  | difference base subtract ihb ihs =>
    exact ⟨ihb fun q hq => h q (.inl hq), ihs fun q hq => h q (.inr hq)⟩

/-- **Over an acyclic tuple graph an expansion meets no cycle.** -/
theorem cycleFree_expand (hacyclic : env.Acyclic) (filter : UserFilter)
    (depth : ℕ) (visited : List (Object × String)) (object : Object) (relation : String)
    (hpath : ∀ p ∈ visited, Relation.TransGen env.Refers p (object, relation)) :
    (expand env filter depth visited object relation).CycleFree := by
  induction depth generalizing visited object relation with
  | zero => exact trivial
  | succ depth ih =>
    have hnew : (object, relation) ∉ visited := fun hmem => hacyclic _ (hpath _ hmem)
    simp only [expand, if_neg hnew, CycleFree]
    rcases hr : env.typesystem.getRelation object.type relation with e | r
    · cases e <;> exact trivial
    · refine cycleFree_expandRewrite r.rewrite fun q hq => ih _ _ _ fun p hp => ?_
      have hstep : env.Refers (object, relation) q := ⟨r, hr, hq⟩
      rcases mem_cons.mp hp with rfl | hp
      · exact .single hstep
      · exact .tail (hpath p hp) hstep

/-! ### Members and Check -/

variable {user : Object}

theorem member_found (htype : user.type = filter.type) :
    (UserKey.user user.id ∈ (env.passing object relation).filterMap (fun t => filter.found t.user)
      ∨ UserKey.wildcard ∈ (env.passing object relation).filterMap fun t => filter.found t.user) ↔
    ∃ t ∈ env.passing object relation,
      t.user = .object user ∨ t.user = .wildcard user.type := by
  have huser : ∀ u : User, filter.found u = some (.user user.id) ↔ u = .object user := by
    intro u
    cases u with
    | object o =>
      cases o; cases user
      simp only [UserFilter.found, ← htype]
      constructor
      · intro h
        split at h <;> simp_all
      · intro h
        simp_all
    | wildcard => simp only [UserFilter.found]; split <;> simp
    | userset => simp [UserFilter.found]
  have hwild : ∀ u : User, filter.found u = some .wildcard ↔ u = .wildcard user.type := by
    intro u
    cases u with
    | object => simp only [UserFilter.found]; split <;> simp
    | wildcard => simp only [UserFilter.found, ← htype]; split <;> simp_all
    | userset => simp [UserFilter.found]
  simp only [mem_filterMap, huser, hwild, ← exists_or, ← and_or_left]

/-- The rewrite rules of one userset, when the dispatched usersets are right. -/
theorem member_expandRewrite
    {dispatch : Object → String → Expansion} {related : Object → String → Prop}
    (htype : user.type = filter.type)
    (h : ∀ o r, (dispatch o r).CycleFree → (dispatch o r).fails = false →
      (related o r ↔ (dispatch o r).Member user.id)) (rewrite : Rewrite)
    (hfree : (expandRewrite env filter dispatch object relation rewrite).CycleFree)
    (hok : (expandRewrite env filter dispatch object relation rewrite).fails = false) :
    env.Holds user related object relation rewrite ↔
      (expandRewrite env filter dispatch object relation rewrite).Member user.id := by
  induction rewrite with
  | this =>
    have hfree' := forall_mem_iff_get.mpr hfree
    have hok' : ∀ e ∈ (env.read object relation).filterMap (directDispatch env dispatch),
        e.fails = false := by
      refine forall_mem_iff_get.mpr ?_
      simpa [expandRewrite, expandDirect, fails] using hok
    simp only [expandRewrite, expandDirect, Member, ← exists_mem_iff_get, member_found htype]
    constructor
    · rintro ⟨t, ht, hu | hw | ⟨o, r, hs, hrel⟩⟩
      · exact .inl ⟨t, ht, .inl hu⟩
      · exact .inl ⟨t, ht, .inr hw⟩
      · obtain ⟨hread, hmet⟩ := mem_passing.mp ht
        have hmem := mem_filterMap.mpr ⟨t, hread, show directDispatch env dispatch t = _ by
          rw [directDispatch, hmet, hs]⟩
        exact .inr ⟨_, hmem, (h o r (hfree' _ hmem) (hok' _ hmem)).mp hrel⟩
    · rintro (⟨t, ht, hu | hw⟩ | ⟨e, he, hmember⟩)
      · exact ⟨t, ht, .inl hu⟩
      · exact ⟨t, ht, .inr (.inl hw)⟩
      · obtain ⟨t, hread, hd⟩ := mem_filterMap.mp he
        rcases directDispatch_cases hd with ⟨err, rfl⟩ | ⟨hmet, o, r, hs, rfl⟩
        · exact hmember.elim
        · exact ⟨t, mem_passing.mpr ⟨hread, hmet⟩,
            .inr (.inr ⟨o, r, hs, (h o r (hfree' _ he) (hok' _ he)).mpr hmember⟩)⟩
  | computedUserset r => exact h object r hfree hok
  | tupleToUserset tupleset computed =>
    have hfree' := forall_mem_iff_get.mpr hfree
    have hok' : ∀ e ∈ (env.read object tupleset).filterMap (ttuDispatch env dispatch computed),
        e.fails = false := by
      refine forall_mem_iff_get.mpr ?_
      simpa [expandRewrite, expandTTU, fails] using hok
    simp only [expandRewrite, expandTTU, Member, ← exists_mem_iff_get, not_mem_nil, false_or,
      Environment.Holds]
    constructor
    · rintro ⟨t, ht, hrel⟩
      obtain ⟨hread, hmet⟩ := mem_passing.mp ht
      have hmem := mem_filterMap.mpr ⟨t, hread, show ttuDispatch env dispatch computed t = _ by
        rw [ttuDispatch, hmet]⟩
      exact ⟨_, hmem, (h _ _ (hfree' _ hmem) (hok' _ hmem)).mp hrel⟩
    · rintro ⟨e, he, hmember⟩
      obtain ⟨t, hread, hd⟩ := mem_filterMap.mp he
      rcases ttuDispatch_cases hd with ⟨err, rfl⟩ | ⟨hmet, rfl⟩
      · exact hmember.elim
      · exact ⟨t, mem_passing.mpr ⟨hread, hmet⟩,
          (h _ _ (hfree' _ he) (hok' _ he)).mpr hmember⟩
  | union child ih =>
    have hok' : ∀ i, (expandRewrite env filter dispatch object relation (child i)).fails = false := by
      simpa [expandRewrite, fails] using hok
    exact exists_congr fun i => ih i (hfree i) (hok' i)
  | intersection child ih =>
    have hok' : ∀ i, (expandRewrite env filter dispatch object relation (child i)).fails = false := by
      simpa [expandRewrite, fails] using hok
    exact and_congr_right fun _ => forall_congr' fun i => ih i (hfree i) (hok' i)
  | difference base subtract ihb ihs =>
    have hcycle := hasCycle_of_cycleFree hfree.2
    have hok' : (expandRewrite env filter dispatch object relation base).fails = false
        ∧ (expandRewrite env filter dispatch object relation subtract).fails = false := by
      simpa [expandRewrite, fails, hcycle] using hok
    have hparts := and_congr (ihb hfree.1 hok'.1) (not_congr (ihs hfree.2 hok'.2))
    exact hparts.trans (and_iff_right hcycle).symm

/-- Check at any depth that the expansion did not exhaust. -/
theorem check_iff_member (htype : user.type = filter.type) (depth deeper : ℕ) (hle : depth ≤ deeper)
    (visited : List (Object × String)) (object : Object) (relation : String)
    (hfree : (expand env filter depth visited object relation).CycleFree)
    (hok : (expand env filter depth visited object relation).fails = false) :
    env.check user deeper object relation ↔
      (expand env filter depth visited object relation).Member user.id := by
  induction depth generalizing deeper visited object relation with
  | zero => simp [expand, fails] at hok
  | succ depth ih =>
    obtain ⟨deeper, rfl⟩ : ∃ d, deeper = d + 1 := ⟨deeper - 1, by omega⟩
    by_cases hmem : (object, relation) ∈ visited
    · simp [expand, hmem, CycleFree] at hfree
    simp only [expand, if_neg hmem, CycleFree, fails] at hfree hok
    simp only [expand, if_neg hmem, Member, Environment.check]
    rcases hr : env.typesystem.getRelation object.type relation with e | r
    · cases e <;> exact Iff.rfl
    · rw [hr] at hfree hok
      exact member_expandRewrite htype
        (fun o r' hf ho => ih deeper (by omega) _ o r' hf ho) r.rewrite hfree hok

/-- **An expansion without cycles that did not fail has the members that Check relates.** -/
theorem related_iff_member {req : Request} (user : Object) (htype : user.type = req.userFilter.type)
    (hfree : (req.expansion env).CycleFree) (hok : (req.expansion env).fails = false) :
    env.Related user req.object req.relation ↔ (req.expansion env).Member user.id := by
  constructor
  · rintro ⟨depth, hdepth⟩
    refine (check_iff_member htype _ (max depth req.resolveNodeLimit) (le_max_right _ _) _ _ _
      hfree hok).mp (hdepth _ (le_max_left _ _))
  · intro hmember
    exact ⟨req.resolveNodeLimit, fun deeper hle =>
      (check_iff_member htype _ deeper hle _ _ _ hfree hok).mpr hmember⟩

theorem cycleFree_expansion (hacyclic : env.Acyclic) (req : Request) :
    (req.expansion env).CycleFree :=
  cycleFree_expand hacyclic _ _ _ _ _ fun _ hp => absurd hp not_mem_nil

/-! ### The early exit -/

section EarlyExit

open ClassicExpand

theorem holds_iff_holdsFor (R : Object → String → Prop) (rewrite : Rewrite) :
    env.Holds user R object relation rewrite ↔
      env.HoldsFor (.object user) R object relation rewrite := by
  induction rewrite with
  | this =>
    refine exists_congr fun t => and_congr_right fun _ => ?_
    simp only [User.AssignedBy, User.object.injEq, exists_eq_left', or_assoc]
  | computedUserset | tupleToUserset => exact Iff.rfl
  | union child ih => exact exists_congr ih
  | intersection child ih => exact and_congr_right fun _ => forall_congr' ih
  | difference base subtract ihb ihs => exact and_congr ihb (not_congr ihs)

theorem check_eq_checkFor (depth : ℕ) : env.check user depth = env.checkFor (.object user) depth := by
  induction depth with
  | zero => rfl
  | succ depth ih =>
    funext object relation
    simp only [Environment.check, Environment.checkFor, reduceCtorEq, false_or, ih]
    rcases env.typesystem.getRelation object.type relation with _ | rule
    · rfl
    · exact propext (holds_iff_holdsFor _ _)

/-- A relation that a user has is reached by an edge. -/
theorem edges_of_check {q : Query} (hvalid : Valid q.env.typesystem) (huser : q.user = .object user)
    {es : List RelationshipEdge}
    (hes : getPrunedRelationshipEdges (q.source q.user) q.target = .ok es) (depth : ℕ)
    (h : q.env.checkFor q.user depth object relation)
    (hneeded : Reaches q.env.typesystem q.target (object.type, relation)) : es ≠ [] := by
  induction depth generalizing object relation with
  | zero => cases h
  | succ depth ih =>
    obtain ⟨rule, hrule⟩ := defined_of_checkFor h
    simp only [Environment.checkFor, hrule, huser, reduceCtorEq, false_or] at h
    rw [← huser] at h
    obtain ⟨source, e, he, -, hleaf, -, hsource⟩ := exists_leaf h hvalid
      (hvalid.rewrite (object.type, relation) rule hrule) (isTuplesetRelation_of_mem hrule)
      fun o r hcheck => defined_of_checkFor hcheck
    rcases hsource with rfl | ⟨_, _, rfl, hcheck, href⟩
    · obtain ⟨e', he', -⟩ := edges_complete hes hneeded hrule he hleaf
      exact ne_nil_of_mem he'
    · exact ih (huser ▸ hcheck) (hneeded.tail ⟨rule, hrule, href⟩)

/-- **The early exit leaves no user out.** -/
theorem expands_of_related {req : Request} (hvalid : Valid env.typesystem)
    (hfilter : req.userFilter.relation = "") (htype : user.type = req.userFilter.type)
    (h : env.Related user req.object req.relation) : req.expands env ≠ .ok false := by
  obtain ⟨depth, hdepth⟩ := h
  have hcheck := hdepth depth le_rfl
  rw [check_eq_checkFor] at hcheck
  intro hexit
  unfold Request.expands Request.doesHavePossibleEdges at hexit
  split at hexit
  · cases hexit
  rw [UserFilter.facet, if_pos hfilter, ← htype] at hexit
  rcases hes : getPrunedRelationshipEdges ⟨env.typesystem, user.type, .object, fun _ _ => false⟩
    (req.object.type, req.relation) with _ | es
  · rw [hes] at hexit
    cases hexit
  · have hne := edges_of_check
      (q := ⟨env, .object user, req.object.type, req.relation, fun _ _ => false⟩)
      hvalid rfl hes depth hcheck .refl
    rw [hes] at hexit
    simp [Except.map, hne] at hexit

end EarlyExit

end Kengen.ListUsers
