import Kengen.Check.Founded

/-!
# Which tuples the resolver reads

The lookups of the resolver in terms of tuple keys.  For a key that assigns the
user directly, the first contextual tuple of the key hides the stored one.  For
usersets and tuplesets the stored tuple is read as well.

* **`codeAssigned_iff`** — an edge assigns the user if and only if the tuple that is read
  for its key has a true condition.
* **`codeLinked_iff`** — the tuples through which an edge leads to other objects.
-/

namespace Kengen

open List

/-! ### Contextual tuples by key -/

/-- A user that is written as an object is no typed wildcard. -/
def User.isProper : User → Bool
  | .object o => decide (o.id ≠ "*")
  | _ => true

/-- `type:id` is a wildcard only for the id `*`. -/
theorem id_of_str_eq_wildcard {o : Object} {t : String} (htype : o.type = t)
    (h : (User.object o).str = (User.wildcard t).str) : o.id = "*" := by
  have h' : o.type ++ (":" ++ o.id) = t ++ (":" ++ "*") := h
  rw [htype] at h'
  simpa only [String.append_right_inj] using h'

/-- Among proper users of one type the string determines the user. -/
theorem User.str_injective {u v : User} (hu : u.isProper) (hv : v.isProper)
    (htype : u.userType = v.userType) (h : u.str = v.str) : u = v := by
  rcases u with o | ⟨o, relation⟩ | t <;> rcases v with o' | ⟨o', _⟩ | t' <;>
    simp only [User.userType, UserType.type.injEq, UserType.userset.injEq, reduceCtorEq] at htype
  · rw [Object.str_injective htype h]
  · simp [User.isProper, id_of_str_eq_wildcard htype h] at hu
  · obtain ⟨ht, rfl⟩ := htype
    have h' : o.str ++ ("#" ++ relation) = o'.str ++ ("#" ++ relation) := h
    rw [Object.str_injective ht ((String.append_left_inj _).mp h')]
  · simp [User.isProper, id_of_str_eq_wildcard htype.symm h.symm] at hv
  · rw [htype]

/-- A search among entries of which at most one passes. -/
theorem find?_eq_of_iff {α : Type} {l : List α} {p : α → Bool} {found : Option α}
    (h : ∀ a, a ∈ l ∧ p a = true ↔ found = some a) : l.find? p = found := by
  cases hfind : l.find? p with
  | some a => exact ((h a).mp ⟨mem_of_find?_eq_some hfind, find?_some hfind⟩).symm
  | none =>
    cases found with
    | none => rfl
    | some a => exact absurd ((h a).mpr rfl).2 (find?_eq_none.mp hfind a ((h a).mpr rfl).1)

theorem find_byUser (req : Request) (user : User) (relation : String) (o : Object) :
    (req.byUser user relation o.type).find? (fun t => decide (t.object = o))
      = req.contextualTuple o relation user := by
  refine find?_eq_of_iff fun t => ?_
  rw [req.mem_byUser, decide_eq_true_eq]
  constructor
  · rintro ⟨⟨-, -, -, hfirst⟩, rfl⟩
    exact hfirst
  · intro hfirst
    have hkey := (Request.contextualTuple_key hfirst).1
    rw [TupleKey.key, Prod.mk.injEq, Prod.mk.injEq] at hkey
    obtain ⟨rfl, hrelation, huser⟩ := hkey
    exact ⟨⟨huser, hrelation, rfl, hfirst⟩, rfl⟩

/-- The request's contextual tuples have proper users. -/
def Request.Proper (req : Request) : Prop := ∀ t ∈ req.contextualTuples, t.user.isProper

/-- **The lookup by object** finds the first contextual tuple of each key. -/
theorem Request.mem_byObject {req : Request} (hproper : req.Proper) {o : Object} {relation : String}
    {userType : UserType} {t : TupleKey} :
    t ∈ req.byObject o relation userType ↔ t.user.userType = userType
      ∧ req.contextualTuple o relation t.user = some t := by
  rw [Request.byObject, (insertAll_spec _ _).2 t, find?_filter]
  simp only [decide_eq_true_eq]
  have hpred : t.user.isProper → t.user.userType = userType → ∀ a ∈ req.contextualTuples,
      (decide ((a.object = o ∧ a.relation = relation ∧ a.user.userType = userType)
        ∧ a.user.str = t.user.str)) = decide (a.key = (o, relation, t.user)) := by
    intro ht htype a ha
    rw [decide_eq_decide, TupleKey.key, Prod.mk.injEq, Prod.mk.injEq]
    constructor
    · rintro ⟨⟨ho, hr, hu⟩, hs⟩
      exact ⟨ho, hr, User.str_injective (hproper a ha) ht (hu.trans htype.symm) hs⟩
    · rintro ⟨ho, hr, hu⟩
      exact ⟨⟨ho, hr, by rw [hu]; exact htype⟩, by rw [hu]⟩
  unfold Request.contextualTuple
  constructor
  · intro h
    have hp := find?_some h
    rw [decide_eq_true_eq] at hp
    have hmem := mem_of_find?_eq_some h
    refine ⟨hp.1.2.2, ?_⟩
    rw [← h]
    exact (find?_congr (hpred (hproper t hmem) hp.1.2.2)).symm
  · rintro ⟨htype, h⟩
    have hmem := mem_of_find?_eq_some h
    rw [find?_congr (hpred (hproper t hmem) htype)]
    exact h

/-! ### Direct assignment -/

/-- The user under which a direct edge assigns the user of the request. -/
def assignedAs (req : Request) (e : Edge) : Option User :=
  match e.toNode with
  | .specificType t =>
    if req.userType = .type t ∧ req.isTypedWildcard = false then some req.user else none
  | .specificTypeWildcard t => if req.userType = .type t then some (.wildcard t) else none
  | .specificTypeAndRelation t relation =>
    if req.userType = .userset t relation then some req.user else none
  | _ => none

/-- The condition is allowed by the edge and true. -/
def Passes (r : Resolver) (req : Request) (conditions : List String) (t : TupleKey) : Prop :=
  evaluateCondition r.cel conditions t req.context = .ok true

instance (r : Resolver) (req : Request) (conditions : List String) (t : TupleKey) :
    Decidable (Passes r req conditions t) := by
  unfold Passes
  infer_instance

/-- The tuple that is read for a key: the first contextual one, else the stored one. -/
def readTuple (r : Resolver) (req : Request) (o : Object) (relation : String) (user : User) :
    Option TupleKey :=
  (req.contextualTuple o relation user).or (r.datastore.readUserTuple o relation user)

theorem specificType_iff (r : Resolver) (req : Request) (e : Edge) :
    specificType r req e = .ok true
      ↔ ∃ t ∈ readTuple r req req.object e.relationDefinition.2 req.user,
        Passes r req e.conditions t := by
  unfold specificType readTuple
  simp only [find_byUser]
  rcases (req.contextualTuple req.object e.relationDefinition.2 req.user).or
    (r.datastore.readUserTuple req.object e.relationDefinition.2 req.user) with _ | t
  · simp
  · simp [Passes]

theorem find_byObject_wildcard {req : Request} (hproper : req.Proper) (o : Object)
    (relation t : String) :
    (req.byObject o relation (.type t)).find? (fun s => s.user.isTypedWildcard)
      = req.contextualTuple o relation (.wildcard t) := by
  refine find?_eq_of_iff fun s => ?_
  rw [Request.mem_byObject hproper]
  constructor
  · rintro ⟨⟨htype, hfirst⟩, hwild⟩
    rcases hu : s.user with o' | ⟨o', _⟩ | t' <;> rw [hu] at hwild htype hfirst
    · cases hwild
    · cases hwild
    · rwa [UserType.type.inj htype] at hfirst
  · intro hfirst
    have hkey := (Request.contextualTuple_key hfirst).1
    rw [TupleKey.key, Prod.mk.injEq, Prod.mk.injEq] at hkey
    rw [hkey.2.2]
    exact ⟨⟨rfl, hfirst⟩, rfl⟩

theorem mem_readWildcardTuples {s : Store} {o : Object} {relation t : String}
    {conditions : List String} {tk : TupleKey} :
    tk ∈ s.readWildcardTuples o relation t conditions
      ↔ s.readUserTuple o relation (.wildcard t) = some tk ∧ tk.condition.name ∈ conditions := by
  rw [readUserTuple_eq_some, Store.readWildcardTuples, mem_filter, decide_eq_true_eq,
    TupleKey.key, Prod.mk.injEq, Prod.mk.injEq]
  tauto

theorem specificTypeWildcard_iff (r : Resolver) {req : Request} (hproper : req.Proper) (e : Edge)
    {t : String} (ht : req.userType = .type t) :
    specificTypeWildcard r req e = .ok true
      ↔ ∃ tk ∈ readTuple r req req.object e.relationDefinition.2 (.wildcard t),
        Passes r req e.conditions tk := by
  unfold specificTypeWildcard readTuple
  simp only [ht, find_byObject_wildcard hproper]
  rcases req.contextualTuple req.object e.relationDefinition.2 (.wildcard t) with _ | s
  · simp only [Option.none_or]
    have hmem := fun tk => @mem_readWildcardTuples r.datastore req.object e.relationDefinition.2 t
      e.conditions tk
    rcases hread : r.datastore.readWildcardTuples req.object e.relationDefinition.2 t e.conditions
      with _ | ⟨tk, rest⟩
    · -- a stored tuple with another condition does not pass
      simp only [head?_nil, Except.ok.injEq, Bool.false_eq_true, false_iff, not_exists, not_and]
      intro tk htk hpass
      by_cases hcond : tk.condition.name ∈ e.conditions
      · have := (hmem tk).mpr ⟨htk, hcond⟩
        rw [hread] at this
        cases this
      · simp [Passes, evaluateCondition, hcond] at hpass
    · have htk := ((hmem tk).mp (by rw [hread]; simp)).1
      simp [htk, Passes]
  · simp [Passes]

/-- **An edge assigns the user** if and only if the tuple that is read passes. -/
theorem codeAssigned_iff (r : Resolver) {req : Request} (hproper : req.Proper) (e : Edge) :
    codeAssigned r req e ↔ e.edgeType = .direct ∧ ∃ u ∈ assignedAs req e,
      ∃ t ∈ readTuple r req req.object e.relationDefinition.2 u, Passes r req e.conditions t := by
  unfold codeAssigned assignedAs
  split
  · rename_i t hdirect hto
    simp only [hdirect, hto, true_and]
    by_cases h : req.userType = .type t ∧ req.isTypedWildcard = false
    · simp [h.1, h.2, specificType_iff]
    · rw [if_neg h, ← and_assoc]
      simp [h]
  · rename_i t hdirect hto
    simp only [hdirect, hto, true_and]
    by_cases h : req.userType = .type t
    · simp [h, specificTypeWildcard_iff r hproper e h]
    · simp [h]
  · rename_i t relation hdirect hto
    simp only [hdirect, hto, true_and]
    by_cases h : req.userType = .userset t relation
    · simp [h, specificType_iff]
    · simp [h]
  · rename_i h1 h2 h3
    simp only [false_iff, not_and]
    intro hdirect
    rcases hto : e.toNode with t | t | ⟨t, relation⟩ | ⟨_, uid⟩ | uid | uid
    · exact absurd hto (h1 t hdirect)
    · exact absurd hto (h2 t hdirect)
    · exact absurd hto (h3 t relation hdirect)
    · simp
    · simp
    · simp

/-! ### Links to other objects -/

/-- The node of the graph that stands for a user. -/
def User.node : User → Node
  | .object o => .specificType o.type
  | .userset o relation => .specificTypeAndRelation o.type relation
  | .wildcard t => .specificTypeWildcard t

/-- `validateCtxTupleInModel`: the tuple is allowed by a type restriction of its relation. -/
def Allowed (g : ModelGraph) (t : TupleKey) : Prop :=
  ∃ e ∈ g.edges, e.edgeType = .direct ∧ e.relationDefinition = (t.object.type, t.relation)
    ∧ e.toNode = t.user.node ∧ t.condition.name ∈ e.conditions

instance (g : ModelGraph) (t : TupleKey) : Decidable (Allowed g t) := by
  unfold Allowed
  infer_instance

/-- What `NewRequest` checks about contextual tuples. -/
def ContextualValid (r : Resolver) (req : Request) : Prop :=
  ∀ t ∈ req.contextualTuples, t.user.isProper ∧ Allowed r.model t

variable {r : Resolver} {req : Request}

theorem ContextualValid.proper (h : ContextualValid r req) :
    req.Proper := fun t ht => (h t ht).1

/-- The relation whose tuples an edge follows. -/
def Edge.linkRelation (e : Edge) : String :=
  match e.edgeType with
  | .ttu => e.tuplesetRelation.2
  | _ => e.relationDefinition.2

/-- The conditions that the tuples of an edge may have. -/
def linkConditions (g : ModelGraph) (e : Edge) : Option (List String) :=
  match e.edgeType, e.toNode with
  | .direct, _ => some e.conditions
  | .ttu, .specificTypeAndRelation subjectType _ =>
    (g.getDirectEdgeFromNodeForUserType e.tuplesetRelation subjectType).map Edge.conditions
  | _, _ => none

/-- A tuple with this user leads to the object. -/
def Edge.leadsFrom (e : Edge) (u : User) (o : Object) : Prop :=
  match e.edgeType, e.toNode with
  | .direct, .specificTypeAndRelation t relation => u = .userset o relation ∧ o.type = t
  | .ttu, .specificTypeAndRelation t _ => u.split.1 = o ∧ o.type = t
  | _, _ => False

/-- A tuple that is read for usersets and tuplesets: a stored one, or the first contextual one of
its key. -/
def Readable (r : Resolver) (req : Request) (o : Object) (relation : String) (t : TupleKey) : Prop :=
  (t ∈ r.datastore.tuples ∧ t.object = o ∧ t.relation = relation)
    ∨ req.contextualTuple o relation t.user = some t

theorem eq_noCond_of_not_needs {conditions : List String}
    (h : needsConditionFilter conditions = false) : conditions = [noCond] := by
  rw [needsConditionFilter, decide_eq_false_iff_not, not_or] at h
  rcases conditions with _ | ⟨c, _ | ⟨d, _⟩⟩
  · simp at h
  · simp only [head?_cons, Option.some.injEq, not_not] at h
    rw [h.2]
  · simp at h

/-- The condition filter lets a tuple pass if its condition is true. -/
theorem tupleCondition_iff {conditions : List String} {t : TupleKey}
    (hallowed : t.condition.name ∈ conditions) :
    tupleCondition r req conditions t = .ok true ↔ Passes r req conditions t := by
  unfold tupleCondition Passes
  split
  · rfl
  · rename_i hneeds
    have hcond := eq_noCond_of_not_needs (by simpa using hneeds)
    have hname : t.condition.name = "" := by
      rw [hcond, mem_singleton] at hallowed
      exact hallowed
    simp [evaluateCondition, evaluateTupleCondition, hcond, hname, noCond]

/-- A passing tuple has a listed condition. -/
theorem Passes.allowed {conditions : List String} {t : TupleKey}
    (h : Passes r req conditions t) : t.condition.name ∈ conditions := by
  by_contra hn
  simp [Passes, evaluateCondition, hn] at h

/-- A contextual tuple has a condition that each fitting edge lists. -/
theorem ContextualValid.allowed (h : ContextualValid r req)
    (hr : r.model.RecursionMarked) {t : TupleKey} (ht : t ∈ req.contextualTuples) {e : Edge}
    (he : e ∈ r.model.edges) (hdirect : e.edgeType = .direct)
    (hrel : e.relationDefinition = (t.object.type, t.relation)) (hto : e.toNode = t.user.node) :
    t.condition.name ∈ e.conditions := by
  obtain ⟨-, e', he', hdirect', hrel', hto', hcond⟩ := h t ht
  rw [← (hr.restriction e' he' e he hdirect' hdirect (hrel'.trans hrel.symm)
    (hto'.trans hto.symm)).1]
  exact hcond

theorem contextualTuple_iff {req : Request} {o : Object} {relation : String} {t : TupleKey}
    (h : req.contextualTuple o relation t.user = some t) :
    t ∈ req.contextualTuples ∧ t.object = o ∧ t.relation = relation := by
  obtain ⟨hkey, hmem⟩ := Request.contextualTuple_key h
  rw [TupleKey.key, Prod.mk.injEq, Prod.mk.injEq] at hkey
  exact ⟨hmem, hkey.1, hkey.2.1⟩

theorem mem_readUsersetTuples {s : Store} {o : Object} {relation ty userRelation : String}
    {conditions : List String} {t : TupleKey} :
    t ∈ s.readUsersetTuples o relation ty userRelation conditions
      ↔ t ∈ s.tuples ∧ t.object = o ∧ t.relation = relation ∧ t.condition.name ∈ conditions
        ∧ ∃ o', t.user = .userset o' userRelation ∧ o'.type = ty := by
  rw [Store.readUsersetTuples, mem_filter]
  refine and_congr_right fun _ => ?_
  rcases t.user with o' | ⟨o', _⟩ | w
  · simp
  · simp only [decide_eq_true_eq, User.userset.injEq]
    constructor
    · rintro ⟨h1, h2, h3, h4, h5⟩
      exact ⟨h1, h2, h5, o', ⟨rfl, h4⟩, h3⟩
    · rintro ⟨h1, h2, h5, _, ⟨rfl, h4⟩, h3⟩
      exact ⟨h1, h2, h3, h4, h5⟩
  · simp

/-- A tuple of a userset edge that is read and passes. -/
theorem usersetTuple_iff (hctx : ContextualValid r req)
    (hr : r.model.RecursionMarked) {e : Edge} (he : e ∈ r.model.edges)
    (hdirect : e.edgeType = .direct) (htype : e.relationDefinition.1 = req.object.type)
    {ty userRelation : String} (hto : e.toNode = .specificTypeAndRelation ty userRelation)
    (t : TupleKey) :
    t ∈ usersetTuples r req e e.relationDefinition.2 ∧ tupleCondition r req e.conditions t = .ok true
      ↔ Readable r req req.object e.relationDefinition.2 t
        ∧ (∃ o', t.user = .userset o' userRelation ∧ o'.type = ty)
        ∧ Passes r req e.conditions t := by
  simp only [usersetTuples, hto, mem_append, Request.mem_byObject hctx.proper,
    mem_readUsersetTuples]
  constructor
  · rintro ⟨⟨hut, hfirst⟩ | ⟨hmem, ho, hrel, hcond, huser⟩, htrue⟩
    · obtain ⟨hmem, ho, hrel⟩ := contextualTuple_iff hfirst
      rcases hu : t.user with o | ⟨o, _⟩ | w <;> rw [hu] at hut <;>
        simp only [User.userType, reduceCtorEq, UserType.userset.injEq] at hut
      have hallowed : t.condition.name ∈ e.conditions := by
        refine hctx.allowed hr hmem he hdirect (by rw [ho, ← htype, hrel]) ?_
        rw [hto, hu, User.node, hut.1, hut.2]
      exact ⟨.inr (hu ▸ hfirst), ⟨o, by rw [hut.2], hut.1⟩, (tupleCondition_iff hallowed).mp htrue⟩
    · exact ⟨.inl ⟨hmem, ho, hrel⟩, huser, (tupleCondition_iff hcond).mp htrue⟩
  · rintro ⟨⟨hmem, ho, hrel⟩ | hfirst, ⟨o', hu, hty⟩, hpass⟩
    · exact ⟨.inr ⟨hmem, ho, hrel, hpass.allowed, o', hu, hty⟩,
        (tupleCondition_iff hpass.allowed).mpr hpass⟩
    · exact ⟨.inl ⟨by rw [hu, User.userType, hty], hfirst⟩,
        (tupleCondition_iff hpass.allowed).mpr hpass⟩

/-- The links of an edge from the tuples that are read for it. -/
theorem links_of_tuples {tuples : List TupleKey} {conditions : List String} {R : TupleKey → Prop}
    {L : User → Object → Prop} (hL : ∀ {u o}, L u o → u.split.1 = o)
    (h : ∀ t, t ∈ tuples ∧ tupleCondition r req conditions t = .ok true
      ↔ R t ∧ (∃ o, L t.user o) ∧ Passes r req conditions t) (o' : Object) :
    (∃ t ∈ tuples, tupleCondition r req conditions t = .ok true ∧ t.user.split.1 = o')
      ↔ ∃ t, R t ∧ L t.user o' ∧ Passes r req conditions t := by
  constructor
  · rintro ⟨t, ht, htrue, rfl⟩
    obtain ⟨hread, ⟨o, ho⟩, hpass⟩ := (h t).mp ⟨ht, htrue⟩
    exact ⟨t, hread, hL ho ▸ ho, hpass⟩
  · rintro ⟨t, hread, ho, hpass⟩
    obtain ⟨ht, htrue⟩ := (h t).mpr ⟨hread, ⟨o', ho⟩, hpass⟩
    exact ⟨t, ht, htrue, hL ho⟩

theorem mem_read {s : Store} {o : Object} {relation ty : String} {conditions : List String}
    {t : TupleKey} : t ∈ s.read o relation ty conditions
      ↔ t ∈ s.tuples ∧ t.object = o ∧ t.relation = relation ∧ t.condition.name ∈ conditions
        ∧ t.user.split.1.type = ty := by
  rw [Store.read, mem_filter, Bool.and_eq_true, decide_eq_true_eq]
  refine and_congr_right fun _ => ?_
  rw [and_assoc, and_assoc]
  refine and_congr_right fun _ => and_congr_right fun _ => and_congr_right fun _ => ?_
  rcases t.user with o' | ⟨o', _⟩ | w <;> simp [User.split]

/-- The edge of a tupleset. -/
theorem tuplesetEdge_spec {g : ModelGraph} (hd : g.Defined) {tupleset : String × String}
    {subjectType : String} {e : Edge}
    (h : g.getDirectEdgeFromNodeForUserType tupleset subjectType = some e) :
    e ∈ g.edges ∧ e.edgeType = .direct ∧ e.relationDefinition = tupleset
      ∧ e.toNode = .specificType subjectType := by
  obtain ⟨hmem, hfrom⟩ := ModelGraph.mem_getEdgesFromNode.mp (mem_of_find?_eq_some h)
  have hto : e.toNode = .specificType subjectType := by simpa using find?_some h
  have hrel := hd.relation e hmem
  rw [Edge.InRelation, hfrom] at hrel
  exact ⟨hmem, hd.type e hmem (by rw [hto]; rfl), hrel, hto⟩

/-- A contextual tuple of a tupleset has an object as its user. -/
theorem ContextualValid.tupleset (h : ContextualValid r req)
    (hd : r.model.Defined) {t : TupleKey} (ht : t ∈ req.contextualTuples) {e : Edge}
    (he : e ∈ r.model.edges) (httu : e.edgeType = .ttu)
    (hrel : e.tuplesetRelation = (t.object.type, t.relation)) : ∃ o, t.user = .object o := by
  obtain ⟨-, e', he', hdirect', hrel', hto', -⟩ := h t ht
  have htype := hd.tuplesetType e he httu e' he' hdirect' (hrel'.trans hrel.symm)
  rcases hu : t.user with o | ⟨o, _⟩ | w
  · exact ⟨o, rfl⟩
  · rw [hto', hu] at htype
    cases htype
  · rw [hto', hu] at htype
    cases htype

section

variable (hctx : ContextualValid r req) (hr : r.model.RecursionMarked)
include hctx hr

section

variable (hd : r.model.Defined) {e : Edge} (he : e ∈ r.model.edges)
include hd he

/-- A tuple of a tuple-to-userset edge that is read and passes. -/
theorem ttuTuple_iff
    (httu : e.edgeType = .ttu) (htype : e.relationDefinition.1 = req.object.type)
    {subjectType : String} {tuplesetEdge : Edge}
    (hedge : r.model.getDirectEdgeFromNodeForUserType e.tuplesetRelation subjectType
      = some tuplesetEdge) (t : TupleKey) :
    t ∈ ttuTuples r req e.tuplesetRelation.2 subjectType tuplesetEdge.conditions
        ∧ tupleCondition r req tuplesetEdge.conditions t = .ok true
      ↔ Readable r req req.object e.tuplesetRelation.2 t ∧ t.user.split.1.type = subjectType
        ∧ Passes r req tuplesetEdge.conditions t := by
  obtain ⟨hmem', hdirect', hrel', hto'⟩ := tuplesetEdge_spec hd hedge
  have hrelation : req.contextualTuple req.object e.tuplesetRelation.2 t.user = some t →
      e.tuplesetRelation = (t.object.type, t.relation) := by
    intro ht
    obtain ⟨-, ho, hrel⟩ := contextualTuple_iff ht
    rw [ho, hrel, ← htype, ← hd.tupleset e he httu]
  have hobject : req.contextualTuple req.object e.tuplesetRelation.2 t.user = some t →
      ∃ o, t.user = .object o := fun ht =>
    hctx.tupleset hd (contextualTuple_iff ht).1 he httu (hrelation ht)
  constructor
  · rintro ⟨ht, htrue⟩
    have hty := mem_ttuTuples ht
    simp only [ttuTuples, mem_append, Request.mem_byObject hctx.proper, mem_read] at ht
    rcases ht with ⟨-, hfirst⟩ | ⟨hmem, ho, hrel, hcond, -⟩
    · have hallowed : t.condition.name ∈ tuplesetEdge.conditions := by
        obtain ⟨o, hu⟩ := hobject hfirst
        refine hctx.allowed hr (contextualTuple_iff hfirst).1 hmem' hdirect'
          (hrel'.trans (hrelation hfirst)) ?_
        rw [hu] at hty ⊢
        rw [hto', User.node, ← hty]
        rfl
      exact ⟨.inr hfirst, hty, (tupleCondition_iff hallowed).mp htrue⟩
    · exact ⟨.inl ⟨hmem, ho, hrel⟩, hty, (tupleCondition_iff hcond).mp htrue⟩
  · rintro ⟨hread, hty, hpass⟩
    refine ⟨?_, (tupleCondition_iff hpass.allowed).mpr hpass⟩
    simp only [ttuTuples, mem_append, Request.mem_byObject hctx.proper, mem_read]
    rcases hread with ⟨hmem, ho, hrel⟩ | hfirst
    · exact .inr ⟨hmem, ho, hrel, hpass.allowed, hty⟩
    · obtain ⟨o, hu⟩ := hobject hfirst
      refine .inl ⟨?_, hfirst⟩
      rw [hu] at hty ⊢
      rw [← hty]
      rfl

/-- **The links that the resolver follows.** -/
theorem codeLinked_iff
    (o o' : Object) :
    (codeFacts r req).linked e o o' ↔ e.relationDefinition.1 = o.type
      ∧ (e.edgeType = .direct → e.toNode.isUserType req.userType → e.onCycle)
      ∧ ∃ conditions ∈ linkConditions r.model e, ∃ t, Readable r req o e.linkRelation t
        ∧ e.leadsFrom t.user o' ∧ Passes r req conditions t := by
  refine and_congr_right fun htype => and_congr_right fun _ => ?_
  have hctx' : ContextualValid r (req.cloneWithTupleKey o "") := hctx
  unfold linkConditions Edge.linkRelation Edge.leadsFrom
  by_cases hdirect : e.edgeType = .direct
  · have hlinks : linkTuples r (req.cloneWithTupleKey o "") e
        = (usersetTuples r (req.cloneWithTupleKey o "") e e.relationDefinition.2, e.conditions) := by
      rw [linkTuples, hdirect]
    simp only [hlinks, hdirect]
    rcases hto : e.toNode with t | t | ⟨t, relation⟩ | ⟨op, uid⟩ | uid | uid
    case specificTypeAndRelation =>
      simp only [Option.mem_def, Option.some.injEq, exists_eq_left']
      exact links_of_tuples (L := fun u o => u = .userset o relation ∧ o.type = t)
        (fun hu => by rw [hu.1]; rfl) (usersetTuple_iff hctx' hr he hdirect htype hto) o'
    all_goals simp [usersetTuples, hto]
  · by_cases httu : e.edgeType = .ttu
    · simp only [httu]
      rcases hto : e.toNode with t | t | ⟨subjectType, relation⟩ | ⟨op, uid⟩ | uid | uid
      case specificTypeAndRelation =>
        rcases hedge : r.model.getDirectEdgeFromNodeForUserType e.tuplesetRelation subjectType
          with _ | tuplesetEdge
        · simp [linkTuples, httu, hto, hedge]
        · have hlinks : linkTuples r (req.cloneWithTupleKey o "") e
              = (ttuTuples r (req.cloneWithTupleKey o "") e.tuplesetRelation.2 subjectType
                tuplesetEdge.conditions, tuplesetEdge.conditions) := by
            simp only [linkTuples, httu, hto, hedge]
          simp only [hlinks, hedge, Option.map_some, Option.mem_def, Option.some.injEq, exists_eq_left']
          refine links_of_tuples (L := fun u o => u.split.1 = o ∧ o.type = subjectType) And.left
            (fun t => ?_) o'
          rw [exists_eq_left']
          exact ttuTuple_iff hctx' hr hd he httu htype hedge t
      all_goals simp [linkTuples, httu, hto]
    · have hlinks : linkTuples r (req.cloneWithTupleKey o "") e = ([], []) := by
        unfold linkTuples
        split <;> simp_all
      rw [hlinks]
      simp only [not_mem_nil, false_and, exists_false, false_iff, not_exists, not_and]
      intro conditions hcond
      split at hcond <;> simp_all

end

end

end Kengen
