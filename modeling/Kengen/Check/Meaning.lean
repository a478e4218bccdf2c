import Kengen.Lib.TaskRegions
import Kengen.Check.Calls

/-!
# What the calls of the resolver mean

The facts that the resolver reads from tuples, and with them the meaning of
every call: the truth of a node or of an edge in the model graph.

* **`codeFacts`** — what the resolver reads for a user in a context.
* **`callTruth`** — what a call asks.
* **`usersets_means`**, **`ttu_means`** — the scan of an edge finds out whether the edge is
  true.
-/

namespace Kengen

/-! ### The facts the resolver reads -/

/-- The edge lies on a cycle. -/
def Edge.onCycle (e : Edge) : Bool := decide (e.recursiveRelation ≠ none ∨ e.tupleCycle = true)

/-- The tuple condition of an edge that leads to other objects, and its tuples. -/
def linkTuples (r : Resolver) (req : Request) (e : Edge) : List TupleKey × List String :=
  match e.edgeType, e.toNode with
  | .direct, _ => (usersetTuples r req e e.relationDefinition.2, e.conditions)
  | .ttu, .specificTypeAndRelation subjectType _ =>
    match r.model.getDirectEdgeFromNodeForUserType e.tuplesetRelation subjectType with
    | none => ([], [])
    | some tuplesetEdge =>
      (ttuTuples r req e.tuplesetRelation.2 subjectType tuplesetEdge.conditions,
        tuplesetEdge.conditions)
  | _, _ => ([], [])

/-- The user is assigned by the edge, as the resolver reads it. -/
def codeAssigned (r : Resolver) (req : Request) (e : Edge) : Prop :=
  match e.edgeType, e.toNode with
  | .direct, .specificType t =>
    req.userType = .type t ∧ req.isTypedWildcard = false ∧ specificType r req e = .ok true
  | .direct, .specificTypeWildcard t =>
    req.userType = .type t ∧ specificTypeWildcard r req e = .ok true
  | .direct, .specificTypeAndRelation t relation =>
    req.userType = .userset t relation ∧ specificType r req e = .ok true
  | _, _ => False

/-- The facts that the resolver reads for the user and the context of a request, on objects of
the edge's type.  An edge off all cycles that ends in the user's own userset type is not
followed. -/
def codeFacts (r : Resolver) (req : Request) : Facts where
  assigned e o := e.relationDefinition.1 = o.type ∧ codeAssigned r (req.cloneWithTupleKey o "") e
  linked e o o' := e.relationDefinition.1 = o.type
    ∧ (e.edgeType = .direct → e.toNode.isUserType req.userType → e.onCycle)
    ∧ ∃ t ∈ (linkTuples r (req.cloneWithTupleKey o "") e).1,
      tupleCondition r req (linkTuples r (req.cloneWithTupleKey o "") e).2 t = .ok true
        ∧ t.user.split.1 = o'

section Truth

variable (r : Resolver)

/-- What a call asks, given what holds for the user of a request: a node or an edge on the
request's object. -/
def callTruth (p : Request → Node × Object → Prop) : Call → Prop
  | .resolveCheck req => p req (.specificTypeAndRelation req.object.type req.relation, req.object)
  | .resolveUnion req n _ => p req (n, req.object)
  | .resolveUnionEdges req edges _ =>
    ∃ e ∈ edges, edgeBody (codeFacts r req) (p req) e req.object
  | .recursiveBranch req e _ => edgeBody (codeFacts r req) (p req) e req.object
  | .resolveRecursiveEdge req e _ => edgeBody (codeFacts r req) (p req) e req.object
  | .resolveEdge req e _ => edgeBody (codeFacts r req) (p req) e req.object
  | .resolveIntersection req n => p req (n, req.object)
  | .resolveExclusion req n => p req (n, req.object)

/-- The choice of what holds depends on the user and the context only. -/
def SameForAll (p : Request → Node × Object → Prop) : Prop :=
  ∀ req o relation, p (req.cloneWithTupleKey o relation) = p req

variable (hg : r.model.NoOperatorCycle)

/-- **What holds**: the meaning of the model graph over the facts that the resolver reads. -/
def Related (req : Request) : Node × Object → Prop :=
  (r.model.semantics hg (codeFacts r req)).Holds

theorem related_same : SameForAll (Related r hg) := fun _ _ _ => rfl

/-- The node holds on the request's object. -/
def NodeTrue (req : Request) (n : Node) : Prop := Related r hg req (n, req.object)

/-- The edge holds on the request's object. -/
def EdgeTrue (req : Request) (e : Edge) : Prop :=
  edgeBody (codeFacts r req) (Related r hg req) e req.object

/-- What a cached answer should be. -/
def keyTruth (k : EdgeCacheKey) : Prop :=
  ∃ req, ∃ e ∈ r.model.edges, edgeCacheKey req e = k ∧ EdgeTrue r hg req e

end Truth

/-- A call about an edge comes up for edges of the graph, on objects of the edge's type. -/
def EdgeValid (r : Resolver) (req : Request) (e : Edge) : Prop :=
  e ∈ r.model.edges ∧ e.relationDefinition.1 = req.object.type

/-- The shortcut for recursive relations is for single users, and for edges from a relation to
itself. -/
def RecursiveValid (r : Resolver) (req : Request) (e : Edge) : Prop :=
  EdgeValid r req e ∧ e.isTupleEdge ∧ (∃ t, req.userType = .type t) ∧ (e.edgeType = .direct →
    e.toNode = .specificTypeAndRelation e.relationDefinition.1 e.relationDefinition.2)

/-- The calls that come up. -/
def CallValid (r : Resolver) : Call → Prop
  | .resolveCheck _ => True
  | .resolveUnion req n _ => n.isUnionLike ∧ r.model.HasType n req.object.type
  | .resolveUnionEdges req edges _ =>
    ∀ e ∈ edges, EdgeValid r req e ∧ e.leadsTo req.userType req.isTypedWildcard
  | .recursiveBranch req e _ => RecursiveValid r req e
  | .resolveRecursiveEdge req e _ => RecursiveValid r req e
  | .resolveEdge req e _ => EdgeValid r req e ∧ e.leadsTo req.userType req.isTypedWildcard
  | .resolveIntersection req n =>
    (∃ uid, n = .operatorNode .intersection uid) ∧ r.model.HasType n req.object.type
  | .resolveExclusion req n => (∃ uid, n = .operatorNode .exclusion uid)
    ∧ r.model.HasType n req.object.type ∧ req.isTypedWildcard = false

/-! ### Promises about recursion and about type restrictions -/

/-- **Recursion is marked as the library promises.**  A recursive edge is flattened or goes
through tuples; in particular it does not end in an intersection or exclusion.  A relation that is
recursive and not a tuple cycle has one recursive edge, back to itself.  Direct edges of one
relation to one target agree. -/
structure ModelGraph.RecursionMarked (g : ModelGraph) : Prop where
  terminal : ∀ e ∈ g.edges, e.recursiveRelation ≠ none → e.canFlatten ∨ e.isTupleEdge
  single : ∀ i ∈ g.nodes, i.recursiveRelation = some i.node → i.tupleCycle = false →
    ∀ e ∈ g.edges, e.isTupleEdge → e.recursiveRelation = some i.node →
      e.toNode = i.node
      ∧ (e.edgeType = .direct →
        e.toNode = .specificTypeAndRelation e.relationDefinition.1 e.relationDefinition.2)
      ∧ ∀ e' ∈ g.edges, e'.isTupleEdge → e'.recursiveRelation = some i.node → e' = e
  restriction : ∀ e ∈ g.edges, ∀ e' ∈ g.edges, e.edgeType = .direct → e'.edgeType = .direct →
    e.relationDefinition = e'.relationDefinition → e.toNode = e'.toNode →
    e.conditions = e'.conditions ∧ e.recursiveRelation = e'.recursiveRelation
      ∧ e.tupleCycle = e'.tupleCycle

/-! ### Edges that assign the user, and edges that lead to other objects -/

variable {req : Request}

theorem userType_of_wildcard (h : req.isTypedWildcard) : ∃ t, req.userType = .type t := by
  unfold Request.isTypedWildcard User.isTypedWildcard at h
  unfold Request.userType User.userType
  split at h
  · rename_i t hu
    exact ⟨t, by rw [hu]⟩
  · cases h

variable {r : Resolver} {e : Edge}

/-- **An edge that assigns the user leads to the user.** -/
theorem leadsTo_of_codeAssigned (hw : r.model.Weighted) (he : e ∈ r.model.edges)
    (h : codeAssigned r req e) : e.leadsTo req.userType req.isTypedWildcard := by
  have htyped := hw.direct e he
  rw [Edge.leadsTo_iff]
  unfold codeAssigned at h
  unfold Edge.WellTyped at htyped
  split at h
  · rename_i t htype hto
    simp only [htype, hto] at htyped
    obtain ⟨hut, hwild, -⟩ := h
    rw [hut, htyped.1, hwild]
    simp
  · rename_i t htype hto
    simp only [htype, hto] at htyped
    rw [h.1, htyped.1]
    simp [hasWildcard_iff, htyped.2]
  · rename_i t relation htype hto
    simp only [htype, hto] at htyped
    rw [h.1]
    refine ⟨htyped, fun hwild => ?_⟩
    obtain ⟨t', ht'⟩ := userType_of_wildcard hwild
    rw [h.1] at ht'
    cases ht'
  · cases h

theorem mem_usersetTuples {relation : String}
    {t : TupleKey} (h : t ∈ usersetTuples r req e relation) :
    ∃ object userRelation, t.user = .userset object userRelation
      ∧ e.toNode = .specificTypeAndRelation object.type userRelation := by
  unfold usersetTuples at h
  split at h
  · rename_i ty userRelation hto
    rcases List.mem_append.mp h with h | h
    · have hut := (Request.of_mem_byObject h).2.2.2
      rcases hu : t.user with o | ⟨o, rel⟩ | w
      · simp [hu, User.userType] at hut
      · simp only [hu, User.userType, UserType.userset.injEq] at hut
        exact ⟨o, rel, rfl, by rw [hto, hut.1, hut.2]⟩
      · simp [hu, User.userType] at hut
    · have hp := (List.mem_filter.mp h).2
      split at hp
      · rename_i o rel hu
        simp only [decide_eq_true_eq] at hp
        exact ⟨o, rel, hu, by rw [hto, hp.2.2.1, hp.2.2.2.1]⟩
      · cases hp
  · cases h

theorem mem_ttuTuples {relation subjectType : String} {conditions : List String} {t : TupleKey}
    (h : t ∈ ttuTuples r req relation subjectType conditions) :
    t.user.split.1.type = subjectType := by
  rcases List.mem_append.mp h with h | h
  · have hut := (Request.of_mem_byObject h).2.2.2
    rcases hu : t.user with o | ⟨o, rel⟩ | w
    · simpa [hu, User.userType, User.split] using hut
    · simp [hu, User.userType] at hut
    · simpa [hu, User.userType, User.split] using hut
  · have hp := (List.mem_filter.mp h).2
    rcases hu : t.user with o | ⟨o, rel⟩ | w
    · simpa [hu, User.split] using And.right (by simpa [hu] using hp)
    · simpa [hu, User.split] using And.right (by simpa [hu] using hp)
    · simpa [hu, User.split] using And.right (by simpa [hu] using hp)

section Equations

variable {r : Resolver}

/-- An edge through which the user is not assigned is true by another object. -/
theorem edgeBody_iff_linked {p : Node × Object → Prop} (htuple : e.isTupleEdge)
    (htype : e.relationDefinition.1 = req.object.type) (hnot : ¬ codeAssigned r req e)
    (hcycle : e.edgeType = .direct → e.toNode.isUserType req.userType → e.onCycle) :
    edgeBody (codeFacts r req) p e req.object ↔ ∃ t ∈ (linkTuples r req e).1,
      tupleCondition r req (linkTuples r req e).2 t = .ok true
        ∧ p (e.toNode, t.user.split.1) := by
  have hnot' : ¬ (codeFacts r req).assigned e req.object := fun h => hnot h.2
  unfold edgeBody
  rw [if_pos htuple]
  constructor
  · rintro (h | ⟨o', ⟨-, -, t, ht, hcond, rfl⟩, hp⟩)
    · exact absurd h hnot'
    · exact ⟨t, ht, hcond, hp⟩
  · rintro ⟨t, ht, hcond, hp⟩
    exact .inr ⟨_, ⟨htype, hcycle, t, ht, hcond, rfl⟩, hp⟩

/-- A plan has the meaning `P` if its calls have the meaning `T`. -/
def PlanMeans (T : Call → Prop) (P : Prop) : CheckPlan → Prop
  | .ret (.ok b) => P ↔ b = true
  | .ret (.error _) => True
  | .any branches => P ↔ ∃ q ∈ branches, T q.2
  | .scan _ items => P ↔ ∃ item ∈ items, item.cond = .ok true ∧ T item.call
  | .every calls => P ↔ ∀ c ∈ calls, T c
  | .butNot base sub => P ↔ T base ∧ ∀ s ∈ sub, ¬ T s
  | .fresh _ body => ∀ m, P ↔ T (body m)

theorem ret_means {T : Call → Prop} {P : Prop} {res : Except Err Bool} (h : P ↔ res = .ok true) :
    PlanMeans T P (.ret res) := by
  cases res with
  | error err => trivial
  | ok b =>
    show P ↔ b = true
    rw [h]
    simp

theorem any_single_means {T : Call → Prop} {P : Prop} {key : Option EdgeCacheKey} {c : Call}
    (h : P ↔ T c) : PlanMeans T P (.any [(key, c)]) := by
  show P ↔ _
  rw [h]
  simp

variable {p : Request → Node × Object → Prop} (hp : SameForAll p)

include hp in
/-- The scan of a userset edge. -/
theorem usersets_means (hdirect : e.edgeType = .direct)
    (htype : e.relationDefinition.1 = req.object.type) (hnot : ¬ codeAssigned r req e)
    (hcycle : e.toNode.isUserType req.userType → e.onCycle) (visited map : Option ℕ) :
    PlanMeans (callTruth r p) (edgeBody (codeFacts r req) (p req) e req.object)
      (.scan map (usersetItems r req e e.relationDefinition.2 visited)) := by
  have htuple : e.isTupleEdge := by rw [Edge.isTupleEdge, hdirect]
  have hlinks : linkTuples r req e = (usersetTuples r req e e.relationDefinition.2, e.conditions) := by
    rw [linkTuples, hdirect]
  show edgeBody _ _ e req.object ↔ _
  rw [edgeBody_iff_linked htuple htype hnot fun _ => hcycle, hlinks]
  simp only [usersetItems, List.mem_map, exists_exists_and_eq_and]
  refine exists_congr fun t => and_congr_right fun ht => and_congr_right fun _ => ?_
  obtain ⟨o, rel, hu, hto⟩ := mem_usersetTuples ht
  rw [hu, hto, callTruth, hp]
  rfl

include hp in
/-- The scan of a tuple-to-userset edge. -/
theorem ttu_means (httu : e.edgeType = .ttu)
    (htype : e.relationDefinition.1 = req.object.type) (visited : Option ℕ) :
    PlanMeans (callTruth r p) (edgeBody (codeFacts r req) (p req) e req.object)
      (ttuPlan r req e visited) := by
  have htuple : e.isTupleEdge := by rw [Edge.isTupleEdge, httu]
  have hnot : ¬ codeAssigned r req e := by simp [codeAssigned, httu]
  unfold ttuPlan
  split
  · rename_i subjectType computedRelation hto
    split
    · trivial
    · rename_i tuplesetEdge hedge
      have hlinks : linkTuples r req e = (ttuTuples r req e.tuplesetRelation.2 subjectType
          tuplesetEdge.conditions, tuplesetEdge.conditions) := by
        simp only [linkTuples, httu, hto, hedge]
      have hcycle : e.edgeType = .direct → e.toNode.isUserType req.userType → e.onCycle :=
        fun h => by
          rw [httu] at h
          cases h
      show edgeBody _ _ e req.object ↔ _
      rw [edgeBody_iff_linked htuple htype hnot hcycle, hlinks]
      simp only [ttuItems, List.mem_map, exists_exists_and_eq_and]
      refine exists_congr fun t => and_congr_right fun ht => and_congr_right fun _ => ?_
      rw [hto, ← mem_ttuTuples ht, callTruth, hp]
      rfl
  · trivial

end Equations

end Kengen
