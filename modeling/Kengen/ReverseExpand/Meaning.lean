import Kengen.Model.Guarantees
import Kengen.ReverseExpand.Query

/-!
# What reverse expansion has to find, and what it relies on

The objects to find are those on which the target node of the graph is true in the
least model, over the facts that the tuples give for the user.

* `Query.facts`, `Query.edgeTrue`, `Query.nodeTrue` — the meaning of edges and nodes.
* `Query.Meets`, `Query.ExactCheck` — the meaning of a rewrite rule, and a Check that
  answers it.
* `Query.Guarantees` — what the graph library promises: edges have the shape of the
  rewrite rules they come from, weights say which user types can be reached, and
  finite weights are not on cycles.

Main results:

* **`path_of_true`** — what is true leads to the user type, so the edges that are left out are false.
* **`nodeTrue_connected`** — a node other than an intersection or exclusion is true by one of its
  connected edges.
-/

namespace Kengen.ReverseExpand

open List

namespace Query

variable (q : Query)

/-! ### Facts -/

/-- The node a type restriction or an edge has for a user. -/
def userNode : User → Node
  | .object o => .specificType o.type
  | .userset o relation => .specificTypeAndRelation o.type relation
  | .wildcard t => .specificTypeWildcard t

/-- The tuple users that are the user of the query. -/
def users : List User :=
  match q.user with
  | .object o => [.object o, .wildcard o.type]
  | .typedWildcard t => [.wildcard t]

/-- A direct edge assigns the user. -/
def assigned (e : Edge) (o : Object) : Bool :=
  decide (e.edgeType = .direct ∧ o.type = e.relationDefinition.1
    ∧ ∃ t ∈ q.env.passing o e.relationDefinition.2, t.user ∈ q.users ∧ e.toNode = userNode t.user)

/-- The object of a userset that a direct edge leads to. -/
def usersetObject (n : Node) : User → Option Object
  | .userset o relation => if n = .specificTypeAndRelation o.type relation then some o else none
  | _ => none

/-- The object that an edge leads to through its tupleset. -/
def tuplesetObject (n : Node) : User → Option Object
  | .object o => if (typeRel n).1 = o.type then some o else none
  | _ => none

/-- The objects that an edge leads to from an object. -/
def links (e : Edge) (o : Object) : List Object :=
  if o.type = e.relationDefinition.1 then
    match e.edgeType with
    | .direct =>
      (q.env.passing o e.relationDefinition.2).filterMap fun t => usersetObject e.toNode t.user
    | .ttu =>
      (q.env.passing o e.tuplesetRelation.2).filterMap fun t => tuplesetObject e.toNode t.user
    | _ => []
  else []

def facts : Facts where
  assigned e o := q.assigned e o = true
  linked e o o' := o' ∈ q.links e o

variable {e : Edge} {o : Object}

theorem assigned_iff : q.assigned e o = true ↔ e.edgeType = .direct
    ∧ o.type = e.relationDefinition.1 ∧ ∃ t ∈ q.env.passing o e.relationDefinition.2,
      t.user ∈ q.users ∧ e.toNode = userNode t.user := by
  simp only [assigned, decide_eq_true_eq]

variable {n : Node}

theorem usersetObject_eq {u : User} :
    usersetObject n u = some o ↔ ∃ r, u = .userset o r ∧ n = .specificTypeAndRelation o.type r := by
  cases u with
  | userset o' r =>
    simp only [usersetObject, Option.ite_none_right_eq_some, Option.some.injEq, User.userset.injEq]
    constructor
    · rintro ⟨hn, rfl⟩
      exact ⟨r, ⟨rfl, rfl⟩, hn⟩
    · rintro ⟨r', ⟨rfl, rfl⟩, hn⟩
      exact ⟨hn, rfl⟩
  | object | wildcard => simp [usersetObject]

theorem mem_links_direct (he : e.edgeType = .direct) {o' : Object} :
    o' ∈ q.links e o ↔ o.type = e.relationDefinition.1
      ∧ ∃ t ∈ q.env.passing o e.relationDefinition.2, ∃ r, t.user = .userset o' r
        ∧ e.toNode = .specificTypeAndRelation o'.type r := by
  simp only [links, he]
  split
  · simp only [mem_filterMap, usersetObject_eq, ‹o.type = _›, true_and]
  · simp only [not_mem_nil, ‹¬ o.type = _›, false_and]

theorem mem_links_ttu (he : e.edgeType = .ttu) {o' : Object} :
    o' ∈ q.links e o ↔ o.type = e.relationDefinition.1
      ∧ ∃ t ∈ q.env.passing o e.tuplesetRelation.2, t.user = .object o'
        ∧ (typeRel e.toNode).1 = o'.type := by
  have hobject : ∀ u : User, tuplesetObject e.toNode u = some o'
      ↔ u = .object o' ∧ (typeRel e.toNode).1 = o'.type := by
    intro u
    cases u with
    | object =>
      simp only [tuplesetObject, Option.ite_none_right_eq_some, Option.some.injEq,
        User.object.injEq]
      constructor
      · rintro ⟨ht, rfl⟩
        exact ⟨rfl, ht⟩
      · rintro ⟨rfl, ht⟩
        exact ⟨ht, rfl⟩
    | userset | wildcard => simp [tuplesetObject]
  simp only [links, he]
  split
  · simp only [mem_filterMap, hobject, ‹o.type = _›, true_and]
  · simp only [not_mem_nil, ‹¬ o.type = _›, false_and]

/-! ### Meaning -/

variable (hg : q.graph.NoOperatorCycle)

def nodeTrue (n : Node) (o : Object) : Prop := (q.graph.semantics hg q.facts).Holds (n, o)

def edgeTrue (e : Edge) (o : Object) : Prop :=
  edgeBody q.facts (q.graph.semantics hg q.facts).Holds e o

/-- A rewrite rule of a relation on an object. -/
def Meets (o : Object) (relation : String) : Rewrite → Prop
  | .this => ∃ t ∈ q.env.passing o relation, t.user ∈ q.users
      ∨ ∃ o' r, t.user = .userset o' r ∧ q.nodeTrue hg (.specificTypeAndRelation o'.type r) o'
  | .computedUserset r => q.nodeTrue hg (.specificTypeAndRelation o.type r) o
  | .tupleToUserset tupleset computed => ∃ t ∈ q.env.passing o tupleset, ∃ o', t.user = .object o'
      ∧ q.nodeTrue hg (.specificTypeAndRelation o'.type computed) o'
  | .union child => ∃ i, Meets o relation (child i)
  | .intersection (n := n) child => 0 < n ∧ ∀ i, Meets o relation (child i)
  | .difference base subtract => Meets o relation base ∧ ¬ Meets o relation subtract

/-- **Check is exact.** -/
def ExactCheck : Prop :=
  ∀ u relation o, q.check u relation o = true ↔ q.Meets hg o relation u

variable {q} {hg}

theorem edgeTrue_of_same (h : e.isTupleEdge = false) :
    q.edgeTrue hg e o ↔ q.nodeTrue hg e.toNode o := edgeBody_rewrite h

theorem edgeTrue_of_tuple (h : e.isTupleEdge = true) :
    q.edgeTrue hg e o ↔ q.assigned e o = true
      ∨ ∃ o' ∈ q.links e o, q.nodeTrue hg e.toNode o' := by
  unfold edgeTrue edgeBody
  rw [if_pos h]
  rfl

theorem edgeTrue_direct (he : e.edgeType = .direct) :
    q.edgeTrue hg e o ↔ o.type = e.relationDefinition.1
      ∧ ∃ t ∈ q.env.passing o e.relationDefinition.2, e.toNode = userNode t.user
        ∧ (t.user ∈ q.users
          ∨ ∃ o' r, t.user = .userset o' r ∧ q.nodeTrue hg (.specificTypeAndRelation o'.type r) o') := by
  rw [edgeTrue_of_tuple (by simp [Edge.isTupleEdge, he]), assigned_iff]
  simp only [mem_links_direct q he, he, true_and]
  constructor
  · rintro (⟨ho, t, ht, huser, hto⟩ | ⟨o', ⟨ho, t, ht, r, huser, hto⟩, htrue⟩)
    · exact ⟨ho, t, ht, hto, .inl huser⟩
    · rw [hto] at htrue
      exact ⟨ho, t, ht, by rw [huser, hto]; rfl, .inr ⟨o', r, huser, htrue⟩⟩
  · rintro ⟨ho, t, ht, hto, huser | ⟨o', r, huser, htrue⟩⟩
    · exact .inl ⟨ho, t, ht, huser, hto⟩
    · rw [huser] at hto
      exact .inr ⟨o', ⟨ho, t, ht, r, huser, hto⟩, by rw [hto]; exact htrue⟩

theorem edgeTrue_ttu (he : e.edgeType = .ttu) :
    q.edgeTrue hg e o ↔ o.type = e.relationDefinition.1
      ∧ ∃ t ∈ q.env.passing o e.tuplesetRelation.2, ∃ o', t.user = .object o'
        ∧ (typeRel e.toNode).1 = o'.type ∧ q.nodeTrue hg e.toNode o' := by
  rw [edgeTrue_of_tuple (by simp [Edge.isTupleEdge, he]), assigned_iff]
  simp only [mem_links_ttu q he, he]
  constructor
  · rintro (⟨⟨⟩, -⟩ | ⟨o', ⟨ho, t, ht, huser, htype⟩, htrue⟩)
    exact ⟨ho, t, ht, o', huser, htype, htrue⟩
  · rintro ⟨ho, t, ht, o', huser, htype, htrue⟩
    exact .inr ⟨o', ⟨ho, t, ht, huser, htype⟩, htrue⟩

theorem nodeTrue_union (hn : n.isStrict = false) :
    q.nodeTrue hg n o ↔ ∃ e ∈ q.graph.getEdgesFromNode n, q.edgeTrue hg e o := holds_union hn o

/-! ### What the graph library promises -/

/-- The kind of an edge fits its ends, as in the rewrite rule it comes from. -/
def Shaped (e : Edge) : Prop :=
  (match e.edgeType, e.toNode with
    | .direct, .specificType _ => True
    | .direct, .specificTypeWildcard _ => True
    | .direct, .specificTypeAndRelation _ relation => relation ≠ ""
    | .ttu, .specificTypeAndRelation _ _ => e.tuplesetRelation.1 = e.relationDefinition.1
    | .computed, .specificTypeAndRelation t _ => t = e.relationDefinition.1
    | .rewrite, .specificTypeAndRelation t _ => t = e.relationDefinition.1
    | .rewrite, .operatorNode _ _ => True
    | .directLogical, .logicalDirectGrouping _ => True
    | .ttuLogical, .logicalTTUGrouping _ => True
    | _, _ => False)
  ∧ match e.fromNode with
    | .logicalDirectGrouping _ => e.edgeType = .direct
    | .logicalTTUGrouping _ => e.edgeType = .ttu
    | _ => True

instance (e : Edge) : Decidable (Shaped e) := by
  obtain ⟨kind, source, node⟩ := e
  refine @instDecidableAnd _ _ ?_ ?_
  · cases kind <;> cases node <;> infer_instance
  · cases source <;> infer_instance

def isRelation : Node → Bool
  | .specificTypeAndRelation _ _ => true
  | _ => false

def isOperator : Node → Bool
  | .operatorNode _ _ => true
  | _ => false

/-- Nodes that stand for an inner operator of a rewrite rule. -/
def isNested : Node → Bool
  | .operatorNode _ _ => true
  | .logicalTTUGrouping _ => true
  | _ => false

variable (g : ModelGraph)

/-- The edges that an edge of a rewrite rule stands for. -/
def insideEdges (e : Edge) : List Edge :=
  match e.edgeType with
  | .directLogical => g.getEdgesFromNode e.toNode
  | .ttuLogical => g.getEdgesFromNode e.toNode
  | _ => [e]

variable (ts : TypeSystem)

/-- The type restrictions of a relation. -/
def restrictions (r : String × String) : Option (List RelationReference) :=
  match ts.getRelation r.1 r.2 with
  | .error _ => none
  | .ok relation => relation.typeInfo

def restrictionNode (ref : RelationReference) : Node :=
  match ref.relationOrWildcard with
  | .object => .specificType ref.type
  | .relation name => .specificTypeAndRelation ref.type name
  | .wildcard => .specificTypeWildcard ref.type

/-- An operand that is a direct assignment has an edge for each type restriction. -/
def DirectComplete (e : Edge) : Prop :=
  (restrictions ts e.relationDefinition).isSome
    ∧ ∀ ref ∈ (restrictions ts e.relationDefinition).getD [], ∃ d ∈ insideEdges g e,
      d.edgeType = .direct ∧ d.toNode = restrictionNode ref

/-- An operand that goes through a tupleset has an edge for each type of the tupleset
that has the computed relation. -/
def TuplesetComplete (e : Edge) : Prop :=
  (∀ d ∈ insideEdges g e, ∀ d' ∈ insideEdges g e,
      d.tuplesetRelation = d'.tuplesetRelation ∧ (typeRel d.toNode).2 = (typeRel d'.toNode).2)
    ∧ ∀ d ∈ insideEdges g e, (restrictions ts d.tuplesetRelation).isSome
      ∧ ∀ ref ∈ (restrictions ts d.tuplesetRelation).getD [],
        (∃ d' ∈ insideEdges g e, (typeRel d'.toNode).1 = ref.type)
          ∨ g.getEdgesFromNode (.specificTypeAndRelation ref.type (typeRel d.toNode).2) = []

instance (e : Edge) : Decidable (DirectComplete g ts e) :=
  inferInstanceAs (Decidable (_ ∧ _))

instance (e : Edge) : Decidable (TuplesetComplete g ts e) :=
  inferInstanceAs (Decidable (_ ∧ _))

/-- Operators have operands. -/
def HasOperands : Node → Prop
  | .operatorNode .exclusion uid => (g.getEdgesFromNode (.operatorNode .exclusion uid)).length = 2
  | .operatorNode op uid => 2 ≤ (g.getEdgesFromNode (.operatorNode op uid)).length
  | _ => True

instance (n : Node) : Decidable (HasOperands g n) := by
  unfold HasOperands
  split <;> infer_instance

/-- The edges of a node whose weights count for the node. -/
def expandedEdges (n : Node) : List Edge :=
  match n with
  | .operatorNode .exclusion uid => (g.getEdgesFromNode (.operatorNode .exclusion uid)).take 1
  | n => g.getEdgesFromNode n

variable (q) in
/-- The edge leads to the user type, and not through a cycle. -/
def finite (e : Edge) : Bool :=
  match e.weight q.userType with
  | none => false
  | some w => decide (w < infinite)

variable (q) in
/-- **What the graph library promises** about the graph of the model. -/
structure Guarantees : Prop where
  weighted : q.graph.Weighted
  /-- An edge belongs to the relation whose rewrite rule it comes from. -/
  relation : ∀ e ∈ q.graph.edges, e.InRelation
  inner : ∀ e ∈ q.graph.edges, isRelation e.toNode = false → ∀ e' ∈ q.graph.edges,
    e'.fromNode = e.toNode → e'.relationDefinition = e.relationDefinition
  shaped : ∀ e ∈ q.graph.edges, Shaped e
  found : ∀ e ∈ q.graph.edges, (q.graph.getNodeByID e.toNode).isSome
  operands : ∀ e ∈ q.graph.edges, HasOperands q.graph e.toNode
  /-- A weight on an edge to the same object comes from the edges below. -/
  sound : ∀ e ∈ q.graph.edges, e.isTupleEdge = false → ∀ ut ∈ e.types,
    ut ∈ q.graph.gather Edge.types e.toNode
  direct : ∀ e ∈ q.graph.edges, isOperator e.fromNode →
    e.edgeType = .direct ∨ e.edgeType = .directLogical → DirectComplete q.graph q.env.typesystem e
  tupleset : ∀ e ∈ q.graph.edges, isOperator e.fromNode →
    e.edgeType = .ttu ∨ e.edgeType = .ttuLogical → TuplesetComplete q.graph q.env.typesystem e
  /-- The operators of a rewrite rule are nested. -/
  nested : (q.graph.restrict fun e => isNested e.toNode).Acyclic
  /-- A finite weight has finite weights below it, and is not on a cycle. -/
  nodesFinite : ∀ i ∈ q.graph.nodes, q.nodeWeight i ≠ some infinite →
    ∀ e ∈ expandedEdges q.graph i.node, q.hasPathTo e → q.finite e
  edgesFinite : ∀ e ∈ q.graph.edges, q.finite e → ∀ i ∈ q.graph.nodes, i.node = e.toNode →
    q.nodeWeight i ≠ some infinite
  acyclic : (q.graph.restrict q.finite).Acyclic

/-- What is promised about cycles holds on a graph that can be numbered. -/
theorem restrict_acyclic (number : Node → ℕ)
    (h : ∀ e ∈ q.graph.edges, number e.toNode < number e.fromNode) (keep : Edge → Bool) :
    (q.graph.restrict keep).Acyclic :=
  ModelGraph.acyclic_of_numbered number fun e he => h e (mem_filter.mp he).1

/-! ### Edges that are left out are false -/

theorem userNode_types (hw : e.WellTyped) (hd : e.edgeType = .direct) {u : User}
    (hu : u ∈ q.users) (hn : e.toNode = userNode u) : q.userType ∈ e.types := by
  unfold users at hu
  unfold userType
  split at hu
  · rename_i o huser
    rw [huser]
    rcases mem_cons.mp hu with rfl | hu
    · rw [Edge.WellTyped, hd, hn] at hw
      rw [hw.1]
      exact mem_singleton.mpr rfl
    · obtain rfl := mem_singleton.mp hu
      rw [Edge.WellTyped, hd, hn] at hw
      rw [hw.1]
      exact mem_singleton.mpr rfl
  · rename_i t huser
    obtain rfl := mem_singleton.mp hu
    rw [Edge.WellTyped, hd, hn] at hw
    rw [huser, hw.1]
    exact mem_singleton.mpr rfl

/-- What is true leads to the user type. -/
theorem path_of_true (h : q.Guarantees) :
    (∀ n o, q.nodeTrue hg n o → q.graph.NodeLeads q.userType false n)
      ∧ ∀ e ∈ q.graph.edges, ∀ o, q.edgeTrue hg e o → q.hasPathTo e = true := by
  have hassigned : ∀ e ∈ q.graph.edges, ∀ o, q.facts.assigned e o →
      e.leadsTo q.userType false := by
    intro e he o ha
    obtain ⟨hd, -, t, -, hu, hn⟩ := (assigned_iff q).mp ha
    exact Edge.leadsTo_iff.mpr ⟨userNode_types (h.weighted.direct e he) hd hu hn, nofun⟩
  have hleads := @leadsTo_of_holds q.userType false q.graph hg q.facts h.weighted hassigned
  refine ⟨fun n o hn => hleads.1 (n, o) hn, fun e he o ht => ?_⟩
  simpa [Edge.leadsTo, hasPathTo] using hleads.2 e he o ht

variable {i : NodeInfo}

theorem nodeWeight_isSome (h : q.userType ∈ i.weights.map Prod.fst) : (q.nodeWeight i).isSome := by
  rw [nodeWeight, Option.isSome_map, find?_isSome]
  obtain ⟨w, hw, heq⟩ := mem_map.mp h
  exact ⟨w, hw, decide_eq_true heq⟩

theorem getNodeByID_eq (h : q.graph.getNodeByID n = some i) : i ∈ q.graph.nodes ∧ i.node = n :=
  ⟨mem_of_find?_eq_some h, of_decide_eq_true (find?_some h :)⟩

/-- A node that gathers the user type has its edges. -/
theorem getEdgesFromNode_eq (h : q.Guarantees) (hn : q.graph.getNodeByID n = some i)
    (hgather : q.userType ∈ q.graph.gather Edge.types n) (hne : q.graph.getEdgesFromNode n ≠ []) :
    q.getEdgesFromNode n = some (q.graph.getEdgesFromNode n) := by
  obtain ⟨hi, rfl⟩ := getNodeByID_eq hn
  have hweight := nodeWeight_isSome ((h.weighted.nodes i hi).1 q.userType hgather)
  unfold getEdgesFromNode
  simp only [hn]
  rw [if_neg (by simpa [Option.isNone_iff_eq_none, Option.isSome_iff_ne_none] using hweight)]
  split
  · exact absurd ‹_› hne
  · simp only [‹q.graph.getEdgesFromNode i.node = _›]

theorem mem_of_getEdgesFromNode {es : List Edge} (h : q.getEdgesFromNode n = some es)
    (he : e ∈ es) : e ∈ q.graph.getEdgesFromNode n := by
  unfold getEdgesFromNode at h
  split at h
  · cases h
  split at h
  · cases h
    cases he
  · split at h
    · cases h
    · rename_i hes
      rw [hes]
      cases h
      exact he

/-- **A node other than an intersection or exclusion is true by one of its connected edges.** -/
theorem nodeTrue_connected (h : q.Guarantees) (hn : n.isStrict = false)
    (hfound : (q.graph.getNodeByID n).isSome) :
    q.nodeTrue hg n o ↔ ∃ e ∈ (q.getConnectedEdges n).getD [], q.edgeTrue hg e o := by
  rw [nodeTrue_union hn]
  constructor
  · rintro ⟨e, he, ht⟩
    obtain ⟨i, hi⟩ := Option.isSome_iff_exists.mp hfound
    have hpath := (path_of_true h).2 e (ModelGraph.mem_getEdgesFromNode.mp he).1 o ht
    have hleads := (path_of_true h).1 n o ((nodeTrue_union hn).mpr ⟨e, he, ht⟩)
    have hgather : q.userType ∈ q.graph.gather Edge.types n :=
      mem_gather_of_nodeLeads hleads fun e' he' => (Edge.leadsTo_iff.mp he').1
    refine ⟨e, ?_, ht⟩
    rw [getConnectedEdges, getEdgesFromNode_eq h hi hgather (ne_nil_of_mem he)]
    exact mem_filter.mpr ⟨he, hpath⟩
  · rintro ⟨e, he, ht⟩
    rw [getConnectedEdges] at he
    cases hes : q.getEdgesFromNode n with
    | none =>
      rw [hes] at he
      cases he
    | some =>
      rw [hes] at he
      exact ⟨e, mem_of_getEdgesFromNode hes (mem_filter.mp he).1, ht⟩

end Query

end Kengen.ReverseExpand
