import Kengen.ReverseExpand.Usersets

/-!
# What one step of the expansion keeps

A task stands for the objects on which its edge is true, climbed up its stack and
through its Checks.  Taking a task neither loses nor adds objects: what it stands
for is what it sends and what its children stand for.

* `Query.Means` — the objects a task stands for.
* `Query.Good` — tasks of the traversal: the top of the stack is the relation of
  the edge, and the weight of the edge is finite.
* **`leaf_means`** — at the end of a path the tuples of the user are all.
* **`dispatch_expands`** — a step to the edges of a node that is not an intersection or exclusion.
* **`userset_expands`**, **`ttu_expands`**, **`relation_expands`**, **`inner_expands`** — that step
  for each kind of edge.
-/

namespace Kengen.ReverseExpand

open List

namespace Query

variable {q : Query} {hg : q.graph.NoOperatorCycle}

/-! ### Reads -/

variable {relation : String} {o : Object}

variable {rest : List Entry}

/-- One step up the stack. -/
theorem mem_climb_cons {e : Entry} {found : Object} {D : Object → List Object} :
    o ∈ (q.climb (e :: rest) found).flatMap D ↔ ∃ x, x.type = e.type
      ∧ (∃ t ∈ q.env.passing x e.relation, t.user = foundFilter e found)
      ∧ o ∈ (q.climb rest x).flatMap D := by
  simp only [climb, readStartingWithUser, mem_flatMap, mem_objectsRead]
  simp only [mem_singleton]
  constructor
  · rintro ⟨y, ⟨x, ⟨htype, ht⟩, hy⟩, ho⟩
    exact ⟨x, htype, ht, y, hy, ho⟩
  · rintro ⟨x, htype, ht, y, hy, ho⟩
    exact ⟨y, ⟨x, ⟨htype, ht⟩, hy⟩, ho⟩

/-! ### Tasks -/

variable (q hg) in
/-- The objects a task stands for. -/
def Means (t : Task) (o : Object) : Prop :=
  ∃ x : Object, x.type = t.edge.relationDefinition.1 ∧ q.edgeTrue hg t.edge x
    ∧ o ∈ (q.climb (t.relationStack.drop 1) x).flatMap (q.deliver t.frames)

variable (q) in
/-- A task of the traversal. -/
structure Good (t : Task) : Prop where
  mem : t.edge ∈ q.graph.edges
  finite : q.finite t.edge
  stack : ∃ rest, t.relationStack
    = ⟨t.edge.relationDefinition.1, t.edge.relationDefinition.2, ""⟩ :: rest

/-- Edges of finite weight go down in rank. -/
noncomputable def rank (q : Query) (n : Node) : ℕ := (q.graph.restrict q.finite).rank n

variable {e : Edge}

theorem rank_lt (h : q.Guarantees) (he : e ∈ q.graph.edges) (hfin : q.finite e) :
    q.rank e.toNode < q.rank e.fromNode := by
  have hmem : e ∈ (q.graph.restrict q.finite).edges := mem_filter.mpr ⟨he, hfin⟩
  exact ModelGraph.rank_lt_of_not_reaches _ e hmem (h.acyclic e hmem)

theorem path_of_finite (h : q.finite e) : q.hasPathTo e = true := by
  unfold finite at h
  unfold hasPathTo
  split at h
  · cases h
  rename_i w hw
  rw [hw]
  rfl

/-- Below a finite weight the weights are finite. -/
theorem finite_below (h : q.Guarantees) {e' : Edge} (he : e ∈ q.graph.edges) (hfin : q.finite e)
    (he' : e' ∈ expandedEdges q.graph e.toNode) (hpath : q.hasPathTo e') : q.finite e' := by
  obtain ⟨i, hi⟩ := Option.isSome_iff_exists.mp (h.found e he)
  obtain ⟨hi, hnode⟩ := getNodeByID_eq hi
  rw [← hnode] at he'
  exact h.nodesFinite i hi (h.edgesFinite e he hfin i hi hnode) e' he' hpath

variable {n : Node}

theorem expandedEdges_eq {g : ModelGraph}
    (h : ∀ uid, n ≠ .operatorNode .exclusion uid) : expandedEdges g n = g.getEdgesFromNode n := by
  unfold expandedEdges
  split
  · exact absurd rfl (h _)
  · rfl

theorem mem_connected (h : e ∈ (q.getConnectedEdges n).getD []) :
    e ∈ q.graph.edges ∧ e.fromNode = n ∧ q.hasPathTo e = true := by
  rw [getConnectedEdges] at h
  cases hes : q.getEdgesFromNode n with
  | none =>
    rw [hes] at h
    cases h
  | some =>
    rw [hes] at h
    obtain ⟨hmem, hpath⟩ := mem_filter.mp h
    obtain ⟨hmem, hfrom⟩ := ModelGraph.mem_getEdgesFromNode.mp (mem_of_getEdgesFromNode hes hmem)
    exact ⟨hmem, hfrom, hpath⟩

/-! ### On to the edges of a node -/

variable {r : String × String}

/-- **The tasks at a node stand for the objects on which the node is true.** -/
theorem dispatch_means (h : q.Guarantees) (hn : n.isStrict = false)
    (hfound : (q.graph.getNodeByID n).isSome)
    (hr : ∀ e ∈ q.graph.edges, e.fromNode = n → e.relationDefinition = r) {top : Entry}
    {frames : List Frame} :
    (∃ t ∈ q.dispatch n (top :: rest) frames, q.Means hg t o) ↔ ∃ x : Object, x.type = r.1
      ∧ q.nodeTrue hg n x ∧ o ∈ (q.climb rest x).flatMap (q.deliver frames) := by
  have hdef : ∀ e ∈ (q.getConnectedEdges n).getD [], e.relationDefinition = r := by
    intro e he
    obtain ⟨hmem, hfrom, -⟩ := mem_connected he
    exact hr e hmem hfrom
  constructor
  · rintro ⟨t, ht, x, htype, htrue, ho⟩
    obtain ⟨e, he, rfl⟩ := mem_map.mp ht
    exact ⟨x, by rw [← hdef e he]; exact htype, (nodeTrue_connected h hn hfound).mpr ⟨e, he, htrue⟩, ho⟩
  · rintro ⟨x, htype, htrue, ho⟩
    obtain ⟨e, he, htrue⟩ := (nodeTrue_connected h hn hfound).mp htrue
    exact ⟨_, mem_map.mpr ⟨e, he, rfl⟩, x, by rw [hdef e he]; exact htype, htrue, ho⟩

variable {t : Task}

theorem dispatch_good (hr : ∀ e ∈ q.graph.edges, e.fromNode = n → e.relationDefinition = r)
    (hfin : ∀ e ∈ q.graph.getEdgesFromNode n, q.hasPathTo e → q.finite e) {frames : List Frame}
    (ht : t ∈ q.dispatch n (⟨r.1, r.2, ""⟩ :: rest) frames) : q.Good t ∧ t.edge.fromNode = n := by
  obtain ⟨e, he, rfl⟩ := mem_map.mp ht
  obtain ⟨hmem, hfrom, hpath⟩ := mem_connected he
  refine ⟨⟨hmem, hfin e (ModelGraph.mem_getEdgesFromNode.mpr ⟨hmem, hfrom⟩) hpath, rest, ?_⟩, hfrom⟩
  rw [hr e hmem hfrom]

/-- The edges of a relation node have that relation. -/
theorem relation_edges (h : q.Guarantees) (t r : String) : ∀ e ∈ q.graph.edges,
    e.fromNode = .specificTypeAndRelation t r → e.relationDefinition = (t, r) := by
  intro e he hfrom
  have := h.relation e he
  rwa [Edge.InRelation, hfrom] at this

/-- What a step has to show about its children. -/
def Expands (q : Query) (hg : q.graph.NoOperatorCycle) (t : Task) (ts : List Task) : Prop :=
  (∀ t' ∈ ts, q.Good t' ∧ q.rank t'.edge.fromNode < q.rank t.edge.fromNode)
    ∧ ∀ o, q.Means hg t o ↔ ∃ t' ∈ ts, q.Means hg t' o

/-- A step that goes on at the node of the edge. -/
theorem dispatch_expands (h : q.Guarantees) (ht : q.Good t)
    (hn : t.edge.toNode.isStrict = false)
    (hr : ∀ e ∈ q.graph.edges, e.fromNode = t.edge.toNode → e.relationDefinition = r)
    (hmeans : ∀ o, q.Means hg t o ↔ ∃ x : Object, x.type = r.1 ∧ q.nodeTrue hg t.edge.toNode x
      ∧ o ∈ (q.climb rest x).flatMap (q.deliver t.frames)) :
    q.Expands hg t (q.dispatch t.edge.toNode (⟨r.1, r.2, ""⟩ :: rest) t.frames) := by
  constructor
  · intro t' ht'
    have hfin : ∀ e ∈ q.graph.getEdgesFromNode t.edge.toNode, q.hasPathTo e → q.finite e := by
      intro e he
      refine finite_below h ht.mem ht.finite ?_
      rw [expandedEdges_eq]
      · exact he
      · intro uid huid
        rw [huid] at hn
        cases hn
    obtain ⟨hgood, hfrom⟩ := dispatch_good hr hfin ht'
    rw [hfrom]
    exact ⟨hgood, rank_lt h ht.mem ht.finite⟩
  · intro o
    rw [hmeans, dispatch_means h hn (h.found _ ht.mem) hr]

/-- An edge to the same object goes on with the rest of the stack. -/
theorem means_of_same (hsame : t.edge.isTupleEdge = false) (hrest : t.relationStack.drop 1 = rest)
    (o : Object) :
    q.Means hg t o ↔ ∃ x : Object, x.type = t.edge.relationDefinition.1
      ∧ q.nodeTrue hg t.edge.toNode x ∧ o ∈ (q.climb rest x).flatMap (q.deliver t.frames) := by
  unfold Means
  rw [hrest]
  exact exists_congr fun x => and_congr_right fun _ => and_congr_left fun _ => edgeTrue_of_same hsame

/-! ### The end of a path -/

/-- The filter of a leaf is the user of the query. -/
theorem mem_leafFilter (h : q.Guarantees) (he : e ∈ q.graph.edges) (hfin : q.finite e)
    (hkind : e.edgeType = .direct) (hrel : isRelation e.toNode = false) {u : User} :
    u ∈ q.leafFilter e.toNode ↔ u ∈ q.users ∧ e.toNode = userNode u := by
  have htypes := h.weighted.direct e he
  have hut := Edge.weight_isSome.mp (path_of_finite hfin)
  unfold Edge.WellTyped at htypes
  unfold userType at hut
  unfold leafFilter users
  cases (h.shaped e he).shape with
  | type t _ hto =>
    simp only [hkind, hto] at htypes ⊢
    rw [htypes.1, mem_singleton, UserType.type.injEq] at hut
    cases huser : q.user with
    | object =>
      rw [huser] at hut
      simp only [mem_cons, not_mem_nil, or_false]
      subst hut
      constructor
      · rintro rfl
        exact ⟨.inl rfl, rfl⟩
      · rintro ⟨rfl | rfl, hnode⟩
        · rfl
        · cases hnode
    | typedWildcard =>
      simp only [mem_cons, not_mem_nil, or_false, false_iff]
      rintro ⟨rfl, hnode⟩
      cases hnode
  | wildcard t _ hto =>
    simp only [hkind, hto] at htypes ⊢
    rw [htypes.1, mem_singleton, UserType.type.injEq] at hut
    cases huser : q.user with
    | object =>
      rw [huser] at hut
      simp only [mem_cons, not_mem_nil, or_false]
      subst hut
      constructor
      · rintro rfl
        exact ⟨.inr rfl, rfl⟩
      · rintro ⟨rfl | rfl, hnode⟩
        · cases hnode
        · rfl
    | typedWildcard =>
      rw [huser] at hut
      simp only [mem_cons, not_mem_nil, or_false]
      subst hut
      constructor
      · rintro rfl
        exact ⟨rfl, rfl⟩
      · rintro ⟨rfl, -⟩
        rfl
  | userset t r _ hto | ttu t r _ hto | relation r _ hto => rw [hto] at hrel; cases hrel
  | operator op uid hk | directs uid hk | ttus uid hk => rw [hkind] at hk; cases hk

/-- **A task at the end of a path sends what it stands for.** -/
theorem leaf_means (h : q.Guarantees) (ht : q.Good t) (hkind : t.edge.edgeType = .direct)
    (hrel : isRelation t.edge.toNode = false) (o : Object) : q.Means hg t o ↔ o ∈ q.results t := by
  obtain ⟨_, hstack⟩ := ht.stack
  have htrue : ∀ x, x.type = t.edge.relationDefinition.1 → (q.edgeTrue hg t.edge x
      ↔ ∃ k ∈ q.env.passing x t.edge.relationDefinition.2, k.user ∈ q.leafFilter t.edge.toNode) := by
    intro x hx
    rw [edgeTrue_direct hkind]
    simp only [mem_leafFilter h ht.mem ht.finite hkind hrel]
    constructor
    · rintro ⟨-, k, hk, hto, huser | ⟨_, r, huser, -⟩⟩
      · exact ⟨k, hk, huser, hto⟩
      · rw [hto, huser] at hrel
        cases hrel
    · rintro ⟨k, hk, huser, hto⟩
      exact ⟨hx, k, hk, hto, .inl huser⟩
  unfold Means results
  rw [hstack, hkind]
  simp only [drop_one, tail_cons]
  rw [mem_flatMap]
  refine exists_congr fun x => ?_
  rw [readStartingWithUser, mem_objectsRead, and_assoc]
  exact and_congr_right fun hx => and_congr_left fun _ => htrue x hx

/-- Other tasks send nothing. -/
theorem results_eq_nil (h : t.edge.edgeType = .direct → isRelation t.edge.toNode) :
    q.results t = [] := by
  unfold results
  split
  · rename_i hkind _
    have hrel := h hkind
    have hempty : q.leafFilter t.edge.toNode = [] := by
      unfold isRelation at hrel
      split at hrel
      · rename_i hto
        rw [hto]
        rfl
      · cases hrel
    rw [hempty, flatMap_eq_nil_iff]
    intro x hx
    obtain ⟨-, k, -, hk⟩ := mem_objectsRead.mp hx
    cases hk
  · rfl

/-! ### Steps for each kind of edge -/

section

variable (h : q.Guarantees) (ht : q.Good t)
include h ht

/-- A step through the usersets of a relation. -/
theorem userset_expands {type : String}
    (hkind : t.edge.edgeType = .direct)
    (hto : t.edge.toNode = .specificTypeAndRelation type relation) (hne : relation ≠ "")
    {top : Entry} (hstack : t.relationStack = top :: rest) :
    q.Expands hg t (q.dispatch t.edge.toNode
      (⟨type, relation, ""⟩ :: { top with usersetRelation := relation } :: rest) t.frames) := by
  obtain ⟨_, hgood⟩ := ht.stack
  obtain ⟨rfl, rfl⟩ := List.cons.inj (hstack.symm.trans hgood)
  refine dispatch_expands h ht (by rw [hto]; rfl) (r := (type, relation))
    (by rw [hto]; exact relation_edges h type relation) fun o => ?_
  have hfilter : ∀ x' : Object, foundFilter
      (⟨t.edge.relationDefinition.1, t.edge.relationDefinition.2, relation⟩ : Entry) x'
        = .userset x' relation := fun x' => if_neg hne
  simp only [mem_climb_cons, hfilter]
  unfold Means
  rw [hstack]
  simp only [edgeTrue_direct hkind, hto]
  constructor
  · rintro ⟨x, hx, ⟨-, k, hk, hnode, huser | ⟨x', r, huser, htrue⟩⟩, ho⟩
    · -- a direct edge to a relation does not assign the user itself
      unfold users at huser
      split at huser
      · simp only [mem_cons, not_mem_nil, or_false] at huser
        rcases huser with huser | huser <;> rw [huser] at hnode <;> cases hnode
      · rw [mem_singleton.mp huser] at hnode
        cases hnode
    · rw [huser] at hnode
      obtain ⟨rfl, rfl⟩ := Node.specificTypeAndRelation.inj hnode
      exact ⟨x', rfl, htrue, x, hx, ⟨k, hk, huser⟩, ho⟩
  · rintro ⟨x', rfl, htrue, x, hx, ⟨k, hk, huser⟩, ho⟩
    exact ⟨x, hx, ⟨hx, k, hk, by rw [huser]; rfl, .inr ⟨x', relation, huser, htrue⟩⟩, ho⟩

/-- A step through a tupleset. -/
theorem ttu_expands {type : String}
    (hkind : t.edge.edgeType = .ttu) (hto : t.edge.toNode = .specificTypeAndRelation type relation)
    (htype : t.edge.tuplesetRelation.1 = t.edge.relationDefinition.1)
    (hrest : t.relationStack.drop 1 = rest) :
    q.Expands hg t (q.dispatch t.edge.toNode (⟨type, relation, ""⟩
      :: ⟨t.edge.tuplesetRelation.1, t.edge.tuplesetRelation.2, ""⟩ :: rest) t.frames) := by
  refine dispatch_expands h ht (by rw [hto]; rfl) (r := (type, relation))
    (by rw [hto]; exact relation_edges h type relation) fun o => ?_
  have hfilter : ∀ x' : Object, foundFilter
      (⟨t.edge.tuplesetRelation.1, t.edge.tuplesetRelation.2, ""⟩ : Entry) x' = .object x' :=
    fun x' => if_pos rfl
  simp only [mem_climb_cons, hfilter]
  unfold Means
  rw [hrest, htype]
  simp only [edgeTrue_ttu hkind, hto]
  constructor
  · rintro ⟨x, hx, ⟨-, k, hk, x', huser, hnode, htrue⟩, ho⟩
    exact ⟨x', hnode.symm, htrue, x, hx, ⟨k, hk, huser⟩, ho⟩
  · rintro ⟨x', hx', htrue, x, hx, ⟨k, hk, huser⟩, ho⟩
    exact ⟨x, hx, ⟨hx, k, hk, x', huser, hx'.symm, htrue⟩, ho⟩

/-- A step to another relation of the same object. -/
theorem relation_expands (hsame : t.edge.isTupleEdge = false)
    (hto : t.edge.toNode = .specificTypeAndRelation t.edge.relationDefinition.1 relation)
    (hrest : t.relationStack.drop 1 = rest) :
    q.Expands hg t (q.dispatch t.edge.toNode (entry t.edge.toNode :: rest) t.frames) := by
  have hentry : entry t.edge.toNode = ⟨t.edge.relationDefinition.1, relation, ""⟩ := by
    rw [hto]
    rfl
  rw [hentry]
  exact dispatch_expands h ht (by rw [hto]; rfl) (r := (t.edge.relationDefinition.1, relation))
    (by rw [hto]; exact relation_edges h _ _) (means_of_same hsame hrest)

/-- A step to an inner node of the same rewrite rule. -/
theorem inner_expands (hsame : t.edge.isTupleEdge = false)
    (hn : t.edge.toNode.isStrict = false) (hrel : isRelation t.edge.toNode = false) :
    q.Expands hg t (q.dispatch t.edge.toNode t.relationStack t.frames) := by
  obtain ⟨_, hstack⟩ := ht.stack
  rw [hstack]
  refine dispatch_expands h ht hn (r := t.edge.relationDefinition)
    (fun e he hfrom => h.inner _ ht.mem hrel e he hfrom) (means_of_same hsame ?_)
  rw [hstack]
  rfl

end

end Query

end Kengen.ReverseExpand
