import Kengen.ReverseExpand.Steps

/-!
# Candidates of intersections and exclusions

An intersection expands the edge of lowest weight and checks the objects it finds
against the other edges; an exclusion expands the base and checks against the
excluded edge.

* **`lowest_spec`** — the edge of lowest weight and its siblings are all edges of the
  intersection.
* **`internalEdges_spec`** — the edges that are expanded for an operand.
* **`candidates_expands`** — expanding an operand on the top of the stack, with a Check
  before the rest of the stack.
* `checkedEdges`, `Builds` — the operands that a task hands to `ConstructUserset`, and that their
  rule can be built.
* **`intersection_expands`**, **`exclusion_expands`** — the two handlers.
* **`expandEdge_means`** — one step of the traversal, for every kind of edge.
-/

namespace Kengen.ReverseExpand

open List

namespace Query

variable {q : Query} {hg : q.graph.NoOperatorCycle}

/-! ### The edge of lowest weight -/

theorem lowest_perm (es : List Edge) (found : IntersectionEdges) :
    ((es.foldl q.lowestStep found).lowestEdge.toList
      ++ (es.foldl q.lowestStep found).siblingEdges).Perm
        (found.lowestEdge.toList ++ found.siblingEdges ++ es) := by
  induction es generalizing found with
  | nil => simp
  | cons e es ih =>
    refine (ih (q.lowestStep found e)).trans ?_
    rw [append_cons _ e es]
    refine List.Perm.append_right es ?_
    unfold lowestStep
    split
    · show (([e] ++ (found.siblingEdges ++ found.lowestEdge.toList))).Perm _
      exact perm_append_comm.trans (perm_append_comm.append_right [e])
    · show (found.lowestEdge.toList ++ (found.siblingEdges ++ [e])).Perm _
      rw [append_assoc]

theorem lowest_isSome (es : List Edge) (found : IntersectionEdges)
    (h : found.lowestEdge.isSome) : (es.foldl q.lowestStep found).lowestEdge.isSome := by
  induction es generalizing found with
  | nil => exact h
  | cons e es ih =>
    refine ih (q.lowestStep found e) ?_
    unfold lowestStep
    split
    · rfl
    · exact h

/-- **The edge of lowest weight and its siblings** are the edges of the intersection. -/
theorem lowest_spec {es : List Edge} (hlen : 2 ≤ es.length) (hfin : ∀ e ∈ es, q.finite e) :
    ∃ lowest sibling siblings w, q.getEdgesForIntersection es
        = some ⟨w, some lowest, sibling :: siblings⟩
      ∧ ∀ e, e ∈ es ↔ e = lowest ∨ e ∈ sibling :: siblings := by
  have hsome : (es.foldl q.lowestStep ⟨infinite, none, []⟩).lowestEdge.isSome := by
    match es, hlen with
    | e :: es, _ =>
      refine lowest_isSome es (q.lowestStep ⟨infinite, none, []⟩ e) ?_
      have hweight : (e.weight q.userType).getD 0 < infinite := by
        have := hfin e mem_cons_self
        unfold finite at this
        split at this
        · cases this
        rename_i w hw
        rw [hw]
        exact of_decide_eq_true this
      unfold lowestStep
      rw [if_pos hweight]
      rfl
  have hperm := lowest_perm (q := q) es ⟨infinite, none, []⟩
  obtain ⟨lowest, hlowest⟩ := Option.isSome_iff_exists.mp hsome
  cases hfound : es.foldl q.lowestStep ⟨infinite, none, []⟩ with
  | mk w edge siblings =>
    rw [hfound] at hlowest hperm
    obtain rfl : edge = some lowest := hlowest
    have hperm : (lowest :: siblings).Perm es := hperm
    match siblings, hperm with
    | [], hperm =>
      have := hperm.length_eq
      simp at this
      omega
    | sibling :: siblings, hperm =>
      refine ⟨lowest, sibling, siblings, w, ?_, fun e => ?_⟩
      · unfold getEdgesForIntersection
        rw [if_neg (Nat.not_lt.mpr hlen), hfound]
      · rw [← hperm.mem_iff, mem_cons]

/-! ### The edges that are expanded for an operand -/

variable {e : Edge}

variable (q hg) in
/-- **Edges that stand for an operand**: where it is true, one of them is. -/
structure StandFor (e : Edge) (es : List Edge) : Prop where
  kept : ∀ e' ∈ es, e' ∈ q.graph.edges ∧ q.finite e' ∧ e'.relationDefinition = e.relationDefinition
    ∧ q.rank e'.fromNode ≤ q.rank e.fromNode
  true_iff : ∀ o, q.edgeTrue hg e o ↔ ∃ e' ∈ es, q.edgeTrue hg e' o

/-- The edges of a grouping, which leads to the user type. -/
theorem connectedEdges_spec (hg : q.graph.NoOperatorCycle) (h : q.Guarantees)
    (he : e ∈ q.graph.edges) (hfin : q.finite e) (hsame : e.isTupleEdge = false)
    (hn : e.toNode.isStrict = false) (hop : isOperator e.toNode = false)
    (hrel : isRelation e.toNode = false) :
    ∃ es, q.getConnectedEdges e.toNode = some es ∧ q.StandFor hg e es := by
  have hgather := gather_of_path h he hsame (path_of_finite hfin)
  obtain ⟨i, hi⟩ := Option.isSome_iff_exists.mp (h.found e he)
  have hne : q.graph.getEdgesFromNode e.toNode ≠ [] := by
    intro hnil
    unfold ModelGraph.gather at hgather
    split at hgather
    · rename_i hto
      rw [hto] at hop
      cases hop
    · rename_i hto
      rw [hto] at hop
      cases hop
    · rw [hnil] at hgather
      cases hgather
  have hconn : q.getConnectedEdges e.toNode
      = some ((q.graph.getEdgesFromNode e.toNode).filter q.hasPathTo) := by
    rw [getConnectedEdges, getEdgesFromNode_eq h hi hgather hne]
    rfl
  refine ⟨_, hconn, fun e' he' => ?_, fun o => ?_⟩
  · obtain ⟨hmem, hpath⟩ := mem_filter.mp he'
    obtain ⟨hmem', hfrom⟩ := ModelGraph.mem_getEdgesFromNode.mp hmem
    have hexp : e' ∈ expandedEdges q.graph e.toNode := by
      rw [expandedEdges_eq]
      · exact hmem
      · intro uid huid
        rw [huid] at hn
        cases hn
    refine ⟨hmem', finite_below h he hfin hexp hpath, h.inner e he hrel e' hmem' hfrom, ?_⟩
    rw [hfrom]
    exact (rank_lt h he hfin).le
  · rw [edgeTrue_of_same hsame, nodeTrue_connected h hn (h.found e he), hconn]
    rfl

/-- **The edges expanded for an operand** stand for it. -/
theorem internalEdges_spec (hg : q.graph.NoOperatorCycle) (h : q.Guarantees)
    (he : e ∈ q.graph.edges) (hfin : q.finite e) :
    ∃ es, q.getInternalEdges e = some es ∧ q.StandFor hg e es := by
  have hsingle : q.getInternalEdges e = some [e] →
      ∃ es, q.getInternalEdges e = some es ∧ q.StandFor hg e es := by
    refine fun hes => ⟨[e], hes, fun e' he' => ?_, fun o => by simp⟩
    obtain rfl := mem_singleton.mp he'
    exact ⟨he, hfin, rfl, Nat.le_refl _⟩
  cases (h.shaped e he).shape with
  | type t hkind | wildcard t hkind | userset t r hkind | ttu t r hkind | operator op uid hkind =>
    exact hsingle (by simp [getInternalEdges, hkind])
  | relation r hkind =>
    refine hsingle ?_
    rcases hkind with hkind | hkind <;> simp [getInternalEdges, hkind]
  | directs uid hkind hto | ttus uid hkind hto =>
    have hes : q.getInternalEdges e = q.getConnectedEdges e.toNode := by
      simp [getInternalEdges, hkind]
    rw [hes]
    exact connectedEdges_spec hg h he hfin (by simp [Edge.isTupleEdge, hkind]) (by rw [hto]; rfl)
      (by rw [hto]; rfl) (by rw [hto]; rfl)

/-! ### Candidates -/

/-- A Check of the frame's edges. -/
theorem passes_iff (h : q.Guarantees) (hexact : q.ExactCheck hg) {es : List Edge}
    {r : String × String}
    (hes : ∀ e ∈ es, e ∈ q.graph.edges ∧ isOperator e.fromNode ∧ e.relationDefinition = r)
    (hsome : (q.userset es).isSome) {isAllowed : Bool} {stack : List Entry} {o : Object}
    (ho : o.type = r.1) :
    q.passes ⟨es, r.2, isAllowed, stack⟩ o = true
      ↔ ((∀ e ∈ es, q.edgeTrue hg e o) ↔ isAllowed = true) := by
  obtain ⟨u, hu⟩ := Option.isSome_iff_exists.mp hsome
  unfold passes
  rw [hu, ← userset_meets h hes hu ho, ← hexact u r.2 o]
  simp only [beq_iff_eq]
  exact Bool.eq_iff_iff

variable {t : Task}

/-- The edges that stand for an operand are expanded with another stack and other frames. -/
theorem operand_expands (h : q.Guarantees) (ht : q.Good t) {es : List Edge}
    (hes : q.StandFor hg e es) (hfrom : e.fromNode = t.edge.toNode)
    (hdef : e.relationDefinition = t.edge.relationDefinition) {rest : List Entry}
    {frames : List Frame} (hmeans : ∀ x o, x.type = t.edge.relationDefinition.1 →
      (q.edgeTrue hg t.edge x
          ∧ o ∈ (q.climb (t.relationStack.drop 1) x).flatMap (q.deliver t.frames)
        ↔ q.edgeTrue hg e x ∧ o ∈ (q.climb rest x).flatMap (q.deliver frames))) :
    q.Expands hg t (es.map fun e' => ⟨e',
      ⟨t.edge.relationDefinition.1, t.edge.relationDefinition.2, ""⟩ :: rest, frames⟩) := by
  refine ⟨fun t' ht' => ?_, fun o => ?_⟩
  · obtain ⟨e', he', rfl⟩ := mem_map.mp ht'
    obtain ⟨hmem, hfin, hdef', hrank⟩ := hes.kept e' he'
    have hlt := rank_lt h ht.mem ht.finite
    rw [← hfrom] at hlt
    exact ⟨⟨hmem, hfin, rest, by rw [hdef', hdef]⟩, hrank.trans_lt hlt⟩
  · have htype : ∀ e' ∈ es, e'.relationDefinition.1 = t.edge.relationDefinition.1 :=
      fun e' he' => by rw [(hes.kept e' he').2.2.1, hdef]
    constructor
    · rintro ⟨x, hx, hedge⟩
      obtain ⟨hedge, ho⟩ := (hmeans x o hx).mp hedge
      obtain ⟨e', he', hedge⟩ := (hes.true_iff x).mp hedge
      exact ⟨_, mem_map.mpr ⟨e', he', rfl⟩, x, hx.trans (htype e' he').symm, hedge, ho⟩
    · rintro ⟨t', ht', x, hx, hedge, ho⟩
      obtain ⟨e', he', rfl⟩ := mem_map.mp ht'
      have hx := hx.trans (htype e' he')
      exact ⟨x, hx, (hmeans x o hx).mpr ⟨(hes.true_iff x).mpr ⟨e', he', hedge⟩, ho⟩⟩

/-- **Candidates**: an operand is expanded on the top of the stack, and what is found is
checked before it climbs the rest. -/
theorem candidates_expands (h : q.Guarantees) (ht : q.Good t)
    (he : e ∈ q.graph.edges) (hfin : q.finite e) (hfrom : e.fromNode = t.edge.toNode)
    (hdef : e.relationDefinition = t.edge.relationDefinition) {checked : List Edge}
    {relation : String} {isAllowed : Bool}
    (hmeans : ∀ x : Object, x.type = t.edge.relationDefinition.1 → (q.edgeTrue hg t.edge x
      ↔ q.edgeTrue hg e x
        ∧ q.passes ⟨checked, relation, isAllowed, t.relationStack.drop 1⟩ x = true)) :
    ∃ ts, q.findCandidates t e checked relation isAllowed = some ts ∧ q.Expands hg t ts := by
  obtain ⟨_, hes, hstand⟩ := internalEdges_spec hg h he hfin
  obtain ⟨rest, hstack⟩ := ht.stack
  have htop : t.relationStack.take 1
      = [⟨t.edge.relationDefinition.1, t.edge.relationDefinition.2, ""⟩] := by rw [hstack]; rfl
  refine ⟨_, by rw [findCandidates, hes, htop]; rfl,
    operand_expands h ht hstand hfrom hdef fun x o hx => ?_⟩
  rw [hmeans x hx, and_assoc]
  refine and_congr_right fun _ => ?_
  simp only [climb, flatMap_cons, flatMap_nil, append_nil, deliver]
  split
  · exact and_iff_right ‹_›
  · exact iff_of_false (fun hpass => absurd hpass.1 ‹_›) not_mem_nil

/-! ### The handlers -/

variable (q) in
/-- The operands that a task hands to `ConstructUserset`. -/
def checkedEdges (t : Task) : List Edge :=
  match t.edge.edgeType, t.edge.toNode with
  | .rewrite, .operatorNode .intersection uid =>
    match (q.getEdgesFromNode (.operatorNode .intersection uid)).bind q.getEdgesForIntersection with
    | some found => found.siblingEdges
    | none => []
  | .rewrite, .operatorNode .exclusion uid =>
    match (q.getEdgesFromNode (.operatorNode .exclusion uid)).bind q.getEdgesForExclusion with
    | some (_, some excluded) => [excluded]
    | _ => []
  | _, _ => []

variable (q) in
/-- The rule that the candidates of a task are checked with can be built. -/
def Builds (t : Task) : Prop := q.checkedEdges t ≠ [] → (q.userset (q.checkedEdges t)).isSome

variable {uid : ℕ}

/-- An operator that leads to the user type has its edges. -/
theorem operatorEdges (h : q.Guarantees) (he : e ∈ q.graph.edges) (hfin : q.finite e)
    (hsame : e.isTupleEdge = false) {op : Operator} (hto : e.toNode = .operatorNode op uid)
    (hne : q.graph.getEdgesFromNode (.operatorNode op uid) ≠ []) :
    q.getEdgesFromNode (.operatorNode op uid)
      = some (q.graph.getEdgesFromNode (.operatorNode op uid)) := by
  have hgather := gather_of_path h he hsame (path_of_finite hfin)
  obtain ⟨i, hi⟩ := Option.isSome_iff_exists.mp (h.found e he)
  rw [hto] at hi hgather
  exact getEdgesFromNode_eq h hi hgather hne

/-- Every operand of an intersection that leads to the user type does so. -/
theorem intersection_paths (h : q.Guarantees) (he : e ∈ q.graph.edges) (hfin : q.finite e)
    (hsame : e.isTupleEdge = false) (hto : e.toNode = .operatorNode .intersection uid) :
    ∀ e' ∈ q.graph.getEdgesFromNode (.operatorNode .intersection uid), q.finite e' := by
  intro e' he'
  have hgather := gather_of_path h he hsame (path_of_finite hfin)
  rw [hto, ModelGraph.gather] at hgather
  have hpath : q.hasPathTo e' = true := by
    rw [hasPathTo, Edge.weight_isSome]
    rcases hes : q.graph.getEdgesFromNode (.operatorNode .intersection uid) with _ | ⟨_, _⟩
    · rw [hes] at he'
      cases he'
    · simp only [hes, mem_filter, all_eq_true, decide_eq_true_eq] at hgather
      rw [hes] at he'
      rcases mem_cons.mp he' with rfl | he'
      · exact hgather.1
      · exact hgather.2 e' he'
  refine finite_below h he hfin ?_ hpath
  rw [hto, expandedEdges_eq (by intro _ h; cases h)]
  exact he'

section

variable (h : q.Guarantees) (hbuilds : q.Builds t) (hexact : q.ExactCheck hg) (ht : q.Good t)
include h hbuilds hexact ht

/-- **The intersection handler.** -/
theorem intersection_expands (hkind : t.edge.edgeType = .rewrite)
    (hto : t.edge.toNode = .operatorNode .intersection uid) :
    ∃ ts, q.intersectionHandler t (.operatorNode .intersection uid) = some ts
      ∧ q.Expands hg t ts := by
  have hsame : t.edge.isTupleEdge = false := by simp [Edge.isTupleEdge, hkind]
  have hlen : 2 ≤ (q.graph.getEdgesFromNode (.operatorNode .intersection uid)).length := by
    have := h.operands t.edge ht.mem
    rwa [hto] at this
  have hne : q.graph.getEdgesFromNode (.operatorNode .intersection uid) ≠ [] :=
    ne_nil_of_length_pos (by omega)
  have hfin := intersection_paths h ht.mem ht.finite hsame hto
  obtain ⟨lowest, sibling, siblings, w, hlowest, hmem⟩ := lowest_spec hlen hfin
  have hspec : ∀ e, e = lowest ∨ e ∈ sibling :: siblings → e ∈ q.graph.edges
      ∧ isOperator e.fromNode ∧ e.relationDefinition = t.edge.relationDefinition :=
    fun e he => operand_spec h ht.mem hto ((hmem e).mpr he)
  have hsibs : ∀ e ∈ sibling :: siblings, e ∈ q.graph.edges ∧ isOperator e.fromNode
      ∧ e.relationDefinition = t.edge.relationDefinition := fun e he => hspec e (.inr he)
  have hfrom : ∀ e, e = lowest ∨ e ∈ sibling :: siblings →
      e.fromNode = .operatorNode .intersection uid :=
    fun e he => (ModelGraph.mem_getEdgesFromNode.mp ((hmem e).mpr he)).2
  have hchecked : q.checkedEdges t = sibling :: siblings := by
    simp [checkedEdges, hkind, hto, operatorEdges h ht.mem ht.finite hsame hto hne, hlowest]
  have hrule : (q.userset (sibling :: siblings)).isSome :=
    hchecked ▸ hbuilds (by simp [hchecked])
  have hrel : ∀ e ∈ sibling :: siblings, e.relationDefinition.2 = t.edge.relationDefinition.2 :=
    fun e he => by rw [(hsibs e he).2.2]
  unfold intersectionHandler
  rw [operatorEdges h ht.mem ht.finite hsame hto hne, Option.bind_some, hlowest]
  simp only
  rw [if_pos ⟨hrule, fun e he => (hrel e (mem_cons_of_mem _ he)).trans
    (hrel sibling mem_cons_self).symm⟩, hrel sibling mem_cons_self]
  obtain ⟨hlow, -, hdef⟩ := hspec lowest (.inl rfl)
  refine candidates_expands h ht hlow (hfin lowest ((hmem lowest).mpr (.inl rfl)))
    (by rw [hfrom lowest (.inl rfl), hto]) hdef fun x hx => ?_
  rw [passes_iff h hexact hsibs hrule hx, edgeTrue_of_same hsame, hto, nodeTrue_intersection hne]
  simp only [iff_true]
  constructor
  · exact fun hall => ⟨hall lowest ((hmem lowest).mpr (.inl rfl)),
      fun e he => hall e ((hmem e).mpr (.inr he))⟩
  · rintro ⟨hl, hs⟩ e he
    rcases (hmem e).mp he with rfl | he
    · exact hl
    · exact hs e he

/-- **The exclusion handler.** -/
theorem exclusion_expands (hkind : t.edge.edgeType = .rewrite)
    (hto : t.edge.toNode = .operatorNode .exclusion uid) :
    ∃ ts, q.exclusionHandler t (.operatorNode .exclusion uid) = some ts
      ∧ q.Expands hg t ts := by
  have hsame : t.edge.isTupleEdge = false := by simp [Edge.isTupleEdge, hkind]
  obtain ⟨base, sub, hes⟩ := exclusion_edges h ht.mem hto
  obtain ⟨hbase, hfound⟩ :=
    getEdgesForExclusion_isSome h ht.mem hto hsame (path_of_finite ht.finite) hes
  have hmemb : base ∈ q.graph.getEdgesFromNode (.operatorNode .exclusion uid) := by simp [hes]
  have hmems : sub ∈ q.graph.getEdgesFromNode (.operatorNode .exclusion uid) := by simp [hes]
  obtain ⟨hb, -, hdefb⟩ := operand_spec h ht.mem hto hmemb
  obtain ⟨hs, hops, hdefs⟩ := operand_spec h ht.mem hto hmems
  have hfromb := (ModelGraph.mem_getEdgesFromNode.mp hmemb).2
  have hfin : q.finite base := by
    refine finite_below h ht.mem ht.finite ?_ hbase
    rw [hto]
    show base ∈ (q.graph.getEdgesFromNode (.operatorNode .exclusion uid)).take 1
    rw [hes]
    exact mem_cons_self
  unfold exclusionHandler
  rw [operatorEdges h ht.mem ht.finite hsame hto (ne_nil_of_mem hmemb), Option.bind_some, hes,
    hfound]
  by_cases hsub : q.hasPathTo sub = true
  · simp only [hsub, if_true]
    have hchecked : q.checkedEdges t = [sub] := by
      simp [checkedEdges, hkind, hto, operatorEdges h ht.mem ht.finite hsame hto (ne_nil_of_mem hmemb),
        hes, hfound, hsub]
    have hrule : (q.userset [sub]).isSome := hchecked ▸ hbuilds (by simp [hchecked])
    rw [if_pos hrule, hdefs]
    refine candidates_expands h ht hb hfin (by rw [hfromb, hto]) hdefb fun x hx => ?_
    have hsubs : ∀ e ∈ [sub], e ∈ q.graph.edges ∧ isOperator e.fromNode
        ∧ e.relationDefinition = t.edge.relationDefinition := by
      intro e he
      obtain rfl := mem_singleton.mp he
      exact ⟨hs, hops, hdefs⟩
    rw [passes_iff h hexact hsubs hrule hx, edgeTrue_of_same hsame, hto, nodeTrue_exclusion hes]
    simp
  · -- the excluded edge does not lead to the user type: only the base counts
    rw [if_neg hsub]
    have hnot : ∀ x, ¬ q.edgeTrue hg sub x := fun x htrue => hsub ((path_of_true h).2 sub hs x htrue)
    obtain ⟨_, hint, hstand⟩ := internalEdges_spec hg h hb hfin
    obtain ⟨_, hstack⟩ := ht.stack
    refine ⟨_, by simp only [hint, hstack]; rfl,
      operand_expands h ht hstand (by rw [hfromb, hto]) hdefb fun x o hx => ?_⟩
    rw [edgeTrue_of_same hsame, hto, nodeTrue_exclusion hes, and_iff_left (hnot x), hstack]
    rfl

/-! ### One step -/

/-- **One step of the traversal** succeeds, and neither loses nor adds objects. -/
theorem expandEdge_means : ∃ ts, q.expandEdge t = some ts
      ∧ (∀ t' ∈ ts, q.Good t' ∧ q.rank t'.edge.fromNode < q.rank t.edge.fromNode)
      ∧ ∀ o, q.Means hg t o ↔ o ∈ q.results t ∨ ∃ t' ∈ ts, q.Means hg t' o := by
  obtain ⟨rest, hstack⟩ := ht.stack
  have hdrop : t.relationStack.drop 1 = rest := by rw [hstack]; rfl
  have hleaf : t.edge.edgeType = .direct → isRelation t.edge.toNode = false →
      ∀ o, q.Means hg t o ↔ o ∈ q.results t ∨ ∃ t' ∈ ([] : List Task), q.Means hg t' o := by
    intro hkind hrel o
    rw [leaf_means h ht hkind hrel]
    simp
  -- a step that sends nothing itself
  have hstep : (t.edge.edgeType = .direct → isRelation t.edge.toNode) →
      ∀ ts, q.Expands hg t ts →
        ((∀ t' ∈ ts, q.Good t' ∧ q.rank t'.edge.fromNode < q.rank t.edge.fromNode)
          ∧ ∀ o, q.Means hg t o ↔ o ∈ q.results t ∨ ∃ t' ∈ ts, q.Means hg t' o) := by
    intro hnil ts hts
    rw [results_eq_nil hnil]
    exact ⟨hts.1, fun o => (hts.2 o).trans (by simp)⟩
  cases (h.shaped t.edge ht.mem).shape with
  | type s hkind hto | wildcard s hkind hto =>
    refine ⟨[], by simp [expandEdge, hkind, hstack, hto], by simp, hleaf hkind (by rw [hto]; rfl)⟩
  | userset s r hkind hto hr =>
    refine ⟨_, by simp only [expandEdge, hkind, hstack, hto]; rfl,
      hstep (fun _ => by rw [hto]; rfl) _ ?_⟩
    have : q.Expands hg t _ := userset_expands h ht hkind hto hr hstack
    rwa [hto] at this
  | ttu s r hkind hto htype =>
    refine ⟨_, by simp only [expandEdge, hkind, hstack]; rfl,
      hstep (fun hd => by rw [hkind] at hd; cases hd) _ ?_⟩
    have : q.Expands hg t _ := ttu_expands h ht hkind hto htype hdrop
    have hentry : entry t.edge.toNode = ⟨s, r, ""⟩ := by rw [hto]; rfl
    rwa [← hentry] at this
  | relation r hkind hto =>
    have hsame : t.edge.isTupleEdge = false := by
      rcases hkind with hkind | hkind <;> simp [Edge.isTupleEdge, hkind]
    refine ⟨_, ?_, hstep (fun _ => by rw [hto]; rfl) _ (relation_expands h ht hsame hto hdrop)⟩
    rcases hkind with hkind | hkind <;>
      simp only [expandEdge, hkind, hto, replaceTop, hstack]
  | directs uid hkind hto | ttus uid hkind hto =>
    refine ⟨_, by simp only [expandEdge, hkind]; rfl,
      hstep (fun hd => by rw [hkind] at hd; cases hd) _ ?_⟩
    exact inner_expands h ht (by simp [Edge.isTupleEdge, hkind]) (by rw [hto]; rfl) (by rw [hto]; rfl)
  | operator op uid hkind hto =>
    have hsame : t.edge.isTupleEdge = false := by simp [Edge.isTupleEdge, hkind]
    have hnil : t.edge.edgeType = .direct → isRelation t.edge.toNode := fun hd => by
      rw [hkind] at hd
      cases hd
    cases op with
    | union =>
      refine ⟨_, by simp only [expandEdge, hkind, hto]; rfl, hstep hnil _ ?_⟩
      have : q.Expands hg t _ := inner_expands h ht hsame (by rw [hto]; rfl) (by rw [hto]; rfl)
      rwa [hto] at this
    | intersection =>
      obtain ⟨ts, hts, hexp⟩ := intersection_expands h hbuilds hexact ht hkind hto
      exact ⟨ts, by simp only [expandEdge, hkind, hto]; exact hts, hstep hnil ts hexp⟩
    | exclusion =>
      obtain ⟨ts, hts, hexp⟩ := exclusion_expands h hbuilds hexact ht hkind hto
      exact ⟨ts, by simp only [expandEdge, hkind, hto]; exact hts, hstep hnil ts hexp⟩

end

/-- A step that succeeds has built its rule. -/
theorem builds_of_expandEdge {ts : List Task} (hts : q.expandEdge t = some ts) : q.Builds t := by
  intro hne
  unfold checkedEdges at hne ⊢
  unfold expandEdge at hts
  split at hne
  · rename_i uid hkind hto
    simp only [hkind, hto, intersectionHandler] at hts ⊢
    split at hts
    · cases hts
    rename_i found hfound
    simp only [hfound] at hne ⊢
    split at hts
    · rename_i hsiblings
      split_ifs at hts with hrule
      rw [hsiblings]
      exact hrule.1
    · cases hts
  · rename_i uid hkind hto
    simp only [hkind, hto, exclusionHandler] at hts ⊢
    split at hne
    · rename_i hfound
      simp only [hfound] at hts ⊢
      split_ifs at hts with hrule
      exact hrule
    · exact absurd rfl hne
  · exact absurd rfl hne

theorem mem_of_checkedEdges {e : Edge} (he : e ∈ q.checkedEdges t) : e ∈ q.graph.edges := by
  have hgraph : ∀ {n es}, q.getEdgesFromNode n = some es → e ∈ es → e ∈ q.graph.edges :=
    fun hes hmem => (ModelGraph.mem_getEdgesFromNode.mp (mem_of_getEdgesFromNode hes hmem)).1
  unfold checkedEdges at he
  split at he
  · split at he
    · rename_i hfound
      obtain ⟨es, hes, hfound⟩ := Option.bind_eq_some_iff.mp hfound
      unfold getEdgesForIntersection at hfound
      split_ifs at hfound
      cases hfound
      refine hgraph hes ?_
      have hperm := lowest_perm (q := q) es ⟨infinite, none, []⟩
      simpa using hperm.subset (mem_append_right _ he)
    · cases he
  · split at he
    · rename_i hfound
      obtain ⟨es, hes, hfound⟩ := Option.bind_eq_some_iff.mp hfound
      obtain rfl := mem_singleton.mp he
      unfold getEdgesForExclusion at hfound
      split at hfound
      · split_ifs at hfound <;> cases hfound
        exact hgraph hes (by simp)
      · cases hfound
    · cases he
  · cases he

/-- Rules that can be built are built. -/
theorem builds_of_constructs (h : q.Guarantees) (hc : ∀ e ∈ q.checkedEdges t, q.Constructs e) :
    q.Builds t :=
  fun hne => userset_isSome h hne fun e he => ⟨mem_of_checkedEdges he, hc e he⟩

/-- What a good task sends is what it means. -/
theorem results_means (h : q.Guarantees) (ht : q.Good t) {o : Object} (ho : o ∈ q.results t) :
    q.Means hg t o := by
  by_cases hleaf : t.edge.edgeType = .direct ∧ isRelation t.edge.toNode = false
  · exact (leaf_means h ht hleaf.1 hleaf.2 o).mpr ho
  · rw [results_eq_nil fun hkind => by simpa [hkind] using hleaf] at ho
    cases ho

end Query

end Kengen.ReverseExpand
