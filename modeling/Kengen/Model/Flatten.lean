import Kengen.Model.Semantics

/-!
# The walk of `FlattenNode`

`FlattenNode` keeps the edges that it has yet to look at on a stack, of which the last one is the
top, and pushes the edges of a node in reverse order.  What the graph holds is part of the state.

* `Walk.run` — the loop, for a number of rounds.
* `Asked.Below` — the edge starts at a node that is reached through edges that are flattened.
* **`flattenNode_exact`** — the loop ends with the edges that the recursion `flattenEdge` lists, in
  its order, and these are the terminal edges below the node.
* **`flattenNode_isolated`** — at a node without edges it fails.
-/

namespace Kengen

open List

/-- What `FlattenNode` is asked for. -/
structure Asked where
  userType : UserType
  hasWildcardRequest : Bool := false
  skipRecursiveRelation : Option Node := none

/-- The state of the loop. -/
structure Walk where
  graph : ModelGraph
  stack : List Edge
  result : List Edge := []

namespace Asked

variable (q : Asked)

/-- The edge is replaced by those of the node that it leads to. -/
def through (e : Edge) : Bool := e.leadsTo q.userType q.hasWildcardRequest && e.canFlatten

/-- The edge is listed. -/
def Kept (e : Edge) : Prop :=
  e.leadsTo q.userType q.hasWildcardRequest ∧ e.canFlatten = false
    ∧ (q.skipRecursiveRelation = none ∨ e.recursiveRelation ≠ q.skipRecursiveRelation)

/-- The loop, for at most so many rounds. -/
def run : ℕ → Walk → Option (Except Err Walk)
  | 0, _ => none
  | rounds + 1, s =>
    match s.stack.getLast? with
    | none => some (.ok s)
    | some edge =>
      let s := { s with stack := s.stack.dropLast }
      if !edge.leadsTo q.userType q.hasWildcardRequest then run rounds s
      else if edge.canFlatten then
        match s.graph.getEdgesFromNode edge.toNode with
        | [] => some (.error .graphError)
        | edges => run rounds { s with stack := s.stack ++ edges.reverse }
      else if q.skipRecursiveRelation = none
          ∨ edge.recursiveRelation ≠ q.skipRecursiveRelation then
        run rounds { s with result := s.result ++ [edge] }
      else run rounds s

/-- `FlattenNode`. -/
def flattenNode (g : ModelGraph) (n : Node) (rounds : ℕ) : Option (Except Err Walk) :=
  match g.getEdgesFromNode n with
  | [] => some (.error .graphError)
  | edges => q.run rounds { graph := g, stack := edges.reverse }

/-- The recursion, to a depth. -/
abbrev flatten (g : ModelGraph) (depth : ℕ) (es : List Edge) : Except Err (List Edge) :=
  collect (flattenEdge g q.userType q.hasWildcardRequest q.skipRecursiveRelation depth) es

/-- The edge starts at the node or at one below it. -/
def Below (g : ModelGraph) (n : Node) (l : Edge) : Prop :=
  ∃ m, (g.restrict q.through).Reaches n m ∧ l ∈ g.getEdgesFromNode m

variable {q} {g : ModelGraph} {n : Node}

theorem below_iff {l : Edge} : q.Below g n l ↔
    ∃ e ∈ g.getEdgesFromNode n, l = e ∨ q.through e ∧ q.Below g e.toNode l := by
  constructor
  · rintro ⟨m, hpath, hl⟩
    rcases Relation.ReflTransGen.cases_head hpath with rfl | ⟨_, ⟨e, he, rfl, rfl⟩, hrest⟩
    · exact ⟨l, hl, .inl rfl⟩
    · obtain ⟨hmem, hthrough⟩ := mem_filter.mp he
      exact ⟨e, ModelGraph.mem_getEdgesFromNode.mpr ⟨hmem, rfl⟩, .inr ⟨hthrough, m, hrest, hl⟩⟩
  · rintro ⟨e, he, rfl | ⟨hthrough, m, hrest, hl⟩⟩
    · exact ⟨n, .refl, he⟩
    · obtain ⟨hmem, hfrom⟩ := ModelGraph.mem_getEdgesFromNode.mp he
      exact ⟨m, .head ⟨e, mem_filter.mpr ⟨hmem, hthrough⟩, hfrom, rfl⟩ hrest, hl⟩

/-- An edge that is not looked through. -/
theorem run_terminal {e : Edge} (hthrough : q.through e = false) (depth : ℕ) :
    ∃ r, flattenEdge g q.userType q.hasWildcardRequest q.skipRecursiveRelation depth e = .ok r
      ∧ (∀ l, l ∈ r ↔ q.Kept l ∧ l = e)
      ∧ ∀ k stack result,
        q.run (k + 1) ⟨g, stack ++ [e], result⟩ = q.run k ⟨g, stack, result ++ r⟩ := by
  by_cases hleads : e.leadsTo q.userType q.hasWildcardRequest
  · have hflat : e.canFlatten = false := by simpa [through, hleads] using hthrough
    by_cases hskip : q.skipRecursiveRelation = none ∨ e.recursiveRelation ≠ q.skipRecursiveRelation
    · exact ⟨[e], flattenEdge_eq_ok.mpr (by simp [hleads, hflat, hskip]),
        fun l => by grind [Kept], by simp [run, hleads, hflat, hskip]⟩
    · exact ⟨[], flattenEdge_eq_ok.mpr (by simp [hleads, hflat, hskip]),
        fun l => by grind [Kept], by simp [run, hleads, hflat, hskip]⟩
  · exact ⟨[], flattenEdge_eq_ok.mpr (by simp [hleads]), fun l => by grind [Kept],
      by simp [run, hleads]⟩

/-- **The loop takes the edges on top of the stack for the terminal ones below them**, one after the
other, in the order of the recursion. -/
theorem run_edges (hacyclic : (g.restrict Edge.canFlatten).Acyclic) (depth : ℕ) (es : List Edge)
    (hes : ∀ e ∈ es, q.through e → (g.restrict Edge.canFlatten).rank e.toNode < depth
      ∧ ∀ m, (g.restrict q.through).Reaches e.toNode m → g.getEdgesFromNode m ≠ []) :
    ∃ ls rounds, q.flatten g depth es = .ok ls
      ∧ (∀ l, l ∈ ls ↔ q.Kept l ∧ ∃ e ∈ es, l = e ∨ q.through e ∧ q.Below g e.toNode l)
      ∧ ∀ k stack result, q.run (k + rounds) ⟨g, stack ++ es.reverse, result⟩
        = q.run k ⟨g, stack, result ++ ls⟩ := by
  match es with
  | [] => exact ⟨[], 0, rfl, by simp, by simp⟩
  | e :: es =>
    rw [forall_mem_cons] at hes
    obtain ⟨ls, rounds, hls, hmem, hrun⟩ := run_edges hacyclic depth es hes.2
    rcases hthrough : q.through e with _ | _
    · obtain ⟨r, hhead, hr, hstep⟩ := run_terminal (g := g) hthrough depth
      refine ⟨r ++ ls, rounds + 1, by simp [collect, hhead, hls], fun l => ?_,
        fun k stack result => ?_⟩
      · rw [mem_append, hr, hmem, exists_mem_cons_iff]
        grind
      · rw [reverse_cons, ← append_assoc, ← Nat.add_assoc, hstep, hrun, append_assoc]
    · -- the edges of the node that it leads to come on top, one level deeper
      obtain ⟨hrank, hne⟩ := hes.1 hthrough
      obtain ⟨hleads, hflat⟩ := Bool.and_eq_true_iff.mp hthrough
      obtain ⟨depth, rfl⟩ := Nat.exists_eq_succ_of_ne_zero (Nat.ne_zero_of_lt hrank)
      obtain ⟨below, rounds', hbelow, hmem', hrun'⟩ := run_edges hacyclic depth
        (g.getEdgesFromNode e.toNode) fun e' he' hthrough' => by
          obtain ⟨hedge, hfrom⟩ := ModelGraph.mem_getEdgesFromNode.mp he'
          have hflat' := mem_filter.mpr ⟨hedge, (Bool.and_eq_true_iff.mp hthrough').2⟩
          have hlt := ModelGraph.rank_lt_of_not_reaches _ e' hflat' (hacyclic e' hflat')
          rw [hfrom] at hlt
          exact ⟨by omega, fun m hm => hne m
            (.head ⟨e', mem_filter.mpr ⟨hedge, hthrough'⟩, hfrom, rfl⟩ hm)⟩
      obtain ⟨e', es', hnode⟩ := exists_cons_of_ne_nil (hne _ .refl)
      have hhead := flattenEdge_eq_ok.mpr
        (.inr (.inr ⟨hleads, hflat, depth, rfl, hne _ .refl, hbelow⟩))
      refine ⟨below ++ ls, rounds + rounds' + 1, by simp [collect, hhead, hls], fun l => ?_,
        fun k stack result => ?_⟩
      · have hself : q.Kept l → l ≠ e := by grind [Kept, through]
        rw [mem_append, hmem', hmem, ← below_iff, exists_mem_cons_iff]
        grind
      · rw [← append_assoc result, ← hrun, ← hrun', hnode]
        simp [run, hleads, hflat, hnode, ← Nat.add_assoc]
termination_by (depth, es.length)

/-- **The loop ends with the terminal edges below the node**, in the order of the recursion, and
leaves the edges of the graph as they are. -/
theorem flattenNode_exact (hacyclic : (g.restrict Edge.canFlatten).Acyclic)
    (hedges : ∀ m, (g.restrict q.through).Reaches n m → g.getEdgesFromNode m ≠ []) :
    ∃ ls rounds, (∀ k, q.flattenNode g n (k + rounds) = some (.ok ⟨g, [], ls⟩))
      ∧ (∃ depth, q.flatten g depth (g.getEdgesFromNode n) = .ok ls)
      ∧ ∀ l, l ∈ ls ↔ q.Kept l ∧ q.Below g n l := by
  obtain ⟨ls, rounds, hls, hmem, hrun⟩ := run_edges (q := q) hacyclic
    ((g.restrict Edge.canFlatten).edges.length + 1) (g.getEdgesFromNode n) fun e he hthrough => by
      obtain ⟨hedge, hfrom⟩ := ModelGraph.mem_getEdgesFromNode.mp he
      exact ⟨Nat.lt_succ_of_le (ModelGraph.rank_le_length _ _), fun m hm => hedges m
        (.head ⟨e, mem_filter.mpr ⟨hedge, hthrough⟩, hfrom, rfl⟩ hm)⟩
  obtain ⟨e, es, hnode⟩ := exists_cons_of_ne_nil (hedges n .refl)
  refine ⟨ls, rounds + 1, fun k => ?_, ⟨_, hls⟩, fun l => by rw [hmem, ← below_iff]⟩
  have hend := hrun (k + 1) [] []
  rw [hnode] at hend
  simp only [flattenNode, hnode]
  rw [show k + (rounds + 1) = k + 1 + rounds by omega, ← nil_append (e :: es).reverse, hend]
  simp [run]

namespace Nested

def member : Node := .specificTypeAndRelation "group" "member"

def choice : Node := .operatorNode .union 0

def other : Node := .specificTypeAndRelation "group" "other"

def edge (edgeType : EdgeType) (fromNode toNode : Node) (recursiveRelation : Option Node) : Edge where
  edgeType := edgeType
  fromNode := fromNode
  toNode := toNode
  relationDefinition := ("group", "member")
  weights := [(.type "user", 1)]
  recursiveRelation := recursiveRelation

/-- `define member: [user, group#member] or other` and `define other: [user]`. -/
def graph : ModelGraph where
  nodes := []
  edges := [edge .rewrite member choice none, edge .direct choice (.specificType "user") none,
    edge .direct choice member (some member), edge .computed choice other none,
    edge .direct other (.specificType "user") none]

/-- The recursion of `member` is left out. -/
def asked : Asked := { userType := .type "user", skipRecursiveRelation := some member }

end Nested

open Nested in
/-- The two assignments are listed, through the union and the computed relation. -/
theorem flattenNode_nested : ∃ ls rounds,
    (∀ k, asked.flattenNode graph member (k + rounds) = some (.ok ⟨graph, [], ls⟩))
      ∧ edge .direct choice (.specificType "user") none ∈ ls
      ∧ edge .direct other (.specificType "user") none ∈ ls
      ∧ edge .direct choice member (some member) ∉ ls := by
  have hstep : ∀ e ∈ (graph.restrict asked.through).edges,
      (graph.restrict asked.through).Reaches e.fromNode e.toNode :=
    fun e he => .single ⟨e, he, rfl, rfl⟩
  obtain ⟨ls, rounds, hrun, -, hmem⟩ := flattenNode_exact (q := asked) (g := graph) (n := member)
    (ModelGraph.acyclic_of_numbered (fun n => if n = member then 2 else if n = choice then 1 else 0)
      (by decide))
    fun m hm => by
      rcases Relation.ReflTransGen.cases_tail hm with rfl | ⟨_, _, e, he, _, rfl⟩
      · decide
      · exact (by decide : ∀ e ∈ (graph.restrict asked.through).edges,
          graph.getEdgesFromNode e.toNode ≠ []) e he
  have hchoice := hstep (edge .rewrite member choice none) (by decide)
  have hother := hstep (edge .computed choice other none) (by decide)
  refine ⟨ls, rounds, hrun, (hmem _).mpr ⟨by unfold Kept; decide, choice, hchoice, by decide⟩,
    (hmem _).mpr ⟨by unfold Kept; decide, other, hchoice.trans hother, by decide⟩, fun h => ?_⟩
  exact absurd ((hmem _).mp h).1 (by unfold Kept; decide)

/-- A relation to which a user is assigned. -/
def assignable : ModelGraph where
  nodes := []
  edges := [{
    edgeType := .direct
    fromNode := .specificTypeAndRelation "document" "viewer"
    toNode := .specificType "user"
    relationDefinition := ("document", "viewer")
    weights := [(.type "user", 1)] }]

/-- **A type has no edges**, and the walk fails there. -/
theorem flattenNode_isolated : (assignable.restrict Edge.canFlatten).Acyclic
    ∧ ∀ rounds, flattenNode { userType := .type "user" } assignable (.specificType "user") rounds
      = some (.error .graphError) :=
  ⟨fun _ he => absurd he not_mem_nil, fun _ => rfl⟩

end Asked

end Kengen
