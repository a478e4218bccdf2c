import Kengen.Lib.Stratified
import Kengen.Model.Request

/-!
# What a model means

The meaning of a model graph over given facts: which objects are related to the
user through a node.  A node is a union of its edges, an intersection, or an
exclusion; an edge is true by a tuple that assigns the user, by a tuple that
leads to another object, or by the node it points to on the same object.

Userset tuples and tuple-to-userset edges may close cycles, so the meaning is a
least model, stratified along the exclusions.  No intersection or exclusion
lies on a cycle of the graph, which the graph library rejects; the stratum of a
node is the number of nodes it reaches.

* **`ModelGraph.rank_le`**, **`ModelGraph.rank_lt`** — strata do not go up along an edge and
  go down out of an operator.
* **`ModelGraph.acyclic_of_numbered`** — a graph without cycles, from a numbering.
* **`ModelGraph.semantics`** — the least model of the equations of the nodes.
-/

namespace Kengen

open Stratified

/-- What the tuples say about a fixed user: on which objects an edge assigns the user, and which
objects it leads to. -/
structure Facts where
  assigned : Edge → Object → Prop
  linked : Edge → Object → Object → Prop

/-- The edge goes from an object to other objects through tuples. -/
def Edge.isTupleEdge (e : Edge) : Bool :=
  match e.edgeType with
  | .direct => true
  | .ttu => true
  | _ => false

/-- An edge on an object, given which nodes hold on which objects. -/
def edgeBody (F : Facts) (p : Node × Object → Prop) (e : Edge) (o : Object) : Prop :=
  if e.isTupleEdge then F.assigned e o ∨ ∃ o', F.linked e o o' ∧ p (e.toNode, o')
  else p (e.toNode, o)

variable (g : ModelGraph)

/-- A node on an object, given which nodes hold on which objects, positively and negatively. -/
def nodeBody (F : Facts) (p low : Node × Object → Prop) (x : Node × Object) :
    Prop :=
  match x.1 with
  | .operatorNode .intersection _ =>
    g.getEdgesFromNode x.1 ≠ [] ∧ ∀ e ∈ g.getEdgesFromNode x.1, edgeBody F p e x.2
  | .operatorNode .exclusion _ =>
    match g.getEdgesFromNode x.1 with
    | base :: sub :: _ => edgeBody F p base x.2 ∧ ¬ edgeBody F low sub x.2
    | _ => False
  | _ => ∃ e ∈ g.getEdgesFromNode x.1, edgeBody F p e x.2

theorem edgeBody_imp {F : Facts} {p p' : Node × Object → Prop} {e : Edge} {o : Object}
    (h : ∀ o', p (e.toNode, o') → p' (e.toNode, o')) (hb : edgeBody F p e o) :
    edgeBody F p' e o := by
  unfold edgeBody at hb ⊢
  split
  · rw [if_pos ‹_›] at hb
    exact hb.imp id fun ⟨o', hl, hp⟩ => ⟨o', hl, h o' hp⟩
  · rw [if_neg ‹_›] at hb
    exact h o hb

/-! ### Strata -/

/-- An intersection or exclusion node. -/
def Node.isStrict : Node → Bool
  | .operatorNode .intersection _ => true
  | .operatorNode .exclusion _ => true
  | _ => false

/-- The graph has a path from one node to the other. -/
def ModelGraph.Reaches : Node → Node → Prop :=
  Relation.ReflTransGen fun a b => ∃ e ∈ g.edges, e.fromNode = a ∧ e.toNode = b

/-- No intersection and no exclusion lies on a cycle. -/
def ModelGraph.NoOperatorCycle : Prop :=
  ∀ e ∈ g.edges, e.fromNode.isStrict → ¬ g.Reaches e.toNode e.fromNode

/-- The nodes that edges start from. -/
def ModelGraph.sources : List Node := g.edges.map Edge.fromNode

open Classical in
/-- The stratum of a node: how many nodes with edges it reaches. -/
noncomputable def ModelGraph.rank (n : Node) : ℕ :=
  (g.sources.toFinset.filter fun m => g.Reaches n m).card

theorem ModelGraph.rank_le (e : Edge) (he : e ∈ g.edges) :
    g.rank e.toNode ≤ g.rank e.fromNode := by
  classical
  apply Finset.card_le_card
  intro m hm
  rw [Finset.mem_filter] at hm ⊢
  exact ⟨hm.1, Relation.ReflTransGen.head ⟨e, he, rfl, rfl⟩ hm.2⟩

/-- The rank goes down along an edge that lies on no cycle. -/
theorem ModelGraph.rank_lt_of_not_reaches (e : Edge) (he : e ∈ g.edges)
    (hcycle : ¬ g.Reaches e.toNode e.fromNode) : g.rank e.toNode < g.rank e.fromNode := by
  classical
  apply Finset.card_lt_card
  rw [Finset.ssubset_iff_of_subset]
  · refine ⟨e.fromNode, ?_, ?_⟩
    · rw [Finset.mem_filter, List.mem_toFinset]
      exact ⟨List.mem_map_of_mem he, Relation.ReflTransGen.refl⟩
    · rw [Finset.mem_filter]
      exact fun h => hcycle h.2
  · intro m hm
    rw [Finset.mem_filter] at hm ⊢
    exact ⟨hm.1, Relation.ReflTransGen.head ⟨e, he, rfl, rfl⟩ hm.2⟩

theorem ModelGraph.rank_lt (hg : g.NoOperatorCycle) (e : Edge) (he : e ∈ g.edges)
    (hstrict : e.fromNode.isStrict) : g.rank e.toNode < g.rank e.fromNode :=
  g.rank_lt_of_not_reaches e he (hg e he hstrict)

theorem ModelGraph.rank_le_length (n : Node) : g.rank n ≤ g.edges.length := by
  classical
  calc (g.sources.toFinset.filter fun m => g.Reaches n m).card
      ≤ g.sources.toFinset.card := Finset.card_filter_le _ _
    _ ≤ g.sources.length := List.toFinset_card_le _
    _ = g.edges.length := List.length_map _

/-- No edge lies on a cycle. -/
def ModelGraph.Acyclic : Prop :=
  ∀ e ∈ g.edges, ¬ g.Reaches e.toNode e.fromNode

/-- The part of the graph with some of its edges. -/
def ModelGraph.restrict (keep : Edge → Bool) : ModelGraph :=
  { g with edges := g.edges.filter keep }

/-- **A graph whose nodes can be numbered downwards is acyclic.** -/
theorem ModelGraph.acyclic_of_numbered {g : ModelGraph} (number : Node → ℕ)
    (h : ∀ e ∈ g.edges, number e.toNode < number e.fromNode) : g.Acyclic := by
  have hreach : ∀ a b, g.Reaches a b → number b ≤ number a := by
    intro a b hab
    induction hab with
    | refl => exact Nat.le_refl _
    | tail _ hstep ih =>
      obtain ⟨e, he, rfl, rfl⟩ := hstep
      exact (h e he).le.trans ih
  intro e he hcycle
  exact absurd (h e he) (Nat.not_lt.mpr (hreach _ _ hcycle))

theorem ModelGraph.Acyclic.noOperatorCycle {g : ModelGraph} (h : g.Acyclic) :
    g.NoOperatorCycle := fun e he _ => h e he

/-- **The meaning of a model graph over given facts.** -/
noncomputable def ModelGraph.semantics (hg : g.NoOperatorCycle) (F : Facts) :
    System (Node × Object) where
  rank x := g.rank x.1
  body := nodeBody g F
  stratified := by
    intro p p' low low' x hp hlow hbody
    obtain ⟨n, o⟩ := x
    have hedge : ∀ e ∈ g.getEdgesFromNode n, edgeBody F p e o → edgeBody F p' e o := by
      intro e he
      obtain ⟨hmem, hfrom⟩ := ModelGraph.mem_getEdgesFromNode.mp he
      refine edgeBody_imp fun o' => hp (e.toNode, o') ?_
      have := g.rank_le e hmem
      rwa [hfrom] at this
    -- only an exclusion refers to a lower stratum negatively
    have hneg : n.isStrict → ∀ e ∈ g.getEdgesFromNode n, edgeBody F low' e o → edgeBody F low e o := by
      intro hstrict e he
      obtain ⟨hmem, hfrom⟩ := ModelGraph.mem_getEdgesFromNode.mp he
      refine edgeBody_imp fun o' => (hlow (e.toNode, o') ?_).mpr
      have := g.rank_lt hg e hmem (by rw [hfrom]; exact hstrict)
      rwa [hfrom] at this
    have hunion : (∃ e ∈ g.getEdgesFromNode n, edgeBody F p e o) →
        ∃ e ∈ g.getEdgesFromNode n, edgeBody F p' e o := by
      rintro ⟨e, he, hb⟩
      exact ⟨e, he, hedge e he hb⟩
    cases n with
    | operatorNode op uid =>
      cases op with
      | union => exact hunion hbody
      | intersection => exact ⟨hbody.1, fun e he => hedge e he (hbody.2 e he)⟩
      | exclusion =>
        simp only [nodeBody] at hbody ⊢
        rcases hes : g.getEdgesFromNode (.operatorNode .exclusion uid) with
          _ | ⟨base, _ | ⟨sub, rest⟩⟩
        · rw [hes] at hbody
          exact hbody
        · rw [hes] at hbody
          exact hbody
        · rw [hes] at hbody hedge hneg
          exact ⟨hedge base (by simp) hbody.1,
            fun h => hbody.2 (hneg rfl sub (by simp) h)⟩
    | specificType | specificTypeWildcard | specificTypeAndRelation | logicalDirectGrouping
    | logicalTTUGrouping => exact hunion hbody

end Kengen
