import Kengen.Model.Guarantees

/-!
# Evaluating a model on an object

On a graph without cycles the least model can be computed: a node is evaluated by
recursion on its edges, with the tuples that assign the user and the objects that
an edge leads to.

* **`evalNode_iff`** — with enough depth the recursion computes the least model.
-/

namespace Kengen

open Stratified

variable (g : ModelGraph) (assigned : Edge → Object → Bool) (links : Edge → Object → List Object)

/-- An edge on an object, given the values of nodes. -/
def evalEdge (value : Node → Object → Bool) (e : Edge) (o : Object) : Bool :=
  if e.isTupleEdge then assigned e o || (links e o).any fun o' => value e.toNode o'
  else value e.toNode o

/-- A node on an object, down to a depth. -/
def evalNode : ℕ → Node → Object → Bool
  | 0, _, _ => false
  | depth + 1, n, o =>
    match n with
    | .operatorNode .intersection uid =>
      !(g.getEdgesFromNode (.operatorNode .intersection uid)).isEmpty
        && (g.getEdgesFromNode (.operatorNode .intersection uid)).all fun e =>
          evalEdge assigned links (evalNode depth) e o
    | .operatorNode .exclusion uid =>
      match g.getEdgesFromNode (.operatorNode .exclusion uid) with
      | base :: sub :: _ => evalEdge assigned links (evalNode depth) base o
          && !evalEdge assigned links (evalNode depth) sub o
      | _ => false
    | n => (g.getEdgesFromNode n).any fun e => evalEdge assigned links (evalNode depth) e o

variable {g assigned links}

/-- The facts that are given by functions. -/
def factsOf (assigned : Edge → Object → Bool) (links : Edge → Object → List Object) : Facts where
  assigned e o := assigned e o = true
  linked e o o' := o' ∈ links e o

/-- **With enough depth the recursion computes the least model.** -/
theorem evalNode_iff {hg : g.NoOperatorCycle} (number : Node → ℕ)
    (hnumber : ∀ e ∈ g.edges, number e.toNode < number e.fromNode) (depth : ℕ) (n : Node)
    (hn : number n < depth) (o : Object) :
    evalNode g assigned links depth n o = true
      ↔ (g.semantics hg (factsOf assigned links)).Holds (n, o) := by
  induction depth generalizing n o with
  | zero => omega
  | succ depth ih =>
    have hedge : ∀ e ∈ g.getEdgesFromNode n,
        (evalEdge assigned links (evalNode g assigned links depth) e o = true
          ↔ edgeBody (factsOf assigned links)
            (g.semantics hg (factsOf assigned links)).Holds e o) := by
      intro e he
      obtain ⟨hmem, hfrom⟩ := ModelGraph.mem_getEdgesFromNode.mp he
      have hlt := hnumber e hmem
      rw [hfrom] at hlt
      have hnode := ih e.toNode (by omega)
      unfold evalEdge edgeBody
      split
      · simp only [Bool.or_eq_true, List.any_eq_true, hnode]
        rfl
      · exact hnode o
    have hunion : ((g.getEdgesFromNode n).any fun e =>
          evalEdge assigned links (evalNode g assigned links depth) e o) = true
        ↔ ∃ e ∈ g.getEdgesFromNode n, edgeBody (factsOf assigned links)
          (g.semantics hg (factsOf assigned links)).Holds e o := by
      rw [List.any_eq_true]
      exact exists_congr fun e => and_congr_right (hedge e)
    cases n with
    | operatorNode op uid =>
      cases op with
      | union => exact hunion.trans (holds_union rfl o).symm
      | intersection =>
        rw [holds_intersection]
        simp only [evalNode, Bool.and_eq_true, Bool.not_eq_true', List.isEmpty_eq_false_iff,
          List.all_eq_true]
        exact and_congr_right fun _ => forall₂_congr hedge
      | exclusion =>
        simp only [evalNode]
        rcases hes : g.getEdgesFromNode (.operatorNode .exclusion uid) with
          _ | ⟨base, _ | ⟨sub, rest⟩⟩
        · rw [System.holds_iff_body]
          show _ ↔ nodeBody g _ _ _ (.operatorNode .exclusion uid, o)
          simp [nodeBody, hes]
        · rw [System.holds_iff_body]
          show _ ↔ nodeBody g _ _ _ (.operatorNode .exclusion uid, o)
          simp [nodeBody, hes]
        · rw [holds_exclusion hes, ← hedge base (by simp [hes]), ← hedge sub (by simp [hes])]
          simp
    | specificType | specificTypeWildcard | specificTypeAndRelation | logicalDirectGrouping
    | logicalTTUGrouping =>
      exact hunion.trans (holds_union rfl o).symm

end Kengen
