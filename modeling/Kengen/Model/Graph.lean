import Kengen.Model.Data

/-!
# The weighted authorization model graph

The graph of a model as the third-party graph library hands it over: nodes for
types, typed wildcards, relations, operators and logical groupings, and edges
with the weight of every user type that can be reached through them.  How the
library computes weights, wildcards and cycle marks is not part of the
repository; what it promises about them is stated where a result needs it.

`flattenNode` is `FlattenNode` of `modelgraph/model.go`.  The source walks the
edges with an explicit stack in depth-first order; here the walk is a
recursion, bounded by the number of nodes.

* **`of_mem_flattenNode`** — every edge of the result has a weight for the user type and is
  not flattened further.
* **`flattenNode_skip`** — leaving out a recursive relation leaves out just its edges.
-/

namespace Kengen

open List

/-- The operator of an operator node. -/
inductive Operator where
  | union
  | intersection
  | exclusion
deriving DecidableEq, Repr

/-- A node of the graph, by its unique label. -/
inductive Node where
  | specificType (t : String)
  | specificTypeWildcard (t : String)
  | specificTypeAndRelation (t relation : String)
  | operatorNode (op : Operator) (uid : ℕ)
  | logicalDirectGrouping (uid : ℕ)
  | logicalTTUGrouping (uid : ℕ)
deriving DecidableEq, Repr

/-- The kinds of edges. -/
inductive EdgeType where
  | direct
  | rewrite
  | ttu
  | computed
  | directLogical
  | ttuLogical
deriving DecidableEq, Repr

/-- The node is resolved as the union of its flattened edges. -/
def Node.isUnionLike : Node → Bool
  | .specificTypeAndRelation _ _ => true
  | .logicalDirectGrouping _ => true
  | .logicalTTUGrouping _ => true
  | .operatorNode .union _ => true
  | _ => false

/-- An edge of the graph. -/
structure Edge where
  edgeType : EdgeType
  fromNode : Node
  toNode : Node
  relationDefinition : String × String
  tuplesetRelation : String × String := ("", "")
  conditions : List String := [noCond]
  weights : List (UserType × ℕ) := []
  wildcards : List String := []
  recursiveRelation : Option Node := none
  tupleCycle : Bool := false
deriving DecidableEq, Repr

/-- `GetWeight`. -/
def Edge.weight (e : Edge) (userType : UserType) : Option ℕ :=
  (e.weights.find? fun w => decide (w.1 = userType)).map Prod.snd

/-- The edge leads to the typed wildcard of the user type. -/
def Edge.hasWildcard (e : Edge) : UserType → Bool
  | .type t => decide (t ∈ e.wildcards)
  | .userset _ _ => false

/-- A node with what the library computed for it. -/
structure NodeInfo where
  node : Node
  weights : List (UserType × ℕ) := []
  wildcards : List String := []
  recursiveRelation : Option Node := none
  tupleCycle : Bool := false
deriving DecidableEq, Repr

/-- A weighted graph. -/
structure ModelGraph where
  nodes : List NodeInfo
  edges : List Edge

/-- `GetNodeByID`. -/
def ModelGraph.getNodeByID (g : ModelGraph) (n : Node) : Option NodeInfo :=
  g.nodes.find? fun i => decide (i.node = n)

/-- `GetEdgesFromNode`; a node without edges is not found. -/
def ModelGraph.getEdgesFromNode (g : ModelGraph) (n : Node) : List Edge :=
  g.edges.filter fun e => decide (e.fromNode = n)

variable {g : ModelGraph} {n : Node} {e : Edge}

theorem ModelGraph.mem_getEdgesFromNode :
    e ∈ g.getEdgesFromNode n ↔ e ∈ g.edges ∧ e.fromNode = n := by
  simp [ModelGraph.getEdgesFromNode]

/-- The edges that `FlattenNode` looks through. -/
def Edge.canFlatten (e : Edge) : Bool :=
  match e.edgeType with
  | .computed => true
  | .directLogical => true
  | .ttuLogical => true
  | .rewrite =>
    match e.toNode with
    | .specificTypeAndRelation _ _ => true
    | .operatorNode .union _ => true
    | _ => false
  | _ => false

/-- An edge that cannot lead to the user is dropped. -/
def Edge.leadsTo (e : Edge) (userType : UserType) (hasWildcardRequest : Bool) : Bool :=
  (e.weight userType).isSome && (!hasWildcardRequest || e.hasWildcard userType)

/-! ### Collecting results -/

/-- Concatenate the results of a fallible function over a list. -/
def collect {β γ : Type} (f : β → Except Err (List γ)) : List β → Except Err (List γ)
  | [] => .ok []
  | x :: xs =>
    match f x with
    | .error e => .error e
    | .ok r =>
      match collect f xs with
      | .error e => .error e
      | .ok rs => .ok (r ++ rs)

variable {β γ : Type} {f : β → Except Err (List γ)} {xs : List β} {rs : List γ}

theorem collect_cons {x : β} (h : collect f (x :: xs) = .ok rs) :
    ∃ r rs', f x = .ok r ∧ collect f xs = .ok rs' ∧ r ++ rs' = rs := by
  unfold collect at h
  split at h
  · cases h
  · rename_i r hx
    split at h
    · cases h
    · exact ⟨r, _, hx, ‹_›, Except.ok.inj h⟩

theorem mem_collect
    (h : collect f xs = .ok rs) (y : γ) : y ∈ rs ↔ ∃ x ∈ xs, ∃ r, f x = .ok r ∧ y ∈ r := by
  induction xs generalizing rs with
  | nil =>
    obtain rfl : rs = [] := by simpa [collect] using h.symm
    simp
  | cons x xs ih =>
    obtain ⟨r, _, hx, hxs, rfl⟩ := collect_cons h
    simp [hx, ih hxs]

theorem collect_ok (h : collect f xs = .ok rs) : ∀ x ∈ xs, ∃ r, f x = .ok r := by
  induction xs generalizing rs with
  | nil => simp
  | cons x xs ih =>
    obtain ⟨r, _, hx, hxs, -⟩ := collect_cons h
    exact forall_mem_cons.mpr ⟨⟨r, hx⟩, ih hxs⟩

/-- A second function with more results, of which the first keeps those with a property. -/
theorem collect_keeps {f' : β → Except Err (List γ)} {p : γ → Prop} (h : collect f xs = .ok rs)
    (hf : ∀ x ∈ xs, ∀ r, f x = .ok r → ∃ r', f' x = .ok r' ∧ ∀ y, y ∈ r ↔ y ∈ r' ∧ p y) :
    ∃ rs', collect f' xs = .ok rs' ∧ ∀ y, y ∈ rs ↔ y ∈ rs' ∧ p y := by
  induction xs generalizing rs with
  | nil =>
    obtain rfl : rs = [] := by simpa [collect] using h.symm
    exact ⟨[], rfl, by simp⟩
  | cons x xs ih =>
    obtain ⟨r, rs', hx, hxs, rfl⟩ := collect_cons h
    obtain ⟨r₁, hr₁, hmem⟩ := hf x (by simp) r hx
    obtain ⟨rs₁, hrs₁, hmems⟩ := ih hxs fun y hy => hf y (by simp [hy])
    refine ⟨r₁ ++ rs₁, by simp [collect, hr₁, hrs₁], fun y => ?_⟩
    rw [mem_append, mem_append, hmem, hmems, or_and_right]

/-! ### `FlattenNode` -/

/-- The terminal edges below one edge, in depth-first order. -/
def flattenEdge (g : ModelGraph) (userType : UserType) (hasWildcardRequest : Bool)
    (skipRecursiveRelation : Option Node) : ℕ → Edge → Except Err (List Edge)
  | depth, e =>
    if e.leadsTo userType hasWildcardRequest then
      if e.canFlatten then
        match depth, g.getEdgesFromNode e.toNode with
        | 0, _ => .error .graphError
        | _, [] => .error .graphError
        | depth + 1, edges =>
          collect (flattenEdge g userType hasWildcardRequest skipRecursiveRelation depth) edges
      else if skipRecursiveRelation = none ∨ e.recursiveRelation ≠ skipRecursiveRelation then .ok [e]
      else .ok []
    else .ok []

/-- `FlattenNode`. -/
def flattenNode (g : ModelGraph) (userType : UserType) (hasWildcardRequest : Bool)
    (skipRecursiveRelation : Option Node) (n : Node) : Except Err (List Edge) :=
  match g.getEdgesFromNode n with
  | [] => .error .graphError
  | edges =>
    collect (flattenEdge g userType hasWildcardRequest skipRecursiveRelation g.nodes.length) edges

variable {userType : UserType} {wildcard : Bool} {skip : Option Node} {ls : List Edge}

/-- The three ways in which an edge is flattened. -/
theorem flattenEdge_eq_ok {depth : ℕ} :
    flattenEdge g userType wildcard skip depth e = .ok ls ↔
      (e.leadsTo userType wildcard = false ∧ ls = [])
      ∨ (e.leadsTo userType wildcard = true ∧ e.canFlatten = false
        ∧ ls = if skip = none ∨ e.recursiveRelation ≠ skip then [e] else [])
      ∨ (e.leadsTo userType wildcard = true ∧ e.canFlatten = true
        ∧ ∃ d, depth = d + 1 ∧ g.getEdgesFromNode e.toNode ≠ []
          ∧ collect (flattenEdge g userType wildcard skip d) (g.getEdgesFromNode e.toNode)
            = .ok ls) := by
  unfold flattenEdge
  rcases hl : e.leadsTo userType wildcard with _ | _
  · simp only [Bool.false_eq_true, if_false, Except.ok.injEq, true_and, false_and, or_false]
    exact eq_comm
  · rcases hc : e.canFlatten with _ | _
    · simp only [if_true, Bool.false_eq_true, Bool.true_eq_false, if_false, false_and, and_false,
        or_false, false_or, true_and]
      split <;> exact ⟨fun h => (Except.ok.inj h).symm, fun h => by rw [h]⟩
    · rcases depth with _ | d
      · simp
      · rcases hes : g.getEdgesFromNode e.toNode with _ | ⟨x, _⟩ <;> simp

/-- What is flattened, with a property that passes from an edge to the edges behind it. -/
theorem of_mem_flattenEdge {P : Edge → Prop} (hP : ∀ e ∈ g.edges, e.canFlatten = true → P e →
      ∀ e' ∈ g.getEdgesFromNode e.toNode, P e') {depth : ℕ} {l : Edge} (he : e ∈ g.edges) (hPe : P e)
    (h : flattenEdge g userType wildcard skip depth e = .ok ls) (hl : l ∈ ls) :
    l.leadsTo userType wildcard ∧ l.canFlatten = false ∧ l ∈ g.edges ∧ P l := by
  induction depth using Nat.strongRecOn generalizing e ls with
  | _ depth ih =>
    rcases flattenEdge_eq_ok.mp h with ⟨-, rfl⟩ | ⟨hleads, hc, rfl⟩ | ⟨-, hc, d, rfl, -, hd⟩
    · simp at hl
    · split at hl
      · rw [mem_singleton.mp hl]
        exact ⟨hleads, hc, he, hPe⟩
      · simp at hl
    · obtain ⟨e', hmem, _, he', hl'⟩ := (mem_collect hd l).mp hl
      exact ih d (Nat.lt_succ_self d) (ModelGraph.mem_getEdgesFromNode.mp hmem).1
        (hP e he hc hPe e' hmem) he' hl'

/-- Leaving out a recursive relation leaves out just its edges. -/
theorem flattenEdge_skip {rec : Node} (depth : ℕ) (e : Edge) (ls : List Edge)
    (h : flattenEdge g userType wildcard (some rec) depth e = .ok ls) :
    ∃ all, flattenEdge g userType wildcard none depth e = .ok all
      ∧ ∀ l, l ∈ ls ↔ l ∈ all ∧ l.recursiveRelation ≠ some rec := by
  induction depth using Nat.strongRecOn generalizing e ls with
  | _ depth ih =>
    rcases flattenEdge_eq_ok.mp h with ⟨hl, rfl⟩ | ⟨hl, hc, rfl⟩ | ⟨hl, hc, d, rfl, hne, hd⟩
    · exact ⟨[], flattenEdge_eq_ok.mpr (.inl ⟨hl, rfl⟩), by simp⟩
    · refine ⟨[e], flattenEdge_eq_ok.mpr (.inr (.inl ⟨hl, hc, by simp⟩)), fun l => ?_⟩
      by_cases hrec : e.recursiveRelation = some rec
      · simp only [reduceCtorEq, hrec, ne_eq, not_true_eq_false, or_false, if_false,
          not_mem_nil, mem_singleton, false_iff, not_and, not_not]
        rintro rfl
        exact hrec
      · simp only [reduceCtorEq, hrec, ne_eq, not_false_eq_true, or_true, if_true,
          mem_singleton]
        exact ⟨fun h => ⟨h, by rw [h]; exact hrec⟩, fun h => h.1⟩
    · obtain ⟨all, hall, hmem⟩ := collect_keeps hd
        fun e' _ ls' hls' => ih d (Nat.lt_succ_self d) e' ls' hls'
      exact ⟨all, flattenEdge_eq_ok.mpr (.inr (.inr ⟨hl, hc, d, rfl, hne, hall⟩)), hmem⟩

/-- What `flattenNode` goes through. -/
theorem flattenNode_eq_ok :
    flattenNode g userType wildcard skip n = .ok ls ↔ g.getEdgesFromNode n ≠ []
      ∧ collect (flattenEdge g userType wildcard skip g.nodes.length) (g.getEdgesFromNode n)
        = .ok ls := by
  unfold flattenNode
  rcases g.getEdgesFromNode n with _ | ⟨x, _⟩ <;> simp

theorem flattenNode_skip {rec : Node} (h : flattenNode g userType wildcard (some rec) n = .ok ls) :
    ∃ all, flattenNode g userType wildcard none n = .ok all
      ∧ ∀ l, l ∈ ls ↔ l ∈ all ∧ l.recursiveRelation ≠ some rec := by
  obtain ⟨hne, hls⟩ := flattenNode_eq_ok.mp h
  obtain ⟨all, hall, hmem⟩ := collect_keeps hls fun e _ ls' hls' => flattenEdge_skip _ e ls' hls'
  exact ⟨all, flattenNode_eq_ok.mpr ⟨hne, hall⟩, hmem⟩

/-- **Flattening keeps only edges that lead to the user type** and are terminal. -/
theorem of_mem_flattenNode {l : Edge} (h : flattenNode g userType wildcard skip n = .ok ls)
    (hl : l ∈ ls) : l.leadsTo userType wildcard ∧ l.canFlatten = false ∧ l ∈ g.edges := by
  obtain ⟨e, hmem, _, he, hl'⟩ := (mem_collect (flattenNode_eq_ok.mp h).2 l).mp hl
  obtain ⟨hleads, hc, hl, -⟩ := of_mem_flattenEdge (P := fun _ => True) (fun _ _ _ _ _ _ => trivial)
    (ModelGraph.mem_getEdgesFromNode.mp hmem).1 trivial he hl'
  exact ⟨hleads, hc, hl⟩

end Kengen
