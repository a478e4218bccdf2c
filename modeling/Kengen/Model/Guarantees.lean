import Kengen.Model.Semantics

/-!
# What the graph library promises

The library that builds the weighted graph is not part of the repository.  The
resolvers rely on what it computes: an edge has a weight for every user type
that can be reached through it, and lists the wildcards that can.

* **`leadsTo_of_holds`** — an edge that is true leads to the user, so an edge without
  a weight may be left out.
* **`holds_iff_flattenNode`** — a union-like node is the union of its terminal edges.
-/

namespace Kengen

open Stratified

/-- The user types an edge has a weight for. -/
def Edge.types (e : Edge) : List UserType := e.weights.map Prod.fst

variable {e : Edge} {ut : UserType}

theorem Edge.weight_isSome : (e.weight ut).isSome ↔ ut ∈ e.types := by
  rw [Edge.weight, Option.isSome_map, List.find?_isSome, Edge.types, List.mem_map]
  simp only [decide_eq_true_eq]

/-- What a node gets from its edges: all of them, those common to an intersection, those of the
base of an exclusion. -/
def ModelGraph.gather {α : Type} [DecidableEq α] (g : ModelGraph) (f : Edge → List α) (n : Node) :
    List α :=
  match n with
  | .operatorNode .intersection _ =>
    match g.getEdgesFromNode n with
    | [] => []
    | e :: es => (f e).filter fun a => es.all fun e' => decide (a ∈ f e')
  | .operatorNode .exclusion _ =>
    match g.getEdgesFromNode n with
    | [] => []
    | e :: _ => f e
  | _ => (g.getEdgesFromNode n).flatMap f

/-- A direct edge to a type, a typed wildcard or a userset reaches just that. -/
def Edge.WellTyped (e : Edge) : Prop :=
  match e.edgeType, e.toNode with
  | .direct, .specificType t => e.types = [.type t] ∧ e.wildcards = []
  | .direct, .specificTypeWildcard t => e.types = [.type t] ∧ e.wildcards = [t]
  | .direct, .specificTypeAndRelation t relation => .userset t relation ∈ e.types
  | _, _ => True

instance (e : Edge) : Decidable e.WellTyped := by
  unfold Edge.WellTyped
  split <;> infer_instance

/-- **The weights and wildcards are complete**, and only unions are flattened. -/
structure ModelGraph.Weighted (g : ModelGraph) : Prop where
  flat : ∀ e ∈ g.edges, e.canFlatten → e.toNode.isUnionLike
  direct : ∀ e ∈ g.edges, e.WellTyped
  edges : ∀ e ∈ g.edges, (∀ ut ∈ g.gather Edge.types e.toNode, ut ∈ e.types)
    ∧ ∀ t ∈ g.gather Edge.wildcards e.toNode, t ∈ e.wildcards
  nodes : ∀ i ∈ g.nodes, (∀ ut ∈ g.gather Edge.types i.node, ut ∈ i.weights.map Prod.fst)
    ∧ ∀ t ∈ g.gather Edge.wildcards i.node, t ∈ i.wildcards

instance (g : ModelGraph) : Decidable g.Weighted :=
  decidable_of_iff ((∀ e ∈ g.edges, e.canFlatten → e.toNode.isUnionLike)
    ∧ (∀ e ∈ g.edges, e.WellTyped)
    ∧ (∀ e ∈ g.edges, (∀ ut ∈ g.gather Edge.types e.toNode, ut ∈ e.types)
      ∧ ∀ t ∈ g.gather Edge.wildcards e.toNode, t ∈ e.wildcards)
    ∧ ∀ i ∈ g.nodes, (∀ ut ∈ g.gather Edge.types i.node, ut ∈ i.weights.map Prod.fst)
      ∧ ∀ t ∈ g.gather Edge.wildcards i.node, t ∈ i.wildcards)
    ⟨fun h => ⟨h.1, h.2.1, h.2.2.1, h.2.2.2⟩, fun h => ⟨h.flat, h.direct, h.edges, h.nodes⟩⟩

/-! ### Edges that lead to the user -/

/-- A node that can lead to the user. -/
def ModelGraph.NodeLeads (g : ModelGraph) (ut : UserType) (wildcard : Bool) (n : Node) : Prop :=
  match n with
  | .operatorNode .intersection _ => g.getEdgesFromNode n ≠ []
    ∧ ∀ e ∈ g.getEdgesFromNode n, e.leadsTo ut wildcard
  | .operatorNode .exclusion _ => ∃ base rest, g.getEdgesFromNode n = base :: rest
    ∧ base.leadsTo ut wildcard
  | _ => ∃ e ∈ g.getEdgesFromNode n, e.leadsTo ut wildcard

variable {wildcard : Bool} {n : Node}

/-- Something that the edges of a leading node have is gathered. -/
theorem mem_gather_of_nodeLeads {α : Type} [DecidableEq α] {g : ModelGraph} {f : Edge → List α}
    {a : α} (h : g.NodeLeads ut wildcard n) (hf : ∀ e, e.leadsTo ut wildcard → a ∈ f e) :
    a ∈ g.gather f n := by
  have hunion : (∃ e ∈ g.getEdgesFromNode n, e.leadsTo ut wildcard) →
      a ∈ (g.getEdgesFromNode n).flatMap f := by
    rintro ⟨e, he, hl⟩
    exact List.mem_flatMap.mpr ⟨e, he, hf e hl⟩
  cases n with
  | operatorNode op uid =>
    cases op with
    | union => exact hunion h
    | intersection =>
      obtain ⟨hne, hall⟩ := h
      simp only [ModelGraph.gather]
      rcases hes : g.getEdgesFromNode (.operatorNode .intersection uid) with _ | ⟨e, _⟩
      · exact absurd hes hne
      rw [hes] at hall
      simp only [List.mem_filter, List.all_eq_true, decide_eq_true_eq]
      exact ⟨hf e (hall e (by simp)), fun e' he' => hf e' (hall e' (by simp [he']))⟩
    | exclusion =>
      obtain ⟨base, _, hes, hl⟩ := h
      simp only [ModelGraph.gather, hes]
      exact hf base hl
  | specificType | specificTypeWildcard | specificTypeAndRelation | logicalDirectGrouping
  | logicalTTUGrouping => exact hunion h

/-- What a leading edge has. -/
theorem Edge.leadsTo_iff :
    e.leadsTo ut wildcard ↔ ut ∈ e.types ∧ (wildcard = true → e.hasWildcard ut) := by
  rw [Edge.leadsTo, Bool.and_eq_true, Edge.weight_isSome, Bool.or_eq_true]
  cases wildcard <;> simp

theorem hasWildcard_iff :
    e.hasWildcard ut ↔ ∃ t, ut = .type t ∧ t ∈ e.wildcards := by
  cases ut <;> simp [Edge.hasWildcard]

theorem ModelGraph.Weighted.edge_leads {g : ModelGraph} (hw : g.Weighted) (he : e ∈ g.edges)
    (h : g.NodeLeads ut wildcard e.toNode) : e.leadsTo ut wildcard := by
  rw [Edge.leadsTo_iff]
  refine ⟨(hw.edges e he).1 ut (mem_gather_of_nodeLeads h fun e' h' => (Edge.leadsTo_iff.mp h').1),
    fun hwild => ?_⟩
  cases ut with
  | type t =>
    refine hasWildcard_iff.mpr ⟨t, rfl, (hw.edges e he).2 t (mem_gather_of_nodeLeads h fun e' h' => ?_)⟩
    obtain ⟨t', ht', hmem⟩ := hasWildcard_iff.mp ((Edge.leadsTo_iff.mp h').2 hwild)
    obtain rfl := UserType.type.inj ht'
    exact hmem
  | userset t relation =>
    -- no edge leads to the wildcard of a userset
    have hnone : ∀ e' : Edge, ¬ e'.leadsTo (.userset t relation) true := by
      intro e' h'
      simp [Edge.leadsTo_iff, Edge.hasWildcard] at h'
    have hfalse := mem_gather_of_nodeLeads (f := fun _ => ([] : List ℕ)) (a := 0) h
      (fun e' h' => by rw [hwild] at h'; exact absurd h' (hnone e'))
    exfalso
    revert hfalse
    unfold ModelGraph.gather
    split
    · split <;> simp
    · split <;> simp
    · simp

variable {g : ModelGraph} {hg : g.NoOperatorCycle} {F : Facts}

/-- **An edge that is true leads to the user**, if the edges that assign the user do. -/
theorem leadsTo_of_holds (hw : g.Weighted)
    (hF : ∀ e ∈ g.edges, ∀ o, F.assigned e o → e.leadsTo ut wildcard) :
    (∀ x, (g.semantics hg F).Holds x → g.NodeLeads ut wildcard x.1)
      ∧ ∀ e ∈ g.edges, ∀ o, edgeBody F (g.semantics hg F).Holds e o → e.leadsTo ut wildcard := by
  have hedge : ∀ p : Node × Object → Prop, (∀ x, p x → g.NodeLeads ut wildcard x.1) →
      ∀ e ∈ g.edges, ∀ o, edgeBody F p e o → e.leadsTo ut wildcard := by
    intro p hp e he o hb
    unfold edgeBody at hb
    split at hb
    · rcases hb with h | ⟨_, -, h⟩
      · exact hF e he o h
      · exact hw.edge_leads he (hp _ h)
    · exact hw.edge_leads he (hp _ hb)
  have hnode : ∀ x, (g.semantics hg F).Holds x → g.NodeLeads ut wildcard x.1 := by
    refine System.holds_induction _ _ fun x _ hbody => ?_
    obtain ⟨n, o⟩ := x
    have hstep := hedge _ (fun x (hx : (g.semantics hg F).Holds x ∧ g.NodeLeads ut wildcard x.1) => hx.2)
    have hunion : (∃ e ∈ g.getEdgesFromNode n, edgeBody F
        (fun x => (g.semantics hg F).Holds x ∧ g.NodeLeads ut wildcard x.1) e o) →
        ∃ e ∈ g.getEdgesFromNode n, e.leadsTo ut wildcard := by
      rintro ⟨e, he, hb⟩
      exact ⟨e, he, hstep e (ModelGraph.mem_getEdgesFromNode.mp he).1 o hb⟩
    cases n with
    | operatorNode op uid =>
      cases op with
      | union => exact hunion hbody
      | intersection =>
        refine ⟨hbody.1, fun e he => ?_⟩
        exact hstep e (ModelGraph.mem_getEdgesFromNode.mp he).1 o (hbody.2 e he)
      | exclusion =>
        have hbody' : nodeBody g F _ _ (.operatorNode .exclusion uid, o) := hbody
        simp only [nodeBody] at hbody'
        rcases hes : g.getEdgesFromNode (.operatorNode .exclusion uid) with
          _ | ⟨base, _ | ⟨sub, rest⟩⟩
        · rw [hes] at hbody'
          exact absurd hbody' id
        · rw [hes] at hbody'
          exact absurd hbody' id
        · rw [hes] at hbody'
          have hmem : base ∈ g.getEdgesFromNode (.operatorNode .exclusion uid) := by simp [hes]
          exact ⟨base, sub :: rest, hes,
            hstep base (ModelGraph.mem_getEdgesFromNode.mp hmem).1 o hbody'.1⟩
    | specificType | specificTypeWildcard | specificTypeAndRelation | logicalDirectGrouping
    | logicalTTUGrouping => exact hunion hbody
  exact ⟨hnode, hedge _ hnode⟩

/-! ### The equation of each kind of node -/

theorem Node.isStrict_of_unionLike (h : n.isUnionLike) : n.isStrict = false := by
  unfold Node.isUnionLike at h
  split at h <;> first | rfl | cases h

theorem holds_union (hn : n.isStrict = false) (o : Object) :
    (g.semantics hg F).Holds (n, o)
      ↔ ∃ e ∈ g.getEdgesFromNode n, edgeBody F (g.semantics hg F).Holds e o := by
  rw [System.holds_iff_body]
  cases n with
  | operatorNode op =>
    cases op with
    | union => rfl
    | intersection | exclusion => cases hn
  | specificType | specificTypeWildcard | specificTypeAndRelation | logicalDirectGrouping => rfl
  | logicalTTUGrouping => rfl

theorem holds_intersection (uid : ℕ) (o : Object) :
    (g.semantics hg F).Holds (.operatorNode .intersection uid, o)
      ↔ g.getEdgesFromNode (.operatorNode .intersection uid) ≠ []
        ∧ ∀ e ∈ g.getEdgesFromNode (.operatorNode .intersection uid),
          edgeBody F (g.semantics hg F).Holds e o := by
  rw [System.holds_iff_body]
  rfl

theorem holds_exclusion {uid : ℕ} {base sub : Edge} {rest : List Edge}
    (hes : g.getEdgesFromNode (.operatorNode .exclusion uid) = base :: sub :: rest) (o : Object) :
    (g.semantics hg F).Holds (.operatorNode .exclusion uid, o)
      ↔ edgeBody F (g.semantics hg F).Holds base o
        ∧ ¬ edgeBody F (g.semantics hg F).Holds sub o := by
  rw [System.holds_iff_body]
  show nodeBody g F _ _ (.operatorNode .exclusion uid, o) ↔ _
  simp only [nodeBody, hes]

/-! ### Flattening -/

variable {o : Object}

theorem edgeBody_rewrite {p : Node × Object → Prop}
    (h : e.isTupleEdge = false) : edgeBody F p e o ↔ p (e.toNode, o) := by
  simp [edgeBody, h]

theorem Edge.isTupleEdge_of_canFlatten (h : e.canFlatten) : e.isTupleEdge = false := by
  unfold Edge.canFlatten at h
  unfold Edge.isTupleEdge
  split at h <;> simp_all

variable {ls : List Edge}

/-- Some edge is true if and only if some terminal edge below is. -/
theorem edges_iff_collect {f : Edge → Except Err (List Edge)} {P : Edge → Prop} {edges : List Edge}
    (h : collect f edges = .ok ls)
    (hf : ∀ e ∈ edges, ∀ ls', f e = .ok ls' → (P e ↔ ∃ l ∈ ls', P l)) :
    (∃ e ∈ edges, P e) ↔ ∃ l ∈ ls, P l := by
  constructor
  · rintro ⟨e, he, hp⟩
    obtain ⟨ls', hls'⟩ := collect_ok h e he
    obtain ⟨l, hl, hlp⟩ := (hf e he ls' hls').mp hp
    exact ⟨l, (mem_collect h l).mpr ⟨e, he, ls', hls', hl⟩, hlp⟩
  · rintro ⟨l, hl, hlp⟩
    obtain ⟨e, he, ls', hls', hl'⟩ := (mem_collect h l).mp hl
    exact ⟨e, he, (hf e he ls' hls').mpr ⟨l, hl', hlp⟩⟩

/-- An edge that leads to the user is the union of the terminal edges below it.  The induction
is on the depth of the flattening. -/
theorem edgeBody_iff_flattenEdge (hw : g.Weighted)
    (hleads : ∀ e ∈ g.edges, edgeBody F (g.semantics hg F).Holds e o → e.leadsTo ut wildcard)
    (depth : ℕ) (e : Edge) (he : e ∈ g.edges) (ls : List Edge)
    (h : flattenEdge g ut wildcard none depth e = .ok ls) :
    edgeBody F (g.semantics hg F).Holds e o
      ↔ ∃ l ∈ ls, edgeBody F (g.semantics hg F).Holds l o := by
  induction depth using Nat.strongRecOn generalizing e ls with
  | _ depth ih =>
    rcases flattenEdge_eq_ok.mp h with ⟨hl, rfl⟩ | ⟨-, -, rfl⟩ | ⟨-, hflat, d, rfl, -, hd⟩
    · have hnot : ¬ edgeBody F (g.semantics hg F).Holds e o := fun hb => by
        have := hleads e he hb
        rw [hl] at this
        cases this
      simpa using hnot
    · simp
    · rw [edgeBody_rewrite (Edge.isTupleEdge_of_canFlatten hflat),
        holds_union (Node.isStrict_of_unionLike (hw.flat e he hflat))]
      exact edges_iff_collect hd fun e' he' ls' hls' =>
        ih d (Nat.lt_succ_self d) e' (ModelGraph.mem_getEdgesFromNode.mp he').1 ls' hls'

/-- **A union-like node is the union of its terminal edges.** -/
theorem holds_iff_flattenNode (hw : g.Weighted)
    (hleads : ∀ e ∈ g.edges, edgeBody F (g.semantics hg F).Holds e o → e.leadsTo ut wildcard)
    (hn : n.isUnionLike) (h : flattenNode g ut wildcard none n = .ok ls) :
    (g.semantics hg F).Holds (n, o) ↔ ∃ l ∈ ls, edgeBody F (g.semantics hg F).Holds l o := by
  rw [holds_union (Node.isStrict_of_unionLike hn)]
  exact edges_iff_collect (flattenNode_eq_ok.mp h).2 fun e he ls' hls' =>
    edgeBody_iff_flattenEdge hw hleads _ e (ModelGraph.mem_getEdgesFromNode.mp he).1 ls' hls'

/-! ### Types of objects -/

/-- An edge out of a relation is defined by the relation. -/
def Edge.InRelation (e : Edge) : Prop :=
  match e.fromNode with
  | .specificTypeAndRelation t relation => e.relationDefinition = (t, relation)
  | _ => True

instance (e : Edge) : Decidable e.InRelation := by
  unfold Edge.InRelation
  split <;> infer_instance

def Node.isType : Node → Bool
  | .specificType _ => true
  | _ => false

/-- **Edges belong to relations.**  An edge to the same object stays in the type, the tupleset of
an edge belongs to its type, only direct edges end in a type, and the direct edges of a tupleset
do. -/
structure ModelGraph.Defined (g : ModelGraph) : Prop where
  relation : ∀ e ∈ g.edges, e.InRelation
  same : ∀ e ∈ g.edges, e.isTupleEdge = false → ∀ e' ∈ g.edges, e'.fromNode = e.toNode →
    e'.relationDefinition.1 = e.relationDefinition.1
  tupleset : ∀ e ∈ g.edges, e.edgeType = .ttu → e.tuplesetRelation.1 = e.relationDefinition.1
  type : ∀ e ∈ g.edges, e.toNode.isType → e.edgeType = .direct
  tuplesetType : ∀ e ∈ g.edges, e.edgeType = .ttu → ∀ e' ∈ g.edges, e'.edgeType = .direct →
    e'.relationDefinition = e.tuplesetRelation → e'.toNode.isType

/-- The node is about objects of a type. -/
def ModelGraph.HasType (g : ModelGraph) (n : Node) (t : String) : Prop :=
  ∀ e ∈ g.getEdgesFromNode n, e.relationDefinition.1 = t

theorem ModelGraph.Defined.hasType_relation (hd : g.Defined) (t relation : String) :
    g.HasType (.specificTypeAndRelation t relation) t := by
  intro e he
  obtain ⟨hmem, hfrom⟩ := ModelGraph.mem_getEdgesFromNode.mp he
  have := hd.relation e hmem
  rw [Edge.InRelation, hfrom] at this
  rw [this]

theorem ModelGraph.Defined.hasType_toNode (hd : g.Defined) (he : e ∈ g.edges)
    (hsame : e.isTupleEdge = false) : g.HasType e.toNode e.relationDefinition.1 := by
  intro e' he'
  obtain ⟨hmem, hfrom⟩ := ModelGraph.mem_getEdgesFromNode.mp he'
  exact hd.same e he hsame e' hmem hfrom

/-- Flattening stays in the type. -/
theorem type_of_mem_flattenNode (hd : g.Defined)
    {skip : Option Node} {t : String} (hn : g.HasType n t) {l : Edge}
    (h : flattenNode g ut wildcard skip n = .ok ls) (hl : l ∈ ls) : l.relationDefinition.1 = t := by
  obtain ⟨e, he, _, hls', hl'⟩ := (mem_collect (flattenNode_eq_ok.mp h).2 l).mp hl
  refine (of_mem_flattenEdge (P := (·.relationDefinition.1 = t)) (fun e he hflat ht e' he' => ?_)
    (ModelGraph.mem_getEdgesFromNode.mp he).1 (hn e he) hls' hl').2.2.2
  exact (hd.hasType_toNode he (Edge.isTupleEdge_of_canFlatten hflat) e' he').trans ht

/-! ### Comparing facts -/

theorem nodeBody_congr {F' : Facts} {p p' low low' : Node × Object → Prop}
    (hpos : ∀ e ∈ g.getEdgesFromNode n, (edgeBody F p e o ↔ edgeBody F' p' e o))
    (hneg : ∀ e ∈ g.getEdgesFromNode n, (edgeBody F low e o ↔ edgeBody F' low' e o)) :
    nodeBody g F p low (n, o) ↔ nodeBody g F' p' low' (n, o) := by
  have hunion : (∃ e ∈ g.getEdgesFromNode n, edgeBody F p e o)
      ↔ ∃ e ∈ g.getEdgesFromNode n, edgeBody F' p' e o :=
    exists_congr fun e => and_congr_right (hpos e)
  cases n with
  | operatorNode op uid =>
    cases op with
    | union => exact hunion
    | intersection => exact and_congr_right fun _ => forall₂_congr hpos
    | exclusion =>
      simp only [nodeBody]
      rcases hes : g.getEdgesFromNode (.operatorNode .exclusion uid) with
        _ | ⟨base, _ | ⟨sub, rest⟩⟩
      · rfl
      · rfl
      · rw [hes] at hpos hneg
        exact and_congr (hpos base (by simp)) (not_congr (hneg sub (by simp)))
  | specificType | specificTypeWildcard | specificTypeAndRelation | logicalDirectGrouping
  | logicalTTUGrouping => exact hunion

/-- **Links to objects on which the node does not hold change nothing**, among objects from which no
link leads out. -/
theorem holds_iff_of_links {F' : Facts} {T : Object → Prop}
    (hclosed : ∀ e ∈ g.edges, ∀ o o', T o → F'.linked e o o' → T o')
    (hassigned : ∀ e ∈ g.edges, ∀ o, T o → (F.assigned e o ↔ F'.assigned e o))
    (hlinked : ∀ e ∈ g.edges, ∀ o o', T o → F.linked e o o' → F'.linked e o o')
    (hextra : ∀ e ∈ g.edges, ∀ o o', T o → F'.linked e o o' →
      F.linked e o o' ∨ ¬ (g.semantics hg F').Holds (e.toNode, o')) (x : Node × Object)
    (hx : T x.2) : (g.semantics hg F).Holds x ↔ (g.semantics hg F').Holds x := by
  have hedge : ∀ p p' : Node × Object → Prop, (∀ y, T y.2 → (p y ↔ p' y)) →
      (∀ y, T y.2 → p y → (g.semantics hg F').Holds y) →
      ∀ e ∈ g.edges, ∀ o, T o → (edgeBody F p e o ↔ edgeBody F' p' e o) := by
    intro p p' hp hholds e he o ho
    unfold edgeBody
    split
    · refine or_congr (hassigned e he o ho) (exists_congr fun o' => ⟨?_, ?_⟩)
      · rintro ⟨hl, h⟩
        have hl' := hlinked e he o o' ho hl
        exact ⟨hl', (hp _ (hclosed e he o o' ho hl')).mp h⟩
      · rintro ⟨hl, h⟩
        have ho' := hclosed e he o o' ho hl
        have h := (hp (e.toNode, o') ho').mpr h
        exact ⟨(hextra e he o o' ho hl).resolve_right fun hn => hn (hholds _ ho' h), h⟩
    · exact hp (e.toNode, o) ho
  refine System.holds_congr _ _ (T ·.2) (fun p p' low x hx hp hholds hlow => ?_) x hx
  exact nodeBody_congr
    (fun e he => hedge p p' hp hholds e (ModelGraph.mem_getEdgesFromNode.mp he).1 x.2 hx)
    fun e he => hedge _ _ hlow (fun y hy h => (hlow y hy).mp h) e
      (ModelGraph.mem_getEdgesFromNode.mp he).1 x.2 hx

end Kengen
