import Kengen.ReverseExpand.Meaning

/-!
# The rules that candidates are checked with

`ConstructUserset` turns the edges of an intersection or exclusion back into a
rewrite rule, which Check then evaluates on the candidates.

* **`constructUserset_meets`** — the rule means what the edge means.
* `Query.Constructs` — every exclusion and every tupleset of several types that
  `ConstructUserset` visits from an edge leads to the user type.  It fails where one does not, also
  if it is one operand of a union that does.
* **`constructUserset_isSome`** — then the rule can be built.
* **`userset_meets`**, **`userset_isSome`** — the same for several edges of one operator.

The induction is on the depth of the operators.  A direct assignment and a
tupleset stand for several edges of the graph, one for each type; the rule is read off
one of them, and `meets_this` and `meets_ttu` say that it covers them all.
-/

namespace Kengen.ReverseExpand

open List

namespace Query

variable {q : Query} {hg : q.graph.NoOperatorCycle}

/-! ### Results of all edges -/

section All

variable {α β : Type} {f : α → Option β}

variable {xs : List α} {ys : List β}

theorem all_iff : all f xs = some ys ↔ Forall₂ (fun x y => f x = some y) xs ys := by
  induction xs generalizing ys with
  | nil => simp [all, eq_comm]
  | cons x xs ih =>
    rw [all, forall₂_cons_left_iff]
    cases hx : f x with
    | none => simp
    | some => simp [← ih, eq_comm]

theorem all_isSome (h : ∀ x ∈ xs, (f x).isSome) : (all f xs).isSome := by
  induction xs with
  | nil => rfl
  | cons x xs ih =>
    obtain ⟨y, hy⟩ := Option.isSome_iff_exists.mp (h x mem_cons_self)
    rw [all, hy, Option.isSome_map]
    exact ih fun x' hx' => h x' (mem_cons_of_mem x hx')

theorem all_exists {P : β → Prop} {Q : α → Prop} (h : all f xs = some ys)
    (hPQ : ∀ x ∈ xs, ∀ y, f x = some y → (P y ↔ Q x)) : (∃ y ∈ ys, P y) ↔ ∃ x ∈ xs, Q x := by
  induction all_iff.mp h with
  | nil => simp
  | cons hxy hrest ih =>
    rw [exists_mem_cons_iff, exists_mem_cons_iff, hPQ _ mem_cons_self _ hxy,
      ih (all_iff.mpr hrest) fun x' hx' => hPQ x' (mem_cons_of_mem _ hx')]

theorem all_forall {P : β → Prop} {Q : α → Prop} (h : all f xs = some ys)
    (hPQ : ∀ x ∈ xs, ∀ y, f x = some y → (P y ↔ Q x)) : (∀ y ∈ ys, P y) ↔ ∀ x ∈ xs, Q x := by
  have hnot := all_exists (P := fun y => ¬ P y) (Q := fun x => ¬ Q x) h
    fun x hx y hy => not_congr (hPQ x hx y hy)
  simpa using not_congr hnot

theorem all_length (h : all f xs = some ys) : ys.length = xs.length :=
  (all_iff.mp h).length_eq.symm

end All

/-! ### The shape of an edge -/

/-- The kinds of edges, with their ends. -/
inductive Shape (e : Edge) : Prop
  | type (t : String) (hkind : e.edgeType = .direct) (hto : e.toNode = .specificType t)
  | wildcard (t : String) (hkind : e.edgeType = .direct)
      (hto : e.toNode = .specificTypeWildcard t)
  | userset (t r : String) (hkind : e.edgeType = .direct)
      (hto : e.toNode = .specificTypeAndRelation t r) (hr : r ≠ "")
  | ttu (t r : String) (hkind : e.edgeType = .ttu) (hto : e.toNode = .specificTypeAndRelation t r)
      (htype : e.tuplesetRelation.1 = e.relationDefinition.1)
  | relation (r : String) (hkind : e.edgeType = .computed ∨ e.edgeType = .rewrite)
      (hto : e.toNode = .specificTypeAndRelation e.relationDefinition.1 r)
  | operator (op : Operator) (uid : ℕ) (hkind : e.edgeType = .rewrite)
      (hto : e.toNode = .operatorNode op uid)
  | directs (uid : ℕ) (hkind : e.edgeType = .directLogical)
      (hto : e.toNode = .logicalDirectGrouping uid)
  | ttus (uid : ℕ) (hkind : e.edgeType = .ttuLogical) (hto : e.toNode = .logicalTTUGrouping uid)

variable {e : Edge}

theorem Shaped.shape (h : Shaped e) : Shape e := by
  have hcases := h.1
  split at hcases
  · exact .type _ ‹_› ‹_›
  · exact .wildcard _ ‹_› ‹_›
  · exact .userset _ _ ‹_› ‹_› hcases
  · exact .ttu _ _ ‹_› ‹_› hcases
  · rename_i t r hkind hto
    exact .relation r (.inl hkind) (by rw [hto, hcases])
  · rename_i t r hkind hto
    exact .relation r (.inr hkind) (by rw [hto, hcases])
  · exact .operator _ _ ‹_› ‹_›
  · exact .directs _ ‹_› ‹_›
  · exact .ttus _ ‹_› ‹_›
  · exact hcases.elim

/-! ### Edges inside a grouping -/

variable {o : Object}

/-- An edge of a rewrite rule is true by one of the edges it stands for. -/
theorem edgeTrue_inside (h : q.Guarantees) (he : e ∈ q.graph.edges) :
    q.edgeTrue hg e o ↔ ∃ d ∈ insideEdges q.graph e, q.edgeTrue hg d o := by
  have hsingle : insideEdges q.graph e = [e] →
      (q.edgeTrue hg e o ↔ ∃ d ∈ insideEdges q.graph e, q.edgeTrue hg d o) := by
    intro hin
    simp [hin]
  cases (h.shaped e he).shape with
  | type t hkind | wildcard t hkind | userset t r hkind | ttu t r hkind | operator op uid hkind =>
    exact hsingle (by simp [insideEdges, hkind])
  | relation r hkind =>
    refine hsingle ?_
    rcases hkind with hkind | hkind <;> simp [insideEdges, hkind]
  | directs uid hkind hto | ttus uid hkind hto =>
    rw [edgeTrue_of_same (by simp [Edge.isTupleEdge, hkind]), nodeTrue_union (by rw [hto]; rfl)]
    simp only [insideEdges, hkind]

variable {d : Edge}

theorem mem_insideEdges (h : q.Guarantees) (he : e ∈ q.graph.edges)
    (hd : d ∈ insideEdges q.graph e) :
    d ∈ q.graph.edges ∧ d.relationDefinition = e.relationDefinition
      ∧ (e.edgeType = .direct ∨ e.edgeType = .directLogical → d.edgeType = .direct)
      ∧ (e.edgeType = .ttu ∨ e.edgeType = .ttuLogical → d.edgeType = .ttu) := by
  cases (h.shaped e he).shape with
  | directs uid hkind hto | ttus uid hkind hto =>
    simp only [insideEdges, hkind] at hd
    obtain ⟨hmem, hfrom⟩ := ModelGraph.mem_getEdgesFromNode.mp hd
    have hdir := (h.shaped d hmem).2
    rw [hfrom, hto] at hdir
    refine ⟨hmem, h.inner e he (by rw [hto]; rfl) d hmem hfrom, ?_⟩
    simpa [hkind] using hdir
  | type t hkind | wildcard t hkind | userset t r hkind | ttu t r hkind | operator op uid hkind =>
    obtain rfl : d = e := by simpa [insideEdges, hkind] using hd
    simp [he, hkind]
  | relation r hkind =>
    rcases hkind with hkind | hkind <;>
      (obtain rfl : d = e := by simpa [insideEdges, hkind] using hd) <;> simp [he, hkind]

/-- A tuple that is read has a type restriction that allows its user. -/
theorem restriction_of_passing {r : String} {t : TupleKey}
    (ht : t ∈ q.env.passing o r) {refs : List RelationReference}
    (hrefs : restrictions q.env.typesystem (o.type, r) = some refs) :
    ∃ ref ∈ refs, restrictionNode ref = userNode t.user := by
  obtain ⟨-, rfl, rfl⟩ := mem_store_of_passing ht
  have hvalid : q.env.typesystem.validateTupleForRead t = true := by
    have hread := (mem_filter.mp ht).1
    simp only [Environment.read, mem_filter, Bool.and_eq_true] at hread
    exact hread.2.2
  unfold restrictions at hrefs
  unfold TypeSystem.validateTupleForRead at hvalid
  split at hrefs
  · cases hrefs
  rename_i relation hrelation
  rw [hrelation] at hvalid
  simp only [hrefs, Bool.and_eq_true] at hvalid
  obtain ⟨ref, href, hmatch⟩ := any_eq_true.mp hvalid.2.1
  obtain ⟨htype, hfacet⟩ := of_decide_eq_true hmatch
  refine ⟨ref, href, ?_⟩
  cases huser : t.user with
  | object | userset | wildcard =>
    simp [restrictionNode, userNode, htype, hfacet, huser, User.facet, User.objectType]

/-- **A direct assignment.** -/
theorem meets_this (h : q.Guarantees) (he : e ∈ q.graph.edges) (hop : isOperator e.fromNode)
    (hkind : e.edgeType = .direct ∨ e.edgeType = .directLogical)
    (ho : o.type = e.relationDefinition.1) :
    q.Meets hg o e.relationDefinition.2 .this ↔ q.edgeTrue hg e o := by
  rw [edgeTrue_inside h he]
  have hinside := fun d hd => mem_insideEdges h he (d := d) hd
  constructor
  · rintro ⟨t, ht, huser⟩
    obtain ⟨hsome, hcover⟩ := h.direct e he hop hkind
    obtain ⟨_, hrefs⟩ := Option.isSome_iff_exists.mp hsome
    have hpair : (o.type, e.relationDefinition.2) = e.relationDefinition := by rw [ho]
    obtain ⟨ref, href, hnode⟩ := restriction_of_passing ht (by rw [hpair]; exact hrefs)
    obtain ⟨d, hd, hdirect, hto⟩ := hcover ref (by rw [hrefs]; exact href)
    obtain ⟨-, hdef, -, -⟩ := hinside d hd
    refine ⟨d, hd, (edgeTrue_direct hdirect).mpr ?_⟩
    rw [hdef]
    exact ⟨ho, t, ht, hto.trans hnode, huser⟩
  · rintro ⟨d, hd, htrue⟩
    obtain ⟨-, hdef, hdirect, -⟩ := hinside d hd
    obtain ⟨-, t, ht, -, huser⟩ := (edgeTrue_direct (hdirect hkind)).mp htrue
    exact ⟨t, by rwa [hdef] at ht, huser⟩

/-- A tupleset edge goes to the computed relation. -/
theorem ttu_toNode (h : q.Guarantees) (hd : d ∈ q.graph.edges) (hkind : d.edgeType = .ttu) :
    d.toNode = .specificTypeAndRelation (typeRel d.toNode).1 (typeRel d.toNode).2
      ∧ d.tuplesetRelation.1 = d.relationDefinition.1 := by
  cases (h.shaped d hd).shape with
  | ttu t r _ hto htype => exact ⟨by rw [hto]; rfl, htype⟩
  | type _ hk | wildcard _ hk | userset _ _ hk | operator _ _ hk | directs _ hk | ttus _ hk =>
    rw [hkind] at hk; cases hk
  | relation _ hk => rw [hkind] at hk; rcases hk with hk | hk <;> cases hk

theorem constructUserset_ttu (h : q.Guarantees) (hd : d ∈ q.graph.edges) (hkind : d.edgeType = .ttu)
    (depth : ℕ) : q.constructUserset (depth + 1) d
      = some (.tupleToUserset d.tuplesetRelation.2 (typeRel d.toNode).2) := by
  rw [constructUserset, (ttu_toNode h hd hkind).1]
  simp only [hkind, typeRel]

/-- **A relation of the objects of a tupleset.** -/
theorem meets_ttu (h : q.Guarantees) (he : e ∈ q.graph.edges) (hop : isOperator e.fromNode)
    (hkind : e.edgeType = .ttu ∨ e.edgeType = .ttuLogical) (hd : d ∈ insideEdges q.graph e)
    (ho : o.type = e.relationDefinition.1) (relation : String) :
    q.Meets hg o relation (.tupleToUserset d.tuplesetRelation.2 (typeRel d.toNode).2)
      ↔ q.edgeTrue hg e o := by
  rw [edgeTrue_inside h he]
  have hinside := fun d hd => mem_insideEdges h he (d := d) hd
  obtain ⟨hsame, hcover⟩ := h.tupleset e he hop hkind
  constructor
  · rintro ⟨t, ht, o', huser, htrue⟩
    obtain ⟨hsome, hcover⟩ := hcover d hd
    obtain ⟨_, hrefs⟩ := Option.isSome_iff_exists.mp hsome
    obtain ⟨hmem, hdef, -, httu⟩ := hinside d hd
    have hpair : (o.type, d.tuplesetRelation.2) = d.tuplesetRelation := by
      rw [ho, ← hdef, ← (ttu_toNode h hmem (httu hkind)).2]
    obtain ⟨ref, href, hnode⟩ := restriction_of_passing ht (by rw [hpair]; exact hrefs)
    have htype : ref.type = o'.type := by
      rw [huser] at hnode
      unfold restrictionNode at hnode
      split at hnode
      · exact Node.specificType.inj hnode
      · cases hnode
      · cases hnode
    rcases hcover ref (by rw [hrefs]; exact href) with ⟨d', hd', hto⟩ | hnone
    · obtain ⟨hmem', hdef', -, httu'⟩ := hinside d' hd'
      have httu' := httu' hkind
      obtain ⟨htup, hrel⟩ := hsame d hd d' hd'
      refine ⟨d', hd', (edgeTrue_ttu httu').mpr ⟨by rw [hdef']; exact ho, t, by rwa [← htup], o', huser,
        hto.trans htype, ?_⟩⟩
      rwa [(ttu_toNode h hmem' httu').1, hto, htype, ← hrel]
    · rw [htype] at hnone
      obtain ⟨_, he', -⟩ := (nodeTrue_union rfl).mp htrue
      rw [hnone] at he'
      cases he'
  · rintro ⟨d', hd', htrue⟩
    obtain ⟨hmem', hdef', -, httu'⟩ := hinside d' hd'
    have httu' := httu' hkind
    obtain ⟨htup, hrel⟩ := hsame d hd d' hd'
    obtain ⟨-, t, ht, o', huser, htype, htrue⟩ := (edgeTrue_ttu httu').mp htrue
    refine ⟨t, by rwa [htup], o', huser, ?_⟩
    rwa [(ttu_toNode h hmem' httu').1, htype, ← hrel] at htrue

/-! ### The rule means what the edge means -/

variable {uid : ℕ}

/-- The edges of an operator have the relation of the edges that lead to it. -/
theorem operand_spec (h : q.Guarantees) {e' : Edge} (he : e ∈ q.graph.edges) {op : Operator}
    (hto : e.toNode = .operatorNode op uid)
    (he' : e' ∈ q.graph.getEdgesFromNode (.operatorNode op uid)) :
    e' ∈ q.graph.edges ∧ isOperator e'.fromNode ∧ e'.relationDefinition = e.relationDefinition := by
  obtain ⟨hmem, hfrom⟩ := ModelGraph.mem_getEdgesFromNode.mp he'
  refine ⟨hmem, by rw [hfrom]; rfl, h.inner e he (by rw [hto]; rfl) e' hmem ?_⟩
  rw [hfrom, hto]

variable {es : List Edge} {base : Edge}

theorem getEdgesForExclusion_eq {excluded : Option Edge}
    (h : q.getEdgesForExclusion es = some (base, excluded)) :
    ∃ sub, es = [base, sub] ∧ q.hasPathTo base = true
      ∧ excluded = if q.hasPathTo sub then some sub else none := by
  unfold getEdgesForExclusion at h
  split at h
  · split at h
    · obtain ⟨rfl, rfl⟩ := Prod.mk.inj (Option.some.inj h)
      exact ⟨_, rfl, ‹_›, rfl⟩
    · cases h
  · cases h

theorem nodeTrue_exclusion {sub : Edge}
    (hes : q.graph.getEdgesFromNode (.operatorNode .exclusion uid) = [base, sub]) :
    q.nodeTrue hg (.operatorNode .exclusion uid) o
      ↔ q.edgeTrue hg base o ∧ ¬ q.edgeTrue hg sub o := holds_exclusion hes o

theorem nodeTrue_intersection
    (hne : q.graph.getEdgesFromNode (.operatorNode .intersection uid) ≠ []) :
    q.nodeTrue hg (.operatorNode .intersection uid) o
      ↔ ∀ e ∈ q.graph.getEdgesFromNode (.operatorNode .intersection uid), q.edgeTrue hg e o :=
  (holds_intersection uid o).trans (and_iff_right hne)

/-- **The rule means what the edge means.** -/
theorem constructUserset_meets (h : q.Guarantees) (depth : ℕ)
    (he : e ∈ q.graph.edges) (hop : isOperator e.fromNode) {u : Rewrite}
    (hu : q.constructUserset depth e = some u) (ho : o.type = e.relationDefinition.1) :
    q.Meets hg o e.relationDefinition.2 u ↔ q.edgeTrue hg e o := by
  induction depth generalizing e u with
  | zero => cases hu
  | succ depth ih =>
    have hchild : ∀ {op uid}, e.toNode = .operatorNode op uid →
        ∀ e' ∈ q.graph.getEdgesFromNode (.operatorNode op uid), ∀ u',
        q.constructUserset depth e' = some u' →
        (q.Meets hg o e.relationDefinition.2 u' ↔ q.edgeTrue hg e' o) := by
      intro op uid hto e' he' u' hu'
      obtain ⟨hmem, hop', hdef⟩ := operand_spec h he hto he'
      rw [← hdef] at ho ⊢
      exact ih hmem hop' hu' ho
    cases (h.shaped e he).shape with
    | type t hkind hto | wildcard t hkind hto | userset t r hkind hto =>
      simp only [constructUserset, hto, hkind] at hu
      cases hu
      exact meets_this h he hop (.inl hkind) ho
    | directs uid hkind hto =>
      simp only [constructUserset, hto] at hu
      cases hu
      exact meets_this h he hop (.inr hkind) ho
    | ttu t r hkind =>
      rw [constructUserset_ttu h he hkind] at hu
      cases hu
      exact meets_ttu h he hop (.inl hkind) (by simp [insideEdges, hkind]) ho _
    | ttus uid hkind hto =>
      simp only [constructUserset, hto] at hu
      split at hu
      · rename_i first rest hes
        have hin : first ∈ insideEdges q.graph e := by
          simp only [insideEdges, hkind, hto]
          exact mem_of_getEdgesFromNode hes mem_cons_self
        obtain ⟨hmem, -, -, httu⟩ := mem_insideEdges h he hin
        cases depth with
        | zero => cases hu
        | succ =>
          rw [constructUserset_ttu h hmem (httu (.inr hkind))] at hu
          cases hu
          exact meets_ttu h he hop (.inr hkind) hin ho _
      · cases hu
    | relation r hkind hto =>
      have hrule : u = .computedUserset r := by
        rcases hkind with hkind | hkind <;> simp only [constructUserset, hto, hkind] at hu <;>
          exact (Option.some.inj hu).symm
      rw [hrule,
        edgeTrue_of_same (by rcases hkind with hkind | hkind <;> simp [Edge.isTupleEdge, hkind]), hto, ← ho]
      rfl
    | operator op uid hkind hto =>
      rw [edgeTrue_of_same (by simp [Edge.isTupleEdge, hkind]), hto]
      cases op with
      | union =>
        simp only [constructUserset, hto] at hu
        split_ifs at hu
        obtain ⟨us, hus, rfl⟩ := Option.map_eq_some_iff.mp hu
        rw [nodeTrue_union rfl, ← all_exists hus (hchild hto)]
        exact exists_mem_iff_get.symm
      | intersection =>
        simp only [constructUserset, hto] at hu
        split_ifs at hu with hlen
        obtain ⟨us, hus, rfl⟩ := Option.map_eq_some_iff.mp hu
        have hpos : 0 < us.length := by rw [all_length hus]; omega
        rw [nodeTrue_intersection (ne_nil_of_length_pos (by omega)),
          ← all_forall hus (hchild hto)]
        exact (and_iff_right hpos).trans forall_mem_iff_get.symm
      | exclusion =>
        simp only [constructUserset, hto] at hu
        split at hu
        · cases hu
        · rename_i base hes
          -- the excluded edge does not lead to the user type, so it is false
          obtain ⟨sub, hes, -, hsub⟩ := getEdgesForExclusion_eq hes
          have hmem : sub ∈ q.graph.getEdgesFromNode (.operatorNode .exclusion uid) := by simp [hes]
          have hnot : ¬ q.edgeTrue hg sub o := by
            intro htrue
            rw [(path_of_true h).2 sub (ModelGraph.mem_getEdgesFromNode.mp hmem).1 o htrue] at hsub
            cases hsub
          rw [nodeTrue_exclusion hes, and_iff_left hnot]
          exact hchild hto base (by simp [hes]) u hu
        · rename_i base excluded hes
          obtain ⟨sub, hes, -, hsub⟩ := getEdgesForExclusion_eq hes
          have hsub : excluded = sub := by
            split_ifs at hsub
            exact Option.some.inj hsub
          subst hsub
          split at hu
          · rename_i b s hb hs
            cases hu
            rw [nodeTrue_exclusion hes]
            exact and_congr (hchild hto base (by simp [hes]) b hb)
              (not_congr (hchild hto excluded (by simp [hes]) s hs))
          · cases hu

/-! ### The rule can be built -/

variable (q) in
/-- The edges that `ConstructUserset` visits from an edge. -/
inductive Visits (e : Edge) : Edge → Prop
  | here : Visits e e
  | inside {d d' : Edge} {op : Operator} {uid : ℕ} (h : Visits e d)
      (hto : d.toNode = .operatorNode op uid)
      (hd' : d' ∈ q.graph.getEdgesFromNode (.operatorNode op uid))
      (hpath : op = .exclusion → q.hasPathTo d') : Visits e d'

/-- An exclusion or a tupleset of several types. -/
def needsPath : Node → Bool
  | .operatorNode .exclusion _ => true
  | .logicalTTUGrouping _ => true
  | _ => false

variable (q) in
/-- **The rule of an edge can be built**: the exclusions and the tuplesets of several types that
are visited lead to the user type. -/
def Constructs (e : Edge) : Prop := ∀ d, q.Visits e d → needsPath d.toNode → q.hasPathTo d

theorem Visits.mem {d : Edge} (h : q.Visits e d) (he : e ∈ q.graph.edges) : d ∈ q.graph.edges := by
  cases h with
  | here => exact he
  | inside _ _ hd' => exact (ModelGraph.mem_getEdgesFromNode.mp hd').1

section

variable (h : q.Guarantees) (he : e ∈ q.graph.edges)
include h he

/-- What leads to the user type through an operator or a grouping. -/
theorem gather_of_path (hsame : e.isTupleEdge = false)
    (hpath : q.hasPathTo e) : q.userType ∈ q.graph.gather Edge.types e.toNode :=
  h.sound e he hsame q.userType (Edge.weight_isSome.mp hpath)

theorem exclusion_edges (hto : e.toNode = .operatorNode .exclusion uid) :
    ∃ base sub, q.graph.getEdgesFromNode (.operatorNode .exclusion uid) = [base, sub] := by
  have hlen := h.operands e he
  rw [hto] at hlen
  exact length_eq_two.mp hlen

/-- An exclusion that leads to the user type does so by its base. -/
theorem getEdgesForExclusion_isSome (hto : e.toNode = .operatorNode .exclusion uid)
    (hsame : e.isTupleEdge = false) (hpath : q.hasPathTo e) {sub : Edge}
    (hes : q.graph.getEdgesFromNode (.operatorNode .exclusion uid) = [base, sub]) :
    q.hasPathTo base = true ∧ q.getEdgesForExclusion [base, sub]
      = some (base, if q.hasPathTo sub then some sub else none) := by
  have hgather := gather_of_path h he hsame hpath
  rw [hto, ModelGraph.gather, hes] at hgather
  have hbase : q.hasPathTo base = true := Edge.weight_isSome.mpr hgather
  exact ⟨hbase, by simp [getEdgesForExclusion, hbase]⟩

/-- How deep operators are nested below a node. -/
noncomputable def nesting (q : Query) (n : Node) : ℕ :=
  (q.graph.restrict fun e => isNested e.toNode).rank n

theorem nesting_lt (hn : isNested e.toNode) : q.nesting e.toNode < q.nesting e.fromNode := by
  have hmem : e ∈ (q.graph.restrict fun e => isNested e.toNode).edges :=
    mem_filter.mpr ⟨he, hn⟩
  exact ModelGraph.rank_lt_of_not_reaches _ e hmem (h.nested e hmem)

end

/-- **The rule can be built.** -/
theorem constructUserset_isSome (h : q.Guarantees) {root : Edge} (hroot : root ∈ q.graph.edges)
    (hc : q.Constructs root) (depth : ℕ) (he : q.Visits root e)
    (hdepth : isNested e.toNode → q.nesting e.toNode + 2 ≤ depth) (hpos : 1 ≤ depth) :
    (q.constructUserset depth e).isSome := by
  induction depth generalizing e with
  | zero => omega
  | succ depth ih =>
    have hmem := he.mem hroot
    have hchild : ∀ {op uid}, e.toNode = .operatorNode op uid →
        ∀ e' ∈ q.graph.getEdgesFromNode (.operatorNode op uid), (op = .exclusion → q.hasPathTo e') →
        (q.constructUserset depth e').isSome := by
      intro op uid hto e' he' hpath
      have hbound := hdepth (by rw [hto]; rfl)
      refine ih (.inside he hto he' hpath) (fun hn => ?_) (by omega)
      obtain ⟨hmem', hfrom⟩ := ModelGraph.mem_getEdgesFromNode.mp he'
      have hlt := nesting_lt h hmem' hn
      rw [hfrom, ← hto] at hlt
      omega
    cases (h.shaped e hmem).shape with
    | type t hkind hto | wildcard t hkind hto | directs uid hkind hto =>
      simp [constructUserset, hto]
    | userset t r hkind hto | ttu t r hkind hto => simp [constructUserset, hto, hkind]
    | relation r hkind hto =>
      rcases hkind with hkind | hkind <;> simp [constructUserset, hto, hkind]
    | ttus uid hkind hto =>
      have hsame : e.isTupleEdge = false := by simp [Edge.isTupleEdge, hkind]
      have hpath := hc e he (by rw [hto]; rfl)
      have hgather := gather_of_path h hmem hsame hpath
      obtain ⟨i, hi⟩ := Option.isSome_iff_exists.mp (h.found e hmem)
      rw [hto] at hi hgather
      obtain ⟨first, rest, hes⟩ : ∃ first rest,
          q.graph.getEdgesFromNode (.logicalTTUGrouping uid) = first :: rest := by
        obtain ⟨d, hd, -⟩ := mem_flatMap.mp hgather
        exact exists_cons_of_ne_nil (ne_nil_of_mem hd)
      have hin : first ∈ insideEdges q.graph e := by simp [insideEdges, hkind, hto, hes]
      obtain ⟨hfirst, -, -, httu⟩ := mem_insideEdges h hmem hin
      obtain ⟨depth, rfl⟩ : ∃ d, depth = d + 1 :=
        ⟨depth - 1, by have := hdepth (by rw [hto]; rfl); omega⟩
      rw [constructUserset, hto]
      simp only [getEdgesFromNode_eq h hi hgather (by simp [hes]), hes]
      rw [constructUserset_ttu h hfirst (httu (.inr hkind))]
      rfl
    | operator op uid hkind hto =>
      have hlen := h.operands e hmem
      rw [hto] at hlen
      cases op with
      | union =>
        have hlen : 2 ≤ (q.graph.getEdgesFromNode (.operatorNode .union uid)).length := hlen
        simp only [constructUserset, hto, if_neg (Nat.not_lt.mpr hlen), Option.isSome_map]
        exact all_isSome fun e' he' => hchild hto e' he' (by simp)
      | intersection =>
        have hlen : 2 ≤ (q.graph.getEdgesFromNode (.operatorNode .intersection uid)).length := hlen
        simp only [constructUserset, hto, if_neg (Nat.not_lt.mpr hlen), Option.isSome_map]
        exact all_isSome fun e' he' => hchild hto e' he' (by simp)
      | exclusion =>
        have hsame : e.isTupleEdge = false := by simp [Edge.isTupleEdge, hkind]
        have hpath := hc e he (by rw [hto]; rfl)
        obtain ⟨base, sub, hes⟩ := exclusion_edges h hmem hto
        obtain ⟨hbase, hfound⟩ := getEdgesForExclusion_isSome h hmem hto hsame hpath hes
        obtain ⟨b, hb⟩ := Option.isSome_iff_exists.mp
          (hchild hto base (by simp [hes]) fun _ => hbase)
        simp only [constructUserset, hto, hes, hfound]
        by_cases hsub : q.hasPathTo sub = true
        · obtain ⟨s, hs⟩ := Option.isSome_iff_exists.mp
            (hchild hto sub (by simp [hes]) fun _ => hsub)
          simp [hsub, hb, hs]
        · simp [hsub, hb]

/-! ### Several edges -/

theorem userset_isSome (h : q.Guarantees) (hne : es ≠ [])
    (hes : ∀ e ∈ es, e ∈ q.graph.edges ∧ q.Constructs e) : (q.userset es).isSome := by
  have hall : (all (q.constructUserset q.maxDepth) es).isSome := by
    refine all_isSome fun e he => constructUserset_isSome h (hes e he).1 (hes e he).2 _ .here
      (fun _ => Nat.add_le_add_right ((ModelGraph.rank_le_length _ _).trans (length_filter_le _ _)) 2) ?_
    unfold maxDepth
    omega
  obtain ⟨us, hus⟩ := Option.isSome_iff_exists.mp hall
  have hlen := all_length hus
  unfold userset
  rw [hus]
  match us with
  | [] => exact absurd (length_eq_zero_iff.mp hlen.symm) hne
  | [u] => rfl
  | u :: u' :: us => rfl

theorem userset_meets (h : q.Guarantees) {r : String × String}
    (hes : ∀ e ∈ es, e ∈ q.graph.edges ∧ isOperator e.fromNode ∧ e.relationDefinition = r)
    {u : Rewrite} (hu : q.userset es = some u) (ho : o.type = r.1) :
    q.Meets hg o r.2 u ↔ ∀ e ∈ es, q.edgeTrue hg e o := by
  have hedge : ∀ e ∈ es, ∀ u, q.constructUserset q.maxDepth e = some u →
      (q.Meets hg o r.2 u ↔ q.edgeTrue hg e o) := by
    intro e he u hu
    obtain ⟨hmem, hop, rfl⟩ := hes e he
    exact constructUserset_meets h _ hmem hop hu ho
  unfold userset at hu
  split at hu
  · cases hu
  · cases hu
  · rename_i u' hall
    obtain rfl : u' = u := Option.some.inj hu
    rw [← all_forall hall hedge]
    simp
  · rename_i us _ hne hall
    cases hu
    rw [← all_forall hall hedge]
    have hpos : 0 < us.length := length_pos_iff.mpr fun h => by simp_all
    exact (and_iff_right hpos).trans forall_mem_iff_get.symm

end Query

end Kengen.ReverseExpand
