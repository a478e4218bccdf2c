import Kengen.Check.Meaning

/-!
# The plans of the resolver agree with its meaning

Each plan of the resolver computes what its call asks, given what the graph
library promises: unions, the shortcut for recursive relations, intersections,
exclusions and the early answers by weight.

* **`expand_means`** — the plan of every call that comes up has the call's meaning.
* **`checkMeaning`** — the meaning, as the task machine wants it.
-/

namespace Kengen

open List

/-! ### Unions and recursion -/

/-- A recursive tuple edge that makes the node true. -/
structure RecursiveEdge (g : ModelGraph) (hg : g.NoOperatorCycle) (F : Facts) (rec n : Node)
    (e : Edge) : Prop where
  mem : e ∈ g.edges
  tuple : e.isTupleEdge
  relation : e.recursiveRelation = some rec
  sound : ∀ o, edgeBody F (g.semantics hg F).Holds e o → (g.semantics hg F).Holds (n, o)
  typed : g.Defined → ∀ t, g.HasType n t → e.relationDefinition.1 = t

variable {g : ModelGraph} {rec n : Node} {ut : UserType}

theorem searchEdges_spec {hg : g.NoOperatorCycle} {F : Facts} (hw : g.Weighted)
    (hr : g.RecursionMarked) (hn : n.isStrict = false) {below : Node → Option Edge × Bool}
    (hbelow : ∀ m, m.isStrict = false → ∀ e, (below m).1 = some e → RecursiveEdge g hg F rec m e)
    (edges : List Edge) (hedges : ∀ e ∈ edges, e ∈ g.getEdgesFromNode n) (acc : Option Edge × Bool)
    (hacc : ∀ e, acc.1 = some e → RecursiveEdge g hg F rec n e) (e : Edge)
    (h : (edges.foldl (searchEdge rec ut below) acc).1 = some e) :
    RecursiveEdge g hg F rec n e := by
  induction edges generalizing acc with
  | nil => exact hacc e h
  | cons x xs ih =>
    refine ih (fun e' he' => hedges e' (by simp [he'])) _ ?_ h
    intro e' he'
    have hmem := hedges x (by simp)
    have hx := (ModelGraph.mem_getEdgesFromNode.mp hmem).1
    unfold searchEdge at he'
    split at he'
    · split at he' <;> exact hacc e' he'
    · rename_i hrec
      have hrec' : x.recursiveRelation = some rec := by simpa using hrec
      split at he'
      · rename_i htuple
        obtain rfl : x = e' := Option.some.inj he'
        exact ⟨hx, htuple, hrec', fun o hb => (holds_union hn o).mpr ⟨x, hmem, hb⟩,
          fun _ t ht => ht x hmem⟩
      · rename_i htuple
        rcases hb : (below x.toNode).1 with _ | y
        · simp only [hb, Option.none_or] at he'
          exact hacc e' he'
        · simp only [hb, Option.some_or] at he'
          obtain rfl : y = e' := Option.some.inj he'
          have hstrict : x.toNode.isStrict = false := by
            rcases hr.terminal x hx (by simp [hrec']) with hflat | ht
            · exact Node.isStrict_of_unionLike (hw.flat x hx hflat)
            · exact absurd ht htuple
          have hy := hbelow x.toNode hstrict y hb
          have hsame : x.isTupleEdge = false := by simpa using htuple
          refine ⟨hy.mem, hy.tuple, hy.relation, fun o hbody => ?_, fun hd t ht => ?_⟩
          · refine (holds_union hn o).mpr ⟨x, hmem, ?_⟩
            rw [edgeBody_rewrite hsame]
            exact hy.sound o hbody
          · rw [hy.typed hd _ (hd.hasType_toNode hx hsame)]
            exact ht x hmem

/-- **What the search for the recursive edge finds.** -/
theorem canApplyRecursiveOptimization_spec (hg : g.NoOperatorCycle) (F : Facts) (hw : g.Weighted)
    (hr : g.RecursionMarked) (depth : ℕ) (n : Node) (hn : n.isStrict = false) (e : Edge)
    (h : (canApplyRecursiveOptimization g rec ut depth n).1 = some e) :
    RecursiveEdge g hg F rec n e := by
  induction depth generalizing n e with
  | zero => cases h
  | succ depth ih =>
    unfold canApplyRecursiveOptimization at h
    split at h
    · cases h
    · cases h
    · exact searchEdges_spec hw hr hn (fun m hm e' he' => ih m hm e' he') _ (fun e' he' => he')
        (none, true) (fun e' he' => by cases he') e h


section Plans

variable {r : Resolver} {hg : r.model.NoOperatorCycle}

variable {req : Request}

/-- The edges that assign the user lead to the user, at every object. -/
theorem leadsTo_of_assigned (hw : r.model.Weighted) :
    ∀ e ∈ r.model.edges, ∀ o, (codeFacts r req).assigned e o →
      e.leadsTo req.userType req.isTypedWildcard :=
  fun e he o ha => @leadsTo_of_codeAssigned (req.cloneWithTupleKey o "") r e hw he ha.2

variable {e : Edge}

/-- An edge that is true leads to the user. -/
theorem leadsTo_of_edgeTrue (hw : r.model.Weighted) (he : e ∈ r.model.edges) (o : Object)
    (h : edgeBody (codeFacts r req) (r.model.semantics hg (codeFacts r req)).Holds e o) :
    e.leadsTo req.userType req.isTypedWildcard :=
  (leadsTo_of_holds hw (leadsTo_of_assigned hw)).2 e he o h

theorem nodeTrue_iff_flattenNode (hw : r.model.Weighted) (hn : n.isUnionLike) {ls : List Edge}
    (h : flattenNode r.model req.userType req.isTypedWildcard none n = .ok ls) :
    NodeTrue r hg req n ↔ ∃ l ∈ ls, EdgeTrue r hg req l :=
  holds_iff_flattenNode hw (fun _ he hb => leadsTo_of_edgeTrue hw he _ hb) hn h

variable {i : NodeInfo}

/-- What `canApplyRecursion` finds. -/
theorem canApplyRecursion_spec (hg : r.model.NoOperatorCycle) (F : Facts) (hw : r.model.Weighted)
    (hr : r.model.RecursionMarked) (hi : i ∈ r.model.nodes) (hn : i.node.isUnionLike) {new : Bool}
    (h : (canApplyRecursion r.model i ut new).1 = some e) :
    RecursiveEdge r.model hg F i.node i.node e ∧ (∃ t, ut = .type t) ∧ e.toNode = i.node
      ∧ (e.edgeType = .direct →
        e.toNode = .specificTypeAndRelation e.relationDefinition.1 e.relationDefinition.2)
      ∧ ∀ e' ∈ r.model.edges, e'.isTupleEdge → e'.recursiveRelation = some i.node → e' = e := by
  unfold canApplyRecursion at h
  split at h
  · cases h
  rename_i t
  split_ifs at h with hrec
  have hspec := canApplyRecursiveOptimization_spec hg F hw hr _ i.node
    (Node.isStrict_of_unionLike hn) e h
  obtain ⟨hto, hself, huniq⟩ := hr.single i hi hrec.1 hrec.2 e hspec.mem hspec.tuple hspec.relation
  exact ⟨hspec, ⟨t, rfl⟩, hto, hself, huniq⟩

/-- A terminal recursive edge is the recursive edge. -/
theorem eq_recursiveEdge (hr : g.RecursionMarked) {l : Edge}
    (huniq : ∀ e' ∈ g.edges, e'.isTupleEdge → e'.recursiveRelation = some rec → e' = e)
    {wildcard : Bool} {all : List Edge} (hall : flattenNode g ut wildcard none n = .ok all)
    (hl : l ∈ all) (hlrec : l.recursiveRelation = some rec) : l = e := by
  obtain ⟨-, hflat, hledge⟩ := of_mem_flattenNode hall hl
  refine huniq l hledge ?_ hlrec
  rcases hr.terminal l hledge (by simp [hlrec]) with h | h
  · rw [hflat] at h
    cases h
  · exact h

/-- **The plan of a union.** -/
theorem resolveUnion_means (hw : r.model.Weighted) (hr : r.model.RecursionMarked) {n : Node}
    (hn : n.isUnionLike) (visited : Option ℕ) :
    PlanMeans (callTruth r (Related r hg)) (NodeTrue r hg req n)
      (expand r (.resolveUnion req n visited)) := by
  have hplan := expands r (.resolveUnion req n visited)
  generalize expand r (.resolveUnion req n visited) = plan at hplan
  cases hplan with
  | fails => trivial
  | fresh => exact fun m => Iff.rfl
  | @recursion _ i _ e edges hi hrec hflat =>
    obtain ⟨hspec, -, hto, -, huniq⟩ := canApplyRecursion_spec hg (codeFacts r req) hw hr hi hn hrec
    rw [hspec.relation, hto] at hflat
    obtain ⟨all, hall, hmem⟩ := flattenNode_skip hflat
    show NodeTrue r hg req i.node ↔ _
    rw [nodeTrue_iff_flattenNode hw hn hall]
    simp only [mem_cons, not_mem_nil, or_false, exists_eq_or_imp, exists_eq_left]
    show _ ↔ (∃ l ∈ edges, EdgeTrue r hg req l) ∨ EdgeTrue r hg req e
    constructor
    · rintro ⟨l, hl, htrue⟩
      by_cases hlrec : l.recursiveRelation = some i.node
      · obtain rfl := eq_recursiveEdge hr huniq hall hl hlrec
        exact .inr htrue
      · exact .inl ⟨l, (hmem l).mpr ⟨hl, hlrec⟩, htrue⟩
    · rintro (⟨l, hl, htrue⟩ | htrue)
      · exact ⟨l, ((hmem l).mp hl).1, htrue⟩
      · exact (nodeTrue_iff_flattenNode hw hn hall).mp (hspec.sound _ htrue)
  | flat hi hflat =>
    show NodeTrue r hg req _ ↔ _
    rw [nodeTrue_iff_flattenNode hw hn hflat]
    simp only [mem_map, exists_exists_and_eq_and]
    rfl

/-! ### Edges -/

/-- An edge that leads to no other object. -/
theorem edgeBody_iff_assigned {p : Node × Object → Prop}
    (htuple : e.isTupleEdge) (htype : e.relationDefinition.1 = req.object.type)
    (hno : (linkTuples r req e).1 = []
      ∨ (e.edgeType = .direct ∧ e.toNode.isUserType req.userType ∧ e.onCycle = false)) :
    edgeBody (codeFacts r req) p e req.object ↔ codeAssigned r req e := by
  unfold edgeBody
  rw [if_pos htuple]
  refine ⟨?_, fun h => .inl ⟨htype, h⟩⟩
  rintro (h | ⟨o', ⟨-, hcycle, t, ht, -⟩, -⟩)
  · exact h.2
  · have ht' : t ∈ (linkTuples r req e).1 := ht
    rcases hno with hno | ⟨hdirect, huser, hoff⟩
    · rw [hno] at ht'
      cases ht'
    · rw [hcycle hdirect huser] at hoff
      cases hoff

theorem codeAssigned_userset (hdirect : e.edgeType = .direct)
    {t relation : String} (hto : e.toNode = .specificTypeAndRelation t relation) :
    codeAssigned r req e ↔ e.toNode.isUserType req.userType ∧ specificType r req e = .ok true := by
  simp only [codeAssigned, hdirect, hto]
  refine and_congr_left fun _ => ?_
  cases req.userType with
  | type => simp [Node.isUserType]
  | userset =>
    simp only [Node.isUserType, UserType.userset.injEq, Node.specificTypeAndRelation.injEq,
      decide_eq_true_eq]
    exact and_congr eq_comm eq_comm

section Edges

variable {p : Request → Node × Object → Prop} (hp : SameForAll p)

include hp in
/-- The plan of a direct edge to a userset type, `specificTypeAndRelation`. -/
theorem usersetEdge_means (hdirect : e.edgeType = .direct)
    (htype : e.relationDefinition.1 = req.object.type) {t relation : String}
    (hto : e.toNode = .specificTypeAndRelation t relation) (visited : Option ℕ) :
    PlanMeans (callTruth r p) (edgeBody (codeFacts r req) (p req) e req.object)
      (if e.toNode.isUserType req.userType then
        match specificType r req e with
        | .error err => .ret (.error err)
        | .ok true => .ret (.ok true)
        | .ok false =>
          if e.recursiveRelation = none ∧ e.tupleCycle = false then .ret (.ok false)
          else .scan (e.passedMap visited)
            (usersetItems r req e e.relationDefinition.2 (e.passedMap visited))
      else .scan (e.passedMap visited)
        (usersetItems r req e e.relationDefinition.2 (e.passedMap visited))) := by
  have htuple : e.isTupleEdge := by rw [Edge.isTupleEdge, hdirect]
  have hassigned := @codeAssigned_userset r req e hdirect t relation hto
  split
  · rename_i huser
    rcases hspec : specificType r req e with err | _ | _
    · trivial
    · have hnot : ¬ codeAssigned r req e := by simp [hassigned, hspec]
      simp only
      split
      · rename_i hoff
        have hcycle : e.onCycle = false := by simp [Edge.onCycle, hoff.1, hoff.2]
        apply ret_means
        rw [edgeBody_iff_assigned htuple htype (.inr ⟨hdirect, huser, hcycle⟩)]
        simp [hnot]
      · rename_i hon
        refine usersets_means hp hdirect htype hnot (fun _ => ?_) _ _
        rw [Edge.onCycle, decide_eq_true_eq]
        by_contra hc
        rw [not_or] at hc
        exact hon ⟨by simpa using hc.1, by simpa using hc.2⟩
    · apply ret_means
      have hbody : (codeFacts r req).assigned e req.object := ⟨htype, hassigned.mpr ⟨huser, hspec⟩⟩
      simp only [iff_true]
      rw [edgeBody, if_pos htuple]
      exact .inl hbody
  · rename_i huser
    refine usersets_means hp hdirect htype ?_ (fun h => absurd h huser) _ _
    rw [hassigned]
    exact fun h => huser h.1

include hp in
/-- **The plan of an edge.** -/
theorem edgePlan_means (hw : r.model.Weighted) (he : EdgeValid r req e)
    (hleads : e.leadsTo req.userType req.isTypedWildcard) (visited : Option ℕ) :
    PlanMeans (callTruth r p) (edgeBody (codeFacts r req) (p req) e req.object)
      (edgePlan r req e visited) := by
  obtain ⟨he, htype⟩ := he
  have htyped := hw.direct e he
  unfold Edge.WellTyped at htyped
  rw [Edge.leadsTo_iff] at hleads
  have hrewrite : e.isTupleEdge = false →
      (edgeBody (codeFacts r req) (p req) e req.object ↔ p req (e.toNode, req.object)) :=
    fun h => edgeBody_rewrite h
  unfold edgePlan
  simp only
  split
  · rename_i hdirect
    have htuple : e.isTupleEdge := by rw [Edge.isTupleEdge, hdirect]
    split
    · rename_i t hto
      simp only [hdirect, hto] at htyped
      have hno : (linkTuples r req e).1 = [] := by simp [linkTuples, hdirect, usersetTuples, hto]
      apply ret_means
      rw [edgeBody_iff_assigned htuple htype (.inl hno)]
      rw [htyped.1, mem_singleton] at hleads
      have hwild : req.isTypedWildcard = false := by
        by_contra h
        obtain ⟨t', -, hmem⟩ := hasWildcard_iff.mp (hleads.2 (by simpa using h))
        rw [htyped.2] at hmem
        cases hmem
      simp [codeAssigned, hdirect, hto, hleads.1, hwild]
    · rename_i t hto
      simp only [hdirect, hto] at htyped
      have hno : (linkTuples r req e).1 = [] := by simp [linkTuples, hdirect, usersetTuples, hto]
      apply ret_means
      rw [edgeBody_iff_assigned htuple htype (.inl hno)]
      rw [htyped.1, mem_singleton] at hleads
      simp [codeAssigned, hdirect, hto, hleads.1]
    · rename_i t relation hto
      exact usersetEdge_means hp hdirect htype hto visited
    · trivial
  · rename_i hkind
    exact any_single_means (hrewrite (by rw [Edge.isTupleEdge, hkind]))
  · rename_i hkind
    exact any_single_means (hrewrite (by rw [Edge.isTupleEdge, hkind]))
  · rename_i hkind
    exact any_single_means (hrewrite (by rw [Edge.isTupleEdge, hkind]))
  · rename_i hkind
    exact ttu_means hp hkind htype _
  · rename_i hkind
    have hmeans := hrewrite (by rw [Edge.isTupleEdge, hkind])
    split
    · exact any_single_means hmeans
    · exact any_single_means hmeans
    · exact any_single_means hmeans
    · split
      · trivial
      · exact any_single_means hmeans
    · trivial

include hp in
/-- The plan of a recursive edge, which is read under the user relation. -/
theorem resolveRecursiveEdge_means (he : RecursiveValid r req e) (visited : Option ℕ) :
    PlanMeans (callTruth r p) (edgeBody (codeFacts r req) (p req) e req.object)
      (expand r (.resolveRecursiveEdge req e visited)) := by
  obtain ⟨⟨-, htype⟩, -, ⟨t, ht⟩, hself⟩ := he
  unfold expand
  simp only
  split
  · rename_i ty userRelation hdirect hto
    have huser : userRelation = e.relationDefinition.2 := by
      have := hself hdirect
      rw [hto, Node.specificTypeAndRelation.injEq] at this
      exact this.2
    rw [huser]
    refine usersets_means hp hdirect htype ?_ (fun h => ?_) _ _
    · rw [codeAssigned_userset hdirect hto, ht]
      simp [Node.isUserType]
    · rw [ht] at h
      simp [Node.isUserType] at h
  · rename_i httu
    exact ttu_means hp httu htype _
  · trivial

end Edges

/-! ### Operators and the entry -/

theorem resolveCheck_means (hw : r.model.Weighted) (req : Request) :
    PlanMeans (callTruth r (Related r hg)) (callTruth r (Related r hg) (.resolveCheck req))
      (expand r (.resolveCheck req)) := by
  unfold expand
  simp only
  split
  · trivial
  · rename_i i hi
    have hmem := mem_of_find?_eq_some hi
    have hnode : i.node = .specificTypeAndRelation req.object.type req.relation := by
      simpa using find?_some hi
    have hleads : callTruth r (Related r hg) (.resolveCheck req) →
        r.model.NodeLeads req.userType req.isTypedWildcard i.node := by
      rw [hnode]
      exact (leadsTo_of_holds hw (leadsTo_of_assigned hw)).1 _
    split
    · rename_i hnone
      apply ret_means
      simp only [Except.ok.injEq, Bool.false_eq_true, iff_false]
      intro htrue
      exact hnone ((hw.nodes i hmem).1 _ (mem_gather_of_nodeLeads (hleads htrue)
        fun e he => (Edge.leadsTo_iff.mp he).1))
    · split
      · rename_i hwild
        apply ret_means
        simp only [Except.ok.injEq, Bool.false_eq_true, iff_false]
        intro htrue
        obtain ⟨t, ht⟩ := userType_of_wildcard hwild.1
        refine hwild.2 t ((hw.nodes i hmem).2 t (mem_gather_of_nodeLeads (hleads htrue) ?_)) ht
        intro e he
        obtain ⟨t', ht', hmem'⟩ := hasWildcard_iff.mp ((Edge.leadsTo_iff.mp he).2 hwild.1)
        obtain rfl : t = t' := UserType.type.inj (ht.symm.trans ht')
        exact hmem'
      · apply any_single_means
        show NodeTrue r hg req _ ↔ NodeTrue r hg req i.node
        rw [hnode]

theorem resolveIntersection_means (hw : r.model.Weighted) (req : Request) (uid : ℕ) :
    PlanMeans (callTruth r (Related r hg)) (NodeTrue r hg req (.operatorNode .intersection uid))
      (expand r (.resolveIntersection req (.operatorNode .intersection uid))) := by
  have hbody := @holds_intersection r.model hg (codeFacts r req) uid req.object
  unfold expand
  simp only
  split
  · trivial
  · rename_i hne
    have hedges : r.model.getEdgesFromNode (.operatorNode .intersection uid) ≠ [] := hne
    split
    · rename_i hwild
      apply ret_means
      simp only [Except.ok.injEq, Bool.false_eq_true, iff_false]
      intro htrue
      rw [Bool.and_eq_true, any_eq_true] at hwild
      obtain ⟨hwild, e, he, hno⟩ := hwild
      have hlead := leadsTo_of_edgeTrue hw (ModelGraph.mem_getEdgesFromNode.mp he).1 _
        ((hbody.mp htrue).2 e he)
      simp [(Edge.leadsTo_iff.mp hlead).2 hwild] at hno
    · split
      · trivial
      · show NodeTrue r hg req _ ↔ _
        rw [NodeTrue, Related, hbody]
        simp only [mem_map, forall_exists_index, and_imp, forall_apply_eq_imp_iff₂]
        exact ⟨fun h => h.2, fun h => ⟨hedges, h⟩⟩

theorem resolveExclusion_means (hw : r.model.Weighted) (req : Request) (uid : ℕ) :
    PlanMeans (callTruth r (Related r hg)) (NodeTrue r hg req (.operatorNode .exclusion uid))
      (expand r (.resolveExclusion req (.operatorNode .exclusion uid))) := by
  unfold expand
  simp only
  split
  · rename_i base sub rest hes
    have hbody := @holds_exclusion r.model hg (codeFacts r req) uid base sub rest hes req.object
    split
    · trivial
    · split
      · trivial
      · show NodeTrue r hg req _ ↔ _
        rw [NodeTrue, Related, hbody]
        refine and_congr_right fun _ => ?_
        split
        · rename_i hnone
          -- a subtract edge without a weight is false
          have hsub : sub ∈ r.model.edges :=
            (ModelGraph.mem_getEdgesFromNode.mp (by rw [hes]; simp)).1
          refine iff_of_true (fun htrue => ?_) (by simp)
          have hlead := leadsTo_of_edgeTrue hw hsub _ htrue
          rw [Edge.leadsTo, Bool.and_eq_true] at hlead
          rw [Option.isNone_iff_eq_none] at hnone
          rw [hnone] at hlead
          cases hlead.1
        · simp only [Option.mem_def, Option.some.injEq, forall_eq']
          rfl
  · trivial

/-- **The plan of every call that comes up has the call's meaning.** -/
theorem expand_means (hw : r.model.Weighted) (hr : r.model.RecursionMarked) (c : Call)
    (hc : CallValid r c) :
    PlanMeans (callTruth r (Related r hg)) (callTruth r (Related r hg) c) (expand r c) := by
  cases c with
  | resolveCheck req => exact resolveCheck_means hw req
  | resolveUnion req n visited => exact resolveUnion_means hw hr hc.1 visited
  | resolveUnionEdges req edges =>
    show (∃ e ∈ edges, EdgeTrue r hg req e) ↔ _
    simp only [mem_map, exists_exists_and_eq_and]
    rfl
  | recursiveBranch => exact any_single_means Iff.rfl
  | resolveRecursiveEdge req e visited =>
    exact resolveRecursiveEdge_means (related_same r hg) hc visited
  | resolveEdge req e visited => exact edgePlan_means (related_same r hg) hw hc.1 hc.2 visited
  | resolveIntersection req =>
    obtain ⟨⟨uid, rfl⟩, -⟩ := hc
    exact resolveIntersection_means hw req uid
  | resolveExclusion req =>
    obtain ⟨⟨uid, rfl⟩, -⟩ := hc
    exact resolveExclusion_means hw req uid

end Plans

end Kengen
