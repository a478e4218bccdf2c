import Kengen.Check.Machine

/-!
# Recursion in the resolver is founded

The calls that use one map of visited objects form a region.  The meaning of
the resolver's calls is least: a set of calls, each of which is false as soon as
the others are, contains no true call.  So a refusal inside a region that rests
on a dropped userset is right when the root of the region refuses.

* **`checkRegions`** — which calls share a map of visited objects.
* **`checkMeaning_founded`** — calls that only support each other are not true.
-/

namespace Kengen

open TaskMachine Stratified List

variable {r : Resolver}

/-! ### Regions -/

/-- The map that a call uses. -/
def Call.mapOf : Call → Option ℕ
  | .resolveUnion _ _ visited => visited
  | .resolveUnionEdges _ _ visited => visited
  | .recursiveBranch _ _ visited => visited
  | .resolveRecursiveEdge _ _ visited => visited
  | .resolveEdge _ e visited => e.passedMap visited
  | _ => none

/-- How a plan passes a map on. -/
def PassesMap (map : Option ℕ) : CheckPlan → Prop
  | .ret _ => True
  | .any branches => ∀ q ∈ branches, q.2.mapOf = none ∨ q.2.mapOf = map
  | .scan used items => used = map ∧ ∀ item ∈ items, item.call.mapOf = used
  | .every calls => map = none ∧ ∀ c ∈ calls, c.mapOf = none
  | .butNot base sub => map = none ∧ ∀ c ∈ base :: sub.toList, c.mapOf = none
  | .fresh _ body => map = none ∧ ∀ m, (body m).mapOf = some m

theorem passedMap_cases (e : Edge) (visited : Option ℕ) :
    e.passedMap visited = none ∨ e.passedMap visited = visited := by
  unfold Edge.passedMap
  split
  · exact .inr rfl
  · exact .inl rfl

theorem passedMap_none (e : Edge) : e.passedMap none = none := by
  rcases passedMap_cases e none with h | h <;> exact h

variable {c : Call}

theorem passesMap_single {map : Option ℕ} {key : Option EdgeCacheKey}
    (h : c.mapOf = none ∨ c.mapOf = map) : PassesMap map (.any [(key, c)]) := by
  intro q hq
  rw [mem_singleton.mp hq]
  exact h

theorem EdgePlan.passesMap {req : Request} {e : Edge} {visited : Option ℕ} {plan : CheckPlan}
    (hplan : EdgePlan r req e visited plan) : PassesMap visited plan := by
  cases hplan with
  | ret => trivial
  | usersets | ttu =>
    refine ⟨rfl, fun item hitem => ?_⟩
    obtain ⟨t, -, rfl⟩ := mem_map.mp hitem
    rfl
  | union => exact passesMap_single (.inr rfl)
  | intersection | exclusion => exact passesMap_single (.inl rfl)

theorem passesMap_expand (c : Call) : PassesMap c.mapOf (expand r c) := by
  have hplan := expands r c
  generalize expand r c = plan at hplan
  cases hplan with
  | fails | denied | deniedAll => trivial
  | check => exact passesMap_single (.inl rfl)
  | fresh => exact ⟨rfl, fun m => rfl⟩
  | recursion =>
    intro q hq
    rcases mem_cons.mp hq with rfl | hq
    · exact .inr rfl
    · rw [mem_singleton.mp hq]
      exact .inr rfl
  | flat | edges =>
    intro q hq
    obtain ⟨e, -, rfl⟩ := mem_map.mp hq
    exact passedMap_cases e _
  | branch => exact passesMap_single (.inr rfl)
  | recursiveEdge hplan | edge hplan => exact hplan.passesMap
  | intersection =>
    refine ⟨rfl, fun c hc => ?_⟩
    obtain ⟨e, -, rfl⟩ := mem_map.mp hc
    exact passedMap_none e
  | exclusion hedges =>
    refine ⟨rfl, fun c hc => ?_⟩
    obtain ⟨e, -, -, rfl⟩ := hedges c hc
    exact passedMap_none e

theorem passesMap_of_expand {plan : CheckPlan} (h : expand r c = plan) : PassesMap c.mapOf plan := by
  rw [← h]
  exact passesMap_expand c

/-- **The regions of the resolver.** -/
def checkRegions (r : Resolver) : Regions (expand r) where
  mapOf := Call.mapOf
  any _ _ h := passesMap_of_expand h
  scan _ _ _ h := passesMap_of_expand h
  every _ _ h := passesMap_of_expand h
  butNot _ _ _ h := passesMap_of_expand h
  fresh _ _ _ h := passesMap_of_expand h

/-! ### Calls that only support each other -/

/-- A call about a node. -/
def Call.asksNode : Call → Bool
  | .resolveUnion _ _ _ => true
  | .resolveIntersection _ _ => true
  | .resolveExclusion _ _ => true
  | _ => false

variable {req : Request} {e : Edge} {visited : Option ℕ}

/-- Edges ask about nodes. -/
theorem EdgePlan.asksNode {plan : CheckPlan} (hplan : EdgePlan r req e visited plan)
    (h : plan.Starts c) : c.asksNode := by
  cases hplan with
  | ret => exact absurd h id
  | usersets | ttu =>
    obtain ⟨_, hitem, rfl⟩ := h
    obtain ⟨t, -, rfl⟩ := mem_map.mp hitem
    rfl
  | union | intersection | exclusion =>
    rw [starts_single h]
    rfl

section Founded

variable {hg : r.model.NoOperatorCycle} {hw : r.model.Weighted} {hr : r.model.RecursionMarked}
  {hd : r.model.Defined} {P : Call → Prop}

/-- A plan whose calls are refuted is not true. -/
theorem not_of_unfounded {T : Call → Prop} {Q : Prop} (hmeans : PlanMeans T Q (expand r c))
    (hun : Unfounded (checkMeaning hg hw hr hd) P c)
    (hstart : ∀ c', (expand r c).Starts c' → P c' ∨ ¬ callTruth r (Related r hg) c' → ¬ T c') :
    ¬ Q := by
  unfold Unfounded at hun
  rcases hplan : expand r c with a | branches | ⟨_, items⟩ | calls | ⟨_, _⟩ | ⟨_, _⟩ <;>
    simp only [hplan] at hun hmeans hstart
  · subst hun
    have hmeans' : Q ↔ false = true := hmeans
    simp [hmeans']
  · have hmeans' : Q ↔ ∃ q ∈ branches, T q.2 := hmeans
    rw [hmeans']
    rintro ⟨q, hq, hT⟩
    exact hstart q.2 ⟨q, hq, rfl⟩ (hun q hq) hT
  · have hmeans' : Q ↔ ∃ item ∈ items, item.cond = .ok true ∧ T item.call := hmeans
    rw [hmeans']
    rintro ⟨item, hitem, hcond, hT⟩
    exact hstart item.call ⟨item, hitem, rfl⟩ (hun item hitem hcond) hT

variable (hg P) in
/-- The edge is false on the object once the calls of `P` are. -/
def Refuted (req : Request) (l : Edge) (o : Object) : Prop :=
  (∃ relation visited, P (.resolveEdge (req.cloneWithTupleKey o relation) l visited)
      ∨ P (.resolveRecursiveEdge (req.cloneWithTupleKey o relation) l visited))
    ∨ ¬ edgeBody (codeFacts r req) (Related r hg req) l o

variable (hg P) in
/-- All terminal edges below the node are refuted. -/
def Stuck (req : Request) (x : Node × Object) : Prop :=
  x.1.isUnionLike ∧ ∃ depth ls, collect (flattenEdge r.model req.userType req.isTypedWildcard none
    depth) (r.model.getEdgesFromNode x.1) = .ok ls ∧ ∀ l ∈ ls, Refuted hg P req l x.2

variable (hg P) in
/-- What holds and is not stuck. -/
def Free (req : Request) (x : Node × Object) : Prop := Related r hg req x ∧ ¬ Stuck hg P req x

theorem free_same : SameForAll (Free hg P) := fun _ _ _ => rfl

variable (hP : ∀ c, P c → CallValid r c ∧ Unfounded (checkMeaning hg hw hr hd) P c)

include hP in
/-- A union of `P` is stuck. -/
theorem stuck_of_union {n : Node}
    (h : P (.resolveUnion req n visited)) : Stuck hg P req (n, req.object) := by
  obtain ⟨hvalid, hun⟩ := hP _ h
  have hn : n.isUnionLike := hvalid.1
  have hedge : ∀ l, (P (.resolveEdge req l visited) ∨ P (.resolveRecursiveEdge req l visited))
      ∨ ¬ EdgeTrue r hg req l → Refuted hg P req l req.object := by
    rintro l (hl | hl)
    · exact .inl ⟨req.relation, visited, hl⟩
    · exact .inr hl
  unfold Unfounded at hun
  have hplan := expands r (.resolveUnion req n visited)
  generalize expand r (.resolveUnion req n visited) = plan at hplan hun
  cases hplan with
  | fails => cases hun
  | fresh => exact absurd hun id
  | @recursion _ i _ _ edges hmem hrec hflat =>
    obtain ⟨hspec, -, hto, -, huniq⟩ := canApplyRecursion_spec hg (codeFacts r req) hw hr hmem hn
      hrec
    rw [hspec.relation, hto] at hflat
    obtain ⟨all, hall, hkeep⟩ := flattenNode_skip hflat
    refine ⟨hn, _, all, (flattenNode_eq_ok.mp hall).2, fun l hl => hedge l ?_⟩
    by_cases hlrec : l.recursiveRelation = some i.node
    · -- the recursive edge itself, through `recursiveBranch`
      obtain rfl := eq_recursiveEdge hr huniq hall hl hlrec
      rcases hun (none, .recursiveBranch req l visited) (by simp) with hbranch | hfalse
      · have hun' := (hP _ hbranch).2
        exact (hun' (some (edgeCacheKey req l), _) (by simp)).imp .inr id
      · exact .inr hfalse
    · have hl' := (hkeep l).mpr ⟨hl, hlrec⟩
      rcases hun (none, .resolveUnionEdges req edges visited) (by simp) with hbranch | hfalse
      · have hun' := (hP _ hbranch).2
        exact (hun' _ (mem_map_of_mem hl')).imp .inl id
      · exact .inr fun htrue => hfalse ⟨l, hl', htrue⟩
  | @flat _ _ _ edges _ hflat =>
    refine ⟨hn, _, edges, (flattenNode_eq_ok.mp hflat).2, fun l hl => hedge l ?_⟩
    exact (hun _ (mem_map_of_mem hl)).imp .inl id

include hP in
/-- A call of `P` that answers at once is not true. -/
theorem not_true_of_ret (hc : P c) {a : Except Err Bool} (hplan : expand r c = .ret a) :
    ¬ callTruth r (Related r hg) c := by
  obtain ⟨hvalid, hun⟩ := hP c hc
  refine not_of_unfounded (expand_means hw hr c hvalid) hun fun c' hstart => ?_
  rw [hplan] at hstart
  exact absurd hstart id

include hP in
/-- A node that is asked about in `P`, or does not hold, is not free. -/
theorem not_free_of_asksNode (hc : c.asksNode)
    (h : P c ∨ ¬ callTruth r (Related r hg) c) : ¬ callTruth r (Free hg P) c := by
  have hfree : callTruth r (Free hg P) c → callTruth r (Related r hg) c := by
    cases c <;> first | exact And.left | cases hc
  rcases h with hPc | hfalse
  · have hun := (hP c hPc).2
    unfold Unfounded at hun
    have hplan := expands r c
    generalize heq : expand r c = plan at hplan hun
    cases hplan with
    | fails | deniedAll => exact fun hf => not_true_of_ret hP hPc heq (hfree hf)
    | fresh | recursion | flat => exact fun hf => hf.2 (stuck_of_union hP hPc)
    | intersection | exclusion => exact absurd hun id
    | _ => cases hc
  · exact fun hf => hfalse (hfree hf)

include hP in
/-- A refuted edge has no free support. -/
theorem not_edgeBody_of_refuted {l : Edge} {o : Object}
    (h : Refuted hg P req l o) : ¬ edgeBody (codeFacts r req) (Free hg P req) l o := by
  rcases h with ⟨_, visited, hl | hl⟩ | hfalse
  · obtain ⟨hvalid, hun⟩ := hP _ hl
    exact not_of_unfounded (edgePlan_means free_same hw hvalid.1 hvalid.2 visited) hun
      fun c' hstart => not_free_of_asksNode hP ((edgePlan_cases ..).asksNode hstart)
  · obtain ⟨hvalid, hun⟩ := hP _ hl
    exact not_of_unfounded (resolveRecursiveEdge_means free_same hvalid visited) hun
      fun c' hstart => not_free_of_asksNode hP ((expand_resolveRecursiveEdge ..).asksNode hstart)
  · exact fun hbody => hfalse (edgeBody_imp (fun _ hx => hx.1) hbody)

include hP in
/-- **What is stuck does not hold.**  The stuck nodes are an unfounded set. -/
theorem not_related_of_stuck {x : Node × Object} (h : Stuck hg P req x) : ¬ Related r hg req x := by
  refine System.not_holds_of_unfounded _ (Stuck hg P req) (fun x hx => ?_) x h
  obtain ⟨n, o⟩ := x
  obtain ⟨hn, _, _, hls, href⟩ := hx
  intro hbody
  have hbody' : ∃ e ∈ r.model.getEdgesFromNode n, edgeBody (codeFacts r req) (Free hg P req) e o := by
    cases n with
    | operatorNode op =>
      cases op with
      | union => exact hbody
      | _ => cases hn
    | specificType | specificTypeWildcard => cases hn
    | specificTypeAndRelation | logicalDirectGrouping | logicalTTUGrouping =>
      exact hbody
  obtain ⟨e, he, hfree⟩ := hbody'
  obtain ⟨lse, hlse⟩ := collect_ok hls e he
  have hsub : ∀ l ∈ lse, Refuted hg P req l o := fun l hl =>
    href l ((mem_collect hls l).mpr ⟨e, he, lse, hlse, hl⟩)
  have hmem := (ModelGraph.mem_getEdgesFromNode.mp he).1
  have hleads : e.leadsTo req.userType req.isTypedWildcard :=
    @leadsTo_of_edgeTrue r hg req e hw hmem o (edgeBody_imp (fun _ hx => hx.1) hfree)
  rcases flattenEdge_eq_ok.mp hlse with ⟨hno, -⟩ | ⟨-, -, rfl⟩ | ⟨-, hflat, d, -, -, hd⟩
  · rw [hleads] at hno
    cases hno
  · exact not_edgeBody_of_refuted hP (hsub e (by simp)) hfree
  · -- the node below is stuck too
    rw [edgeBody_rewrite (Edge.isTupleEdge_of_canFlatten hflat)] at hfree
    exact hfree.2 ⟨hw.flat e hmem hflat, d, lse, hd, hsub⟩

end Founded

/-- **The meaning of the resolver's calls is founded.** -/
theorem checkMeaning_founded (hg : r.model.NoOperatorCycle) (hw : r.model.Weighted)
    (hr : r.model.RecursionMarked) (hd : r.model.Defined) : Founded (checkMeaning hg hw hr hd) := by
  intro P hP c hc
  have hnode : ∀ c', c'.asksNode → P c' → ¬ callTruth r (Related r hg) c' := by
    intro c' hask hc' htrue
    refine not_free_of_asksNode hP hask (.inl hc') ?_
    cases c' <;> first | exact ⟨htrue, fun hs => not_related_of_stuck hP hs htrue⟩ | cases hask
  -- a call of `P` is not true if the calls of `P` that it starts are not
  have hstep : ∀ c', P c' → (∀ c'', (expand r c').Starts c'' → P c'' →
      ¬ callTruth r (Related r hg) c'') → ¬ callTruth r (Related r hg) c' := by
    intro c' hc' hstarts
    obtain ⟨hvalid, hun⟩ := hP c' hc'
    refine not_of_unfounded (expand_means hw hr c' hvalid) hun fun c'' hstart hor => ?_
    exact hor.elim (hstarts c'' hstart) id
  have hedge : ∀ req e visited, P (.resolveEdge req e visited) →
      ¬ callTruth r (Related r hg) (.resolveEdge req e visited) := fun req e visited h =>
    hstep _ h fun c' hstart => hnode c' ((edgePlan_cases ..).asksNode hstart)
  have hrec : ∀ req e visited, P (.resolveRecursiveEdge req e visited) →
      ¬ callTruth r (Related r hg) (.resolveRecursiveEdge req e visited) := fun req e visited h =>
    hstep _ h fun c' hstart => hnode c' ((expand_resolveRecursiveEdge ..).asksNode hstart)
  cases c with
  | resolveCheck req =>
    have hplan := expands r (.resolveCheck req)
    generalize heq : expand r (.resolveCheck req) = plan at hplan
    cases hplan with
    | fails | denied => exact not_true_of_ret hP hc heq
    | check =>
      refine hstep _ hc fun c' hstart => ?_
      rw [heq] at hstart
      rw [starts_single hstart]
      exact hnode _ rfl
  | resolveUnion | resolveIntersection | resolveExclusion =>
    exact hnode _ rfl hc
  | resolveUnionEdges req edges visited =>
    refine hstep _ hc fun c' hstart => ?_
    obtain ⟨q, hq, rfl⟩ := hstart
    obtain ⟨e, -, rfl⟩ := mem_map.mp hq
    exact hedge req e visited
  | recursiveBranch req e visited =>
    refine hstep _ hc fun c' hstart => ?_
    rw [starts_single hstart]
    exact hrec req e visited
  | resolveRecursiveEdge req e visited => exact hrec req e visited hc
  | resolveEdge req e visited => exact hedge req e visited hc

end Kengen
