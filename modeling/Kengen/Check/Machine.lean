import Kengen.Check.Plans

/-!
# The resolver as a task machine

The resolver's calls and plans form a task machine whose meaning is the meaning
of the model graph.  A call's map of visited objects is its region.

* **`checkMeaning`** — the meaning of the calls and of the cache keys.
* **`checkRegions`** — which calls share a map of visited objects.
* **`checkMeaning_founded`** — calls that only support each other are not true.
-/

namespace Kengen

open TaskMachine List

variable {r : Resolver}

/-! ### The calls that come up -/

variable {req : Request} {e : Edge} {visited : Option ℕ} {c : Call}

theorem starts_single {key : Option EdgeCacheKey} {c' : Call}
    (h : (Plan.any [(key, c)] : CheckPlan).Starts c') : c' = c := by
  obtain ⟨p, hp, rfl⟩ := h
  rw [mem_singleton.mp hp]

theorem EdgePlan.callValid {plan : CheckPlan} (hplan : EdgePlan r req e visited plan)
    (hw : r.model.Weighted) (hd : r.model.Defined) (he : EdgeValid r req e) (h : plan.Starts c) :
    CallValid r c := by
  obtain ⟨he, htype⟩ := he
  have hsame : e.isTupleEdge = false → r.model.HasType e.toNode req.object.type := fun h => by
    rw [← htype]
    exact hd.hasType_toNode he h
  cases hplan with
  | ret => exact absurd h id
  | usersets | ttu =>
    obtain ⟨_, hitem, rfl⟩ := h
    obtain ⟨t, -, rfl⟩ := mem_map.mp hitem
    exact ⟨rfl, hd.hasType_relation _ _⟩
  | union hflat =>
    rw [starts_single h]
    exact ⟨hw.flat e he hflat, hsame (Edge.isTupleEdge_of_canFlatten hflat)⟩
  | intersection uid hkind hto =>
    rw [starts_single h]
    exact ⟨⟨uid, hto⟩, hsame (by rw [Edge.isTupleEdge, hkind])⟩
  | exclusion uid hkind hto hwild =>
    rw [starts_single h]
    exact ⟨⟨uid, hto⟩, hsame (by rw [Edge.isTupleEdge, hkind]), hwild⟩

/-- **The calls that come up start only such calls.** -/
theorem callValid_starts (hg : r.model.NoOperatorCycle) (hw : r.model.Weighted)
    (hr : r.model.RecursionMarked) (hd : r.model.Defined) (c c' : Call) (hc : CallValid r c)
    (h : (expand r c).Starts c') : CallValid r c' := by
  have hplan := expands r c
  generalize expand r c = plan at hplan h
  cases hplan with
  | fails | denied | deniedAll => exact absurd h id
  | check req =>
    rw [starts_single h]
    exact ⟨rfl, hd.hasType_relation _ _⟩
  | fresh =>
    obtain ⟨m, rfl⟩ := h
    exact hc
  | @recursion req _ _ _ _ hi hrec hflat =>
    obtain ⟨hn, htype⟩ := hc
    obtain ⟨hspec, hut, hto, hself, -⟩ := canApplyRecursion_spec hg (codeFacts r req) hw hr hi hn
      hrec
    obtain ⟨q, hq, rfl⟩ := h
    rcases mem_cons.mp hq with rfl | hq
    · intro l hl
      obtain ⟨hleads, -, hmem⟩ := of_mem_flattenNode hflat hl
      rw [hto] at hflat
      exact ⟨⟨hmem, type_of_mem_flattenNode hd htype hflat hl⟩, hleads⟩
    · rw [mem_singleton.mp hq]
      exact ⟨⟨hspec.mem, hspec.typed hd _ htype⟩, hspec.tuple, hut, hself⟩
  | flat hi hflat =>
    obtain ⟨q, hq, rfl⟩ := h
    obtain ⟨l, hl, rfl⟩ := mem_map.mp hq
    obtain ⟨hleads, -, hmem⟩ := of_mem_flattenNode hflat hl
    exact ⟨⟨hmem, type_of_mem_flattenNode hd hc.2 hflat hl⟩, hleads⟩
  | edges =>
    obtain ⟨p, hp, rfl⟩ := h
    obtain ⟨l, hl, rfl⟩ := mem_map.mp hp
    exact hc l hl
  | branch =>
    rw [starts_single h]
    exact hc
  | recursiveEdge hplan | edge hplan => exact hplan.callValid hw hd hc.1 h
  | intersection hleads =>
    obtain ⟨e, he, rfl⟩ := mem_map.mp h
    exact ⟨⟨(ModelGraph.mem_getEdgesFromNode.mp he).1, hc.2 e he⟩, hleads e he⟩
  | exclusion hedges =>
    obtain ⟨-, htype, hnowild⟩ := hc
    obtain ⟨e, he, hweight, rfl⟩ := hedges c' h
    refine ⟨⟨(ModelGraph.mem_getEdgesFromNode.mp he).1, htype e he⟩, ?_⟩
    rw [hnowild]
    exact Edge.leadsTo_iff.mpr ⟨Edge.weight_isSome.mp hweight, nofun⟩

/-! ### Cache keys -/

variable {hg : r.model.NoOperatorCycle}

/-- Edges that agree in what a cache key and the type restrictions say are true together. -/
theorem edgeTrue_congr {e' : Edge} (htype : e.edgeType = e'.edgeType) (hto : e.toNode = e'.toNode)
    (hrel : e.relationDefinition = e'.relationDefinition)
    (htupleset : e.tuplesetRelation = e'.tuplesetRelation)
    (hdirect : e.edgeType = .direct → e.conditions = e'.conditions ∧ e.onCycle = e'.onCycle) :
    EdgeTrue r hg req e ↔ EdgeTrue r hg req e' := by
  have hassigned : ∀ o, (codeFacts r req).assigned e o ↔ (codeFacts r req).assigned e' o := by
    intro o
    show _ ∧ codeAssigned r _ e ↔ _ ∧ codeAssigned r _ e'
    rw [hrel]
    refine and_congr_right fun _ => ?_
    by_cases hd : e.edgeType = .direct
    · simp only [codeAssigned, specificType, specificTypeWildcard, ← htype, ← hto, ← hrel,
        ← (hdirect hd).1]
    · have hd' : e'.edgeType ≠ .direct := htype ▸ hd
      unfold codeAssigned
      split <;> split <;> simp_all
  have hlinks : ∀ o, linkTuples r (req.cloneWithTupleKey o "") e
      = linkTuples r (req.cloneWithTupleKey o "") e' := by
    intro o
    by_cases hd : e.edgeType = .direct
    · simp only [linkTuples, usersetTuples, ← htype, ← hto, ← hrel, ← htupleset, ← (hdirect hd).1]
    · unfold linkTuples
      rw [← htype, ← hto, ← htupleset]
      split
      · exact absurd ‹_› hd
      · rfl
      · rfl
  have hlinked : ∀ o o', (codeFacts r req).linked e o o' ↔ (codeFacts r req).linked e' o o' := by
    intro o o'
    simp only [codeFacts, hlinks, ← htype, ← hto, ← hrel]
    refine and_congr_right fun _ => and_congr_left fun _ => forall_congr' fun hd => ?_
    rw [(hdirect hd).2]
  unfold EdgeTrue edgeBody Edge.isTupleEdge
  simp only [hassigned, hlinked, htype, hto]

/-- **Equal cache keys have equal answers.** -/
theorem edgeTrue_of_key (hr : r.model.RecursionMarked)
    {req' : Request} {e' : Edge} (he : e ∈ r.model.edges) (he' : e' ∈ r.model.edges)
    (h : edgeCacheKey req e = edgeCacheKey req' e') :
    EdgeTrue r hg req e ↔ EdgeTrue r hg req' e' := by
  simp only [edgeCacheKey, EdgeCacheKey.mk.injEq] at h
  obtain ⟨hobject, huser, hrel, htype, hto, htupleset, hctx, hcontext⟩ := h
  have hreq : req' = req.cloneWithTupleKey req.object req'.relation := by
    cases req'
    simp only at hobject huser hctx hcontext
    simp [Request.cloneWithTupleKey, hobject, huser, hctx, hcontext]
  rw [hreq]
  refine edgeTrue_congr htype hto hrel htupleset fun hd => ?_
  obtain ⟨hcond, hrec, hcycle⟩ := hr.restriction e he e' he' hd (htype ▸ hd) hrel hto
  exact ⟨hcond, by rw [Edge.onCycle, Edge.onCycle, hrec, hcycle]⟩

theorem key_means (hr : r.model.RecursionMarked) (he : e ∈ r.model.edges) :
    EdgeTrue r hg req e ↔ keyTruth r hg (edgeCacheKey req e) := by
  constructor
  · intro h
    exact ⟨req, e, he, rfl, h⟩
  · rintro ⟨_, _, he', hkey, h⟩
    exact (edgeTrue_of_key hr he' he hkey).mp h

/-- The cached branches of a plan ask about edges of the graph, under the key of the edge. -/
def CachesEdges (r : Resolver) (hg : r.model.NoOperatorCycle) : CheckPlan → Prop
  | .any branches => ∀ k c, (some k, c) ∈ branches →
    ∃ req, ∃ e ∈ r.model.edges, edgeCacheKey req e = k
      ∧ (callTruth r (Related r hg) c ↔ EdgeTrue r hg req e)
  | _ => True

theorem cachesEdges_uncached (c : Call) : CachesEdges r hg (.any [(none, c)]) := by
  intro k c' h
  simp at h

theorem cachesEdges_edges {edges : List Edge} (hedges : ∀ e ∈ edges, e ∈ r.model.edges) :
    CachesEdges r hg
      (.any (edges.map fun e => (some (edgeCacheKey req e), .resolveEdge req e visited))) := by
  intro k c h
  obtain ⟨e, he, heq⟩ := mem_map.mp h
  rw [Prod.mk.injEq, Option.some.injEq] at heq
  exact ⟨req, e, hedges e he, heq.1, by rw [← heq.2]; rfl⟩

theorem EdgePlan.cachesEdges {plan : CheckPlan} (hplan : EdgePlan r req e visited plan) :
    CachesEdges r hg plan := by
  cases hplan with
  | ret | usersets | ttu => trivial
  | union | intersection | exclusion => exact cachesEdges_uncached _

theorem cachesEdges_expand (c : Call) (hc : CallValid r c) : CachesEdges r hg (expand r c) := by
  have hplan := expands r c
  generalize expand r c = plan at hplan
  cases hplan with
  | fails | denied | fresh | deniedAll | intersection | exclusion => trivial
  | check => exact cachesEdges_uncached _
  | recursion =>
    intro k c h
    simp at h
  | flat hi hflat => exact cachesEdges_edges fun e he => (of_mem_flattenNode hflat he).2.2
  | edges => exact cachesEdges_edges fun e he => (hc e he).1.1
  | branch req e =>
    intro k c h
    rw [mem_singleton, Prod.mk.injEq, Option.some.injEq] at h
    exact ⟨req, e, hc.1.1, h.1.symm, by rw [h.2]; rfl⟩
  | recursiveEdge hplan | edge hplan => exact hplan.cachesEdges

theorem means_of_expand (hw : r.model.Weighted) (hr : r.model.RecursionMarked) (hc : CallValid r c)
    {plan : CheckPlan} (h : expand r c = plan) :
    PlanMeans (callTruth r (Related r hg)) (callTruth r (Related r hg) c) plan := by
  rw [← h]
  exact expand_means hw hr c hc

/-- **What the calls of the resolver mean.** -/
def checkMeaning (hg : r.model.NoOperatorCycle) (hw : r.model.Weighted)
    (hr : r.model.RecursionMarked) (hd : r.model.Defined) : Meaning (expand r) where
  valid := CallValid r
  truth := callTruth r (Related r hg)
  keyTruth := keyTruth r hg
  starts := callValid_starts hg hw hr hd
  ret _ _ hc h := means_of_expand hw hr hc h
  any _ _ hc h := means_of_expand hw hr hc h
  scan _ _ _ hc h := means_of_expand hw hr hc h
  every _ _ hc h := means_of_expand hw hr hc h
  butNot _ _ _ hc h := means_of_expand hw hr hc h
  fresh _ _ _ m hc h := means_of_expand hw hr hc h m
  key c branches k c' hc h hmem := by
    have := @cachesEdges_expand r hg c hc
    rw [h] at this
    obtain ⟨_, e, he, rfl, htrue⟩ := this k c' hmem
    rw [htrue, key_means hr he]

end Kengen
