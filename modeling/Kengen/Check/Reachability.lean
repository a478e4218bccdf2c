import Kengen.Check.RecursiveEnds

/-!
# The recursive strategy and conditional reachability

The recursive strategy is meant to answer whether tuples with true conditions
lead from the request's object to an object of the left side.

* `RecursiveLink` — a tuple with a true condition leads from one object to another.
* **`link_iff`** — the links that the search reads.
* **`recursive_reachability`** — in every run that passes over a tuple with a true condition only
  if its object has been taken up, the result is reachability; the strategy comes to an end, and
  only a jammed pool keeps it from returning.
* **`false_condition_hides_object`** — a run in which a tuple with a false condition hides an
  object from a later tuple with a true one.
* **`full_channel_jams`** — a run that ends in a jammed pool.
-/

namespace Kengen

namespace Recursive

open PoolSearch Runs

/-- An edge back to a relation of its own type; a userset edge leads to its own relation. -/
structure IsLoop (g : ModelGraph) (e : Edge) : Prop where
  mem : e ∈ g.edges
  node : ∃ relation, e.toNode = .specificTypeAndRelation e.relationDefinition.1 relation
  userset : e.edgeType = .direct →
    e.toNode = .specificTypeAndRelation e.relationDefinition.1 e.relationDefinition.2

/-- **A recursive tuple with a true condition** leads from an id to another. -/
def RecursiveLink (r : Resolver) (req : Request) (e : Edge) (u u' : User) : Prop :=
  ∃ conditions ∈ linkConditions r.model e, ∃ t o', IsTuple r req t ∧ u = .object t.object
    ∧ e.relationDefinition.1 = t.object.type ∧ t.relation = e.linkRelation
    ∧ e.leadsFrom t.user o' ∧ u' = (if e.edgeType = .ttu then t.user else .object o')
    ∧ Passes r req conditions t

/-- The left side can be reached from the request's object by tuples with true conditions. -/
def Reachable (r : Resolver) (req : Request) (e : Edge) (left : List String) : Prop :=
  ∃ u, Relation.TransGen (RecursiveLink r req e) (.object req.object) u ∧ u.str ∈ left

/-- No contextual tuple of an object that recursive tuples lead to hides another contextual tuple of
its key. -/
def LinksShown (r : Resolver) (req : Request) (e : Edge) : Prop :=
  ∀ conditions ∈ linkConditions r.model e, ∀ t ∈ req.contextualTuples,
    Relation.ReflTransGen (RecursiveLink r req e) (.object req.object) (.object t.object) →
    e.relationDefinition.1 = t.object.type → t.relation = e.linkRelation →
    Passes r req conditions t →
    ∃ t', Readable r req t.object t.relation t' ∧ t'.user = t.user ∧ Passes r req conditions t'

/-- What a tuple of the request's object leads to is on the first level, or it is the object itself
and not on the left side. -/
def FirstLevelShown (r : Resolver) (req : Request) (e : Edge) (left : List String) : Prop :=
  ∀ u, RecursiveLink r req e (.object req.object) u →
    u ∈ traceValues (rightIter r req e) ∨ (u = .object req.object ∧ u.str ∉ left)

section Links

variable {r : Resolver} {req : Request} {e : Edge} {kind : RecursiveType} {edge : Edge}

/-- The two kinds of a recursive edge. -/
theorem recursiveEdge_cases (h : recursiveEdge r.model e = some (kind, edge)) :
    (kind = .userset ∧ edge = e ∧ e.edgeType = .direct)
      ∨ kind = .ttu ∧ e.edgeType = .ttu ∧ ∃ subjectType relation,
        e.toNode = .specificTypeAndRelation subjectType relation
        ∧ r.model.getDirectEdgeFromNodeForUserType e.tuplesetRelation subjectType = some edge := by
  unfold recursiveEdge at h
  split at h
  · rename_i hdirect _
    obtain ⟨rfl, rfl⟩ := Prod.mk.inj (Option.some.inj h)
    exact .inl ⟨rfl, rfl, hdirect⟩
  · rename_i subjectType relation httu hto
    obtain ⟨_, hedge', heq⟩ := Option.map_eq_some_iff.mp h
    obtain ⟨rfl, rfl⟩ := Prod.mk.inj heq
    exact .inr ⟨rfl, httu, subjectType, relation, hto, hedge'⟩
  · cases h

theorem linkConditions_eq (h : recursiveEdge r.model e = some (kind, edge)) :
    linkConditions r.model e = some edge.conditions := by
  rcases recursiveEdge_cases h with ⟨rfl, rfl, hdirect⟩ | ⟨rfl, httu, _, _, hto, hedge⟩
  · rw [linkConditions, hdirect]
  · rw [linkConditions, httu, hto]
    simp only [hedge, Option.map_some]

variable {o : Object}

section

variable (hctx : ContextualValid r req) (hr : r.model.RecursionMarked) (hd : r.model.Defined)
  (hloop : IsLoop r.model e)
include hctx hr hd hloop

/-- A tuple of an object that is read and passes. -/
theorem recursiveTuple_iff
    (hedge : recursiveEdge r.model e = some (kind, edge))
    (htype : e.relationDefinition.1 = o.type) (relation : String) (t : TupleKey) :
    t ∈ recursiveTuples r (req.cloneWithTupleKey o relation) kind edge
        ∧ tupleCondition r req edge.conditions t = .ok true
      ↔ Readable r req o e.linkRelation t ∧ (∃ o', e.leadsFrom t.user o'
        ∧ kind.mapTuple t = if e.edgeType = .ttu then t.user else .object o')
        ∧ Passes r req edge.conditions t := by
  have hctx' : ContextualValid r (req.cloneWithTupleKey o relation) := hctx
  rcases recursiveEdge_cases hedge with ⟨rfl, rfl, hdirect⟩ | ⟨rfl, httu, st, _, hto, hfind⟩
  · have hto := hloop.userset hdirect
    have htuples : recursiveTuples r (req.cloneWithTupleKey o relation) .userset edge
        = usersetTuples r (req.cloneWithTupleKey o relation) edge edge.relationDefinition.2 := by
      simp only [recursiveTuples, hto]
    have hiff := usersetTuple_iff hctx' hr hloop.mem hdirect htype hto t
    rw [htuples]
    refine hiff.trans (and_congr (by rw [Edge.linkRelation, hdirect]; rfl)
      (and_congr ?_ Iff.rfl))
    simp only [Edge.leadsFrom, hdirect, hto, reduceCtorEq, if_false, RecursiveType.mapTuple]
    refine exists_congr fun o' => ⟨fun h => ⟨h, by rw [h.1]; rfl⟩, fun h => h.1⟩
  · obtain ⟨-, -, -, hto'⟩ := tuplesetEdge_spec hd hfind
    have hfrom := (ModelGraph.mem_getEdgesFromNode.mp (List.mem_of_find?_eq_some hfind)).2
    have htuples : recursiveTuples r (req.cloneWithTupleKey o relation) .ttu edge
        = ttuTuples r (req.cloneWithTupleKey o relation) e.tuplesetRelation.2 st edge.conditions := by
      simp only [recursiveTuples, hfrom, hto']
    have hiff := ttuTuple_iff hctx' hr hd hloop.mem httu htype hfind t
    rw [htuples]
    refine hiff.trans (and_congr (by rw [Edge.linkRelation, httu]; rfl)
      (and_congr ?_ Iff.rfl))
    simp only [Edge.leadsFrom, httu, hto, if_true, RecursiveType.mapTuple]
    exact ⟨fun h => ⟨_, ⟨rfl, h⟩, trivial⟩, fun ⟨o', ⟨ho, hty⟩, _⟩ => by rw [ho]; exact hty⟩

/-- **The links that the search reads** are the recursive tuples with a true condition. -/
theorem link_iff (hshown : LinksShown r req e)
    (hedge : recursiveEdge r.model e = some (kind, edge)) (htype : e.relationDefinition.1 = o.type)
    (ho : Relation.ReflTransGen (RecursiveLink r req e) (.object req.object) (.object o)) (u : User) :
    (u, .ok true) ∈ buildTupleMapperForID r req kind edge (.object o)
      ↔ RecursiveLink r req e (.object o) u := by
  have hconds := linkConditions_eq hedge
  have htuple := recursiveTuple_iff hctx hr hd hloop hedge htype req.relation
  constructor
  · intro h
    obtain ⟨t, ht, heq⟩ := List.mem_map.mp h
    obtain ⟨rfl, htrue⟩ := Prod.mk.inj heq
    obtain ⟨hread, ⟨o', hleads, hmap⟩, hpass⟩ := (htuple t).mp ⟨ht, htrue⟩
    refine ⟨edge.conditions, hconds, t, o', ?_⟩
    rcases hread with ⟨hmem, ho, hrel⟩ | hfirst
    · exact ⟨.inl hmem, by rw [ho], by rw [ho]; exact htype, hrel, hleads, hmap, hpass⟩
    · obtain ⟨hmem, ho, hrel⟩ := contextualTuple_iff hfirst
      exact ⟨.inr hmem, by rw [ho], by rw [ho]; exact htype, hrel, hleads, hmap, hpass⟩
  · rintro ⟨conditions, hc, t, o', htup, heq, -, hrel, hleads, rfl, hpass⟩
    obtain rfl := User.object.inj heq
    obtain rfl : edge.conditions = conditions := Option.some.inj (hconds.symm.trans hc)
    -- the tuple itself is read, or another one with its user
    have hread : ∃ t', Readable r req t.object t.relation t' ∧ t'.user = t.user
        ∧ Passes r req edge.conditions t' := by
      rcases htup with hmem | hmem
      · exact ⟨t, .inl ⟨hmem, rfl, rfl⟩, rfl, hpass⟩
      · exact hshown _ hc t hmem ho htype hrel hpass
    obtain ⟨t', hread', huser, hpass'⟩ := hread
    rw [hrel] at hread'
    have hmap : kind.mapTuple t' = if e.edgeType = .ttu then t.user else .object o' := by
      rcases recursiveEdge_cases hedge with ⟨rfl, -, hdirect⟩ | ⟨rfl, httu, -⟩
      · rw [Edge.leadsFrom, hdirect, hloop.userset hdirect] at hleads
        simp only [hdirect, reduceCtorEq, if_false, RecursiveType.mapTuple, huser, hleads.1]
        rfl
      · simp only [httu, if_true, RecursiveType.mapTuple, huser]
    have hleads' : ∃ o', e.leadsFrom t'.user o'
        ∧ kind.mapTuple t' = if e.edgeType = .ttu then t'.user else .object o' :=
      ⟨o', by rw [huser]; exact hleads, by rw [hmap, huser]⟩
    obtain ⟨ht, htrue⟩ := (htuple t').mpr ⟨hread', hleads', hpass'⟩
    refine List.mem_map.mpr ⟨t', ht, ?_⟩
    rw [hmap, htrue]

end

/-- A link leads to an object of the type of the edge, if it leads to an object. -/
theorem RecursiveLink.type (hloop : IsLoop r.model e) {u : User}
    (h : RecursiveLink r req e u (.object o)) : e.relationDefinition.1 = o.type := by
  obtain ⟨_, -, t, _, -, -, -, -, hleads, hmap, -⟩ := h
  obtain ⟨_, hto⟩ := hloop.node
  rw [Edge.leadsFrom, hto] at hleads
  split at hleads
  · rename_i hdirect heq
    obtain ⟨rfl, rfl⟩ := Node.specificTypeAndRelation.inj heq
    rw [hdirect, if_neg (by simp)] at hmap
    rw [User.object.inj hmap]
    exact hleads.2.symm
  · rename_i httu heq
    obtain ⟨rfl, rfl⟩ := Node.specificTypeAndRelation.inj heq
    rw [httu, if_pos rfl] at hmap
    rw [← hmap] at hleads
    obtain ⟨rfl, hty⟩ := hleads
    exact hty.symm
  · cases hleads

/-- The same for any id that is reached: an id that is no object leads nowhere. -/
theorem searchLink_iff (hctx : ContextualValid r req) (hr : r.model.RecursionMarked)
    (hd : r.model.Defined) (hloop : IsLoop r.model e) (hshown : LinksShown r req e)
    (hedge : recursiveEdge r.model e = some (kind, edge)) {u : User}
    (hu : Relation.TransGen (RecursiveLink r req e) (.object req.object) u) (limit : ℕ)
    (left : List String) (v : User) :
    (searchFor r req limit kind edge left).Link u v ↔ RecursiveLink r req e u v := by
  rcases u with o | ⟨o, _⟩ | w
  · obtain ⟨_, -, hlast⟩ := Relation.TransGen.tail'_iff.mp hu
    exact link_iff hctx hr hd hloop hshown hedge (hlast.type hloop) hu.to_reflTransGen v
  · refine iff_of_false (by intro h; cases h) ?_
    rintro ⟨_, -, t, o', -, ho, -⟩
    cases ho
  · refine iff_of_false (by intro h; cases h) ?_
    rintro ⟨_, -, t, o', -, ho, -⟩
    cases ho

end Links

/-! ### The first level -/

section FirstLevel

variable {r : Resolver} {req : Request} {e : Edge} {kind : RecursiveType} {edge : Edge}

theorem mem_uniqueEntries {α : Type} {visited : List VisitedKey} {entries : List (VisitedKey × α)}
    {a : α} (h : a ∈ uniqueEntries visited entries) : ∃ key, (key, a) ∈ entries := by
  induction entries generalizing visited with
  | nil => cases h
  | cons p entries ih =>
    obtain ⟨key, _⟩ := p
    unfold uniqueEntries at h
    split at h
    · obtain ⟨key', hmem⟩ := ih h
      exact ⟨key', List.mem_cons_of_mem _ hmem⟩
    · rcases List.mem_cons.mp h with rfl | h
      · exact ⟨key, List.mem_cons_self ..⟩
      · obtain ⟨key', hmem⟩ := ih h
        exact ⟨key', List.mem_cons_of_mem _ hmem⟩

/-- The iterator of the first level: ids of the request's object, then at most one error. -/
theorem rightIter_eq (req : Request) (hedge : recursiveEdge r.model e = some (kind, edge)) :
    ∃ entries : List (User × Except Err Bool),
      (∀ p ∈ entries, p ∈ buildTupleMapperForID r req kind edge (.object req.object))
      ∧ rightIter r req e = streamTrace ((entries.filter (isPass Prod.snd)).map Prod.fst)
        (pendingErr Prod.snd none entries) := by
  refine ⟨uniqueEntries [.userset (.userset req.object req.relation)]
    ((recursiveTuples r req kind edge).map fun t =>
      (kind.dedupKey e t, kind.mapTuple t, tupleCondition r req edge.conditions t)), ?_, ?_⟩
  · intro p hp
    obtain ⟨_, hmem⟩ := mem_uniqueEntries hp
    obtain ⟨t, ht, heq⟩ := List.mem_map.mp hmem
    obtain ⟨-, rfl⟩ := Prod.mk.inj heq
    exact List.mem_map.mpr ⟨t, ht, rfl⟩
  · unfold rightIter
    simp only [hedge]
    rw [filterTrace_okTrace, streamTrace_map]

/-- A value of the first level comes from a tuple with a true condition. -/
theorem mem_of_rightIter (hedge : recursiveEdge r.model e = some (kind, edge)) {v : User}
    (hv : v ∈ traceValues (rightIter r req e)) :
    (v, .ok true) ∈ buildTupleMapperForID r req kind edge (.object req.object) := by
  obtain ⟨_, hentries, heq⟩ := rightIter_eq req hedge
  rw [heq, traceValues_streamTrace] at hv
  obtain ⟨⟨u, cond⟩, hp, rfl⟩ := List.mem_map.mp hv
  obtain ⟨hmem, hpass⟩ := List.mem_filter.mp hp
  have hcond : cond = .ok true := by
    rcases cond with err | _ | _
    · cases hpass
    · cases hpass
    · rfl
  rw [← hcond]
  exact hentries _ hmem

/-- A cancellation loses no value of the first level. -/
theorem traceValues_untilCancelled (hedge : recursiveEdge r.model e = some (kind, edge)) :
    traceValues (untilCancelled (rightIter r req e)) = traceValues (rightIter r req e) := by
  have hcut : ∀ (xs : List User) (err : Option Err),
      traceValues (untilCancelled (streamTrace xs err)) = traceValues (streamTrace xs err) := by
    intro xs err
    induction xs with
    | nil =>
      rcases err with _ | err
      · rfl
      · simp only [streamTrace_nil_some, untilCancelled]
        split <;> rfl
    | cons x xs ih => simpa [untilCancelled, traceValues, Except.toOption] using ih
  obtain ⟨_, -, heq⟩ := rightIter_eq req hedge
  rw [heq]
  exact hcut _ _

/-- **What the strategy looks for is reachability.** -/
theorem meets_iff (hctx : ContextualValid r req) (hr : r.model.RecursionMarked)
    (hd : r.model.Defined) (hloop : IsLoop r.model e) (hshown : LinksShown r req e)
    (hedge : recursiveEdge r.model e = some (kind, edge))
    (htype : e.relationDefinition.1 = req.object.type) {left : List String}
    (hfirst : FirstLevelShown r req e left) (limit : ℕ) :
    Meets r req limit kind edge left (traceValues (rightIter r req e))
      ↔ Reachable r req e left := by
  have hlevel : ∀ v ∈ traceValues (rightIter r req e),
      RecursiveLink r req e (.object req.object) v := fun v hv =>
    (link_iff hctx hr hd hloop hshown hedge htype .refl v).mp (mem_of_rightIter hedge hv)
  have hlink : ∀ {u : User}, Relation.TransGen (RecursiveLink r req e) (.object req.object) u → ∀ v,
      (searchFor r req limit kind edge left).Link u v ↔ RecursiveLink r req e u v :=
    fun hu v => searchLink_iff hctx hr hd hloop hshown hedge hu limit left v
  constructor
  · rintro (⟨v, hv, hmem⟩ | ⟨x, y, ⟨root, hroot, hpath⟩, hxy, hy⟩)
    · exact ⟨v, .single (hlevel v hv), hmem⟩
    · -- along the search: every id is the end of a chain
      have hchain : Relation.TransGen (RecursiveLink r req e) (.object req.object) x := by
        clear hxy
        induction hpath with
        | refl => exact .single (hlevel root hroot)
        | tail _ hbc ih => exact ih.tail ((hlink ih _).mp hbc)
      exact ⟨y, hchain.tail ((hlink hchain y).mp hxy), of_decide_eq_true hy⟩
  · rintro ⟨u, hchain, hmem⟩
    have hcases : u ∈ traceValues (rightIter r req e)
        ∨ (∃ x, (searchFor r req limit kind edge left).Reached (traceValues (rightIter r req e)) x
          ∧ (searchFor r req limit kind edge left).Link x u)
        ∨ (u = .object req.object ∧ u.str ∉ left) := by
      clear hmem
      induction hchain with
      | single h => exact (hfirst _ h).imp (fun h => h) .inr
      | @tail b c hb hbc ih =>
        rcases ih with hb' | ⟨x, hx, hxb⟩ | ⟨rfl, -⟩
        · exact .inr (.inl ⟨b, ⟨b, hb', .refl⟩, (hlink hb c).mpr hbc⟩)
        · exact .inr (.inl ⟨b, hx.link hxb, (hlink hb c).mpr hbc⟩)
        · exact (hfirst _ hbc).imp (fun h => h) .inr
    rcases hcases with hu | ⟨x, hx, hxu⟩ | ⟨-, hnot⟩
    · exact .inl ⟨u, hu, hmem⟩
    · exact .inr ⟨x, u, hx, hxu, decide_eq_true hmem⟩
    · exact absurd hmem hnot

end FirstLevel

/-! ### The strategy -/

/-- No condition of the edge's tuples fails, and the left side comes without an error. -/
def NoErrors (r : Resolver) (req : Request) (e : Edge) (fuel : ℕ) : Prop :=
  (∀ conditions ∈ linkConditions r.model e, ∀ t, IsTuple r req t → ∀ err,
      tupleCondition r req conditions t ≠ .error err)
    ∧ ∃ xs, (start r req e fuel).leftTrace = some (okTrace xs)

/-- The two ways in which the strategy starts. -/
theorem start_cases (r : Resolver) (req : Request) (e : Edge) (fuel : ℕ) :
    (∃ err, start r req e fuel = .returned (.error err)) ∨ ∃ msgs, start r req e fuel
      = .bootstrap { left := some msgs, right := some (untilCancelled (rightIter r req e)) } := by
  unfold start
  split
  · split
    · exact .inl ⟨_, rfl⟩
    · exact .inr ⟨_, rfl⟩
  · exact .inl ⟨_, rfl⟩

variable {r : Resolver} {req : Request} {e : Edge}

theorem execInv_start {kind : RecursiveType} {edge : Edge}
    (hedge : recursiveEdge r.model e = some (kind, edge)) (limit fuel : ℕ) :
    ExecInv r req limit kind edge (leftIds r req e fuel) (traceValues (rightIter r req e))
      (start r req e fuel) := by
  unfold leftIds
  rcases start_cases r req e fuel with ⟨_, hstart⟩ | ⟨_, hstart⟩
  · rw [hstart]
    intro b hb
    cases hb
  · rw [hstart]
    refine ⟨by simp, fun v => ?_, by simp⟩
    rw [Option.getD_some, traceValues_untilCancelled hedge]
    simp

/-- The search reads no error if no condition of the edge's tuples fails. -/
theorem searchFor_decided {kind : RecursiveType} {edge : Edge}
    (hedge : recursiveEdge r.model e = some (kind, edge))
    (h : ∀ conditions ∈ linkConditions r.model e, ∀ t, IsTuple r req t → ∀ err,
      tupleCondition r req conditions t ≠ .error err) (limit : ℕ) (ids : List String) :
    (searchFor r req limit kind edge ids).Decided := by
  intro u p hp err
  rcases u with o | ⟨o, _⟩ | w
  · obtain ⟨t, ht, rfl⟩ := List.mem_map.mp hp
    exact h _ (linkConditions_eq hedge) t ((recursiveTuples_known o _).1 t ht) err
  · cases hp
  · cases hp

theorem execMeets_start {kind : RecursiveType} {edge : Edge}
    (hedge : recursiveEdge r.model e = some (kind, edge)) {fuel : ℕ} (h : NoErrors r req e fuel) :
    ExecMeets none (start r req e fuel) := by
  obtain ⟨hconditions, _, hleft⟩ := h
  rcases start_cases r req e fuel with ⟨err, hstart⟩ | ⟨_, hstart⟩
  · rw [hstart] at hleft
    cases hleft
  · rw [hstart] at hleft ⊢
    refine ⟨.inl rfl, fun m hm => ?_, ?_, nofun⟩
    · obtain ⟨t, ht, hcancelled⟩ := (messages_of_fromChannel (Option.some.inj hleft)).1 m hm
      exact ⟨t, ht, fun err herr => .inl (hcancelled err herr)⟩
    obtain ⟨entries, hentries, heq⟩ := rightIter_eq req hedge
    have hnone : pendingErr Prod.snd none entries = none := by
      rcases hp : pendingErr Prod.snd none entries with _ | err
      · rfl
      · rcases pendingErr_mem Prod.snd none entries err hp with hlast | ⟨p, hp, herr⟩
        · cases hlast
        · exact absurd herr (searchFor_decided hedge hconditions 0 [] (.object _) p
          (hentries p hp) err)
    rw [heq, hnone, streamTrace_none, untilCancelled_ok, Option.getD_some]
    intro x hx
    obtain ⟨v, -, rfl⟩ := List.mem_map.mp hx
    exact ⟨v, rfl⟩

/-- **The recursive strategy is conditional reachability**, in every run that passes over a tuple
with a true condition only if its object has been taken up.  All runs are finite, and they go on
until the strategy returns, unless its pool is jammed.  What is returned is no error, if there are
no errors on the way and the caller does not give up. -/
theorem recursive_reachability (r : Resolver) (req : Request) (e : Edge) (limit fuel : ℕ)
    (hlimit : 0 < limit) (hr : r.model.RecursionMarked) (hd : r.model.Defined)
    (hloop : IsLoop r.model e) (hedge : (recursiveEdge r.model e).isSome)
    (htype : e.relationDefinition.1 = req.object.type) (hctx : ContextualValid r req)
    (hshown : LinksShown r req e) (hfirst : FirstLevelShown r req e (leftIds r req e fuel)) :
    (∀ choices b, Along (step r req limit e) Settled (start r req e fuel) choices →
        run (step r req limit e) (start r req e fuel) choices = some (.returned (.ok b)) →
        (b = true ↔ Reachable r req e (leftIds r req e fuel)))
      ∧ (∀ choices s, run (step r req limit e) (start r req e fuel) choices = some s →
        (∀ res, s ≠ .returned res) →
        Jammed r req limit e s ∨ ∃ c s', c ≠ .cancel ∧ step r req limit e s c = some s')
      ∧ (∃ bound, ∀ choices s,
        run (step r req limit e) (start r req e fuel) choices = some s → choices.length ≤ bound)
      ∧ (NoErrors r req e fuel → ∀ choices s, .cancel ∉ choices →
        run (step r req limit e) (start r req e fuel) choices = some s →
        ∀ err, s ≠ .returned (.error err)) := by
  obtain ⟨⟨kind, _⟩, hedge⟩ := Option.isSome_iff_exists.mp hedge
  have hshaped : ExecShaped r req kind (start r req e fuel) := by
    rcases start_cases r req e fuel with ⟨err, hstart⟩ | ⟨_, hstart⟩ <;> rw [hstart] <;> trivial
  refine ⟨fun choices b hsteps hrun => ?_, fun choices s hrun hs => ?_, ?_, fun herr => ?_⟩
  · have hinv := run_invariant (fun s c s' h hsettled => execInv_step hedge h hsettled)
      (execInv_start hedge limit fuel) hsteps hrun
    exact (hinv b rfl).trans (meets_iff hctx hr hd hloop hshown hedge htype hfirst limit)
  · have hinv := run_keeps (fun s c s' h hstep => (execWeight_step hedge h hstep).1) hshaped hrun
    exact execProgress hlimit hedge hinv hs
  · refine ⟨execWeight r req kind (start r req e fuel), fun choices s hrun => ?_⟩
    have hle := run_length_le (fun s c s' h hstep => execWeight_step hedge h hstep) hshaped hrun
    omega
  · intro choices s hcancel hrun err heq
    have hinv := run_invariant (I := ExecMeets none)
      (fun s c s' h => execMeets_step hedge (searchFor_decided hedge herr.1 limit) (by simp) h)
      (execMeets_start hedge herr)
      (along_of_forall (fun _ c hc => ne_of_mem_of_not_mem hc hcancel) _) hrun
    rw [heq] at hinv
    rcases hinv with hinv | hinv <;> cases hinv

/-! ### A tuple with a false condition hides its object -/

/-- The result of the strategy, if it has returned. -/
def State.answer : State → Option (Except Err Bool)
  | .returned res => some res
  | _ => none

theorem run_answer {limit : ℕ} {s : State} {choices : List Choice} {res : Except Err Bool}
    (h : (run (step r req limit e) s choices).bind State.answer = some res) :
    run (step r req limit e) s choices = some (.returned res) := by
  obtain ⟨s', hrun, hans⟩ := Option.bind_eq_some_iff.mp h
  rcases s' with b | ⟨b, s'⟩ | res'
  · cases hans
  · cases hans
  · rw [hrun, Option.some.inj hans]

namespace HiddenObject

open FalseFirst

/-- The groups of the model `FalseFirst.model`: what contains what, and who has the user. -/
def groups (contained : List TupleKey) (members : List String) : List TupleKey :=
  contained ++ members.map fun id =>
    { object := group id, relation := "member", user := .object ⟨"user", "a"⟩ }

/-- `group:2` contains `group:3` under a false condition, and `group:4`, which contains `group:3`. -/
def resolver : Resolver where
  model := model
  datastore := ⟨groups [contains "1" "2" "", contains "2" "3" "c", contains "2" "4" "",
    contains "4" "3" ""] ["3"], by decide⟩
  cel := fun _ _ => .ok false

/-- The tuples of `group:2` are gone through before those of `group:4`. -/
def schedule : List Choice :=
  [.left, .left, .right, .right, .startMatch [.object (group "2")], .search .store,
    .search .launch, .search (.move 0), .search (.move 0), .search (.move 1), .search (.move 1),
    .search (.move 0), .search .close]

/-- Three groups on the first level, two of which contain a group with the user. -/
def wide : Resolver where
  model := model
  datastore := ⟨groups [contains "1" "2" "", contains "1" "3" "", contains "1" "4" "",
    contains "2" "5" "", contains "3" "6" ""] ["5", "6"], by decide⟩
  cel := fun _ _ => .ok false

/-- The second goroutine finds the channel full, and the third group waits for its place. -/
def jamSchedule : List Choice :=
  [.left, .left, .right, .right, .right, .right,
    .startMatch [.object (group "2"), .object (group "3"), .object (group "4")],
    .search .store, .search .launch, .search (.move 0), .search (.move 0),
    .search .store, .search .launch, .search (.move 0), .search .store]

/-- `group:1` contains `group:2`, which contains `group:3`. -/
def chain : Resolver where
  model := model
  datastore := ⟨groups [contains "1" "2" "", contains "2" "3" ""] ["3"], by decide⟩
  cel := fun _ _ => .ok false

def chainSchedule : List Choice :=
  [.left, .left, .right, .right, .startMatch [.object (group "2")], .search .store,
    .search .launch, .search (.move 0), .search (.move 0), .search .receive]

theorem isLoop : IsLoop model groupEdge := ⟨by decide, ⟨"member", rfl⟩, fun _ => rfl⟩

/-- A stored tuple without a condition is a link. -/
theorem link_of_stored (hmodel : r.model = model) (id sub : String)
    (h : contains id sub "" ∈ r.datastore.tuples) :
    RecursiveLink r (request "1") groupEdge (.object (group id)) (.object (group sub)) := by
  refine ⟨groupEdge.conditions, by rw [hmodel]; decide, contains id sub "", group sub, .inl h,
    rfl, rfl, rfl, ⟨rfl, rfl⟩, rfl, ?_⟩
  simp [Passes, evaluateCondition, evaluateTupleCondition, contains, groupEdge, noCond]

/-- Errors are looked for in the tuples and on the left side. -/
theorem noErrors_of (hmodel : r.model = model) {xs : List String}
    (htuples : ∀ t ∈ r.datastore.tuples,
      (tupleCondition r (request "1") groupEdge.conditions t).isOk)
    (hleft : (start r (request "1") groupEdge 2).leftTrace = some (okTrace xs)) :
    NoErrors r (request "1") groupEdge 2 := by
  refine ⟨fun conditions hc t ht err herr => ?_, xs, hleft⟩
  rw [hmodel] at hc
  obtain rfl : groupEdge.conditions = conditions := Option.some.inj hc
  have hok := htuples t (ht.resolve_right (by simp [request]))
  rw [herr] at hok
  cases hok

/-- What the pool looks like. -/
def pool : State → Option (Bool × List (List (Frame User Err)) × ℕ)
  | .matching _ s => some (s.current.isSome, s.routines, s.buffer.length)
  | _ => none

end HiddenObject

open HiddenObject FalseFirst in
/-- **An object is hidden by a tuple with a false condition.**  The tuple of `group:2` to `group:3`
marks `group:3` and does not count; the tuple of `group:4` is then passed over. -/
theorem false_condition_hides_object :
    NoErrors HiddenObject.resolver (request "1") groupEdge 2
      ∧ run (step HiddenObject.resolver (request "1") 2 groupEdge)
        (start HiddenObject.resolver (request "1") groupEdge 2) HiddenObject.schedule
        = some (.returned (.ok false))
      ∧ Reachable HiddenObject.resolver (request "1") groupEdge
        (leftIds HiddenObject.resolver (request "1") groupEdge 2) := by
  refine ⟨@noErrors_of _ rfl ["group:3"] (by decide) (by decide),
    run_answer (by decide), .object (group "3"), ?_, by decide⟩
  have h12 := link_of_stored (r := HiddenObject.resolver) rfl "1" "2" (by decide)
  have h24 := link_of_stored (r := HiddenObject.resolver) rfl "2" "4" (by decide)
  have h43 := link_of_stored (r := HiddenObject.resolver) rfl "4" "3" (by decide)
  exact ((Relation.TransGen.single h12).tail h24).tail h43

open HiddenObject FalseFirst in
/-- **A pool that is jammed.**  The main routine waits for a place in the pool, the goroutine there
waits for room in the channel, and nobody receives: the strategy does not return, although the
left side is reached. -/
theorem full_channel_jams :
    Reachable wide (request "1") groupEdge (leftIds wide (request "1") groupEdge 2)
      ∧ ∃ s, run (step wide (request "1") 1 groupEdge) (start wide (request "1") groupEdge 2)
          jamSchedule = some s ∧ Jammed wide (request "1") 1 groupEdge s := by
  constructor
  · have h12 := link_of_stored (r := wide) rfl "1" "2" (by decide)
    have h25 := link_of_stored (r := wide) rfl "2" "5" (by decide)
    exact ⟨.object (group "5"), (Relation.TransGen.single h12).tail h25, by decide⟩
  · have hpool : (run (step wide (request "1") 1 groupEdge)
        (start wide (request "1") groupEdge 2) jamSchedule).bind pool
        = some (true, [[.sending (.ok ())]], 1) := by decide
    obtain ⟨s, hrun, hs⟩ := Option.bind_eq_some_iff.mp hpool
    refine ⟨s, hrun, ?_⟩
    rcases s with b | ⟨b, s⟩ | res
    · cases hs
    · intro p _
      obtain ⟨hcurrent, hrest⟩ := Prod.mk.inj (Option.some.inj hs)
      obtain ⟨hroutines, hbuffer⟩ := Prod.mk.inj hrest
      refine ⟨hcurrent, by rw [hroutines]; exact le_rfl, by rw [hbuffer]; exact le_rfl, ?_⟩
      intro stack hstack
      rw [hroutines, List.mem_singleton] at hstack
      exact ⟨_, _, hstack⟩
    · cases hs

open HiddenObject FalseFirst in
/-- A run that finds the user two levels below. -/
theorem recursive_reachability_chain :
    run (step chain (request "1") 2 groupEdge) (start chain (request "1") groupEdge 2) chainSchedule
        = some (.returned (.ok true))
      ∧ Reachable chain (request "1") groupEdge (leftIds chain (request "1") groupEdge 2) := by
  have hrun : run (step chain (request "1") 2 groupEdge) (start chain (request "1") groupEdge 2)
      chainSchedule = some (.returned (.ok true)) := run_answer (by decide)
  have hfirst : FirstLevelShown chain (request "1") groupEdge
      (leftIds chain (request "1") groupEdge 2) := by
    rintro u ⟨_, -, t, o', ht, ho, -, -, hleads, rfl, -⟩
    refine .inl ?_
    have hstored : t = contains "1" "2" "" := by
      have hall : ∀ t ∈ chain.datastore.tuples, t.object = group "1" → t = contains "1" "2" "" := by
        decide
      exact hall t (ht.resolve_right (by simp [request])) (User.object.inj ho).symm
    subst hstored
    obtain rfl : group "2" = o' := (User.userset.inj hleads.1).1
    decide
  refine ⟨hrun, ?_⟩
  exact ((recursive_reachability chain (request "1") groupEdge 2 2 (by decide) recursionMarked
    defined isLoop rfl rfl (by intro t ht; cases ht) (by intro _ _ t ht; cases ht) hfirst).1
    chainSchedule true (by decide) hrun).mp rfl

end Recursive

end Kengen
