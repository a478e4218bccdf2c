import Kengen.ClassicExpand.Edges

/-!
# The relationship edges are all and right, and the search returns

Each relation is visited once, so the relations that are not visited yet become fewer from call to
call, and their number is fuel enough.  In a valid model nothing fails on the way.

* `Reaches` — the relations that the search reaches from the target.
* **`edges_right`** — every edge belongs to the rule of its target, and it is marked if it stands
  below an operator.
* **`edges_complete`** — there is an edge for each rule of the relations that are reached.
* `Resolves`, `Valid` — the references of a model resolve.
* **`walk_returns`** — the step: a walk returns if its calls do.
* `free`, **`free_card_lt`** — the relations that are left.
* **`getRelationshipEdges_returns`**, `getPrunedRelationshipEdges_returns` — the search returns.
-/

namespace Kengen.ClassicExpand

open List

variable {src : Source} {call : RelationKey → Collect} {k : RelationKey} {v v' : Visited}
  {es : List RelationshipEdge}

/-! ### The search -/

theorem callProgress_getRelationshipEdges (fuel : ℕ) :
    CallProgress src (getRelationshipEdges src fuel) := by
  induction fuel with
  | zero =>
    intro k v es v' h
    cases h
  | succ fuel ih =>
    intro k v es v' h
    simp only [getRelationshipEdges] at h
    split at h
    · cases h
      exact ⟨Progress.here (List.forall_mem_nil _), ‹_›⟩
    · split at h
      · cases h
      · rename_i relation hrelation
        obtain ⟨hprogress, hwalked⟩ := walk_progress ih relation.rewrite h
        have hkv : k ∈ v' := hprogress.visited mem_cons_self
        refine ⟨⟨fun k' hk' => hprogress.visited (mem_cons_of_mem _ hk'), ?_, ?_⟩, hkv⟩
        · intro e he
          rcases hprogress.right e he with ⟨rfl, hleaf⟩ | hright
          · exact ⟨relation, hrelation, hleaf⟩
          · exact hright
        · intro k' hk' hnot relation' hrelation'
          by_cases hkey : k' = k
          · subst hkey
            rw [hrelation] at hrelation'
            cases hrelation'
            exact hwalked
          · refine hprogress.closed k' hk' ?_ relation' hrelation'
            exact fun hmem => (mem_cons.mp hmem).elim hkey hnot

/-- The relations that the search reaches. -/
def Reaches (ts : TypeSystem) : RelationKey → RelationKey → Prop :=
  Relation.ReflTransGen fun k k' => ∃ relation,
    ts.getRelation k.1 k.2 = .ok relation ∧ k' ∈ refs ts k relation.rewrite

variable {target : RelationKey}

theorem mem_of_reaches (hclosed : Closed src [] v' es)
    (htarget : target ∈ v') (hk : Reaches src.typesystem target k) : k ∈ v' := by
  induction hk with
  | refl => exact htarget
  | tail _ hstep ih =>
    obtain ⟨relation, hrelation, href⟩ := hstep
    exact (hclosed _ ih not_mem_nil relation hrelation).2 _ href

section

variable (h : getPrunedRelationshipEdges src target = .ok es)
include h

theorem getPrunedRelationshipEdges_ok :
    ∃ v', Progress src (Right src) [] v' es ∧ target ∈ v' := by
  unfold getPrunedRelationshipEdges at h
  cases hcall : getRelationshipEdges src ((relationKeys src.typesystem).length + 1) target [] with
  | error =>
    rw [hcall] at h
    cases h
  | ok r =>
    rw [hcall] at h
    cases h
    exact ⟨r.2, callProgress_getRelationshipEdges _ _ _ _ _ hcall⟩

/-- **Every edge is right.** -/
theorem edges_right
    {e : RelationshipEdge} (he : e ∈ es) : Right src e := by
  obtain ⟨v', hprogress, -⟩ := getPrunedRelationshipEdges_ok h
  exact hprogress.right e he

/-- **No edge is missing.** -/
theorem edges_complete
    (hk : Reaches src.typesystem target k) {relation : Relation}
    (hrelation : src.typesystem.getRelation k.1 k.2 = .ok relation) {e : RelationshipEdge}
    (htarget : e.targetReference = k) (he : LeafAt src k e relation.rewrite) : Found es e := by
  obtain ⟨v', hprogress, htargetv⟩ := getPrunedRelationshipEdges_ok h
  have hvisited := mem_of_reaches hprogress.closed htargetv hk
  exact (hprogress.closed k hvisited not_mem_nil relation hrelation).1 e htarget he

end

/-! ### The search returns -/

/-- The references of a rewrite rule resolve, a relation that tuples may be written to has type
restrictions, and an intersection has an operand. -/
def Resolves (ts : TypeSystem) (k : RelationKey) : Rewrite → Prop
  | .this => ∃ relation, ts.getRelation k.1 k.2 = .ok relation ∧ relation.typeInfo.isSome = true
  | .computedUserset computed => ∃ relation, ts.getRelation k.1 computed = .ok relation
  | .tupleToUserset tupleset computed => ∃ relation, ts.getRelation k.1 tupleset = .ok relation
      ∧ ∀ ref ∈ relatedTypes relation, ts.getRelation ref.type computed ≠ .error .objectTypeUndefined
  | .union child => ∀ i, Resolves ts k (child i)
  | .intersection (n := n) child => 0 < n ∧ ∀ i, Resolves ts k (child i)
  | .difference base subtract => Resolves ts k base ∧ Resolves ts k subtract

/-- **A valid model**: all references resolve. -/
structure Valid (ts : TypeSystem) : Prop where
  rewrite : ∀ (k : RelationKey) relation, ts.getRelation k.1 k.2 = .ok relation →
    Resolves ts k relation.rewrite
  types : ∀ (k : RelationKey) relation, ts.getRelation k.1 k.2 = .ok relation →
    ∀ ref ∈ relatedTypes relation, ∀ name, ref.relationOrWildcard = .relation name →
      ∃ relation, ts.getRelation ref.type name = .ok relation

variable (src call) in
/-- The calls return for relations of the model, with more visited than a list. -/
def CallReturns (v : Visited) : Prop :=
  ∀ k v', v ⊆ v' → (∃ relation, src.typesystem.getRelation k.1 k.2 = .ok relation) →
    ∃ es v'', call k v' = .ok (es, v'') ∧ v ⊆ v''

variable {v₀ : Visited}

theorem collectAll_returns {ι : Type} {collect : ι → Collect} {items : List ι}
    (hitem : ∀ item ∈ items, ∀ v, v₀ ⊆ v → ∃ es v', collect item v = .ok (es, v') ∧ v₀ ⊆ v')
    (hv : v₀ ⊆ v) : ∃ es v', collectAll collect items v = .ok (es, v') ∧ v₀ ⊆ v' := by
  induction items generalizing v with
  | nil => exact ⟨[], v, rfl, hv⟩
  | cons item items ih =>
    obtain ⟨es, v₁, hfirst, hv₁⟩ := hitem item mem_cons_self v hv
    obtain ⟨es', v₂, hrest, hv₂⟩ := ih (fun i hi => hitem i (mem_cons_of_mem _ hi)) hv₁
    refine ⟨es ++ es', v₂, ?_, hv₂⟩
    rw [collectAll, hfirst]
    simp only [hrest]

theorem after_returns {first : List RelationshipEdge} {collect : Collect}
    (h : ∃ es v', collect v = .ok (es, v') ∧ v₀ ⊆ v') :
    ∃ es v', after first collect v = .ok (es, v') ∧ v₀ ⊆ v' := by
  obtain ⟨es, v', hok, hv⟩ := h
  refine ⟨first ++ es, v', ?_, hv⟩
  rw [after, hok]
  rfl

theorem markAll_returns {collect : Collect} (h : ∃ es v', collect v = .ok (es, v') ∧ v₀ ⊆ v') :
    ∃ es v', markAll collect v = .ok (es, v') ∧ v₀ ⊆ v' := by
  obtain ⟨es, v', hok, hv⟩ := h
  refine ⟨es.map RelationshipEdge.marked, v', ?_, hv⟩
  rw [markAll, hok]
  rfl

theorem tuplesetWalk_returns (hcall : CallReturns src call v₀) (hv : v₀ ⊆ v)
    {tupleset computed : String} {ref : RelationReference}
    (hdefined : src.typesystem.getRelation ref.type computed ≠ .error .objectTypeUndefined) :
    ∃ es v', tuplesetWalk src call k tupleset computed ref v = .ok (es, v') ∧ v₀ ⊆ v' := by
  unfold tuplesetWalk
  split
  · exact ⟨[], v, rfl, hv⟩
  · rename_i e hnot herror
    cases e with
    | objectTypeUndefined => exact absurd herror hdefined
    | relationUndefined => exact absurd rfl hnot
  · rename_i relation hrelation
    exact after_returns (hcall (ref.type, computed) v hv ⟨relation, hrelation⟩)

/-- **A walk returns** if its calls do. -/
theorem walk_returns (hvalid : Valid src.typesystem) (hcall : CallReturns src call v₀)
    {rewrite : Rewrite} (hres : Resolves src.typesystem k rewrite) (hv : v₀ ⊆ v) :
    ∃ es v', walk src call k rewrite v = .ok (es, v') ∧ v₀ ⊆ v' := by
  induction rewrite generalizing v with
  | this =>
    obtain ⟨relation, hrelation, -⟩ := hres
    refine after_returns (collectAll_returns (fun ref hmem v hv => ?_) hv)
    unfold restrictionWalk
    split
    · rename_i name hname
      simp only [directlyRelatedUserTypes, hrelation] at hmem
      exact hcall _ v hv (hvalid.types k relation hrelation ref hmem name hname)
    · exact ⟨[], v, rfl, hv⟩
  | computedUserset computed => exact after_returns (hcall (k.1, computed) v hv hres)
  | tupleToUserset =>
    obtain ⟨relation, hrelation, hdefined⟩ := hres
    refine collectAll_returns (fun ref hmem v hv => tuplesetWalk_returns hcall hv ?_) hv
    simp only [directlyRelatedUserTypes, hrelation] at hmem
    exact hdefined ref hmem
  | union child ih => exact collectAll_returns (fun i _ v hv => ih i (hres i) hv) hv
  | intersection child ih =>
    simp only [walk, dif_pos hres.1]
    exact markAll_returns (ih _ (hres.2 _) hv)
  | difference base subtract ih => exact markAll_returns (ih hres.1 hv)

theorem mem_relationKeys {ts : TypeSystem} {relation : Relation}
    (h : ts.getRelation k.1 k.2 = .ok relation) : k ∈ relationKeys ts := by
  unfold TypeSystem.getRelation at h
  split at h
  · cases h
  rename_i relations hrelations
  split at h
  · cases h
  rename_i r hr
  refine mem_flatMap.mpr ⟨_, mem_of_lookup hrelations, ?_⟩
  exact mem_map.mpr ⟨_, mem_of_lookup hr, rfl⟩

theorem free_card_lt (hk : k ∈ relationKeys src.typesystem) (hnot : k ∉ v) (hsub : k :: v ⊆ v') :
    (free src v').card < (free src v).card := by
  have hk' : k ∈ v' := hsub mem_cons_self
  refine Finset.card_lt_card (Finset.ssubset_iff_of_subset (fun x hx => ?_) |>.mpr ⟨k, ?_, ?_⟩)
  · obtain ⟨hmem, hx⟩ := Finset.mem_filter.mp hx
    exact Finset.mem_filter.mpr ⟨hmem, fun h => hx (hsub (mem_cons_of_mem _ h))⟩
  · exact Finset.mem_filter.mpr ⟨mem_toFinset.mpr hk, hnot⟩
  · exact fun h => (Finset.mem_filter.mp h).2 hk'

/-- **The search returns**: the fuel is enough, and nothing fails. -/
theorem getRelationshipEdges_returns (hvalid : Valid src.typesystem) {fuel : ℕ}
    (hfuel : (free src v).card < fuel)
    (hk : ∃ relation, src.typesystem.getRelation k.1 k.2 = .ok relation) :
    ∃ es v', getRelationshipEdges src fuel k v = .ok (es, v') ∧ v ⊆ v' := by
  induction fuel generalizing k v with
  | zero => cases hfuel
  | succ fuel ih =>
    obtain ⟨relation, hrelation⟩ := hk
    simp only [getRelationshipEdges]
    split
    · exact ⟨[], v, rfl, List.Subset.refl v⟩
    · rename_i hnot
      have hcall : CallReturns src (getRelationshipEdges src fuel) (k :: v) := by
        intro k' v' hsub hk'
        have hlt := free_card_lt (mem_relationKeys hrelation) hnot hsub
        obtain ⟨es, v'', hok, hv''⟩ := ih (v := v') (by omega) hk'
        exact ⟨es, v'', hok, List.Subset.trans hsub hv''⟩
      simp only [hrelation]
      obtain ⟨es, v', hok, hv'⟩ := walk_returns hvalid hcall (hvalid.rewrite k relation hrelation)
        (List.Subset.refl _)
      exact ⟨es, v', hok, fun x hx => hv' (mem_cons_of_mem _ hx)⟩

theorem getPrunedRelationshipEdges_returns (hvalid : Valid src.typesystem)
    (hk : ∃ relation, src.typesystem.getRelation k.1 k.2 = .ok relation) :
    ∃ es, getPrunedRelationshipEdges src k = .ok es := by
  have hfuel : (free src []).card < (relationKeys src.typesystem).length + 1 :=
    Nat.lt_succ_of_le ((Finset.card_filter_le _ _).trans (toFinset_card_le _))
  obtain ⟨es, v', hok, -⟩ := getRelationshipEdges_returns hvalid hfuel hk
  refine ⟨es, ?_⟩
  rw [getPrunedRelationshipEdges, hok]
  rfl

end Kengen.ClassicExpand
