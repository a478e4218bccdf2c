import Kengen.Typesystem.Rewrites

/-!
# The relationship edges of classic reverse expansion

`internal/graph/graph.go`: which relations between a source and a target are one step away from the
source?  `GetPrunedRelationshipEdges` walks the rewrite rules from the target, each relation once,
and collects an edge for each rule that can lead from the source to the relation it belongs to.  Of
an intersection only the first operand is walked, and of an exclusion only the base; all edges that
are found there are marked, since an object that is found along them is not certain.

* `walk`, `getRelationshipEdges` — the search, with a bound on the number of relations on the way.
* `LeafAt` — the edges of one rewrite rule; `refs` — the relations that the walk goes on with.
* **`walk_progress`** — the step: what a walk collects and which relations it has left behind.

An edge of a tuple-to-userset is marked if the computed relation involves an intersection or an
exclusion anywhere; what `involves` says there makes no difference for the results below.
-/

namespace Kengen.ClassicExpand

open List

/-- A relation of a type. -/
abbrev RelationKey := String × String

inductive RelationshipEdgeType where
  | direct
  | tupleToUserset
  | computedUserset
deriving DecidableEq, Repr

structure RelationshipEdge where
  type : RelationshipEdgeType
  targetReference : RelationKey
  tuplesetRelation : String := ""
  targetReferenceInvolvesIntersectionOrExclusion : Bool := false
deriving DecidableEq, Repr

/-- What `String` prints of an edge: all but the mark. -/
def RelationshipEdge.string (e : RelationshipEdge) : RelationshipEdgeType × RelationKey × String :=
  (e.type, e.targetReference, e.tuplesetRelation)

def RelationshipEdge.marked (e : RelationshipEdge) : RelationshipEdge :=
  { e with targetReferenceInvolvesIntersectionOrExclusion := true }

inductive EdgeErr where
  | relation (e : RelationErr)
  /-- An intersection without operands; the source panics. -/
  | noOperand
  | outOfFuel
deriving DecidableEq, Repr

abbrev Visited := List RelationKey

/-- A part of the search: the edges it collects, and the relations that are visited then. -/
abbrev Collect := Visited → Except EdgeErr (List RelationshipEdge × Visited)

/-- What a search goes by: the model, the source, and `RelationInvolvesIntersection` or
`RelationInvolvesExclusion` of a relation. -/
structure Source where
  typesystem : TypeSystem
  type : String
  facet : Facet
  involves : String → String → Bool

/-! ### The search -/

/-- One part after the other. -/
def collectAll {ι : Type} (collect : ι → Collect) : List ι → Collect
  | [], v => .ok ([], v)
  | item :: items, v =>
    match collect item v with
    | .error e => .error e
    | .ok (es, v₁) =>
      match collectAll collect items v₁ with
      | .error e => .error e
      | .ok (es', v₂) => .ok (es ++ es', v₂)

/-- A part that comes after some edges. -/
def after (es : List RelationshipEdge) (collect : Collect) : Collect := fun v =>
  (collect v).map fun (es', v') => (es ++ es', v')

/-- The edges of an operand are marked. -/
def markAll (collect : Collect) : Collect := fun v =>
  (collect v).map fun (es, v') => (es.map RelationshipEdge.marked, v')

section Search

variable (src : Source)

def relatedTypes (relation : Relation) : List RelationReference := relation.typeInfo.getD []

/-- `GetDirectlyRelatedUserTypes`, with its error ignored. -/
def directlyRelatedUserTypes (ts : TypeSystem) (k : RelationKey) : List RelationReference :=
  match ts.getRelation k.1 k.2 with
  | .error _ => []
  | .ok relation => relatedTypes relation

/-- `IsDirectlyRelated` or `IsPubliclyAssignable`. -/
def isDirect (k : RelationKey) : Bool :=
  (directlyRelatedUserTypes src.typesystem k).any fun ref => decide (ref.type = src.type
    ∧ (ref.relationOrWildcard = src.facet ∨ ref.relationOrWildcard = .wildcard))

/-- The source is the userset of a relation. -/
def isRelation (type relation : String) : Bool :=
  decide (src.type = type ∧ src.facet = .relation relation)

variable (call : RelationKey → Collect)

/-- One type restriction of an assignable relation. -/
def restrictionWalk (ref : RelationReference) : Collect := fun v =>
  match ref.relationOrWildcard with
  | .relation name => call (ref.type, name) v
  | _ => .ok ([], v)

/-- One type restriction of a tupleset; the type need not have the computed relation. -/
def tuplesetWalk (k : RelationKey) (tupleset computed : String) (ref : RelationReference) :
    Collect := fun v =>
  match src.typesystem.getRelation ref.type computed with
  | .error .relationUndefined => .ok ([], v)
  | .error e => .error (.relation e)
  | .ok _ =>
    after (if isRelation src ref.type computed then
        [⟨.tupleToUserset, k, tupleset, src.involves ref.type computed⟩] else [])
      (call (ref.type, computed)) v

/-- `getRelationshipEdgesWithTargetRewrite`, pruned, with the calls for other relations given. -/
def walk (k : RelationKey) : Rewrite → Collect
  | .this => after (if isDirect src k then [⟨.direct, k, "", false⟩] else [])
      (collectAll (restrictionWalk call) (directlyRelatedUserTypes src.typesystem k))
  | .computedUserset computed =>
    after (if isRelation src k.1 computed then [⟨.computedUserset, k, "", false⟩] else [])
      (call (k.1, computed))
  | .tupleToUserset tupleset computed =>
    collectAll (tuplesetWalk src call k tupleset computed)
      (directlyRelatedUserTypes src.typesystem (k.1, tupleset))
  | .union (n := n) child => collectAll (fun i => walk k (child i)) (List.finRange n)
  | .intersection (n := n) child =>
    if h : 0 < n then markAll (walk k (child ⟨0, h⟩)) else fun _ => .error .noOperand
  | .difference base _ => markAll (walk k base)

/-- `getRelationshipEdges`: a relation is visited once. -/
def getRelationshipEdges : ℕ → RelationKey → Collect
  | 0, _ => fun _ => .error .outOfFuel
  | fuel + 1, k => fun v =>
    if k ∈ v then .ok ([], v)
    else match src.typesystem.getRelation k.1 k.2 with
      | .error e => .error (.relation e)
      | .ok relation => walk src (getRelationshipEdges fuel) k relation.rewrite (k :: v)

/-- The relations of the model. -/
def relationKeys (ts : TypeSystem) : List RelationKey :=
  ts.types.flatMap fun (type, relations) =>
    relations.map fun (relation, _) => (type, relation)

/-- The relations that are not visited yet. -/
def free (v : Visited) : Finset RelationKey :=
  (relationKeys src.typesystem).toFinset.filter fun k => k ∉ v

/-- `GetPrunedRelationshipEdges`. -/
def getPrunedRelationshipEdges (target : RelationKey) : Except EdgeErr (List RelationshipEdge) :=
  (getRelationshipEdges src ((relationKeys src.typesystem).length + 1) target []).map Prod.fst

/-! ### The edges of a rewrite rule -/

/-- **An edge of a rewrite rule**: it leads from the source to a leaf of the rule.  Below an
intersection or an exclusion it is marked. -/
def LeafAt (k : RelationKey) (e : RelationshipEdge) : Rewrite → Prop
  | .this => e.type = .direct ∧ e.tuplesetRelation = "" ∧ isDirect src k = true
  | .computedUserset computed => e.type = .computedUserset ∧ e.tuplesetRelation = ""
      ∧ isRelation src k.1 computed = true
  | .tupleToUserset tupleset computed => e.type = .tupleToUserset ∧ e.tuplesetRelation = tupleset
      ∧ ∃ ref ∈ directlyRelatedUserTypes src.typesystem (k.1, tupleset),
        (∃ relation, src.typesystem.getRelation ref.type computed = .ok relation)
          ∧ isRelation src ref.type computed = true
  | .union child => ∃ i, LeafAt k e (child i)
  | .intersection (n := n) child => e.targetReferenceInvolvesIntersectionOrExclusion = true
      ∧ ∃ h : 0 < n, LeafAt k e (child ⟨0, h⟩)
  | .difference base _ => e.targetReferenceInvolvesIntersectionOrExclusion = true ∧ LeafAt k e base

/-- The relations that the walk goes on with. -/
def refs (ts : TypeSystem) (k : RelationKey) : Rewrite → Set RelationKey
  | .this => {k' | ∃ ref ∈ directlyRelatedUserTypes ts k,
      ∃ name, ref.relationOrWildcard = .relation name ∧ k' = (ref.type, name)}
  | .computedUserset computed => {(k.1, computed)}
  | .tupleToUserset tupleset computed => {k' | ∃ ref ∈ directlyRelatedUserTypes ts (k.1, tupleset),
      (∃ relation, ts.getRelation ref.type computed = .ok relation)
        ∧ k' = (ref.type, computed)}
  | .union child => {k' | ∃ i, k' ∈ refs ts k (child i)}
  | .intersection (n := n) child => {k' | ∃ h : 0 < n, k' ∈ refs ts k (child ⟨0, h⟩)}
  | .difference base _ => refs ts k base

/-- Every edge belongs to the rule of its target. -/
def Right (e : RelationshipEdge) : Prop :=
  ∃ relation, src.typesystem.getRelation e.targetReference.1 e.targetReference.2 = .ok relation
    ∧ LeafAt src e.targetReference e relation.rewrite

end Search

/-- The edge was collected, with a mark or without. -/
def Found (es : List RelationshipEdge) (e : RelationshipEdge) : Prop :=
  ∃ e' ∈ es, e'.string = e.string

variable {es' : List RelationshipEdge} {e : RelationshipEdge}

theorem Found.mono {es : List RelationshipEdge} (h : Found es e)
    (hsub : es ⊆ es') : Found es' e := by
  obtain ⟨e', he', hstring⟩ := h
  exact ⟨e', hsub he', hstring⟩

variable {src : Source} {call : RelationKey → Collect} {k : RelationKey} {v v' : Visited}
  {es : List RelationshipEdge}

theorem leafAt_marked {rewrite : Rewrite} (h : LeafAt src k e rewrite) :
    LeafAt src k e.marked rewrite := by
  induction rewrite with
  | this | computedUserset | tupleToUserset => exact h
  | union child ih =>
    obtain ⟨i, hi⟩ := h
    exact ⟨i, ih i hi⟩
  | intersection child ih =>
    obtain ⟨-, hn, hleaf⟩ := h
    exact ⟨rfl, hn, ih _ hleaf⟩
  | difference base subtract ih => exact ⟨rfl, ih h.2⟩

theorem Right.marked (h : Right src e) : Right src e.marked := by
  obtain ⟨relation, hrelation, hleaf⟩ := h
  exact ⟨relation, hrelation, leafAt_marked hleaf⟩

/-! ### What a part of the search does -/

variable (src) in
/-- The relations that are new among the visited ones have been walked: their edges are collected,
and the relations they refer to are visited. -/
def Closed (v v' : Visited) (es : List RelationshipEdge) : Prop :=
  ∀ k ∈ v', k ∉ v → ∀ relation, src.typesystem.getRelation k.1 k.2 = .ok relation →
    (∀ e, e.targetReference = k → LeafAt src k e relation.rewrite → Found es e)
      ∧ ∀ k' ∈ refs src.typesystem k relation.rewrite, k' ∈ v'

variable (src) in
/-- **What a part of the search does**, with edges of a kind. -/
structure Progress (S : RelationshipEdge → Prop) (v v' : Visited) (es : List RelationshipEdge) :
    Prop where
  visited : v ⊆ v'
  right : ∀ e ∈ es, S e
  closed : Closed src v v' es

variable {S : RelationshipEdge → Prop}

/-- Edges are collected, and nothing is visited. -/
theorem Progress.here (h : ∀ e ∈ es, S e) : Progress src S v v es :=
  ⟨List.Subset.refl v, h, fun _ hk hnot => absurd hk hnot⟩

theorem Progress.trans {v₁ v₂ v₃ : Visited}
    {es : List RelationshipEdge} (h : Progress src S v₁ v₂ es) (h' : Progress src S v₂ v₃ es') :
    Progress src S v₁ v₃ (es ++ es') := by
  refine ⟨List.Subset.trans h.visited h'.visited, ?_, fun k hk hnot relation hrelation => ?_⟩
  · intro e he
    rcases mem_append.mp he with he | he
    · exact h.right e he
    · exact h'.right e he
  · by_cases hmem : k ∈ v₂
    · obtain ⟨hleaves, hrefs⟩ := h.closed k hmem hnot relation hrelation
      refine ⟨fun e hk he => (hleaves e hk he).mono (subset_append_left _ _), ?_⟩
      exact fun k' hk' => h'.visited (hrefs k' hk')
    · obtain ⟨hleaves, hrefs⟩ := h'.closed k hk hmem relation hrelation
      exact ⟨fun e hk he => (hleaves e hk he).mono (subset_append_right _ _), hrefs⟩

theorem Progress.imp {S' : RelationshipEdge → Prop} (h : Progress src S v v' es)
    (hS : ∀ e, S e → S' e) : Progress src S' v v' es :=
  ⟨h.visited, fun e he => hS e (h.right e he), h.closed⟩

/-- Edges that are collected before. -/
theorem Progress.after {first : List RelationshipEdge} (h : Progress src S v v' es)
    (hfirst : ∀ e ∈ first, S e) : Progress src S v v' (first ++ es) := (Progress.here hfirst).trans h

theorem Found.marked (h : Found es e) : Found (es.map RelationshipEdge.marked) e := by
  obtain ⟨e', he', hstring⟩ := h
  exact ⟨e'.marked, mem_map_of_mem he', hstring⟩

theorem Progress.marked {S' : RelationshipEdge → Prop} (h : Progress src S v v' es)
    (hS : ∀ e, S e → S' e.marked) : Progress src S' v v' (es.map RelationshipEdge.marked) := by
  refine ⟨h.visited, fun e he => ?_, fun k hk hnot relation hrelation => ?_⟩
  · obtain ⟨e', he', rfl⟩ := mem_map.mp he
    exact hS e' (h.right e' he')
  · obtain ⟨hleaves, hrefs⟩ := h.closed k hk hnot relation hrelation
    exact ⟨fun e hk he => (hleaves e hk he).marked, hrefs⟩

/-- **Parts one after the other**, each with what it leaves behind. -/
theorem collectAll_progress {ι : Type} {collect : ι → Collect} {items : List ι}
    {D : ι → Visited → List RelationshipEdge → Prop}
    (hmono : ∀ item v v' es es', v ⊆ v' → es ⊆ es' → D item v es → D item v' es')
    (hitem : ∀ item ∈ items, ∀ v es v', collect item v = .ok (es, v') →
      Progress src S v v' es ∧ D item v' es)
    (h : collectAll collect items v = .ok (es, v')) :
    Progress src S v v' es ∧ ∀ item ∈ items, D item v' es := by
  induction items generalizing v es with
  | nil =>
    cases h
    exact ⟨Progress.here (forall_mem_nil _), forall_mem_nil _⟩
  | cons item items ih =>
    rw [collectAll] at h
    split at h
    · cases h
    rename_i es₁ v₁ hfirst
    split at h
    · cases h
    rename_i es₂ v₂ hrest
    cases h
    obtain ⟨hprogress₁, hD₁⟩ := hitem item mem_cons_self v es₁ v₁ hfirst
    obtain ⟨hprogress₂, hD₂⟩ := ih (fun i hi => hitem i (mem_cons_of_mem _ hi)) hrest
    refine ⟨hprogress₁.trans hprogress₂, forall_mem_cons.mpr ⟨?_, fun i hi => ?_⟩⟩
    · exact hmono item _ _ _ _ hprogress₂.visited (subset_append_left _ _) hD₁
    · exact hmono i _ _ _ _ (List.Subset.refl _) (subset_append_right _ _) (hD₂ i hi)

theorem map_ok {α : Type} {x : Except EdgeErr α} {f : α → α} {b : α} (h : x.map f = .ok b) :
    ∃ a, x = .ok a ∧ f a = b := by
  cases x with
  | error => cases h
  | ok a => exact ⟨a, rfl, Except.ok.inj h⟩

theorem after_ok {first : List RelationshipEdge} {collect : Collect}
    (h : after first collect v = .ok (es, v')) :
    ∃ es', collect v = .ok (es', v') ∧ es = first ++ es' := by
  obtain ⟨r, hr, ⟨⟩⟩ := map_ok h
  exact ⟨r.1, hr, rfl⟩

theorem markAll_ok {collect : Collect} (h : markAll collect v = .ok (es, v')) :
    ∃ es', collect v = .ok (es', v') ∧ es = es'.map RelationshipEdge.marked := by
  obtain ⟨r, hr, ⟨⟩⟩ := map_ok h
  exact ⟨r.1, hr, rfl⟩

/-! ### One rewrite rule -/

variable (src) in
/-- The edges that a walk collects: those of the rule, and right ones of other relations. -/
def OfRule (k : RelationKey) (rewrite : Rewrite) (e : RelationshipEdge) : Prop :=
  (e.targetReference = k ∧ LeafAt src k e rewrite) ∨ Right src e

variable (src) in
/-- A walk leaves nothing of its rule behind. -/
def Walked (k : RelationKey) (rewrite : Rewrite) (v' : Visited) (es : List RelationshipEdge) :
    Prop :=
  (∀ e, e.targetReference = k → LeafAt src k e rewrite → Found es e)
    ∧ ∀ k' ∈ refs src.typesystem k rewrite, k' ∈ v'

theorem Walked.mono {rewrite : Rewrite} {v'' : Visited} (h : Walked src k rewrite v' es)
    (hv : v' ⊆ v'') (hes : es ⊆ es') : Walked src k rewrite v'' es' :=
  ⟨fun e hk he => (h.1 e hk he).mono hes, fun k' hk' => hv (h.2 k' hk')⟩

variable (src call) in
/-- What the calls for other relations do. -/
def CallProgress : Prop :=
  ∀ k v es v', call k v = .ok (es, v') → Progress src (Right src) v v' es ∧ k ∈ v'

theorem restrictionWalk_progress (hcall : CallProgress src call) {ref : RelationReference}
    (h : restrictionWalk call ref v = .ok (es, v')) :
    Progress src (Right src) v v' es
      ∧ ∀ name, ref.relationOrWildcard = .relation name → (ref.type, name) ∈ v' := by
  unfold restrictionWalk at h
  split at h
  · rename_i name hname
    obtain ⟨hprogress, hmem⟩ := hcall _ _ _ _ h
    refine ⟨hprogress, fun name' hname' => ?_⟩
    rw [hname] at hname'
    cases hname'
    exact hmem
  · rename_i hnot
    cases h
    exact ⟨Progress.here (forall_mem_nil _), fun name hname => absurd hname (hnot name)⟩

theorem tuplesetWalk_progress (hcall : CallProgress src call) {tupleset computed : String}
    {ref : RelationReference} (hmem : ref ∈ directlyRelatedUserTypes src.typesystem (k.1, tupleset))
    (h : tuplesetWalk src call k tupleset computed ref v = .ok (es, v')) :
    Progress src (OfRule src k (.tupleToUserset tupleset computed)) v v' es
      ∧ ((∃ relation, src.typesystem.getRelation ref.type computed = .ok relation) →
        (ref.type, computed) ∈ v' ∧ (isRelation src ref.type computed = true →
          ∃ e ∈ es, e.string = (.tupleToUserset, k, tupleset))) := by
  unfold tuplesetWalk at h
  split at h
  · rename_i hundefined
    cases h
    refine ⟨Progress.here (forall_mem_nil _), ?_⟩
    rintro ⟨relation, hrelation⟩
    cases hundefined.symm.trans hrelation
  · cases h
  · rename_i relation hrelation
    obtain ⟨es', hes', rfl⟩ := after_ok h
    obtain ⟨hprogress, hvisited⟩ := hcall _ _ _ _ hes'
    refine ⟨(hprogress.imp fun e => .inr).after fun e he => ?_, fun _ => ⟨hvisited, fun hsrc => ?_⟩⟩
    · obtain ⟨hsrc, he⟩ := mem_ite_nil_right.mp he
      cases mem_singleton.mp he
      exact .inl ⟨rfl, rfl, rfl, ref, hmem, ⟨relation, hrelation⟩, hsrc⟩
    · rw [if_pos hsrc]
      exact ⟨_, mem_append_left _ (mem_singleton_self _), rfl⟩

/-- **The step**: what a walk collects and what it leaves behind. -/
theorem walk_progress (hcall : CallProgress src call) (rewrite : Rewrite)
    (h : walk src call k rewrite v = .ok (es, v')) :
    Progress src (OfRule src k rewrite) v v' es ∧ Walked src k rewrite v' es := by
  induction rewrite generalizing v v' es with
  | this =>
    obtain ⟨es', hes', rfl⟩ := after_ok h
    obtain ⟨hprogress, hrefs⟩ := collectAll_progress (S := Right src)
      (D := fun (ref : RelationReference) v' _ =>
        ∀ name, ref.relationOrWildcard = .relation name → (ref.type, name) ∈ v')
      (fun ref v v' _ _ hv _ hD name hname => hv (hD name hname))
      (fun ref _ _ _ _ hok => restrictionWalk_progress hcall hok) hes'
    refine ⟨(hprogress.imp fun e => .inr).after fun e he => ?_, fun e hk he => ?_, ?_⟩
    · obtain ⟨hdirect, he⟩ := mem_ite_nil_right.mp he
      cases mem_singleton.mp he
      exact .inl ⟨rfl, rfl, rfl, hdirect⟩
    · obtain ⟨htype, htupleset, hdirect⟩ := he
      rw [if_pos hdirect]
      refine ⟨_, mem_append_left _ (mem_singleton_self _), ?_⟩
      simp only [RelationshipEdge.string, htype, htupleset, hk]
    · rintro k' ⟨ref, hmem, name, hname, rfl⟩
      exact hrefs ref hmem name hname
  | computedUserset =>
    obtain ⟨es', hes', rfl⟩ := after_ok h
    obtain ⟨hprogress, hvisited⟩ := hcall _ _ _ _ hes'
    refine ⟨(hprogress.imp fun e => .inr).after fun e he => ?_, fun e hk he => ?_, ?_⟩
    · obtain ⟨hsrc, he⟩ := mem_ite_nil_right.mp he
      cases mem_singleton.mp he
      exact .inl ⟨rfl, rfl, rfl, hsrc⟩
    · obtain ⟨htype, htupleset, hsrc⟩ := he
      rw [if_pos hsrc]
      refine ⟨_, mem_append_left _ (mem_singleton_self _), ?_⟩
      simp only [RelationshipEdge.string, htype, htupleset, hk]
    · rintro k' rfl
      exact hvisited
  | tupleToUserset tupleset computed =>
    obtain ⟨hprogress, hD⟩ := collectAll_progress
      (D := fun (ref : RelationReference) v' es =>
        (∃ relation, src.typesystem.getRelation ref.type computed = .ok relation) →
          (ref.type, computed) ∈ v' ∧ (isRelation src ref.type computed = true →
            ∃ e ∈ es, e.string = (.tupleToUserset, k, tupleset)))
      (fun ref v v' es es' hv hes hD hdefined => ⟨hv (hD hdefined).1, fun hsrc => by
        obtain ⟨e, he, hstring⟩ := (hD hdefined).2 hsrc
        exact ⟨e, hes he, hstring⟩⟩)
      (fun ref hmem _ _ _ hok => tuplesetWalk_progress hcall hmem hok) h
    refine ⟨hprogress, ?_, ?_⟩
    · rintro e hk ⟨htype, htupleset, ref, hmem, hdefined, hsrc⟩
      obtain ⟨e', he', hstring⟩ := (hD ref hmem hdefined).2 hsrc
      refine ⟨e', he', hstring.trans ?_⟩
      simp only [RelationshipEdge.string, htype, htupleset, hk]
    · rintro k' ⟨ref, hmem, hdefined, rfl⟩
      exact (hD ref hmem hdefined).1
  | union child ih =>
    obtain ⟨hprogress, hD⟩ := collectAll_progress (S := OfRule src k (.union child))
      (D := fun i => Walked src k (child i)) (fun i v v' es es' hv hes hD => hD.mono hv hes)
      (fun i _ v es v' hok => by
        obtain ⟨hprogress, hwalked⟩ := ih i hok
        exact ⟨hprogress.imp fun e he => he.imp_left fun ⟨hk, hleaf⟩ => ⟨hk, i, hleaf⟩, hwalked⟩) h
    refine ⟨hprogress, ?_, ?_⟩
    · rintro e hk ⟨i, hi⟩
      exact (hD i (mem_finRange i)).1 e hk hi
    · rintro k' ⟨i, hi⟩
      exact (hD i (mem_finRange i)).2 k' hi
  | intersection child ih =>
    simp only [walk] at h
    split_ifs at h with hn
    obtain ⟨es', hes', rfl⟩ := markAll_ok h
    obtain ⟨hprogress, hleaves, hrefs⟩ := ih _ hes'
    refine ⟨hprogress.marked fun e he => ?_, ?_, ?_⟩
    · exact he.imp (fun ⟨hk, hleaf⟩ => ⟨hk, rfl, hn, leafAt_marked hleaf⟩) Right.marked
    · rintro e hk ⟨-, hn', hleaf⟩
      exact (hleaves e hk hleaf).marked
    · rintro k' ⟨hn', hk'⟩
      exact hrefs k' hk'
  | difference base subtract ih =>
    obtain ⟨es', hes', rfl⟩ := markAll_ok h
    obtain ⟨hprogress, hleaves, hrefs⟩ := ih hes'
    refine ⟨hprogress.marked fun e he => ?_, ?_, hrefs⟩
    · exact he.imp (fun ⟨hk, hleaf⟩ => ⟨hk, rfl, leafAt_marked hleaf⟩) Right.marked
    · rintro e hk ⟨-, hleaf⟩
      exact (hleaves e hk hleaf).marked

end Kengen.ClassicExpand
