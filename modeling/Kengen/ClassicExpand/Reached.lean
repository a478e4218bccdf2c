import Kengen.ClassicExpand.Steps

/-!
# What classic reverse expansion reaches

A userset that is reached again along the same edge is dropped, although the mark on its way may
differ.  So the traversal is compared with one of calls without marks: whether a candidate is certain
may depend on the schedule, the set of candidates does not.

* `Query.coreSearch`, **`forgets_core`** — the traversal without marks.
* **`related_of_edge`** — the step: along an edge that is not marked the user keeps the relation.
* **`reached_related`** — a call without a mark on its way stands for a userset that the user has.
* **`reached_of_check`** — every userset that Check finds and that the target needs is reached.
* **`coreKey_injective`** — what is dropped was reached before.
-/

namespace Kengen.ClassicExpand

open Query Worklist List

variable {q : Query} {t : Task}

/-! ### Tasks without marks -/

/-- A call without the mark of its way, and its edge without a mark. -/
abbrev Core := User × Option (RelationshipEdgeType × RelationKey × String)

def Task.core (t : Task) : Core := (t.user, t.edge.map RelationshipEdge.string)

namespace Query

def coreKey : Core → Option Key
  | (.userset o _, some e) => some (o, e)
  | _ => none

def coreAlong (q : Query) (user : User) (e : RelationshipEdge) : List Core :=
  (q.found user e).map fun o => (.userset o e.targetReference.2, some e.string)

def coreChildren (q : Query) (c : Core) : Option (List Core) :=
  match getPrunedRelationshipEdges (q.source c.1) q.target with
  | .error _ => none
  | .ok es => some (es.flatMap (q.coreAlong c.1))

def coreResults (q : Query) (c : Core) : List Object :=
  match c.1 with
  | .userset o r => if r = q.relation ∧ o.type = q.objectType then [o] else []
  | _ => []

/-- The traversal without marks. -/
def coreSearch (q : Query) : Search Core Key Object where
  key := coreKey
  children := q.coreChildren
  results := q.coreResults

end Query

/-- **The marks make no difference for the way of the traversal.** -/
theorem forgets_core (q : Query) : Forgets q.search q.coreSearch Task.core Prod.fst where
  key t := by
    obtain ⟨user, edge, flagged⟩ := t
    cases user <;> cases edge <;> rfl
  children t := by
    have halong : ∀ e, (q.along t e).map Task.core = q.coreAlong t.user e := by
      intro e
      simp [along, coreAlong, Task.core]
    simp only [search, coreSearch, children, coreChildren, Task.core]
    cases getPrunedRelationshipEdges (q.source t.user) q.target with
    | error => rfl
    | ok => simp only [Option.map_some, map_flatMap, halong]
  results t := by
    obtain ⟨user, edge, flagged⟩ := t
    cases user with
    | userset =>
      simp only [search, coreSearch, results, coreResults, Task.core]
      split <;> rfl
    | object | wildcard => rfl

theorem children_cases {ts : List Task} (h : q.children t = some ts) {t' : Task} (ht' : t' ∈ ts) :
    ∃ es, getPrunedRelationshipEdges (q.source t.user) q.target = .ok es ∧ ∃ e ∈ es,
      ∃ o ∈ q.found t.user e, t' = ⟨.userset o e.targetReference.2, some e,
        t.intersectionOrExclusionInPreviousEdges
          || e.targetReferenceInvolvesIntersectionOrExclusion⟩ := by
  unfold children at h
  split at h
  · cases h
  rename_i es hes
  cases h
  obtain ⟨e, he, ht'⟩ := mem_flatMap.mp ht'
  obtain ⟨o, ho, rfl⟩ := mem_map.mp ht'
  exact ⟨es, hes, e, he, o, ho, rfl⟩

/-! ### What is certain -/

variable {o : Object} {r : String}

/-- A userset has its own relation. -/
theorem relatedTo_self {env : Environment}
    (h : ∃ relation, env.typesystem.getRelation o.type r = .ok relation) :
    env.RelatedTo (.userset o r) o r := by
  obtain ⟨relation, hrelation⟩ := h
  refine ⟨1, fun deeper hdeeper => ?_⟩
  obtain ⟨_, rfl⟩ := Nat.exists_eq_add_of_le' hdeeper
  simp only [Environment.checkFor, hrelation]
  exact .inl trivial

variable {user : User}

theorem defined_of_checkFor {env : Environment} {depth : ℕ} (h : env.checkFor user depth o r) :
    ∃ relation, env.typesystem.getRelation o.type r = .ok relation := by
  cases depth with
  | zero => cases h
  | succ =>
    unfold Environment.checkFor at h
    split at h
    · cases h
    · exact ⟨_, ‹_›⟩

/-- The user of a call stands for the user of the query. -/
def Stands (q : Query) (user : User) : Prop :=
  user = q.user ∨ ∃ o r, user = .userset o r ∧ q.env.RelatedTo q.user o r

theorem Stands.related (h : Stands q (.userset o r))
    (hdefined : ∃ relation, q.env.typesystem.getRelation o.type r = .ok relation) :
    q.env.RelatedTo q.user o r := by
  rcases h with h | ⟨_, _, ⟨⟩, hrelated⟩
  · rw [← h]
    exact relatedTo_self hdefined
  · exact hrelated

/-- The depth from which on a userset that stands for the user is found. -/
theorem Stands.depth (h : Stands q user) :
    ∃ depth, ∀ deeper, depth ≤ deeper → ∀ o r, user = .userset o r →
      (∃ relation, q.env.typesystem.getRelation o.type r = .ok relation) →
        q.env.checkFor q.user deeper o r := by
  by_cases hdefined : ∃ o r, user = .userset o r
      ∧ ∃ relation, q.env.typesystem.getRelation o.type r = .ok relation
  · obtain ⟨o, r, rfl, hrelation⟩ := hdefined
    obtain ⟨depth, hdepth⟩ := h.related hrelation
    refine ⟨depth, fun deeper hdeeper o' r' heq _ => ?_⟩
    cases heq
    exact hdepth deeper hdeeper
  · exact ⟨0, fun _ _ o r heq hrelation => absurd ⟨o, r, heq, hrelation⟩ hdefined⟩

variable {e : RelationshipEdge}

/-- **Along an edge that is not marked the user keeps the relation.** -/
theorem related_of_edge (hvalid : Valid q.env.typesystem) (huser : Stands q user)
    (he : Right (q.source user) e)
    (hmark : e.targetReferenceInvolvesIntersectionOrExclusion = false) (ho : o ∈ q.found user e) :
    q.env.RelatedTo q.user o e.targetReference.2 := by
  have htype := found_type he ho
  obtain ⟨relation, hrelation, hleaf⟩ := he
  obtain ⟨depth, hdepth⟩ := huser.depth
  refine ⟨depth + 1, fun deeper hdeeper => ?_⟩
  obtain ⟨below, rfl⟩ := Nat.exists_eq_add_of_le' (Nat.le_of_add_left_le hdeeper)
  have hbelow := hdepth below (by omega)
  have hstands : user = q.user ∨ ∃ o' r, user = .userset o' r ∧ q.env.checkFor q.user below o' r := by
    refine huser.imp_right ?_
    rintro ⟨o', r, rfl, depth', hdepth'⟩
    exact ⟨o', r, rfl, hbelow o' r rfl (defined_of_checkFor (hdepth' depth' le_rfl))⟩
  have hrelation' : q.env.typesystem.getRelation o.type e.targetReference.2 = .ok relation := by
    rw [htype]
    exact hrelation
  simp only [Environment.checkFor, hrelation']
  exact .inr (leaf_holds hleaf (hvalid.rewrite _ relation hrelation) rfl hmark ho hstands hbelow)

/-- **A call without a mark on its way stands for the user.** -/
theorem reached_related (hvalid : Valid q.env.typesystem) (h : q.search.Reach q.start t)
    (hmark : t.intersectionOrExclusionInPreviousEdges = false) : Stands q t.user := by
  induction h with
  | start hmem =>
    rw [mem_singleton.mp hmem]
    exact .inl rfl
  | child _ hts ht' ih =>
    obtain ⟨_, hes, e, he, o, ho, rfl⟩ := children_cases hts ht'
    obtain ⟨hbefore, hedge⟩ := Bool.or_eq_false_iff.mp hmark
    exact .inr ⟨o, _, rfl, related_of_edge hvalid (ih hbefore) (edges_right hes he) hedge ho⟩

/-! ### What is reached -/

theorem isTuplesetRelation_of_mem {ts : TypeSystem} {type : String} {relation : Relation}
    (h : ts.getRelation type r = .ok relation) :
    ∀ tupleset ∈ relation.rewrite.tuplesets, ts.isTuplesetRelation type tupleset = true := by
  intro tupleset hmem
  unfold TypeSystem.getRelation at h
  split at h
  · cases h
  rename_i relations hrelations
  split at h
  · cases h
  rename_i r' hr'
  cases h
  simp only [TypeSystem.isTuplesetRelation, hrelations]
  exact any_eq_true.mpr ⟨_, mem_of_lookup hr', decide_eq_true hmem⟩

/-- The objects along an edge depend on what its string shows. -/
theorem found_congr {e' : RelationshipEdge} (h : e.string = e'.string) :
    q.found user e = q.found user e' := by
  obtain ⟨_, _, _, _⟩ := e
  obtain ⟨_, _, _, _⟩ := e'
  cases h
  rfl

/-- One edge up. -/
theorem reach_edge (hvalid : Valid q.env.typesystem)
    (htarget : ∃ relation, q.env.typesystem.getRelation q.objectType q.relation = .ok relation)
    {start : List Core} {edge : Option (RelationshipEdgeType × RelationKey × String)}
    (hreach : q.coreSearch.Reach start (user, edge)) {relation : Relation}
    (hrelation : q.env.typesystem.getRelation o.type r = .ok relation)
    (hneeded : Reaches q.env.typesystem q.target (o.type, r)) (he : e.targetReference = (o.type, r))
    (hleaf : LeafAt (q.source user) (o.type, r) e relation.rewrite) (ho : o ∈ q.found user e) :
    ∃ edge', q.coreSearch.Reach start (.userset o r, edge') := by
  obtain ⟨es, hes⟩ : ∃ es, getPrunedRelationshipEdges (q.source user) q.target = .ok es :=
    getPrunedRelationshipEdges_returns hvalid htarget
  obtain ⟨e', he', hstring⟩ := edges_complete hes hneeded hrelation he hleaf
  have htarget' : e'.targetReference = (o.type, r) := by
    rw [← he]
    exact congrArg (fun s => s.2.1) hstring
  have hchildren : q.coreSearch.children (user, edge) = some (es.flatMap (q.coreAlong user)) := by
    simp only [coreSearch, coreChildren, hes]
  refine ⟨some e'.string, .child hreach hchildren (mem_flatMap.mpr ⟨e', he', ?_⟩)⟩
  refine mem_map.mpr ⟨o, ?_, by rw [htarget']⟩
  rwa [found_congr hstring]

/-- **Every userset that Check finds is reached**, if the target needs its relation. -/
theorem reached_of_check (hvalid : Valid q.env.typesystem)
    (htarget : ∃ relation, q.env.typesystem.getRelation q.objectType q.relation = .ok relation)
    (depth : ℕ) (h : q.env.checkFor q.user depth o r)
    (hneeded : Reaches q.env.typesystem q.target (o.type, r)) :
    ∃ edge, q.coreSearch.Reach [(q.user, none)] (.userset o r, edge) := by
  induction depth generalizing o r with
  | zero => cases h
  | succ depth ih =>
    obtain ⟨relation, hrelation⟩ := defined_of_checkFor h
    simp only [Environment.checkFor, hrelation] at h
    rcases h with huser | h
    · refine ⟨none, .start ?_⟩
      rw [huser]
      exact mem_singleton_self _
    · obtain ⟨user, e, he, -, hleaf, ho, huser⟩ := exists_leaf h hvalid
        (hvalid.rewrite (o.type, r) relation hrelation) (isTuplesetRelation_of_mem hrelation)
        fun o r hcheck => defined_of_checkFor hcheck
      have hreach : ∃ edge, q.coreSearch.Reach [(q.user, none)] (user, edge) := by
        rcases huser with rfl | ⟨_, _, rfl, hcheck, href⟩
        · exact ⟨none, .start (mem_singleton_self _)⟩
        · exact ih hcheck (hneeded.tail ⟨relation, hrelation, href⟩)
      obtain ⟨edge, hreach⟩ := hreach
      exact reach_edge hvalid htarget hreach hrelation hneeded he hleaf ho

/-- The user of a reached call is the userset of its edge's target. -/
theorem reached_userset {c : Core} (h : q.coreSearch.Reach [(q.user, none)] c) :
    ∀ e, c.2 = some e → ∃ o, c.1 = .userset o e.2.1.2 := by
  induction h with
  | start hmem =>
    rw [mem_singleton.mp hmem]
    exact nofun
  | child _ hts ht' =>
    simp only [coreSearch, coreChildren] at hts
    split at hts
    · cases hts
    cases hts
    obtain ⟨e, -, ht'⟩ := mem_flatMap.mp ht'
    obtain ⟨o, -, rfl⟩ := mem_map.mp ht'
    rintro e' he'
    cases he'
    exact ⟨o, rfl⟩

/-- **A key belongs to one call only**, up to marks. -/
theorem coreKey_injective {c c' : Core} {k : Key} (h : q.coreSearch.Reach [(q.user, none)] c)
    (h' : q.coreSearch.Reach [(q.user, none)] c') (hk : coreKey c = some k)
    (hk' : coreKey c' = some k) : c = c' := by
  have hcase : ∀ {c : Core}, q.coreSearch.Reach [(q.user, none)] c → coreKey c = some k →
      c = (.userset k.1 k.2.2.1.2, some k.2) := by
    rintro ⟨user, _⟩ hreach hkey
    unfold coreKey at hkey
    split at hkey
    · rename_i o r e heq
      cases heq
      cases hkey
      obtain ⟨_, ho'⟩ := reached_userset hreach e rfl
      cases ho'
      rfl
    · cases hkey
  rw [hcase h hk, hcase h' hk']

end Kengen.ClassicExpand
