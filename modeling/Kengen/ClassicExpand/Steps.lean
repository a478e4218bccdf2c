import Kengen.ClassicExpand.Query
import Kengen.ClassicExpand.EdgesExact

/-!
# What one edge of classic reverse expansion means

Going along an edge that is not marked, the user keeps the relation: the rule of the target holds
for the object that is found.  Conversely a rule that holds has an edge along which its object is
found, from the user itself or from a userset that the user has at a smaller depth; it may be marked.

* `passing_restriction`, `mem_userFilter` — what the reads give.
* **`leaf_holds`** — an edge that is not marked.
* **`exists_leaf`** — a rule that holds.
-/

namespace Kengen.ClassicExpand

open Query List

variable {q : Query} {user : User} {o : Object} {k : RelationKey} {e : RelationshipEdge}
  {R : Object → String → Prop}

/-! ### Reads -/

variable {relation : String}

/-- The users of a filter assign the user of the request. -/
theorem assignedBy_of_mem_userFilter {assigned : User} (h : assigned ∈ q.userFilter user e) :
    user.AssignedBy assigned := by
  unfold userFilter at h
  split at h
  · exact .inl (mem_singleton.mp h)
  · rename_i o
    rcases mem_append.mp h with h | h
    · split at h
      · exact .inr ⟨o, rfl, mem_singleton.mp h⟩
      · cases h
    · exact .inl (mem_singleton.mp h)
  · split at h
    · exact .inl (mem_singleton.mp h)
    · cases h

variable {t : TupleKey}

/-- A tuple that is read is valid. -/
theorem passing_valid {env : Environment} (ht : t ∈ env.passing o relation) {r : Relation}
    (hr : env.typesystem.getRelation o.type relation = .ok r) :
    env.typesystem.validateTuplesetRestrictions r t = true
      ∧ ∀ restrictions, r.typeInfo = some restrictions →
        validateTypeRestrictions restrictions t = true := by
  obtain ⟨-, hobject, hrelation⟩ := mem_store_of_passing ht
  have hread := (mem_filter.mp ht).1
  have hvalid : env.typesystem.validateTupleForRead t = true := by
    simp only [Environment.read, mem_filter, Bool.and_eq_true] at hread
    exact hread.2.2
  unfold TypeSystem.validateTupleForRead at hvalid
  rw [hobject, hrelation, hr] at hvalid
  obtain ⟨htupleset, hrest⟩ := Bool.and_eq_true_iff.mp hvalid
  refine ⟨htupleset, fun restrictions hrestrictions => ?_⟩
  rw [hrestrictions] at hrest
  exact (Bool.and_eq_true_iff.mp hrest).1

/-- A tuple that is read has a type restriction. -/
theorem passing_restriction {env : Environment} (ht : t ∈ env.passing o relation) {r : Relation}
    (hr : env.typesystem.getRelation o.type relation = .ok r) (hinfo : r.typeInfo.isSome = true) :
    ∃ ref ∈ directlyRelatedUserTypes env.typesystem (o.type, relation),
      ref.type = t.user.objectType ∧ ref.relationOrWildcard = t.user.facet := by
  obtain ⟨restrictions, hrestrictions⟩ := Option.isSome_iff_exists.mp hinfo
  have hvalid := (passing_valid ht hr).2 restrictions hrestrictions
  obtain ⟨ref, href, hmatch⟩ := any_eq_true.mp hvalid
  obtain ⟨htype, hfacet⟩ := of_decide_eq_true hmatch
  refine ⟨ref, ?_, htype, hfacet⟩
  simpa only [directlyRelatedUserTypes, hr, relatedTypes, hrestrictions, Option.getD_some] using href

/-- The user of a filter that a type restriction allows. -/
theorem mem_userFilter {assigned : User} (h : user.AssignedBy assigned) {ref : RelationReference}
    (href : ref ∈ directlyRelatedUserTypes q.env.typesystem e.targetReference)
    (htype : ref.type = assigned.objectType) (hfacet : ref.relationOrWildcard = assigned.facet) :
    assigned ∈ q.userFilter user e := by
  have hpublic : ∀ type, assigned = .wildcard type →
      q.isPubliclyAssignable e.targetReference type = true := by
    rintro type rfl
    exact any_eq_true.mpr ⟨ref, href, decide_eq_true ⟨htype, hfacet⟩⟩
  rcases h with rfl | ⟨o, rfl, rfl⟩
  · cases assigned with
    | object => exact mem_append_right _ (mem_singleton_self _)
    | userset => exact mem_singleton_self _
    | wildcard type =>
      simp only [userFilter, if_pos (hpublic type rfl)]
      exact mem_singleton_self _
  · simp only [userFilter, if_pos (hpublic o.type rfl)]
    exact mem_append_left _ (mem_singleton_self _)

/-! ### An edge that is not marked -/

/-- The source is a userset. -/
theorem userset_of_isRelation {type : String}
    (h : isRelation (q.source user) type relation = true) :
    ∃ o, user = .userset o relation ∧ o.type = type := by
  obtain ⟨htype, hfacet⟩ := of_decide_eq_true h
  cases user with
  | object | wildcard => cases hfacet
  | userset o =>
    cases hfacet
    exact ⟨o, rfl, htype⟩

variable {rewrite : Rewrite}

/-- The kinds of edges of a rule. -/
theorem leafAt_cases {src : Source} (h : LeafAt src k e rewrite) :
    (e.type = .direct ∧ e.tuplesetRelation = "")
      ∨ (e.type = .computedUserset ∧ e.tuplesetRelation = ""
        ∧ ∃ computed, isRelation src k.1 computed = true)
      ∨ (e.type = .tupleToUserset ∧ ∃ relation,
        src.typesystem.getRelation k.1 e.tuplesetRelation = .ok relation) := by
  induction rewrite with
  | this => exact .inl ⟨h.1, h.2.1⟩
  | computedUserset computed => exact .inr (.inl ⟨h.1, h.2.1, computed, h.2.2⟩)
  | tupleToUserset =>
    obtain ⟨htype, rfl, ref, hmem, -⟩ := h
    refine .inr (.inr ⟨htype, ?_⟩)
    unfold directlyRelatedUserTypes at hmem
    split at hmem
    · cases hmem
    · exact ⟨_, ‹_›⟩
  | union child ih =>
    obtain ⟨i, hi⟩ := h
    exact ih i hi
  | intersection child ih =>
    obtain ⟨-, hn, hleaf⟩ := h
    exact ih _ hleaf
  | difference base subtract ih => exact ih h.2

/-- The objects along an edge are of the type of its target. -/
theorem found_type (he : Right (q.source user) e) (ho : o ∈ q.found user e) :
    o.type = e.targetReference.1 := by
  obtain ⟨relation, -, hleaf⟩ := he
  rcases leafAt_cases hleaf with ⟨htype, -⟩ | ⟨htype, -, computed, hsrc⟩ | ⟨htype, -⟩
  · simp only [found, htype] at ho
    exact (mem_objectsRead.mp ho).1
  · obtain ⟨o', rfl, ho'⟩ := userset_of_isRelation hsrc
    simp only [found, htype, mem_singleton] at ho
    rwa [ho]
  · unfold found at ho
    rw [htype] at ho
    split at ho
    · exact (mem_objectsRead.mp ho).1
    · cases ‹_ = _›
    · exact (mem_objectsRead.mp ho).1
    · cases ho

/-- **Along an edge that is not marked the rule of its target holds.** -/
theorem leaf_holds (hleaf : LeafAt (q.source user) k e rewrite)
    (hres : Resolves q.env.typesystem k rewrite) (htarget : e.targetReference = k)
    (hmark : e.targetReferenceInvolvesIntersectionOrExclusion = false) (ho : o ∈ q.found user e)
    (huser : user = q.user ∨ ∃ o' r, user = .userset o' r ∧ R o' r)
    (hR : ∀ o' r, user = .userset o' r →
      (∃ relation, q.env.typesystem.getRelation o'.type r = .ok relation) → R o' r) :
    q.env.HoldsFor q.user R o k.2 rewrite := by
  induction rewrite with
  | this =>
    obtain ⟨htype, -, -⟩ := hleaf
    simp only [found, htype, htarget] at ho
    obtain ⟨-, t, ht, hfilter⟩ := mem_objectsRead.mp ho
    refine ⟨t, ht, ?_⟩
    rcases huser with rfl | ⟨o', r, rfl, hrelated⟩
    · exact .inl (assignedBy_of_mem_userFilter hfilter)
    · exact .inr ⟨o', r, mem_singleton.mp hfilter, hrelated⟩
  | computedUserset computed =>
    obtain ⟨htype, -, hsrc⟩ := hleaf
    obtain ⟨o', rfl, ho'⟩ := userset_of_isRelation hsrc
    simp only [found, htype, mem_singleton] at ho
    subst ho
    refine hR o computed rfl ?_
    rw [ho']
    exact hres
  | tupleToUserset tupleset computed =>
    obtain ⟨htype, htupleset, ref, -, hdefined, hsrc⟩ := hleaf
    obtain ⟨o', rfl, ho'⟩ := userset_of_isRelation hsrc
    simp only [found, htype, htupleset] at ho
    obtain ⟨-, t, ht, hfilter⟩ := mem_objectsRead.mp ho
    refine ⟨t, ht, ?_⟩
    rw [mem_singleton.mp hfilter]
    refine hR o' computed rfl ?_
    rw [ho']
    exact hdefined
  | union child ih =>
    obtain ⟨i, hi⟩ := hleaf
    exact ⟨i, ih i hi (hres i)⟩
  | intersection | difference => cases hmark.symm.trans hleaf.1

/-! ### A rule that holds -/

/-- What a rule that holds for an object leaves to find: an edge to the object from the user, or from
a userset of a relation that the rule refers to. -/
def Supported (q : Query) (R : Object → String → Prop) (o : Object) (r : String) (rewrite : Rewrite) :
    Prop :=
  ∃ user e, e.targetReference = (o.type, r)
    ∧ e.targetReferenceInvolvesIntersectionOrExclusion = true
    ∧ LeafAt (q.source user) (o.type, r) e rewrite ∧ o ∈ q.found user e
    ∧ (user = q.user ∨ ∃ o' r', user = .userset o' r' ∧ R o' r'
      ∧ (o'.type, r') ∈ refs q.env.typesystem (o.type, r) rewrite)

variable {r : String}

/-- A tuple of the user. -/
theorem supported_of_assigned {relation : Relation}
    (hr : q.env.typesystem.getRelation o.type r = .ok relation)
    (hinfo : relation.typeInfo.isSome = true) (ht : t ∈ q.env.passing o r)
    (hassigned : q.user.AssignedBy t.user) : Supported q R o r .this := by
  obtain ⟨ref, href, htype, hfacet⟩ := passing_restriction ht hr hinfo
  refine ⟨q.user, ⟨.direct, (o.type, r), "", true⟩, rfl, rfl, ⟨rfl, rfl, ?_⟩, ?_, .inl rfl⟩
  · refine any_eq_true.mpr ⟨ref, href, decide_eq_true ?_⟩
    rcases hassigned with huser | ⟨o', huser, hwildcard⟩
    · rw [huser] at htype hfacet
      exact ⟨htype, .inl hfacet⟩
    · rw [hwildcard] at htype hfacet
      refine ⟨htype.trans ?_, .inr hfacet⟩
      simp only [source, huser]
      rfl
  · exact mem_objectsRead.mpr ⟨rfl, t, ht, mem_userFilter hassigned href htype hfacet⟩

/-- A tuple of a userset. -/
theorem supported_of_userset {relation : Relation}
    (hr : q.env.typesystem.getRelation o.type r = .ok relation)
    (hinfo : relation.typeInfo.isSome = true) (ht : t ∈ q.env.passing o r)
    {o' : Object} {r' : String} (huser : t.user = .userset o' r') (hrelated : R o' r') :
    Supported q R o r .this := by
  obtain ⟨ref, href, htype, hfacet⟩ := passing_restriction ht hr hinfo
  rw [huser] at htype hfacet
  refine ⟨.userset o' r', ⟨.direct, (o.type, r), "", true⟩, rfl, rfl, ⟨rfl, rfl, ?_⟩, ?_, ?_⟩
  · exact any_eq_true.mpr ⟨ref, href, decide_eq_true ⟨htype, .inl hfacet⟩⟩
  · refine mem_objectsRead.mpr ⟨rfl, t, ht, ?_⟩
    rw [huser]
    exact mem_singleton_self _
  · refine .inr ⟨o', r', rfl, hrelated, ref, href, r', hfacet, ?_⟩
    rw [htype]
    rfl

/-- A tuple of a tupleset leads to an object of one of its types. -/
theorem passing_tupleset (hvalid : Valid q.env.typesystem) {tupleset : String} {relation : Relation}
    (hr : q.env.typesystem.getRelation o.type tupleset = .ok relation)
    (htupleset : q.env.typesystem.isTuplesetRelation o.type tupleset = true)
    (ht : t ∈ q.env.passing o tupleset) : ∃ o', t.user = .object o'
      ∧ ∃ ref ∈ directlyRelatedUserTypes q.env.typesystem (o.type, tupleset), ref.type = o'.type := by
  obtain ⟨-, hobject, hrelation⟩ := mem_store_of_passing ht
  have hrestrictions := (passing_valid ht hr).1
  simp only [TypeSystem.validateTuplesetRestrictions, hobject, hrelation, htupleset, if_true,
    Bool.and_eq_true, decide_eq_true_eq] at hrestrictions
  have hres := hvalid.rewrite (o.type, tupleset) relation hr
  rw [show relation.rewrite = .this by cases h : relation.rewrite <;> simp_all [Rewrite.isThis]] at hres
  obtain ⟨relation', hr', hinfo⟩ := hres
  obtain rfl := Except.ok.inj (hr.symm.trans hr')
  obtain ⟨ref, href, htype, -⟩ := passing_restriction ht hr hinfo
  cases huser : t.user with
  | object o' =>
    rw [huser] at htype
    exact ⟨o', rfl, ref, href, htype⟩
  | userset o' r => cases (huser ▸ hrestrictions.2 : (User.userset o' r).facet = .object)
  | wildcard type => cases (huser ▸ hrestrictions.2 : (User.wildcard type).facet = .object)

theorem Supported.imp {rewrite' : Rewrite} (h : Supported q R o r rewrite)
    (hleaf : ∀ user e, e.targetReferenceInvolvesIntersectionOrExclusion = true →
      LeafAt (q.source user) (o.type, r) e rewrite → LeafAt (q.source user) (o.type, r) e rewrite')
    (hrefs : refs q.env.typesystem (o.type, r) rewrite ⊆ refs q.env.typesystem (o.type, r) rewrite') :
    Supported q R o r rewrite' := by
  obtain ⟨user, e, htarget, hmark, he, ho, huser⟩ := h
  refine ⟨user, e, htarget, hmark, hleaf user e hmark he, ho, huser.imp_right ?_⟩
  rintro ⟨o', r', heq, hrelated, href⟩
  exact ⟨o', r', heq, hrelated, hrefs href⟩

/-- **A rule that holds** has an edge. -/
theorem exists_leaf (h : q.env.HoldsFor q.user R o r rewrite)
    (hvalid : Valid q.env.typesystem) (hres : Resolves q.env.typesystem (o.type, r) rewrite)
    (htuplesets : ∀ tupleset ∈ rewrite.tuplesets,
      q.env.typesystem.isTuplesetRelation o.type tupleset = true)
    (hR : ∀ o r, R o r → ∃ relation, q.env.typesystem.getRelation o.type r = .ok relation) :
    Supported q R o r rewrite := by
  induction rewrite with
  | this =>
    obtain ⟨relation, hr, hinfo⟩ := hres
    obtain ⟨t, ht, hassigned | ⟨o', r', huser, hrelated⟩⟩ := h
    · exact supported_of_assigned hr hinfo ht hassigned
    · exact supported_of_userset hr hinfo ht huser hrelated
  | computedUserset computed =>
    refine ⟨.userset o computed, ⟨.computedUserset, (o.type, r), "", true⟩, rfl, rfl,
      ⟨rfl, rfl, ?_⟩, ?_, ?_⟩
    · exact decide_eq_true ⟨rfl, rfl⟩
    · exact mem_singleton_self o
    · exact .inr ⟨o, computed, rfl, h, rfl⟩
  | tupleToUserset tupleset computed =>
    obtain ⟨t, ht, hrelated⟩ := h
    obtain ⟨relation, hr, -⟩ := hres
    obtain ⟨o', huser, ref, href, htype⟩ :=
      passing_tupleset hvalid hr (htuplesets tupleset (mem_singleton_self _)) ht
    rw [huser] at hrelated
    have hdefined : ∃ relation, q.env.typesystem.getRelation ref.type computed = .ok relation := by
      rw [htype]
      exact hR o' computed hrelated
    refine ⟨.userset o' computed, ⟨.tupleToUserset, (o.type, r), tupleset, true⟩, rfl, rfl,
      ⟨rfl, rfl, ref, href, hdefined, ?_⟩, ?_, ?_⟩
    · exact decide_eq_true ⟨htype.symm, rfl⟩
    · refine mem_objectsRead.mpr ⟨rfl, t, ht, ?_⟩
      rw [huser]
      exact mem_singleton_self _
    · refine .inr ⟨o', computed, rfl, hrelated, ref, href, hdefined, ?_⟩
      rw [htype]
  | union child ih =>
    obtain ⟨i, hi⟩ := h
    refine (ih i hi (hres i) fun tupleset hmem => htuplesets tupleset ?_).imp
      (fun user e _ he => ⟨i, he⟩) fun k hk => ⟨i, hk⟩
    exact mem_flatMap.mpr ⟨i, mem_finRange i, hmem⟩
  | intersection child ih =>
    obtain ⟨hn, hall⟩ := h
    refine (ih ⟨0, hn⟩ (hall _) (hres.2 _) fun tupleset hmem => htuplesets tupleset ?_).imp
      (fun user e hmark he => ⟨hmark, hn, he⟩) fun k hk => ⟨hn, hk⟩
    exact mem_flatMap.mpr ⟨⟨0, hn⟩, mem_finRange _, hmem⟩
  | difference base subtract ih =>
    refine (ih h.1 hres.1 fun tupleset hmem => htuplesets tupleset ?_).imp
      (fun user e hmark he => ⟨hmark, he⟩) fun k hk => hk
    exact mem_append_left _ hmem

end Kengen.ClassicExpand
