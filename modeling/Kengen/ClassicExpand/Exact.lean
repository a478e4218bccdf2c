import Kengen.ClassicExpand.Reached

/-!
# Classic reverse expansion is exact

The whole traversal: every schedule ends, what is sent as certain is right, and at the end every
object of the target has been sent.

* `Query.keys`, `Query.users`, **`child_bounds`** — finitely many calls, also if tuples form cycles.
* **`run_length_le_bound`** — every schedule ends.
* **`related_of_sent`** — what is sent as certain is right.
* **`classic_expansion_exact`** — the result.
-/

namespace Kengen.ClassicExpand

open Query Worklist List

variable {q : Query} {t : Task}

/-! ### Every schedule ends -/

namespace Query

variable (q)

/-- The objects of tuples and of the user. -/
def objects : List Object :=
  q.env.store.tuples.map TupleKey.object ++
    match q.user with
    | .userset o _ => [o]
    | _ => []

def relationNames : List String := (relationKeys q.env.typesystem).map Prod.snd

/-- The users that calls can have. -/
def users : List User :=
  q.user :: (q.objects ×ˢ q.relationNames).map fun (o, r) => .userset o r

/-- The keys that calls can have. -/
def keys : List Key :=
  q.objects ×ˢ [.direct, .tupleToUserset, .computedUserset] ×ˢ relationKeys q.env.typesystem
    ×ˢ ("" :: q.relationNames)

/-- The number of calls that a call can start. -/
def width : ℕ := (q.users.map fun user => ((q.children ⟨user, none, false⟩).getD []).length).sum

/-- A bound for the length of all runs. -/
def bound : ℕ := q.keys.length * (q.width + 2) + potential (keyRank q.search) q.width q.start

end Query

theorem mem_objects_of_userset {o : Object} {r : String} (h : .userset o r ∈ q.users) :
    o ∈ q.objects := by
  rcases mem_cons.mp h with huser | h
  · refine mem_append_right _ ?_
    rw [← huser]
    exact mem_singleton_self o
  · obtain ⟨⟨_, _⟩, hmem, heq⟩ := mem_map.mp h
    cases heq
    exact (mem_product.mp hmem).1

theorem mem_objects_of_found {user : User} {e : RelationshipEdge} {o : Object}
    (huser : user ∈ q.users) (ho : o ∈ q.found user e) : o ∈ q.objects := by
  have hread : ∀ {objectType relation users},
      o ∈ q.readStartingWithUser objectType relation users → o ∈ q.objects := by
    intro objectType relation users hread
    obtain ⟨-, t, ht, -⟩ := mem_objectsRead.mp hread
    obtain ⟨hmem, rfl, -⟩ := mem_store_of_passing ht
    exact mem_append_left _ (mem_map_of_mem hmem)
  unfold found at ho
  split at ho
  · exact hread ho
  · rw [mem_singleton.mp ho]
    exact mem_objects_of_userset huser
  · exact hread ho
  · cases ho

theorem mem_relationNames {type r : String} {relation : Relation}
    (h : q.env.typesystem.getRelation type r = .ok relation) : r ∈ q.relationNames :=
  mem_map.mpr ⟨(type, r), mem_relationKeys h, rfl⟩

/-- **The calls of a call** are among finitely many. -/
theorem child_bounds (huser : t.user ∈ q.users) {ts : List Task} (hts : q.children t = some ts)
    {t' : Task} (ht' : t' ∈ ts) : t'.user ∈ q.users ∧ ∃ k ∈ q.keys, key t' = some k := by
  obtain ⟨_, hes, e, he, o, ho, rfl⟩ := children_cases hts ht'
  have hobject := mem_objects_of_found huser ho
  obtain ⟨_, hrelation, hleaf⟩ := edges_right hes he
  refine ⟨?_, (o, e.string), ?_, rfl⟩
  · refine mem_cons_of_mem _ (mem_map.mpr ⟨(o, e.targetReference.2), ?_, rfl⟩)
    exact mem_product.mpr ⟨hobject, mem_relationNames hrelation⟩
  · have htupleset : e.tuplesetRelation ∈ "" :: q.relationNames := by
      rcases leafAt_cases hleaf with ⟨-, h⟩ | ⟨-, h, -⟩ | ⟨-, _, h⟩
      · rw [h]
        exact mem_cons_self
      · rw [h]
        exact mem_cons_self
      · exact mem_cons_of_mem _ (mem_relationNames h)
    refine mem_product.mpr ⟨hobject, mem_product.mpr ⟨?_, mem_product.mpr ⟨?_, htupleset⟩⟩⟩
    · cases e.type <;> decide
    · exact mem_relationKeys hrelation

theorem reached_users (h : q.search.Reach q.start t) : t.user ∈ q.users := by
  induction h with
  | start hmem =>
    rw [mem_singleton.mp hmem]
    exact mem_cons_self
  | child _ hts ht' ih => exact (child_bounds ih hts ht').1

theorem length_children (h : q.search.Reach q.start t) {ts : List Task}
    (hts : q.children t = some ts) : ts.length ≤ q.width := by
  have hlength : ts.length = ((q.children ⟨t.user, none, false⟩).getD []).length := by
    unfold children at hts ⊢
    split at hts
    · cases hts
    rename_i es hes
    cases hts
    simp [hes, along]
  rw [hlength]
  exact single_le_sum (fun _ _ => Nat.zero_le _) _ (mem_map_of_mem (reached_users h))

theorem run_length_le_bound {choices : List ℕ}
    {s : State Task Key (Object × ConditionalResultStatus)} (hrun : q.run choices = some s) :
    choices.length ≤ q.bound := by
  refine run_bounded_by_keys (fun t ts ht hts => length_children ht hts)
    (fun t ts ht hts t' ht' => (child_bounds (reached_users ht) hts ht').2) ?_ hrun
  intro t ht k hk
  rw [mem_singleton.mp ht] at hk
  simp only [search, key] at hk
  split at hk
  · cases ‹none = some _›
  · cases hk

/-! ### The result -/

theorem related_of_sent (hvalid : Valid q.env.typesystem)
    (htarget : ∃ relation, q.env.typesystem.getRelation q.objectType q.relation = .ok relation)
    {choices : List ℕ} {s : State Task Key (Object × ConditionalResultStatus)}
    (hrun : q.run choices = some s) {r : Object × ConditionalResultStatus} (hr : r ∈ sent s) :
    r.1.type = q.objectType
      ∧ (r.2 = .noFurtherEval → q.env.RelatedTo q.user r.1 q.relation) := by
  obtain ⟨t, ht, hmem⟩ := run_emitted hrun (Once.sent_subset hr)
  simp only [search, results] at hmem
  split at hmem
  · rename_i o r huser
    split at hmem
    · rename_i hmatch
      obtain ⟨rfl, htype⟩ := hmatch
      cases mem_singleton.mp hmem
      refine ⟨htype, fun hstatus => ?_⟩
      have hmark : t.intersectionOrExclusionInPreviousEdges = false := by
        unfold status at hstatus
        split_ifs at hstatus
        exact Bool.eq_false_iff.mpr ‹_›
      have hstands := reached_related hvalid ht hmark
      rw [huser] at hstands
      refine hstands.related ?_
      rw [htype]
      exact htarget
    · cases hmem
  · cases hmem

/-- **Classic reverse expansion is exact.**  Every schedule ends without an error.  An object that is
sent as certain is one that the user has the relation with.  When nothing more can be done every such
object has been sent, and with an exact Check for the candidates that are not certain the answer is
the set of these objects. -/
theorem classic_expansion_exact (q : Query) (hvalid : Valid q.env.typesystem)
    (htarget : ∃ relation, q.env.typesystem.getRelation q.objectType q.relation = .ok relation)
    (choices : List ℕ) (s : State Task Key (Object × ConditionalResultStatus))
    (hrun : q.run choices = some s) :
    choices.length ≤ q.bound ∧ s.failed = false
      ∧ (∀ o, (o, .noFurtherEval) ∈ sent s →
        o.type = q.objectType ∧ q.env.RelatedTo q.user o q.relation)
      ∧ ((∀ i, q.search.step s i = none) →
        (∀ o, o.type = q.objectType → q.env.RelatedTo q.user o q.relation →
          ∃ status, (o, status) ∈ sent s)
        ∧ ∀ check : Object → Bool,
          (∀ o, o.type = q.objectType → (check o = true ↔ q.env.RelatedTo q.user o q.relation)) →
            ∀ o, o ∈ evaluate check (sent s)
              ↔ o.type = q.objectType ∧ q.env.RelatedTo q.user o q.relation) := by
  have hcore : Runs.run q.coreSearch.step (Search.init [(q.user, none)]) choices
      = some (s.map Task.core Prod.fst) := (forgets_core q).run hrun
  have hok : ∀ c, q.coreSearch.Reach [(q.user, none)] c → q.coreSearch.children c ≠ none := by
    intro c _ hnone
    obtain ⟨_, hes⟩ : ∃ es, getPrunedRelationshipEdges (q.source c.1) q.target = .ok es :=
      getPrunedRelationshipEdges_returns hvalid htarget
    simp only [coreSearch, coreChildren, hes] at hnone
    cases hnone
  obtain ⟨hfailed, hdone⟩ := run_exhausts (fun c c' k hc hc' => coreKey_injective hc hc') hok hcore
  have hsound := fun r => related_of_sent hvalid htarget hrun (r := r)
  refine ⟨run_length_le_bound hrun, hfailed, fun o ho => ?_, fun hstuck => ?_⟩
  · exact ⟨(hsound _ ho).1, (hsound _ ho).2 rfl⟩
  have hpending : s.pending = [] := by
    by_contra hne
    obtain ⟨_, hs'⟩ := step_enabled (S := q.search) hfailed hne
    rw [hstuck 0] at hs'
    cases hs'
  have hcomplete : ∀ o, o.type = q.objectType → q.env.RelatedTo q.user o q.relation →
      ∃ status, (o, status) ∈ sent s := by
    rintro o htype ⟨depth, hdepth⟩
    have hneeded : Reaches q.env.typesystem q.target (o.type, q.relation) := by
      rw [htype]
      exact Relation.ReflTransGen.refl
    obtain ⟨_, hreach⟩ := reached_of_check hvalid htarget depth (hdepth depth le_rfl) hneeded
    have hmem : o ∈ (s.map Task.core Prod.fst).emitted := by
      refine (hdone (by simp [State.map, hpending]) o).mpr ⟨_, hreach, ?_⟩
      simp [coreSearch, coreResults, htype]
    obtain ⟨r, hr, rfl⟩ := mem_map.mp hmem
    have hkeys : r.1 ∈ (sent s).map Prod.fst := Once.keys_sent hr
    obtain ⟨r', hr', hkey⟩ := mem_map.mp hkeys
    exact ⟨r'.2, hkey ▸ hr'⟩
  refine ⟨hcomplete, fun check hcheck o => ⟨?_, ?_⟩⟩
  · intro ho
    obtain ⟨r, hr, rfl⟩ := mem_map.mp ho
    obtain ⟨hr, hstatus⟩ := mem_filter.mp hr
    obtain ⟨htype, hcertain⟩ := hsound r hr
    refine ⟨htype, ?_⟩
    rcases Bool.or_eq_true_iff.mp hstatus with hstatus | hstatus
    · exact hcertain (of_decide_eq_true hstatus)
    · exact (hcheck _ htype).mp hstatus
  · rintro ⟨htype, hrelated⟩
    obtain ⟨status, hmem⟩ := hcomplete o htype hrelated
    refine mem_map.mpr ⟨_, mem_filter.mpr ⟨hmem, ?_⟩, rfl⟩
    exact Bool.or_eq_true_iff.mpr (.inr ((hcheck o htype).mpr hrelated))

/-! ### Two groups in a circle -/

/-- Groups that are members of each other, and a document that is read by one of them unless it is
blocked. -/
def circle : Query where
  env :=
    { typesystem := ⟨[("user", []),
        ("group", [("member", ⟨.this,
          some [⟨"user", .object, noCond⟩, ⟨"group", .relation "member", noCond⟩]⟩)]),
        ("doc", [("blocked", ⟨.this, some [⟨"user", .object, noCond⟩]⟩),
          ("viewer", ⟨.difference .this (.computedUserset "blocked"),
            some [⟨"group", .relation "member", noCond⟩]⟩),
          ("reader", ⟨.union (n := 2) fun i => if i = 0 then .this else .computedUserset "viewer",
            some [⟨"user", .object, noCond⟩]⟩)])], []⟩
      store := ⟨[⟨⟨"group", "1"⟩, "member", .userset ⟨"group", "2"⟩ "member", ⟨noCond, ""⟩⟩,
        ⟨⟨"group", "2"⟩, "member", .userset ⟨"group", "1"⟩ "member", ⟨noCond, ""⟩⟩,
        ⟨⟨"group", "1"⟩, "member", .object ⟨"user", "anne"⟩, ⟨noCond, ""⟩⟩,
        ⟨⟨"doc", "1"⟩, "viewer", .userset ⟨"group", "2"⟩ "member", ⟨noCond, ""⟩⟩,
        ⟨⟨"doc", "2"⟩, "reader", .object ⟨"user", "anne"⟩, ⟨noCond, ""⟩⟩], by decide⟩
      cel := fun _ _ => .ok true }
  user := .object ⟨"user", "anne"⟩
  objectType := "doc"
  relation := "reader"
  involves := fun _ _ => false

theorem circle_valid : Valid circle.env.typesystem := by
  have hkeys : ∀ (k : RelationKey) relation, circle.env.typesystem.getRelation k.1 k.2 = .ok relation →
      k ∈ [("group", "member"), ("doc", "blocked"), ("doc", "viewer"), ("doc", "reader")] :=
    fun k relation h => mem_relationKeys h
  constructor
  · intro k relation hrelation
    have hk := hkeys k relation hrelation
    simp only [mem_cons, not_mem_nil, or_false] at hk
    rcases hk with rfl | rfl | rfl | rfl <;> cases hrelation
    · exact ⟨_, rfl, rfl⟩
    · exact ⟨_, rfl, rfl⟩
    · exact ⟨⟨_, rfl, rfl⟩, _, rfl⟩
    · exact Fin.forall_fin_two.mpr ⟨⟨_, rfl, rfl⟩, _, rfl⟩
  · intro k relation hrelation ref hmem name hname
    have hk := hkeys k relation hrelation
    simp only [mem_cons, not_mem_nil, or_false] at hk
    rcases hk with rfl | rfl | rfl | rfl <;> cases hrelation
    · simp only [relatedTypes, Option.getD_some, mem_cons, not_mem_nil, or_false] at hmem
      rcases hmem with rfl | rfl <;> cases hname
      exact ⟨_, rfl⟩
    · cases mem_singleton.mp hmem
      cases hname
    · cases mem_singleton.mp hmem
      cases hname
      exact ⟨_, rfl⟩
    · cases mem_singleton.mp hmem
      cases hname

theorem classic_expansion_exact_circle : ∃ s, circle.run (List.replicate 7 0) = some s
    ∧ sent s = [(⟨"doc", "2"⟩, .noFurtherEval), (⟨"doc", "1"⟩, .requiresFurtherEval)]
    ∧ circle.env.RelatedTo circle.user ⟨"doc", "2"⟩ "reader"
    ∧ ∀ check : Object → Bool, (∀ o, o.type = "doc" →
        (check o = true ↔ circle.env.RelatedTo circle.user o "reader")) →
      ∀ o, o ∈ evaluate check (sent s)
        ↔ o.type = "doc" ∧ circle.env.RelatedTo circle.user o "reader" := by
  have hrun : (circle.run (List.replicate 7 0)).map (fun s => (s.pending, sent s))
      = some ([], [(⟨"doc", "2"⟩, .noFurtherEval), (⟨"doc", "1"⟩, .requiresFurtherEval)]) := by
    decide
  obtain ⟨s, hs, hfacts⟩ := Option.map_eq_some_iff.mp hrun
  obtain ⟨hpending, hsent⟩ := Prod.mk.inj hfacts
  obtain ⟨-, -, hcertain, hend⟩ := classic_expansion_exact circle circle_valid ⟨_, rfl⟩ _ s hs
  refine ⟨s, hs, hsent, (hcertain ⟨"doc", "2"⟩ ?_).2, (hend (step_eq_none hpending)).2⟩
  rw [hsent]
  exact mem_cons_self

end Kengen.ClassicExpand
