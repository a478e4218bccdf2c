import Kengen.BottomUp.Resolve

/-!
# Directly assignable operands

An operand of a set operation is *assignable* when it comes down to direct
edges to the user's type and its typed wildcard, as `[user, user:*]` does.  Its
stream is described here by the stored and contextual tuples.

The merge of stored and contextual tuples keeps both tuples of a key, so an
operand can list an object twice.  The condition filter drops an evaluation
error once another tuple has passed, so the stream can lose an object without
an error.

* **`Assignable.resolve`** — an assignable operand is evaluated to a sorted stream with
  known multiplicities and a known error.
* **`operandCopies_pos`**, **`one_lt_operandCopies`** — when an object is listed, and
  when it is listed twice.
-/

namespace Kengen

open List

/-- The values that the evaluation of a node sends. -/
def emitted (r : Resolver) (strategy : StrategyKind) (req : Request) (fuel : ℕ) (node : Node) :
    List String :=
  match resolveRewrite r strategy req fuel node with
  | .ok msgs => traceValues (fromChannel msgs)
  | .error _ => []

/-- The values that the evaluation of an operand sends. -/
def edgeValues (r : Resolver) (strategy : StrategyKind) (req : Request) (fuel : ℕ) (e : Edge) :
    List String :=
  match resolveEdge r strategy req fuel e with
  | .ok msgs => traceValues (fromChannel msgs)
  | .error _ => []

/-- The direct edges an operand comes down to; none if it has no path to the user type. -/
def operandEdges (r : Resolver) (strategy : StrategyKind) (req : Request) (e : Edge) :
    Except Err (List Edge) :=
  if (e.weight req.userType).isNone then .ok []
  else if e.edgeType = .direct then .ok [e]
  else if e.edgeType = .ttu ∨ e.toNode.isUnionLike = false then .error .panicRequest
  else flattenNode r.model req.userType req.isTypedWildcard (skippedRelation r strategy e.toNode)
    e.toNode

/-- The operand is the directly assignable relation `t#relation`. -/
structure Assignable (r : Resolver) (strategy : StrategyKind) (req : Request) (e : Edge)
    (t relation : String) (edges : List Edge) : Prop where
  terminal : operandEdges r strategy req e = .ok edges
  defined : ∀ l ∈ edges, l.edgeType = .direct ∧ l.relationDefinition = (t, relation)
    ∧ (directUser req l).isSome
  distinct : (edges.map (directUser req)).Nodup
  allowed : ∀ l ∈ edges, ∀ u ∈ directUser req l, ContextualAllowed req l u

variable (r : Resolver) (req : Request) (edges : List Edge) (o : Object)

/-- How often a direct edge lists an object. -/
def edgeCopies (l : Edge) : ℕ :=
  match directUser req l with
  | some u => trueCopies r req l u o
  | none => 0

/-- How often an assignable operand lists an object: as often as the edge that lists
it most. -/
def operandCopies : ℕ :=
  edges.foldr (fun l m => max (edgeCopies r req o l) m) 0

variable {r req edges o} {l : Edge}

theorem edgeCopies_le_operandCopies (hl : l ∈ edges) :
    edgeCopies r req o l ≤ operandCopies r req edges o := by
  induction edges with
  | nil => simp at hl
  | cons l' edges ih =>
    rcases mem_cons.mp hl with rfl | hl
    · exact le_max_left _ _
    · exact (ih hl).trans (le_max_right _ _)

variable (r req edges o) in
theorem operandCopies_attained :
    operandCopies r req edges o = 0
      ∨ ∃ l ∈ edges, operandCopies r req edges o = edgeCopies r req o l := by
  induction edges with
  | nil => exact .inl rfl
  | cons l edges ih =>
    have hcons : operandCopies r req (l :: edges) o
        = max (edgeCopies r req o l) (operandCopies r req edges o) := rfl
    rcases max_choice (edgeCopies r req o l) (operandCopies r req edges o) with h | h
    · exact .inr ⟨l, by simp, hcons.trans h⟩
    · rcases ih with ih | ⟨l', hl', ih⟩
      · exact .inl (by rw [hcons, h, ih])
      · exact .inr ⟨l', by simp [hl'], by rw [hcons, h, ih]⟩

/-- The direct edge ends in an error: a tuple fails and none is true. -/
def EdgeFails (r : Resolver) (req : Request) (l : Edge) : Prop :=
  ∃ u ∈ directUser req l, (∃ t ∈ directTuples r req l u, conditionFails r req l t)
    ∧ ∀ t ∈ directTuples r req l u, ¬ conditionTrue r req l t

theorem directError_isSome {u : User}
    (hu : u ∈ directUser req l) (hallowed : ContextualAllowed req l u) :
    (directError r req l u).isSome ↔ EdgeFails r req l := by
  have hiff : EdgeFails r req l ↔ (∃ t ∈ directTuples r req l u, conditionFails r req l t)
      ∧ ∀ t ∈ directTuples r req l u, ¬ conditionTrue r req l t := by
    constructor
    · rintro ⟨u', hu', h⟩
      rw [Option.mem_unique hu' hu] at h
      exact h
    · intro h
      exact ⟨u, hu, h⟩
  rw [hiff]
  unfold directError
  by_cases hf : needsConditionFilter l.conditions
  · rw [if_pos hf, pendingErr_isSome]
    simp [conditionFails, conditionTrue]
  · have hf' : needsConditionFilter l.conditions = false := by simpa using hf
    simp only [hf', Bool.false_eq_true, if_false, Option.isSome_none, false_iff]
    rintro ⟨⟨t, ht, -⟩, hnone⟩
    exact hnone t ht (conditionTrue_of_unfiltered hallowed hf' ht)

/-- What an assignable operand's stream holds. -/
structure OperandStream (r : Resolver) (req : Request) (edges : List Edge) (t : String)
    (xs : List String) (err : Option Err) : Prop where
  stream : SortedStream xs err
  count : ∀ o : Object, o.type = t → xs.count o.str = operandCopies r req edges o
  objects : ∀ x ∈ xs, ∃ o : Object, o.type = t ∧ x = o.str
  error : err.isSome ↔ ∃ l ∈ edges, EdgeFails r req l

theorem directValues_objects {u : User} {x : String} (hx : x ∈ directValues r req l u) :
    ∃ o : Object, o.type = l.relationDefinition.1 ∧ x = o.str := by
  obtain ⟨k, hk, rfl⟩ := mem_map.mp hx
  refine ⟨k.object, ?_, rfl⟩
  rcases mem_directTuples.mp (mem_filter.mp hk).1 with h | h
  · exact ((req.mem_byUser _ _ _ k).mp h).2.2.1
  · exact (mem_readStartingWithUser.mp h).2.1

/-! ### Assignable operands -/

/-- The values and the error of a direct edge. -/
def edgeStream (r : Resolver) (req : Request) (l : Edge) : List String × Option Err :=
  match directUser req l with
  | some u => (directValues r req l u, directError r req l u)
  | none => ([], none)

theorem resolveEdge_direct (r : Resolver) (strategy : StrategyKind) (fuel : ℕ)
    (hl : l.edgeType = .direct) (hu : (directUser req l).isSome) :
    ∃ m, resolveEdge r strategy req fuel l = .ok m
      ∧ fromChannel m = streamTrace (edgeStream r req l).1 (edgeStream r req l).2 := by
  obtain ⟨u, hu⟩ := Option.isSome_iff_exists.mp hu
  refine ⟨[.iter (directStream r req l u)], by simp [resolveEdge, resolveEdgeWith, hl, hu], ?_⟩
  simp only [fromChannel, directStream_eq, append_nil, edgeStream, hu]
  exact untilCancelled_streamTrace _ _ (directStream_sorted r req l u).proper

variable {strategy : StrategyKind}

theorem collect_direct {fuel : ℕ}
    (hdirect : ∀ l ∈ edges, l.edgeType = .direct ∧ (directUser req l).isSome)
    (hweight : ∀ l ∈ edges, (l.weight req.userType).isSome) :
    collect (operandIter req.userType (resolveEdge r strategy req fuel)) edges
      = .ok ((edges.map (edgeStream r req)).map fun p => streamTrace p.1 p.2) := by
  induction edges with
  | nil => rfl
  | cons l edges ih =>
    obtain ⟨m, hm, hch⟩ := resolveEdge_direct r strategy fuel
      (hdirect l (by simp)).1 (hdirect l (by simp)).2
    have hw : (l.weight req.userType).isNone = false := by
      simpa using hweight l (by simp)
    have hiter : operandIter req.userType (resolveEdge r strategy req fuel) l
        = .ok [streamTrace (edgeStream r req l).1 (edgeStream r req l).2] := by
      simp [operandIter, hw, hm, hch]
    rw [collect, hiter, ih (fun l' hl' => hdirect l' (mem_cons_of_mem _ hl'))
      fun l' hl' => hweight l' (mem_cons_of_mem _ hl')]
    rfl

variable {e : Edge} {t relation : String}

section

variable (h : Assignable r strategy req e t relation edges)
include h

/-- A direct edge of an assignable operand, seen as an operand of its own. -/
theorem Assignable.edge (hl : l ∈ edges) :
    SortedStream (edgeStream r req l).1 (edgeStream r req l).2
      ∧ (∀ o : Object, o.type = t → (edgeStream r req l).1.count o.str = edgeCopies r req o l)
      ∧ (∀ x ∈ (edgeStream r req l).1, ∃ o : Object, o.type = t ∧ x = o.str)
      ∧ ((edgeStream r req l).2.isSome ↔ EdgeFails r req l) := by
  obtain ⟨-, hdef, hsome⟩ := h.defined l hl
  obtain ⟨u, hu⟩ := Option.isSome_iff_exists.mp hsome
  have hallowed := h.allowed l hl u hu
  simp only [edgeStream, edgeCopies, hu]
  refine ⟨directStream_sorted r req l u, fun o ho => ?_, fun x hx => ?_, directError_isSome hu hallowed⟩
  · exact count_directValues r req l u o hallowed (by rw [hdef, ho])
  · obtain ⟨o, ho, hxo⟩ := directValues_objects hx
    exact ⟨o, by rw [ho, hdef], hxo⟩

/-- The request's user and its wildcard are all a direct edge can read. -/
theorem Assignable.length_le_two :
    edges.length ≤ 2 := by
  have hsub : edges.map (directUser req) ⊆ [some req.user, some req.wildcardUser] := by
    intro u hu
    obtain ⟨l, hl, rfl⟩ := mem_map.mp hu
    have hsome := (h.defined l hl).2.2
    unfold directUser at hsome ⊢
    split at hsome <;> simp_all
  simpa using (subperm_of_subset h.distinct hsub).length_le

/-- **The stream of an assignable operand** that has a path to the user. -/
theorem Assignable.resolve (hweight : (e.weight req.userType).isSome) (fuel : ℕ) :
    ∃ m xs err, resolveEdge r strategy req (fuel + 1) e = .ok m
      ∧ fromChannel m = streamTrace xs err ∧ OperandStream r req edges t xs err := by
  have hterm := h.terminal
  have hnone : (e.weight req.userType).isNone = false := by simpa using hweight
  simp only [operandEdges, hnone, Bool.false_eq_true, if_false] at hterm
  by_cases hdirect : e.edgeType = .direct
  · -- the operand is a single direct edge
    simp only [hdirect, if_true] at hterm
    obtain rfl : edges = [e] := (Except.ok.inj hterm).symm
    have he := h.edge (l := e) (by simp)
    obtain ⟨m, hm, hch⟩ := resolveEdge_direct r strategy (fuel + 1)
      hdirect (h.defined e (by simp)).2.2
    refine ⟨m, _, _, hm, hch, he.1, fun o ho => ?_, he.2.2.1, ?_⟩
    · rw [he.2.1 o ho]
      simp [operandCopies]
    · simpa using he.2.2.2
  · -- the operand is the union of the direct edges it flattens to
    simp only [hdirect, if_false] at hterm
    split_ifs at hterm with hkind
    rw [not_or] at hkind
    have hunion : e.toNode.isUnionLike = true := by simpa using hkind.2
    have hweights : ∀ l ∈ edges, (l.weight req.userType).isSome := fun l hl => by
      have := (of_mem_flattenNode hterm hl).1
      rw [Edge.leadsTo, Bool.and_eq_true] at this
      exact this.1
    have hset : setOperationSetup req.userType (resolveEdge r strategy req fuel) resolveUnion edges
        = .ok (resolveUnion ((edges.map (edgeStream r req)).map fun p => streamTrace p.1 p.2)) := by
      rw [setOperationSetup, collect_direct (fun l hl => ⟨(h.defined l hl).1, (h.defined l hl).2.2⟩)
        hweights]
    have hops : ∀ p ∈ edges.map (edgeStream r req), SortedStream p.1 p.2 := by
      intro p hp
      obtain ⟨l, hl, rfl⟩ := mem_map.mp hp
      exact (h.edge hl).1
    obtain ⟨zs, err, heq, hstream, hmem, hle, htwo, herr⟩ :=
      resolveUnion_spec (edges.map (edgeStream r req)) hops
    refine ⟨_, zs, err, ?_, heq, hstream, ?_, ?_, ?_⟩
    · rw [resolveEdge_rewrite hdirect hkind.1, resolveRewrite_unionLike hunion, hterm]
      exact hset
    · intro o ho
      refine le_antisymm (hle o.str _ fun p hp => ?_) ?_
      · obtain ⟨l, hl, rfl⟩ := mem_map.mp hp
        rw [(h.edge hl).2.1 o ho]
        exact edgeCopies_le_operandCopies hl
      · rcases operandCopies_attained r req edges o with hzero | ⟨l, hl, hatt⟩
        · omega
        · rw [hatt, ← (h.edge hl).2.1 o ho]
          exact htwo (by simpa using h.length_le_two) _ (mem_map_of_mem hl) o.str
    · intro x hx
      obtain ⟨p, hp, hxp⟩ := (hmem x).mp hx
      obtain ⟨l, hl, rfl⟩ := mem_map.mp hp
      exact (h.edge hl).2.2.1 x hxp
    · rw [herr]
      constructor
      · rintro ⟨p, hp, hsome⟩
        obtain ⟨l, hl, rfl⟩ := mem_map.mp hp
        exact ⟨l, hl, (h.edge hl).2.2.2.mp hsome⟩
      · rintro ⟨l, hl, hfail⟩
        exact ⟨_, mem_map_of_mem hl, (h.edge hl).2.2.2.mpr hfail⟩

/-- The values of an assignable operand that has a path to the user type. -/
theorem Assignable.edgeValues_spec (hw : (e.weight req.userType).isSome) (fuel : ℕ) :
    (∀ o : Object, o.type = t →
        (edgeValues r strategy req (fuel + 1) e).count o.str = operandCopies r req edges o)
      ∧ ∀ x ∈ edgeValues r strategy req (fuel + 1) e, ∃ o : Object, o.type = t ∧ x = o.str := by
  obtain ⟨m, xs, err, hm, hxs, hos⟩ := h.resolve hw fuel
  have hvalues : edgeValues r strategy req (fuel + 1) e = xs := by
    simp [edgeValues, hm, hxs]
  rw [hvalues]
  exact ⟨hos.count, hos.objects⟩

end

/-! ### The relations in terms of the tuples -/

variable (r req edges o)

/-- The user is assigned to `o` through the edge, as the top-down resolver reads it: a
contextual tuple hides the stored tuple of its key. -/
def assigned (l : Edge) (user : User) (o : Object) : Bool :=
  match req.contextualTuple o l.relationDefinition.2 user with
  | some t => conditionTrue r req l t
  | none => storedTrue r req l user o

/-- `o` is in the assignable relation of the request's user. -/
def MemberOf : Prop :=
  ∃ l ∈ edges, ∃ u ∈ directUser req l, assigned r req l u o

/-- Some tuple of `o`, stored or contextual, has a true condition. -/
def HasTrueTuple : Prop :=
  ∃ l ∈ edges, ∃ u ∈ directUser req l, contextualTrue r req l u o ∨ storedTrue r req l u o

/-- A contextual tuple repeats a stored tuple of `o`, and both conditions are true. -/
def Repeated : Prop :=
  ∃ l ∈ edges, ∃ u ∈ directUser req l, contextualTrue r req l u o ∧ storedTrue r req l u o

instance : Decidable (MemberOf r req edges o) := by unfold MemberOf; infer_instance

instance : Decidable (HasTrueTuple r req edges o) := by unfold HasTrueTuple; infer_instance

instance : Decidable (Repeated r req edges o) := by unfold Repeated; infer_instance

theorem assigned_cases (l : Edge) (u : User) (o : Object) :
    (contextualTrue r req l u o → assigned r req l u o)
      ∧ (assigned r req l u o → contextualTrue r req l u o ∨ storedTrue r req l u o) := by
  unfold assigned contextualTrue
  rcases req.contextualTuple o l.relationDefinition.2 u with _ | t
  · exact ⟨fun h => by simp at h, .inr⟩
  · exact ⟨fun h => h, .inl⟩

variable {r req edges o}

theorem lt_operandCopies {n : ℕ} :
    n < operandCopies r req edges o
      ↔ ∃ l ∈ edges, ∃ u ∈ directUser req l, n < trueCopies r req l u o := by
  constructor
  · intro h
    rcases operandCopies_attained r req edges o with h0 | ⟨l, hl, heq⟩
    · omega
    · rw [heq, edgeCopies] at h
      split at h
      · rename_i u hu
        exact ⟨l, hl, u, hu, h⟩
      · omega
  · rintro ⟨l, hl, u, hu, h⟩
    have hcopies : edgeCopies r req o l = trueCopies r req l u o := by
      rw [edgeCopies, Option.mem_def.mp hu]
    exact lt_of_lt_of_le (hcopies ▸ h) (edgeCopies_le_operandCopies hl)

theorem operandCopies_pos :
    0 < operandCopies r req edges o ↔ HasTrueTuple r req edges o := by
  rw [lt_operandCopies, HasTrueTuple]
  refine exists_congr fun l => and_congr_right fun _ => exists_congr fun u =>
    and_congr_right fun _ => ?_
  rw [trueCopies]
  cases contextualTrue r req l u o <;> cases storedTrue r req l u o <;> simp

theorem one_lt_operandCopies :
    1 < operandCopies r req edges o ↔ Repeated r req edges o := by
  rw [lt_operandCopies, Repeated]
  refine exists_congr fun l => and_congr_right fun _ => exists_congr fun u =>
    and_congr_right fun _ => ?_
  rw [trueCopies]
  cases contextualTrue r req l u o <;> cases storedTrue r req l u o <;> simp

variable (r req edges o) in
theorem operandCopies_le_two :
    operandCopies r req edges o ≤ 2 := by
  by_contra h
  obtain ⟨l, -, u, -, hlt⟩ := lt_operandCopies.mp (not_le.mp h)
  rw [trueCopies] at hlt
  have hc := Bool.toNat_le (contextualTrue r req l u o)
  have hs := Bool.toNat_le (storedTrue r req l u o)
  omega

theorem MemberOf.hasTrueTuple (h : MemberOf r req edges o) : HasTrueTuple r req edges o := by
  obtain ⟨l, hl, u, hu, ha⟩ := h
  exact ⟨l, hl, u, hu, (assigned_cases r req l u o).2 ha⟩

/-- A repeated object is in the relation. -/
theorem Repeated.memberOf (h : Repeated r req edges o) : MemberOf r req edges o := by
  obtain ⟨l, hl, u, hu, hc, -⟩ := h
  exact ⟨l, hl, u, hu, (assigned_cases r req l u o).1 hc⟩

end Kengen
