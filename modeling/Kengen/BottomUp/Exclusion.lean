import Kengen.BottomUp.Assignable

/-!
# Bottom-up exclusions

The evaluation of a node `base but not subtract` with an assignable subtrahend.
The difference takes one copy from the base for each copy of the subtrahend, so
repeated objects matter here, and so do errors that the subtrahend's condition
filter has dropped.

* **`emitted_exclusion`** — exactly which objects come out, in terms of the tuples.
* **`exclusion_sound_iff`** — when exactly no object of the subtract relation, and
  none outside the base relation, comes out.
* **`exclusion_fails_closed_iff`** — when exactly no object comes out that a
  subtract tuple concerns, be its condition true or failing.
-/

namespace Kengen

open SortedList

/-! ### The exclusion -/

variable {r : Resolver} {req : Request}

theorem resolveEdge_isStream {strategy : StrategyKind} {fuel : ℕ} {e : Edge} {m : List (Msg String)}
    (h : resolveEdge r strategy req fuel e = .ok m) : IsStream m := by
  by_cases hdirect : e.edgeType = .direct
  · rcases hu : directUser req e with _ | u
    · simp [resolveEdge, resolveEdgeWith, hdirect, hu] at h
    · obtain rfl : [.iter (directStream r req e u)] = m := by
        simpa [resolveEdge, resolveEdgeWith, hdirect, hu] using h
      exact directStream_isStream r req e u
  · by_cases httu : e.edgeType = .ttu
    · simp [resolveEdge, resolveEdgeWith, httu] at h
    · rw [resolveEdge_rewrite hdirect httu] at h
      exact resolveRewrite_isStream r strategy req fuel e.toNode m h

theorem mem_of_count_eq {x : String} {zs : List String} {n : ℕ} (h : zs.count x = n) :
    x ∈ zs ↔ 0 < n := by
  rw [← h, List.count_pos_iff]

/-- The subtrahend ends in an error before it reaches past `o`. -/
def FailsBefore (r : Resolver) (req : Request) (subEdges : List Edge) (t : String) (o : Object) :
    Prop :=
  (∃ l ∈ subEdges, EdgeFails r req l)
    ∧ ∀ p : Object, p.type = t → 0 < operandCopies r req subEdges p → p.str ≤ o.str

/-- **What an exclusion emits.**  Only what the base lists; and an object of the subtrahend's
type exactly if the base lists it more often than the assignable subtrahend and the
subtrahend does not fail before. -/
theorem emitted_exclusion (r : Resolver) (strategy : StrategyKind) (req : Request) (fuel uid : ℕ)
    (base sub : Edge) (t relation : String) (subEdges : List Edge)
    (hedges : r.model.getEdgesFromNode (.operatorNode .exclusion uid) = [base, sub])
    (hbase : (base.weight req.userType).isSome)
    (hsub : Assignable r strategy req sub t relation subEdges) :
    (emitted r strategy req (fuel + 2) (.operatorNode .exclusion uid)).Sublist
        (edgeValues r strategy req (fuel + 1) base)
      ∧ ∀ o : Object, o.type = t →
        (o.str ∈ emitted r strategy req (fuel + 2) (.operatorNode .exclusion uid)
          ↔ req.isTypedWildcard = false
            ∧ operandCopies r req subEdges o
              < (edgeValues r strategy req (fuel + 1) base).count o.str
            ∧ ¬ FailsBefore r req subEdges t o) := by
  have hbaseNone : (base.weight req.userType).isNone = false := by simpa using hbase
  have hrewrite : resolveRewrite r strategy req (fuel + 2) (.operatorNode .exclusion uid)
      = if req.isTypedWildcard then .error .wildcardInvalidRequest
        else setOperationSetup req.userType (resolveEdge r strategy req (fuel + 1))
          resolveDifference [base, sub] := by
    simp only [resolveRewrite, hedges]
    rfl
  rw [emitted, hrewrite]
  cases hwild : req.isTypedWildcard with
  | true => simp
  | false =>
    simp only [Bool.false_eq_true, if_false, true_and]
    rcases hB : resolveEdge r strategy req (fuel + 1) base with err | mB
    · -- the base cannot be evaluated: nothing is emitted
      simp [setOperationSetup, collect, operandIter, hbaseNone, hB, edgeValues]
    · obtain ⟨xs, eB, hxs, hBs⟩ := resolveEdge_isStream hB
      have hvalues : edgeValues r strategy req (fuel + 1) base = xs := by
        simp [edgeValues, hB, hxs]
      rw [hvalues]
      rcases hw : sub.weight req.userType with _ | w
      · -- the subtrahend has no path to the user
        have hnil : subEdges = [] := by
          have := hsub.terminal
          rw [operandEdges, hw] at this
          simpa using this.symm
        subst hnil
        simp only [setOperationSetup, collect, operandIter, hbaseNone, hB, hw, Option.isNone_none,
          if_true, Bool.false_eq_true, if_false, List.append_nil, hxs]
        rw [resolveDifference_base xs eB hBs, traceValues_streamTrace]
        simp [operandCopies, FailsBefore]
      · have hsubSome : (sub.weight req.userType).isSome := by rw [hw]; rfl
        have hsubNone : (sub.weight req.userType).isNone = false := by rw [hw]; rfl
        obtain ⟨mS, ys, eS, hS, hys, hos⟩ := hsub.resolve hsubSome fuel
        obtain ⟨zs, err, heq, hsublist, hcount, -⟩ :=
          resolveDifference_spec xs ys eB eS hBs hos.stream
        have hout : setOperationSetup req.userType (resolveEdge r strategy req (fuel + 1))
            resolveDifference [base, sub]
            = .ok (resolveDifference [streamTrace xs eB, streamTrace ys eS]) := by
          simp [setOperationSetup, collect, operandIter, hbaseNone, hB, hsubNone, hS, hxs, hys]
        rw [hout]
        simp only [heq, List.nil_append, traceValues_streamTrace]
        refine ⟨hsublist, fun o ho => ?_⟩
        rw [mem_of_count_eq (hcount o.str), differenceCount, hos.count o ho]
        have hfails : (eS.isSome = true ∧ ∀ p ∈ ys, p ≤ o.str) ↔ FailsBefore r req subEdges t o := by
          rw [FailsBefore, hos.error]
          refine and_congr_right fun _ => ⟨fun h p hp hpos => ?_, fun h p hp => ?_⟩
          · exact h p.str ((mem_of_count_eq (hos.count p hp)).mpr hpos)
          · obtain ⟨q, hq, rfl⟩ := hos.objects p hp
            exact h q hq ((mem_of_count_eq (hos.count q hq)).mp hp)
        rw [← hfails]
        split
        · rename_i hf
          exact ⟨fun h => absurd h (lt_irrefl 0), fun h => absurd hf h.2⟩
        · rename_i hf
          exact ⟨fun h => ⟨by omega, hf⟩, fun h => by have := h.1; omega⟩

/-! ### Soundness -/

/-- Every condition of a stored or contextual tuple evaluates to true or false. -/
def NoConditionError (r : Resolver) (req : Request) : Prop :=
  ∀ t ∈ r.datastore.tuples ++ req.contextualTuples,
    (evaluateTupleCondition r.cel t req.context).isOk

instance (r : Resolver) (req : Request) : Decidable (NoConditionError r req) := by
  unfold NoConditionError; infer_instance

theorem NoConditionError.conditionFails (h : NoConditionError r req) (l : Edge) {t : TupleKey}
    (ht : t ∈ r.datastore.tuples ++ req.contextualTuples) : conditionFails r req l t = false := by
  have hok := h t ht
  rcases heval : evaluateTupleCondition r.cel t req.context with err | b
  · rw [heval] at hok
    cases hok
  · by_cases hname : t.condition.name ∈ l.conditions <;>
      simp [Kengen.conditionFails, isFailure, evaluateCondition, hname, heval]

theorem mem_tuples_of_mem_directTuples {l : Edge} {u : User} {t : TupleKey}
    (ht : t ∈ directTuples r req l u) : t ∈ r.datastore.tuples ++ req.contextualTuples := by
  rw [List.mem_append]
  rcases mem_directTuples.mp ht with h | h
  · exact .inr (Request.contextualTuple_key ((req.mem_byUser _ _ _ t).mp h).2.2.2).2
  · exact .inl (mem_readStartingWithUser.mp h).1

theorem NoConditionError.not_failsBefore (h : NoConditionError r req) (edges : List Edge)
    (t : String) (o : Object) : ¬ FailsBefore r req edges t o := by
  rintro ⟨⟨l, -, u, -, ⟨k, hk, hfails⟩, -⟩, -⟩
  rw [h.conditionFails l (mem_tuples_of_mem_directTuples hk)] at hfails
  cases hfails

/-- **When exactly an exclusion of assignable relations is sound.**  The node is evaluated
because its base has a weight, and no condition fails.  Then only objects of the base
relation that are not in the subtract relation come out, exactly if (unless the user is a
typed wildcard, for which nothing comes out) no object

* has a repeated base tuple and is in the subtract relation without a repeated tuple, or
* has only hidden true base tuples and no true subtract tuple. -/
theorem exclusion_sound_iff (r : Resolver) (strategy : StrategyKind) (req : Request) (fuel uid : ℕ)
    (base sub : Edge) (t baseRelation subRelation : String) (baseEdges subEdges : List Edge)
    (hedges : r.model.getEdgesFromNode (.operatorNode .exclusion uid) = [base, sub])
    (hweight : (base.weight req.userType).isSome)
    (hbase : Assignable r strategy req base t baseRelation baseEdges)
    (hsub : Assignable r strategy req sub t subRelation subEdges) (hcond : NoConditionError r req) :
    (∀ x ∈ emitted r strategy req (fuel + 2) (.operatorNode .exclusion uid),
        ∃ o : Object, o.type = t ∧ x = o.str
          ∧ MemberOf r req baseEdges o ∧ ¬ MemberOf r req subEdges o)
      ↔ (req.isTypedWildcard = false → ∀ o : Object, o.type = t →
          ¬ (Repeated r req baseEdges o ∧ MemberOf r req subEdges o
              ∧ ¬ Repeated r req subEdges o)
          ∧ ¬ (HasTrueTuple r req baseEdges o ∧ ¬ MemberOf r req baseEdges o
              ∧ ¬ HasTrueTuple r req subEdges o)) := by
  obtain ⟨hsublist, hmem⟩ :=
    emitted_exclusion r strategy req fuel uid base sub t subRelation subEdges hedges hweight hsub
  obtain ⟨hcount, hobjects⟩ := hbase.edgeValues_spec hweight fuel
  -- what comes out, in terms of the two multiplicities
  have hout : ∀ o : Object, o.type = t →
      (o.str ∈ emitted r strategy req (fuel + 2) (.operatorNode .exclusion uid)
        ↔ req.isTypedWildcard = false
          ∧ operandCopies r req subEdges o < operandCopies r req baseEdges o) := by
    intro o ho
    rw [hmem o ho, hcount o ho]
    simp [hcond.not_failsBefore subEdges t o]
  constructor
  · intro h hwild o ho
    -- an object that comes out is in the base relation and not in the subtract relation
    have hsound : operandCopies r req subEdges o < operandCopies r req baseEdges o →
        MemberOf r req baseEdges o ∧ ¬ MemberOf r req subEdges o := by
      intro hlt
      obtain ⟨p, hp, hstr, hres⟩ := h o.str ((hout o ho).mpr ⟨hwild, hlt⟩)
      rw [Object.str_injective (ho.trans hp.symm) hstr]
      exact hres
    constructor
    · rintro ⟨hrep, hin, hnot⟩
      refine (hsound ?_).2 hin
      have h1 := one_lt_operandCopies.mpr hrep
      have h2 := mt one_lt_operandCopies.mp hnot
      omega
    · rintro ⟨htrue, hnot, hnone⟩
      refine hnot (hsound ?_).1
      have h1 := operandCopies_pos.mpr htrue
      have h2 := mt operandCopies_pos.mp hnone
      omega
  · intro h x hx
    obtain ⟨o, ho, rfl⟩ := hobjects x (hsublist.subset hx)
    obtain ⟨hwild, hlt⟩ := (hout o ho).mp hx
    obtain ⟨hrepeated, hhidden⟩ := h hwild o ho
    have htrue : HasTrueTuple r req baseEdges o := operandCopies_pos.mp (by omega)
    have htwo := operandCopies_le_two r req baseEdges o
    refine ⟨o, ho, rfl, ?_, fun hin => ?_⟩
    · by_contra hnot
      -- a base tuple that is not hidden would make the object a member
      have hone := mt (fun h => (one_lt_operandCopies.mp h).memberOf) hnot
      refine hhidden ⟨htrue, hnot, fun hs => ?_⟩
      have := operandCopies_pos.mpr hs
      omega
    · have hpos := operandCopies_pos.mpr hin.hasTrueTuple
      refine hrepeated ⟨one_lt_operandCopies.mp (by omega), hin, fun hs => ?_⟩
      have := one_lt_operandCopies.mpr hs
      omega

/-! ### A repeated base tuple bypasses the exclusion -/

namespace RepeatedBase

variable (relation : String)

/-- The edge of an assignable relation `doc#relation: [user]`. -/
def direct : Edge where
  edgeType := .direct
  fromNode := .specificTypeAndRelation "doc" relation
  toNode := .specificType "user"
  relationDefinition := ("doc", relation)
  weights := [(.type "user", 1)]

/-- An operand of `doc#viewer: base but not sub`. -/
def operand : Edge where
  edgeType := .computed
  fromNode := .operatorNode .exclusion 0
  toNode := .specificTypeAndRelation "doc" relation
  relationDefinition := ("doc", "viewer")
  weights := [(.type "user", 1)]

def model : ModelGraph where
  nodes := [⟨.operatorNode .exclusion 0, [(.type "user", 1)], [], none, false⟩,
    ⟨.specificTypeAndRelation "doc" "base", [(.type "user", 1)], [], none, false⟩,
    ⟨.specificTypeAndRelation "doc" "sub", [(.type "user", 1)], [], none, false⟩]
  edges := [operand "base", operand "sub", direct "base", direct "sub"]

def user : User := .object ⟨"user", "a"⟩

def tuple : TupleKey := { object := ⟨"doc", "1"⟩, relation, user }

/-- The user is stored in both relations of `doc:1`. -/
def resolver : Resolver where
  model := model
  datastore := ⟨[tuple "base", tuple "sub"], by decide⟩
  cel := fun _ _ => .ok true

/-- The request repeats the base tuple. -/
def request : Request where
  object := ⟨"doc", "1"⟩
  relation := "viewer"
  user := user
  contextualTuples := [tuple "base"]

theorem operand_assignable (h : relation = "base" ∨ relation = "sub")
    (req : Request) (hreq : req = request ∨ req = { request with contextualTuples := [] }) :
    Assignable resolver .normal req (operand relation) "doc" relation [direct relation] := by
  rcases h with rfl | rfl <;> rcases hreq with rfl | rfl <;>
    exact ⟨by decide, by decide, by decide, by unfold ContextualAllowed; decide⟩

end RepeatedBase

open RepeatedBase in
/-- **An object of the subtract relation comes out** when a contextual tuple repeats its
base tuple. -/
theorem exclusion_bypassed :
    NoConditionError resolver request
      ∧ Assignable resolver .normal request (operand "base") "doc" "base" [direct "base"]
      ∧ Assignable resolver .normal request (operand "sub") "doc" "sub" [direct "sub"]
      ∧ "doc:1" ∈ emitted resolver .normal request 2 (.operatorNode .exclusion 0)
      ∧ MemberOf resolver request [direct "sub"] ⟨"doc", "1"⟩ :=
  ⟨by decide, operand_assignable "base" (by simp) _ (by simp),
    operand_assignable "sub" (by simp) _ (by simp), by decide, by decide⟩

open RepeatedBase in
/-- Without the contextual tuple the exclusion is sound. -/
theorem exclusion_sound_without_repetition :
    NoConditionError resolver { request with contextualTuples := [] }
      ∧ ∀ x ∈ emitted resolver .normal { request with contextualTuples := [] } 2
          (.operatorNode .exclusion 0),
        ∃ o : Object, o.type = "doc" ∧ x = o.str
          ∧ MemberOf resolver { request with contextualTuples := [] } [direct "base"] o
          ∧ ¬ MemberOf resolver { request with contextualTuples := [] } [direct "sub"] o := by
  refine ⟨by decide, ?_⟩
  refine (exclusion_sound_iff resolver .normal { request with contextualTuples := [] } 0 0
    (operand "base") (operand "sub") "doc" "base" "sub" [direct "base"] [direct "sub"]
    (by decide) (by decide) (operand_assignable "base" (by simp) _ (by simp))
    (operand_assignable "sub" (by simp) _ (by simp)) (by decide)).mpr ?_
  intro _ o _
  have hrep : ¬ Repeated resolver { request with contextualTuples := [] } [direct "base"] o := by
    rintro ⟨l, -, u, -, h, -⟩
    cases h
  refine ⟨fun h => hrep h.1, fun ⟨⟨l, hl, u, hu, h⟩, hnot, _⟩ => hnot ⟨l, hl, u, hu, ?_⟩⟩
  -- nothing is hidden without contextual tuples
  rcases h with h | h
  · cases h
  · exact h

/-! ### Failing conditions -/

/-- A tuple, stored or contextual, assigns the request's user or its wildcard to `o` with a
condition that is true or fails. -/
def Concerned (r : Resolver) (req : Request) (edges : List Edge) (o : Object) : Prop :=
  ∃ l ∈ edges, ∃ u ∈ directUser req l,
    ∃ t ∈ r.datastore.tuples ++ (req.contextualTuple o l.relationDefinition.2 u).toList,
      t.key = (o, l.relationDefinition.2, u) ∧ (conditionTrue r req l t ∨ conditionFails r req l t)

instance (r : Resolver) (req : Request) (edges : List Edge) (o : Object) :
    Decidable (Concerned r req edges o) := by unfold Concerned; infer_instance

/-- **When exactly an exclusion with an assignable subtrahend fails closed.**  No object comes
out that a subtract tuple concerns, exactly if (unless the user is a typed wildcard) each such
object is listed by the base no more often than it has true subtract tuples of one key, or the
subtrahend ends in an error before it reaches past the object.  When the base is assignable
too, it lists an object as often as it has true base tuples of one key. -/
theorem exclusion_fails_closed_iff (r : Resolver) (strategy : StrategyKind) (req : Request)
    (fuel uid : ℕ) (base sub : Edge) (t subRelation : String) (subEdges : List Edge)
    (hedges : r.model.getEdgesFromNode (.operatorNode .exclusion uid) = [base, sub])
    (hweight : (base.weight req.userType).isSome)
    (hsub : Assignable r strategy req sub t subRelation subEdges) :
    ((∀ o : Object, o.type = t →
        o.str ∈ emitted r strategy req (fuel + 2) (.operatorNode .exclusion uid) →
        ¬ Concerned r req subEdges o)
      ↔ (req.isTypedWildcard = false → ∀ o : Object, o.type = t → Concerned r req subEdges o →
          (edgeValues r strategy req (fuel + 1) base).count o.str ≤ operandCopies r req subEdges o
          ∨ FailsBefore r req subEdges t o))
    ∧ ∀ (baseRelation : String) (baseEdges : List Edge),
        Assignable r strategy req base t baseRelation baseEdges → ∀ o : Object, o.type = t →
        (edgeValues r strategy req (fuel + 1) base).count o.str
          = operandCopies r req baseEdges o := by
  obtain ⟨-, hmem⟩ :=
    emitted_exclusion r strategy req fuel uid base sub t subRelation subEdges hedges hweight hsub
  refine ⟨⟨fun h hwild o ho hcon => ?_, fun h o ho hout hcon => ?_⟩,
    fun baseRelation baseEdges hbase => (hbase.edgeValues_spec hweight fuel).1⟩
  · by_contra hnot
    rw [not_or, not_le] at hnot
    exact h o ho ((hmem o ho).mpr ⟨hwild, hnot⟩) hcon
  · obtain ⟨hwild, hlt, hfails⟩ := (hmem o ho).mp hout
    rcases h hwild o ho hcon with hle | hbefore
    · exact absurd hlt (not_lt.mpr hle)
    · exact hfails hbefore

namespace DroppedError

/-- The edge of an assignable relation `doc#relation: [user, user with c]`. -/
def direct (relation : String) : Edge :=
  { RepeatedBase.direct relation with conditions := [noCond, "c"] }

def model : ModelGraph :=
  { RepeatedBase.model with
    edges := [RepeatedBase.operand "base", RepeatedBase.operand "sub", direct "base", direct "sub"] }

/-- The subtract tuple of `doc:1` has the condition `c`. -/
def failing : TupleKey := { RepeatedBase.tuple "sub" with condition := ⟨"c", ""⟩ }

/-- A subtract tuple of `doc:2` without a condition. -/
def passing : TupleKey := { RepeatedBase.tuple "sub" with object := ⟨"doc", "2"⟩ }

/-- Evaluating the condition fails; with `others` there is another subtract tuple. -/
def resolver (others : Bool) : Resolver where
  model := model
  datastore := ⟨[RepeatedBase.tuple "base", failing] ++ if others then [passing] else [],
    by cases others <;> decide⟩
  cel := fun _ _ => .error "missing parameter"

def request : Request := { RepeatedBase.request with contextualTuples := [] }

theorem sub_assignable (others : Bool) :
    Assignable (resolver others) .normal request (RepeatedBase.operand "sub") "doc" "sub"
      [direct "sub"] := by
  cases others <;>
    exact ⟨by decide, by decide, by decide, by unfold ContextualAllowed; decide⟩

end DroppedError

open DroppedError in
/-- **A failing subtract tuple is lost** when the subtrahend has another, true tuple: its
object comes out. -/
theorem exclusion_error_lost :
    Assignable (resolver true) .normal request (RepeatedBase.operand "sub") "doc" "sub"
        [direct "sub"]
      ∧ "doc:1" ∈ emitted (resolver true) .normal request 2 (.operatorNode .exclusion 0)
      ∧ Concerned (resolver true) request [direct "sub"] ⟨"doc", "1"⟩ :=
  ⟨sub_assignable true, by decide, by decide⟩

open DroppedError in
/-- Without the other tuple the error ends the subtrahend, and nothing comes out. -/
theorem exclusion_fails_closed_alone :
    Assignable (resolver false) .normal request (RepeatedBase.operand "sub") "doc" "sub"
        [direct "sub"]
      ∧ ∀ o : Object, o.type = "doc" →
        o.str ∈ emitted (resolver false) .normal request 2 (.operatorNode .exclusion 0) →
        ¬ Concerned (resolver false) request [direct "sub"] o := by
  refine ⟨sub_assignable false, ?_⟩
  refine (exclusion_fails_closed_iff (resolver false) .normal request 0 0
    (RepeatedBase.operand "base") (RepeatedBase.operand "sub") "doc" "sub" [direct "sub"]
    (by decide) (by decide) (sub_assignable false)).1.mpr ?_
  intro _ o _ _
  have hread : directTuples (resolver false) request (direct "sub") RepeatedBase.user
      = [failing] := by
    have hctx : request.byUser RepeatedBase.user (direct "sub").relationDefinition.2
        (direct "sub").relationDefinition.1 = [] := rfl
    rw [directTuples, hctx, List.nil_merge]
    decide
  refine .inr ⟨⟨direct "sub", by decide, RepeatedBase.user, by decide, ?_⟩, ?_⟩
  · rw [hread]
    decide
  intro p _ hpos
  -- the only subtract tuple fails, so nothing is subtracted
  obtain ⟨l, hl, u, hu, h⟩ := lt_operandCopies.mp hpos
  obtain rfl := List.mem_singleton.mp hl
  obtain rfl : RepeatedBase.user = u := Option.some.inj hu
  rw [trueCopies] at h
  have hctx : contextualTrue (resolver false) request (direct "sub") RepeatedBase.user p = false :=
    rfl
  have hstored : storedTrue (resolver false) request (direct "sub") RepeatedBase.user p = false := by
    unfold storedTrue
    split
    · rename_i k hread
      obtain ⟨hk, hkey⟩ := readUserTuple_eq_some.mp hread
      have hcases : k = RepeatedBase.tuple "base" ∨ k = failing := by
        simpa [resolver] using hk
      rcases hcases with rfl | rfl
      · have hrel : "base" = "sub" := congrArg (fun key => key.2.1) hkey
        exact absurd hrel (by decide)
      · decide
    · rfl
  rw [hctx, hstored] at h
  exact absurd h (by decide)

end Kengen
