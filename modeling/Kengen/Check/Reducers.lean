import Kengen.Lib.Gather
import Kengen.Lib.GatherPair
import Kengen.Check.Calls

/-!
# How the resolver gathers the answers of its edges

The task machine takes `ResolveUnionEdges`, `ResolveIntersection` and
`ResolveExclusion` as connectives.  Here are their loops: edges are resolved in
routines of their own, answers travel through channels, a cancelled context may
lose them, and a `select` takes any case that is ready.  What `ResolveEdge`
returns for an edge and what the cache holds for it is given.

A union and an intersection close their channel only after they have returned.
An exclusion has a channel for each side, which the routine of that side closes;
a channel that is found closed is set to `nil`, and a `nil` subtract channel also
says that there is no subtract side.

* **`edgeReducers_evidence`** — what the edges returned if a reducer answers without an error.
* **`dropped_subtract_allows`** — a subtract answer that is dropped after a cancellation leaves a
  closed channel behind, and the base alone decides.
-/

namespace Kengen

open Runs List

/-- What `ResolveEdge` returns. -/
abbrev EdgeAnswer := Except Err Bool

def EdgeAnswer.err : EdgeAnswer → Option Err
  | .error e => some e
  | .ok _ => none

/-! ### Unions -/

/-- The loop of `ResolveUnionEdges` over its edges: the number of expected messages, the cached
answers it sends and the edges to evaluate.  A cached `true` drops the evaluations. -/
def unionSchedule (isCached : Edge → Option Bool) :
    List Edge → ℕ × List Bool × List Edge → ℕ × List Bool × List Edge
  | [], acc => acc
  | e :: edges, (expectedMessages, sent, evaluations) =>
    match isCached e with
    | some true => (expectedMessages + 1 - evaluations.length, sent ++ [true], [])
    | some false => unionSchedule isCached edges (expectedMessages + 1, sent ++ [false], evaluations)
    | none => unionSchedule isCached edges (expectedMessages + 1, sent, evaluations ++ [e])

variable (concurrencyLimit : ℕ)

/-- The loop of `ResolveUnionEdges` over its messages. -/
def unionEdgesReducer (ctxErr : Err) (expectedMessages : ℕ) :
    Gather.Reducer EdgeAnswer EdgeAnswer where
  closes := false
  limit := concurrencyLimit
  expected := expectedMessages
  stop
    | .ok true => some (.ok true)
    | _ => none
  conclude cancelled received :=
    if cancelled then .error ctxErr
    else
      match (received.filterMap EdgeAnswer.err).getLast? with
      | some err => .error err
      | none => .ok false
  aborted := .error ctxErr

/-- `ResolveUnionEdges`, for a schedule. -/
def Resolver.resolveUnionEdges (ctxErr : Err) (isCached : Edge → Option Bool)
    (resolveEdge : Edge → EdgeAnswer) (edges : List Edge) (choices : List Gather.Choice) :
    Option EdgeAnswer :=
  let (expectedMessages, sent, evaluations) := unionSchedule isCached edges (0, [], [])
  let R := unionEdgesReducer concurrencyLimit ctxErr expectedMessages
  (run (Gather.step R) (Gather.enter R false (sent.map .ok) (evaluations.map resolveEdge))
    choices).bind (·.result)

/-! ### Intersections and exclusions -/

/-- The loop of `ResolveIntersection`. -/
def edgesIntersectionReducer (ctxErr : Err) (scheduledHandlers : ℕ) :
    Gather.Reducer EdgeAnswer EdgeAnswer where
  closes := false
  limit := concurrencyLimit
  expected := scheduledHandlers
  stop
    | .ok true => none
    | answer => some answer
  conclude _ _ := .ok true
  aborted := .error ctxErr

variable (r : Resolver)

/-- `ResolveIntersection`, for a schedule. -/
def Resolver.resolveIntersection (concurrencyLimit : ℕ) (ctxErr : Err)
    (resolveEdge : Edge → EdgeAnswer) (req : Request) (n : Node) (choices : List Gather.Choice) :
    Option EdgeAnswer :=
  match r.model.getEdgesFromNode n with
  | [] => some (.error .panicRequest)
  | edges =>
    if req.isTypedWildcard && edges.any (fun e => !e.hasWildcard req.userType) then some (.ok false)
    else if edges.any (fun e => (e.weight req.userType).isNone) then some (.error .panicRequest)
    else
      let R := edgesIntersectionReducer concurrencyLimit ctxErr edges.length
      (run (Gather.step R) (Gather.enter R false [] (edges.map resolveEdge)) choices).bind
        (·.result)

/-- The loop of `ResolveExclusion`.  `subtractNil` is the test `subtract == nil`. -/
def edgesExclusionReducer (ctxErr : Err) (scheduledHandlers : ℕ) :
    GatherPair.Reducer EdgeAnswer EdgeAnswer where
  expected := scheduledHandlers
  onBase subtractNil
    | .error err => some (.error err)
    | .ok false => some (.ok false)
    | .ok true => if subtractNil then some (.ok true) else none
  onSub
    | .error err => some (.error err)
    | .ok true => some (.ok false)
    | .ok false => none
  conclude _ _ := .ok true
  aborted := .error ctxErr

/-- The routines that `ResolveExclusion` starts: the subtract side only if it leads to the user. -/
def exclusionStart (ctxErr : Err) (resolveEdge : Edge → EdgeAnswer) (userType : UserType)
    (sub : Edge) : GatherPair.Reducer EdgeAnswer EdgeAnswer × Option EdgeAnswer :=
  if (sub.weight userType).isSome then
    (edgesExclusionReducer ctxErr 2, some (resolveEdge sub))
  else (edgesExclusionReducer ctxErr 1, none)

/-- `ResolveExclusion`, for a schedule. -/
def Resolver.resolveExclusion (ctxErr : Err) (resolveEdge : Edge → EdgeAnswer)
    (req : Request) (n : Node) (choices : List GatherPair.Choice) : Option EdgeAnswer :=
  match r.model.getEdgesFromNode n with
  | base :: sub :: _ =>
    if (base.weight req.userType).isNone then some (.error .panicRequest)
    else if (sub.weight req.userType).isNone && req.user.isObjectRelation then
      some (.error .usersetInvalidRequest)
    else
      let start := exclusionStart ctxErr resolveEdge req.userType sub
      (run (GatherPair.step start.1)
        (GatherPair.enter start.1 false (some (resolveEdge base)) start.2) choices).bind (·.result)
  | _ => some (.error .panicRequest)

/-- Whenever the loop of an exclusion finds the subtract channel closed, it has received the subtract
answer before. -/
def TakesSubtract (ctxErr : Err) (resolveEdge : Edge → EdgeAnswer) (userType : UserType)
    (base sub : Edge) (choices : List GatherPair.Choice) : Prop :=
  let start := exclusionStart ctxErr resolveEdge userType sub
  Along (GatherPair.step start.1) GatherPair.TakesSub
    (GatherPair.enter start.1 false (some (resolveEdge base)) start.2) choices

instance (ctxErr : Err) (resolveEdge : Edge → EdgeAnswer) (userType : UserType)
    (base sub : Edge) (choices : List GatherPair.Choice) :
    Decidable (TakesSubtract ctxErr resolveEdge userType base sub choices) :=
  decidableAlong _ _ _ _

/-! ### The schedule of a union -/

variable (isCached : Edge → Option Bool)

/-- The answer of an edge is known: from the cache, or else from `ResolveEdge`. -/
def AnsweredBy (resolveEdge : Edge → EdgeAnswer) (e : Edge)
    (allowed : Bool) : Prop :=
  isCached e = some allowed ∨ isCached e = none ∧ resolveEdge e = .ok allowed

/-- **The schedule of a union**: one message for each cached answer that is sent and each edge that
is evaluated.  Unless a cached `true` is sent, all edges are there. -/
theorem unionSchedule_spec (edges : List Edge) (expected : ℕ) (sent : List Bool)
    (evaluations : List Edge) (hexpected : expected = sent.length + evaluations.length) :
    ∃ sent' evaluations', unionSchedule isCached edges (expected, sent, evaluations)
        = (sent'.length + evaluations'.length, sent', evaluations')
      ∧ sent' ⊆ sent ++ edges.filterMap isCached
      ∧ evaluations' ⊆ evaluations ++ edges.filter (fun e => (isCached e).isNone)
      ∧ (true ∉ sent' → sent' = sent ++ edges.filterMap isCached
        ∧ evaluations' = evaluations ++ edges.filter fun e => (isCached e).isNone) := by
  induction edges generalizing expected sent evaluations with
  | nil => exact ⟨sent, evaluations, by rw [unionSchedule, hexpected], by simp⟩
  | cons e edges ih =>
    rcases hcached : isCached e with _ | _ | _
    · simpa [unionSchedule, hcached] using
        ih (expected + 1) sent (evaluations ++ [e]) (by simp; omega)
    · simpa [unionSchedule, hcached] using
        ih (expected + 1) (sent ++ [false]) evaluations (by simp; omega)
    · refine ⟨sent ++ [true], [], ?_, by simp [hcached], nil_subset _, by simp⟩
      simp only [unionSchedule, hcached, hexpected, length_append, length_cons, length_nil]
      congr 1
      omega

/-! ### What ends a reducer -/

variable {limit n : ℕ} {ctxErr : Err} {o : EdgeAnswer}

theorem unionEdgesReducer_conclude {c allowed : Bool} {received : List EdgeAnswer}
    (h : .ok allowed = (unionEdgesReducer limit ctxErr n).conclude c received) :
    allowed = false ∧ ∀ o ∈ received, o.err = none := by
  simp only [unionEdgesReducer] at h
  split_ifs at h
  split at h
  · cases h
  · rename_i hlast
    exact ⟨Except.ok.inj h, filterMap_eq_nil_iff.mp (getLast?_eq_none_iff.mp hlast)⟩

theorem edgesExclusionReducer_onSub_none
    (h : (edgesExclusionReducer ctxErr n).onSub o = none) : o = .ok false := by
  rcases o with e | _ | _ <;> simp [edgesExclusionReducer] at h
  rfl

/-! ### Evidence -/

section Evidence

variable {limit : ℕ} {ctxErr : Err} {resolveEdge : Edge → EdgeAnswer}

/-- **A union** has received an answer that allows, or all answers. -/
theorem resolveUnionEdges_evidence {isCached : Edge → Option Bool} {edges : List Edge}
    {choices : List Gather.Choice} {allowed : Bool}
    (h : Resolver.resolveUnionEdges limit ctxErr isCached resolveEdge edges choices
      = some (.ok allowed)) :
    (allowed = true → ∃ e ∈ edges, AnsweredBy isCached resolveEdge e true)
      ∧ (allowed = false → ∀ e ∈ edges, AnsweredBy isCached resolveEdge e false) := by
  obtain ⟨sent, evaluations, heq, hsent, heval, hall⟩ :=
    unionSchedule_spec isCached edges 0 [] [] rfl
  simp only [Resolver.resolveUnionEdges, heq] at h
  obtain ⟨s, hrun, hs⟩ := Option.bind_eq_some_iff.mp h
  rcases Gather.run_answer hrun (by simp [unionEdgesReducer]) (.inl rfl) hs
    with ⟨-, h⟩ | ⟨o, ho, hstop⟩ | ⟨hperm, hnone, c, hconclude⟩
  · cases h
  · rcases o with e | _ | _ <;> cases hstop
    refine ⟨fun _ => ?_, fun hfalse => (nomatch hfalse)⟩
    rcases mem_append.mp ((Gather.run_inv hrun).mem ho) with ho | ho
    · obtain ⟨b, hb, hok⟩ := mem_map.mp ho
      cases hok
      obtain ⟨e, he, hcached⟩ := mem_filterMap.mp (hsent hb)
      exact ⟨e, he, .inl hcached⟩
    · obtain ⟨e, he, hok⟩ := mem_map.mp ho
      obtain ⟨hmem, hcached⟩ := mem_filter.mp (heval he)
      exact ⟨e, hmem, .inr ⟨Option.isNone_iff_eq_none.mp hcached, hok⟩⟩
  · obtain ⟨rfl, herr⟩ := unionEdgesReducer_conclude hconclude
    have hfalse : ∀ o ∈ sent.map .ok ++ evaluations.map resolveEdge, o = .ok false := by
      intro o ho
      have ho := hperm.mem_iff.mpr ho
      rcases o with e | _ | _
      · cases herr _ ho
      · rfl
      · cases hnone _ ho
    have hsentFalse : true ∉ sent := fun htrue =>
      nomatch hfalse (.ok true) (mem_append_left _ (mem_map_of_mem htrue))
    refine ⟨fun htrue => (nomatch htrue), fun _ e he => ?_⟩
    obtain ⟨rfl, rfl⟩ := hall hsentFalse
    rcases hcached : isCached e with _ | _ | _
    · refine .inr ⟨hcached, hfalse _ (mem_append_right _ (mem_map_of_mem ?_))⟩
      exact mem_filter.mpr ⟨he, by rw [hcached]; rfl⟩
    · exact .inl hcached
    · exact absurd (mem_filterMap.mpr ⟨e, he, hcached⟩) hsentFalse

/-- **An intersection that allows** has received an answer from every edge. -/
theorem resolveIntersection_evidence {r : Resolver} {req : Request} {n : Node}
    {choices : List Gather.Choice}
    (h : r.resolveIntersection limit ctxErr resolveEdge req n choices = some (.ok true)) :
    ∀ e ∈ r.model.getEdgesFromNode n, resolveEdge e = .ok true := by
  unfold Resolver.resolveIntersection at h
  split at h
  · cases h
  dsimp only at h
  split at h
  · cases h
  split at h
  · cases h
  · obtain ⟨s, hrun, hs⟩ := Option.bind_eq_some_iff.mp h
    rcases Gather.run_answer hrun (by simp [edgesIntersectionReducer]) (.inl rfl) hs
      with ⟨-, h⟩ | ⟨o, -, hstop⟩ | ⟨hperm, hnone, -⟩
    · cases h
    · rcases o with err | _ | _ <;> simp [edgesIntersectionReducer] at hstop
    · intro e he
      have hstop := hnone (resolveEdge e) (hperm.mem_iff.mpr (mem_map_of_mem he))
      rcases hanswer : resolveEdge e with err | _ | _ <;>
        simp [edgesIntersectionReducer, hanswer] at hstop
      rfl

/-- What the loop of an exclusion has received when it allows. -/
theorem edgesExclusion_received {base : EdgeAnswer} {sub : Option EdgeAnswer}
    {s : GatherPair.State EdgeAnswer EdgeAnswer} {k : ℕ}
    (hinv : GatherPair.Inv (edgesExclusionReducer ctxErr k) (some base) sub s)
    (hs : s.result = some (.ok true)) (hk : k = 1 + sub.toList.length) :
    base = .ok true ∧ (GatherPair.SubKept sub s → ∀ o, sub = some o → o = .ok false) := by
  rcases hinv.result _ hs with ⟨-, hb⟩ | ⟨o, ho, hstop, hsub⟩ | ⟨o, -, hstop⟩
    | ⟨hcount, hbase, hsub, -⟩
  · cases hb
  · rcases o with e | _ | _ <;> simp [edgesExclusionReducer] at hstop
    refine ⟨Option.some.inj (hinv.base.got ho), fun hkept o ho => ?_⟩
    -- the subtract channel is not selected, and its answer was not lost
    rcases hkept (GatherPair.subOff_iff.mp hstop) with hnone | hsome
    · cases hnone.symm.trans ho
    · obtain ⟨o', ho'⟩ := Option.isSome_iff_exists.mp hsome
      obtain rfl : o' = o := Option.some.inj ((hinv.sub.got ho').symm.trans ho)
      exact edgesExclusionReducer_onSub_none (hsub o' ho')
  · rcases o with e | _ | _ <;> simp [edgesExclusionReducer] at hstop
  · obtain ⟨h₁, h₂⟩ := hinv.all_of_count (Eq.trans hcount hk)
    obtain ⟨off, hoff⟩ := hbase base h₁
    refine ⟨?_, fun _ o ho => edgesExclusionReducer_onSub_none (hsub o (h₂.trans ho))⟩
    rcases base with e | _ | _ <;> simp [edgesExclusionReducer] at hoff
    rfl

/-- **An exclusion that allows** has received that its base allows; and it has received that its
subtract side does not, if it takes no closed channel for a missing side. -/
theorem resolveExclusion_evidence {r : Resolver} {req : Request} {n : Node}
    {choices : List GatherPair.Choice}
    (h : r.resolveExclusion ctxErr resolveEdge req n choices = some (.ok true)) :
    ∃ base sub rest, r.model.getEdgesFromNode n = base :: sub :: rest
      ∧ resolveEdge base = .ok true
      ∧ (TakesSubtract ctxErr resolveEdge req.userType base sub choices →
          (sub.weight req.userType).isSome → resolveEdge sub = .ok false) := by
  unfold Resolver.resolveExclusion at h
  split at h
  · rename_i base sub rest hedges
    split at h
    · cases h
    split at h
    · cases h
    · refine ⟨base, sub, rest, hedges, ?_⟩
      obtain ⟨s, hrun, hs⟩ := Option.bind_eq_some_iff.mp h
      unfold TakesSubtract
      unfold exclusionStart at hrun ⊢
      split at hrun
      · rename_i hweight
        rw [if_pos hweight]
        obtain ⟨hbase, hsub⟩ := edgesExclusion_received (GatherPair.run_inv hrun) hs rfl
        exact ⟨hbase, fun htakes _ => hsub (GatherPair.run_subKept hrun htakes) _ rfl⟩
      · rename_i hweight
        obtain ⟨hbase, -⟩ := edgesExclusion_received (GatherPair.run_inv hrun) hs rfl
        exact ⟨hbase, fun _ hsome => absurd hsome hweight⟩
  · cases h

end Evidence

/-- **No reducer of edges answers without evidence.**  A union allows because some edge does, and
does not allow because no edge does; an intersection allows because all edges do; an exclusion
allows because its base does and its subtract side does not.  The last needs that the loop takes
no closed channel for a missing subtract side. -/
theorem edgeReducers_evidence (limit : ℕ) (ctxErr : Err)
    (resolveEdge : Edge → EdgeAnswer) (req : Request) (n : Node) :
    (∀ isCached edges choices allowed,
      Resolver.resolveUnionEdges limit ctxErr isCached resolveEdge edges choices
        = some (.ok allowed) →
      (allowed = true → ∃ e ∈ edges, AnsweredBy isCached resolveEdge e true)
      ∧ (allowed = false → ∀ e ∈ edges, AnsweredBy isCached resolveEdge e false))
    ∧ (∀ choices, r.resolveIntersection limit ctxErr resolveEdge req n choices = some (.ok true) →
        ∀ e ∈ r.model.getEdgesFromNode n, resolveEdge e = .ok true)
    ∧ ∀ choices, r.resolveExclusion ctxErr resolveEdge req n choices = some (.ok true) →
        ∃ base sub rest, r.model.getEdgesFromNode n = base :: sub :: rest
          ∧ resolveEdge base = .ok true
          ∧ (TakesSubtract ctxErr resolveEdge req.userType base sub choices →
              (sub.weight req.userType).isSome → resolveEdge sub = .ok false) :=
  ⟨fun _ _ _ _ h => resolveUnionEdges_evidence h, fun _ h => resolveIntersection_evidence h,
    fun _ h => resolveExclusion_evidence h⟩

namespace DroppedSubtract

/-- An operand of the exclusion `doc#viewer: base but not sub`. -/
def operand (relation : String) : Edge where
  edgeType := .rewrite
  fromNode := .operatorNode .exclusion 0
  toNode := .specificTypeAndRelation "doc" relation
  relationDefinition := ("doc", "viewer")
  weights := [(.type "user", 1)]

def resolver : Resolver where
  model := { nodes := [], edges := [operand "base", operand "sub"] }
  datastore := ⟨[], by decide⟩
  cel := fun _ _ => .ok true

def request : Request where
  object := ⟨"doc", "1"⟩
  relation := "viewer"
  user := .object ⟨"user", "anne"⟩

/-- Both operands, with the answer of the subtract side. -/
def answer (sub : Bool) (e : Edge) : EdgeAnswer :=
  .ok (e.toNode = .specificTypeAndRelation "doc" "base" || sub)

/-- The context is cancelled, the subtract answer is dropped and its channel closed.  The loop takes
the closed channel, and then the answer of the base. -/
def dropSubtract : List GatherPair.Choice :=
  [.cancel, .send .sub false, .close .sub, .send .base true, .receive .sub, .receive .base]

/-- Nothing is dropped. -/
def takeBoth : List GatherPair.Choice :=
  [.send .sub true, .close .sub, .receive .sub, .receive .sub, .send .base true, .receive .base]

end DroppedSubtract

open DroppedSubtract in
theorem edgeReducers_evidence_both :
    (resolver.resolveExclusion .canceled (answer false) request (.operatorNode .exclusion 0) takeBoth
        = some (.ok true)
      ∧ TakesSubtract .canceled (answer false) request.userType (operand "base") (operand "sub")
          takeBoth)
    ∧ ∃ base sub rest, resolver.model.getEdgesFromNode (.operatorNode .exclusion 0)
        = base :: sub :: rest
      ∧ answer false base = .ok true
      ∧ (TakesSubtract .canceled (answer false) request.userType base sub takeBoth →
          (sub.weight request.userType).isSome → answer false sub = .ok false) :=
  ⟨⟨by decide, by decide⟩,
    (edgeReducers_evidence resolver 1 .canceled (answer false) request
      (.operatorNode .exclusion 0)).2.2 takeBoth (by decide)⟩

open DroppedSubtract in
/-- **A dropped subtract answer allows**: both operands allow, and so does the exclusion. -/
theorem dropped_subtract_allows :
    resolver.resolveExclusion .canceled (answer true) request (.operatorNode .exclusion 0)
        dropSubtract = some (.ok true)
      ∧ resolver.model.getEdgesFromNode (.operatorNode .exclusion 0)
        = [operand "base", operand "sub"]
      ∧ ((operand "sub").weight request.userType).isSome
      ∧ answer true (operand "sub") = .ok true := by
  decide

end Kengen
