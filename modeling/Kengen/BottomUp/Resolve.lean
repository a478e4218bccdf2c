import Kengen.BottomUp.Union
import Kengen.BottomUp.Intersection
import Kengen.Model.Request

/-!
# The bottom-up evaluation

`bottomUp` of `bottom_up.go`: from a node of the graph it produces the sorted
stream of all objects that the request's user is related to through the node.
Direct edges are reverse reads merged with the contextual tuples, everything
else is a set operation over the streams of the operands.

* **`resolveRewrite_stream`** — every evaluation that starts produces a sorted
  stream: sorted values, then at most one error.
* **`count_directStream`** — the stream of a direct edge repeats an object once for
  the stored tuple and once for the contextual tuple that assign it, each
  counted if its condition is true.  Nothing hides a stored tuple here.
-/

namespace Kengen

open List

/-- What the resolvers of the `check` package share. -/
structure Resolver where
  model : ModelGraph
  datastore : Store
  cel : Cel

/-- `strategyKind`. -/
inductive StrategyKind where
  | normal
  | recursive
deriving DecidableEq, Repr

/-! ### Direct edges -/

/-- The comparison function of `buildIterator`; it never answers "equal". -/
def compareObjects (a b : TupleKey) : Ordering :=
  if a.object.str < b.object.str then .lt else .gt

/-- The condition filter is needed unless the edge allows only unconditioned tuples. -/
def needsConditionFilter (conditions : List String) : Bool :=
  decide (conditions.length > 1 ∨ conditions.head? ≠ some noCond)

variable (r : Resolver) (req : Request) (e : Edge) (user : User)

/-- `bottomUp.buildIterator`, with the tuples the datastore returned. -/
def buildObjectIterator (tuples : List TupleKey)
    (user : User) : Trace String :=
  let ctxTuples := req.byUser user e.relationDefinition.2 e.relationDefinition.1
  let iter := if ctxTuples = [] then okTrace tuples
    else mergeTrace compareObjects (okTrace tuples) (okTrace ctxTuples)
  let filtered := if needsConditionFilter e.conditions
    then filterTrace (fun t => evaluateCondition r.cel e.conditions t req.context) none false iter
    else iter
  filtered.map (Except.map fun t => t.object.str)

/-- The objects of the edge's relation that a given user is directly assigned to. -/
def directStream : Trace String :=
  buildObjectIterator r req e
    (r.datastore.readStartingWithUser e.relationDefinition.1 e.relationDefinition.2 [user]
      e.conditions) user

/-- `TypedPublicWildcard` of the request's user type. -/
def Request.wildcardUser (req : Request) : User :=
  match req.userType with
  | .type t => .wildcard t
  | .userset t relation => .wildcard (t ++ ("#" ++ relation))

/-- The user that a direct edge reads: the request's, or the wildcard of its type. -/
def directUser : Option User :=
  match e.toNode with
  | .specificType _ => some req.user
  | .specificTypeWildcard _ => some req.wildcardUser
  | _ => none

/-! ### The recursion over the graph -/

/-- `resolveEdge`: `specificType` and `specificTypeWildcard` send one iterator. -/
def resolveEdgeWith
    (resolveRewrite : Node → Except Err (List (Msg String))) (e : Edge) :
    Except Err (List (Msg String)) :=
  match e.edgeType with
  | .direct =>
    match directUser req e with
    | some user => .ok [.iter (directStream r req e user)]
    | none => .error .panicRequest
  | .rewrite => resolveRewrite e.toNode
  | .computed => resolveRewrite e.toNode
  | .ttuLogical => resolveRewrite e.toNode
  | .directLogical => resolveRewrite e.toNode
  | .ttu => .error .panicRequest

/-- The iterator of one operand, if it has a path to the user type. -/
def operandIter (userType : UserType) (resolveEdge : Edge → Except Err (List (Msg String)))
    (e : Edge) : Except Err (List (Trace String)) :=
  if (e.weight userType).isNone then .ok []
  else match resolveEdge e with
    | .error err => .error err
    | .ok msgs => .ok [fromChannel msgs]

/-- `setOperationSetup`: the operands that can lead to the user, then the operation. -/
def setOperationSetup (userType : UserType)
    (resolveEdge : Edge → Except Err (List (Msg String)))
    (resolver : List (Trace String) → List (Msg String)) (edges : List Edge) :
    Except Err (List (Msg String)) :=
  match collect (operandIter userType resolveEdge) edges with
  | .error err => .error err
  | .ok iters => .ok (resolver iters)

/-- The relation that `setFlattenOperation` leaves out. -/
def skippedRelation (r : Resolver) (strategy : StrategyKind) (node : Node) : Option Node :=
  match strategy with
  | .normal => none
  | .recursive => (r.model.getNodeByID node).bind NodeInfo.recursiveRelation

/-- `resolveRewrite`, with a bound on the depth of the recursion. -/
def resolveRewrite (r : Resolver) (strategy : StrategyKind) (req : Request) :
    ℕ → Node → Except Err (List (Msg String))
  | 0, _ => .error .panicRequest
  | fuel + 1, node =>
    let resolveEdge := resolveEdgeWith r req (resolveRewrite r strategy req fuel)
    let setFlattenOperation : Except Err (List (Msg String)) :=
      match flattenNode r.model req.userType req.isTypedWildcard
          (skippedRelation r strategy node) node with
      | .error err => .error err
      | .ok edges => setOperationSetup req.userType resolveEdge resolveUnion edges
    match node with
    | .specificTypeAndRelation _ _ => setFlattenOperation
    | .logicalDirectGrouping _ => setFlattenOperation
    | .logicalTTUGrouping _ => setFlattenOperation
    | .operatorNode .union _ => setFlattenOperation
    | .operatorNode .intersection _ =>
      match r.model.getEdgesFromNode node with
      | [] => .error .panicRequest
      | edges =>
        -- `setWildcardIntersectionSetup`: an operand without the wildcard ends it
        if req.isTypedWildcard && edges.any (fun e => !e.hasWildcard req.userType) then .ok []
        else setOperationSetup req.userType resolveEdge resolveIntersection edges
    | .operatorNode .exclusion _ =>
      match r.model.getEdgesFromNode node with
      | [] => .error .panicRequest
      | edges =>
        if req.isTypedWildcard then .error .wildcardInvalidRequest
        else setOperationSetup req.userType resolveEdge resolveDifference edges
    | .specificType _ => .error .panicRequest
    | .specificTypeWildcard _ => .error .panicRequest

/-- `bottomUp.resolveEdge`. -/
def resolveEdge (r : Resolver) (strategy : StrategyKind) (req : Request) (fuel : ℕ) (e : Edge) :
    Except Err (List (Msg String)) :=
  resolveEdgeWith r req (resolveRewrite r strategy req fuel) e

/-! ### The stream of a direct edge -/

/-- The tuples a direct edge goes through: contextual and stored ones, merged. -/
def directTuples : List TupleKey :=
  (req.byUser user e.relationDefinition.2 e.relationDefinition.1).merge
    (r.datastore.readStartingWithUser e.relationDefinition.1 e.relationDefinition.2 [user]
      e.conditions) fun a b => decide (a.object.str ≤ b.object.str)

/-- The tuple passes the edge's condition filter. -/
def conditionTrue (t : TupleKey) : Bool :=
  isPass (fun t => evaluateCondition r.cel e.conditions t req.context) t

/-- The condition of the tuple fails to evaluate. -/
def conditionFails (t : TupleKey) : Bool :=
  isFailure (fun t => evaluateCondition r.cel e.conditions t req.context) t

variable {r req e user} {t : TupleKey}

theorem mem_readStartingWithUser {s : Store} {objectType relation : String}
    {conditions : List String} :
    t ∈ s.readStartingWithUser objectType relation [user] conditions
      ↔ t ∈ s.tuples ∧ t.object.type = objectType ∧ t.relation = relation ∧ t.user = user
        ∧ t.condition.name ∈ conditions := by
  simp [Store.readStartingWithUser]

/-- **A reverse read for one user is strictly sorted by object.** -/
theorem readStartingWithUser_sorted (s : Store) (objectType relation : String) (user : User)
    (conditions : List String) :
    (s.readStartingWithUser objectType relation [user] conditions).Pairwise
      fun a b => a.object.str < b.object.str := by
  have hle : (s.readStartingWithUser objectType relation [user] conditions).Pairwise
      fun a b => a.object.id ≤ b.object.id := pairwise_insertionSort _ _
  have hnodup : (s.readStartingWithUser objectType relation [user] conditions).Nodup :=
    (perm_insertionSort _ _).nodup_iff.mpr ((List.Nodup.of_map _ s.nodup).filter _)
  refine (hle.and hnodup).imp_of_mem fun {a b} ha hb hab => ?_
  obtain ⟨has, hat, har, hau, -⟩ := mem_readStartingWithUser.mp ha
  obtain ⟨hbs, hbt, hbr, hbu, -⟩ := mem_readStartingWithUser.mp hb
  have htype : a.object.type = b.object.type := hat.trans hbt.symm
  refine lt_of_le_of_ne ((Object.str_le_iff htype).mpr hab.1) fun hstr => hab.2 ?_
  have hobj : a.object = b.object := Object.str_injective htype hstr
  exact s.find_unique has hbs (by simp [TupleKey.key, hobj, har, hbr, hau, hbu])

theorem mem_directTuples :
    t ∈ directTuples r req e user
      ↔ t ∈ req.byUser user e.relationDefinition.2 e.relationDefinition.1
        ∨ t ∈ r.datastore.readStartingWithUser e.relationDefinition.1 e.relationDefinition.2 [user]
          e.conditions :=
  mem_merge

variable (r req e user)

theorem directTuples_sorted :
    (directTuples r req e user).Pairwise fun a b => a.object.str ≤ b.object.str := by
  have hctx := req.byUser_sorted user e.relationDefinition.2 e.relationDefinition.1
  have hstored := readStartingWithUser_sorted r.datastore e.relationDefinition.1
    e.relationDefinition.2 user e.conditions
  have hmerge := @List.pairwise_merge _ (fun a b : TupleKey => decide (a.object.str ≤ b.object.str))
    (fun a b c hab hbc => decide_eq_true
      ((of_decide_eq_true hab).trans (of_decide_eq_true hbc)))
    (fun a b => by
      rcases le_total a.object.str b.object.str with h | h
      · rw [decide_eq_true h, Bool.true_or]
      · rw [decide_eq_true h, Bool.or_true])
    _ _ (hctx.imp fun h => decide_eq_true h.le) (hstored.imp fun h => decide_eq_true h.le)
  exact hmerge.imp fun h => of_decide_eq_true h

/-- What a direct edge yields: the objects of the tuples that pass. -/
def directValues : List String :=
  ((directTuples r req e user).filter fun t =>
    !needsConditionFilter e.conditions || conditionTrue r req e t).map fun t => t.object.str

/-- The error a direct edge ends with. -/
def directError : Option Err :=
  if needsConditionFilter e.conditions then
    pendingErr (fun t => evaluateCondition r.cel e.conditions t req.context) none
      (directTuples r req e user)
  else none

theorem compareObjects_eq :
    compareObjects = fun a b => if decide (b.object.str ≤ a.object.str) then .gt else .lt := by
  funext a b
  by_cases h : b.object.str ≤ a.object.str
  · rw [compareObjects, if_neg (not_lt.mpr h), if_pos (decide_eq_true h)]
  · rw [compareObjects, if_pos (not_le.mp h), if_neg (by rw [decide_eq_true_eq]; exact h)]

/-- The merged iterator goes through `directTuples`. -/
theorem merged_eq :
    (if req.byUser user e.relationDefinition.2 e.relationDefinition.1 = [] then
        okTrace (r.datastore.readStartingWithUser e.relationDefinition.1 e.relationDefinition.2
          [user] e.conditions)
      else mergeTrace compareObjects
        (okTrace (r.datastore.readStartingWithUser e.relationDefinition.1 e.relationDefinition.2
          [user] e.conditions))
        (okTrace (req.byUser user e.relationDefinition.2 e.relationDefinition.1)))
      = okTrace (directTuples r req e user) := by
  rw [compareObjects_eq, mergeTrace_okTrace fun b a : TupleKey => decide (b.object.str ≤ a.object.str)]
  split
  · rename_i hnil
    rw [directTuples, hnil, nil_merge]
  · rfl

/-- **The stream of a direct edge.** -/
theorem directStream_eq :
    directStream r req e user = streamTrace (directValues r req e user) (directError r req e user) := by
  unfold directStream buildObjectIterator
  simp only [merged_eq]
  unfold directValues directError
  by_cases hf : needsConditionFilter e.conditions
  · simp only [hf, if_true, Bool.not_true, Bool.false_or]
    rw [filterTrace_okTrace, streamTrace_map]
    rfl
  · simp only [hf, if_false, Bool.not_false, Bool.true_or, filter_true, Bool.false_eq_true]
    rw [← streamTrace_none, streamTrace_map]

theorem evaluateCondition_error {cel : Cel} {conditions : List String}
    {context : String} {err : Err} (h : evaluateCondition cel conditions t context = .error err) :
    err.isCancelled = false := by
  unfold evaluateCondition evaluateTupleCondition at h
  split at h
  · split_ifs at h
    split at h
    · cases h
    · cases h
      rfl
  · cases h

/-- **A direct edge is a sorted stream.** -/
theorem directStream_sorted :
    SortedStream (directValues r req e user) (directError r req e user) := by
  refine ⟨?_, ?_, ?_⟩
  · refine List.Pairwise.map _ (fun a b h => h) ?_
    exact (directTuples_sorted r req e user).filter _
  · intro x hx
    obtain ⟨t, -, rfl⟩ := mem_map.mp hx
    exact t.object.str_ne_empty
  · intro err herr
    unfold directError at herr
    split at herr
    · rcases pendingErr_mem _ _ _ _ herr with h | ⟨t, -, ht⟩
      · cases h
      · exact evaluateCondition_error ht
    · cases herr

/-! ### How often a direct edge lists an object -/

/-- In a list without two tuples of one object string, an object string is listed
once or not at all. -/
theorem count_map_str {l : List TupleKey} (hl : l.Pairwise fun a b => a.object.str < b.object.str)
    (p : TupleKey → Bool) (x : String) (b : Bool) (hb : b ↔ ∃ t ∈ l, t.object.str = x ∧ p t) :
    ((l.filter p).map fun t => t.object.str).count x = b.toNat := by
  have hnodup : ((l.filter p).map fun t => t.object.str).Nodup :=
    List.Pairwise.map _ (fun a b h => h.ne) (hl.filter p)
  have hmem : x ∈ (l.filter p).map (fun t => t.object.str) ↔ b := by
    rw [hb]
    simp only [mem_map, mem_filter]
    exact ⟨fun ⟨t, ⟨ht, hp⟩, hx⟩ => ⟨t, ht, hx, hp⟩, fun ⟨t, ht, hx, hp⟩ => ⟨t, ⟨ht, hp⟩, hx⟩⟩
  cases b with
  | false => exact count_eq_zero.mpr fun h => by simpa using hmem.mp h
  | true => exact count_eq_one_of_mem hnodup (hmem.mpr rfl)

variable (o : Object)

/-- The stored tuple of a key passes the edge's conditions. -/
def storedTrue : Bool :=
  match r.datastore.readUserTuple o e.relationDefinition.2 user with
  | some t => conditionTrue r req e t
  | none => false

/-- The contextual tuple of a key passes the edge's conditions. -/
def contextualTrue : Bool :=
  match req.contextualTuple o e.relationDefinition.2 user with
  | some t => conditionTrue r req e t
  | none => false

/-- How many true tuples of a key there are, stored and contextual. -/
def trueCopies : ℕ :=
  (contextualTrue r req e user o).toNat + (storedTrue r req e user o).toNat

/-- The request's contextual tuples carry conditions that the edge lists; `NewRequest`
rejects other ones. -/
def ContextualAllowed : Prop :=
  ∀ t ∈ req.byUser user e.relationDefinition.2 e.relationDefinition.1,
    t.condition.name ∈ e.conditions

variable {r req e user}

theorem readUserTuple_eq_some {s : Store} {o : Object} {relation : String} :
    s.readUserTuple o relation user = some t ↔ t ∈ s.tuples ∧ t.key = (o, relation, user) := by
  constructor
  · intro h
    exact ⟨mem_of_find?_eq_some h, by simpa using find?_some h⟩
  · rintro ⟨ht, hk⟩
    rcases hfind : s.readUserTuple o relation user with _ | t'
    · have := find?_eq_none.mp hfind t ht
      simp [hk] at this
    · have hmem := mem_of_find?_eq_some hfind
      have hkey : t'.key = (o, relation, user) := by simpa using find?_some hfind
      rw [s.find_unique hmem ht (hkey.trans hk.symm)]

variable (r req e user) in
theorem storedTrue_iff (ho : o.type = e.relationDefinition.1) :
    storedTrue r req e user o
      ↔ ∃ t ∈ r.datastore.readStartingWithUser e.relationDefinition.1 e.relationDefinition.2 [user]
        e.conditions, t.object.str = o.str ∧ conditionTrue r req e t := by
  constructor
  · intro h
    unfold storedTrue at h
    split at h
    · rename_i t hread
      obtain ⟨ht, hkey⟩ := readUserTuple_eq_some.mp hread
      simp only [TupleKey.key, Prod.mk.injEq] at hkey
      refine ⟨t, mem_readStartingWithUser.mpr ⟨ht, ?_, hkey.2.1, hkey.2.2, ?_⟩, by rw [hkey.1], h⟩
      · rw [hkey.1, ho]
      · by_contra hname
        simp [conditionTrue, isPass, evaluateCondition, hname] at h
    · cases h
  · rintro ⟨t, ht, hstr, htrue⟩
    obtain ⟨hts, htype, hrel, huser, -⟩ := mem_readStartingWithUser.mp ht
    have hobj : t.object = o := Object.str_injective (htype.trans ho.symm) hstr
    have hread : r.datastore.readUserTuple o e.relationDefinition.2 user = some t :=
      readUserTuple_eq_some.mpr ⟨hts, by simp [TupleKey.key, hobj, hrel, huser]⟩
    simp [storedTrue, hread, htrue]

variable (r req e user) in
theorem contextualTrue_iff (ho : o.type = e.relationDefinition.1) :
    contextualTrue r req e user o
      ↔ ∃ t ∈ req.byUser user e.relationDefinition.2 e.relationDefinition.1,
        t.object.str = o.str ∧ conditionTrue r req e t := by
  constructor
  · intro h
    unfold contextualTrue at h
    split at h
    · rename_i t hread
      have hkey := (Request.contextualTuple_key hread).1
      simp only [TupleKey.key, Prod.mk.injEq] at hkey
      refine ⟨t, (req.mem_byUser _ _ _ t).mpr ⟨hkey.2.2, hkey.2.1, by rw [hkey.1, ho], ?_⟩,
        by rw [hkey.1], h⟩
      rw [hkey.1, hread]
    · cases h
  · rintro ⟨t, ht, hstr, htrue⟩
    obtain ⟨-, -, htype, hctx⟩ := (req.mem_byUser _ _ _ t).mp ht
    have hobj : t.object = o := Object.str_injective (htype.trans ho.symm) hstr
    rw [hobj] at hctx
    simp [contextualTrue, hctx, htrue]

/-- When the filter is left out, every tuple that is read passes. -/
theorem conditionTrue_of_unfiltered (hallowed : ContextualAllowed req e user)
    (hf : needsConditionFilter e.conditions = false) (ht : t ∈ directTuples r req e user) :
    conditionTrue r req e t := by
  have hname : t.condition.name ∈ e.conditions := by
    rcases mem_directTuples.mp ht with h | h
    · exact hallowed t h
    · exact (mem_readStartingWithUser.mp h).2.2.2.2
  have hcond : e.conditions = [noCond] := by
    unfold needsConditionFilter at hf
    rw [decide_eq_false_iff_not, not_or, not_not, not_lt] at hf
    obtain ⟨hlen, hhead⟩ := hf
    match hc : e.conditions, hlen, hhead with
    | [c], _, hhead => simpa using hhead
  have hnone : t.condition.name = "" := by simpa [hcond, noCond] using hname
  have heval : evaluateCondition r.cel e.conditions t req.context = .ok true := by
    rw [evaluateCondition, if_pos hname, evaluateTupleCondition, if_pos hnone]
  simp [conditionTrue, isPass, heval]

/-- The values of a direct edge are the objects of its true tuples. -/
theorem directValues_eq (hallowed : ContextualAllowed req e user) :
    directValues r req e user
      = ((directTuples r req e user).filter (conditionTrue r req e)).map fun t => t.object.str := by
  unfold directValues
  congr 1
  refine filter_congr fun t ht => ?_
  by_cases hf : needsConditionFilter e.conditions
  · simp [hf]
  · have hf' : needsConditionFilter e.conditions = false := by simpa using hf
    simp [hf', conditionTrue_of_unfiltered hallowed hf' ht]

variable (r req e user) in
/-- **A direct edge lists an object once for each true tuple of its key**, stored or
contextual: the merge hides nothing. -/
theorem count_directValues
    (hallowed : ContextualAllowed req e user) (ho : o.type = e.relationDefinition.1) :
    (directValues r req e user).count o.str = trueCopies r req e user o := by
  have hperm : (directTuples r req e user).Perm
      (req.byUser user e.relationDefinition.2 e.relationDefinition.1
        ++ r.datastore.readStartingWithUser e.relationDefinition.1 e.relationDefinition.2 [user]
          e.conditions) := merge_perm_append _
  have hcount := ((hperm.filter (conditionTrue r req e)).map fun t => t.object.str).count_eq o.str
  rw [directValues_eq hallowed]
  refine hcount.trans ?_
  rw [filter_append, map_append, count_append,
    count_map_str (req.byUser_sorted _ _ _) _ _ _ (contextualTrue_iff r req e user o ho),
    count_map_str (readStartingWithUser_sorted _ _ _ _ _) _ _ _ (storedTrue_iff r req e user o ho)]
  rfl

/-! ### Every evaluation is a sorted stream -/

/-- The channel carries a sorted stream. -/
def IsStream {α : Type} [LinearOrder α] [Inhabited α] (msgs : List (Msg α)) : Prop :=
  ∃ xs e, fromChannel msgs = streamTrace xs e ∧ SortedStream xs e

theorem isStream_nil : IsStream ([] : List (Msg String)) := ⟨[], none, rfl, by simp, by simp, by simp⟩

variable (r req e user) in
theorem directStream_isStream :
    IsStream [.iter (directStream r req e user)] := by
  have hs := directStream_sorted r req e user
  refine ⟨_, _, ?_, hs⟩
  simp only [fromChannel, directStream_eq, append_nil]
  exact untilCancelled_streamTrace _ _ hs.proper

/-- An operand edge and the values and error its evaluation yields. -/
def EdgeStream (resolveEdge : Edge → Except Err (List (Msg String))) (e : Edge)
    (p : List String × Option Err) : Prop :=
  ∃ m, resolveEdge e = .ok m ∧ fromChannel m = streamTrace p.1 p.2 ∧ SortedStream p.1 p.2

theorem collect_operandIter {userType : UserType}
    {resolveEdge : Edge → Except Err (List (Msg String))} {edges : List Edge}
    {iters : List (Trace String)} (h : collect (operandIter userType resolveEdge) edges = .ok iters)
    (hstream : ∀ e ∈ edges, ∀ m, resolveEdge e = .ok m → IsStream m) :
    ∃ ops : List (List String × Option Err), iters = ops.map (fun p => streamTrace p.1 p.2)
      ∧ List.Forall₂ (EdgeStream resolveEdge)
        (edges.filter fun e => (e.weight userType).isSome) ops := by
  induction edges generalizing iters with
  | nil =>
    obtain rfl : iters = [] := by simpa [collect] using h.symm
    exact ⟨[], rfl, List.Forall₂.nil⟩
  | cons e edges ih =>
    have hrest : ∀ e ∈ edges, ∀ m, resolveEdge e = .ok m → IsStream m :=
      fun e he => hstream e (mem_cons_of_mem _ he)
    rcases he : operandIter userType resolveEdge e with err | r
    · simp [collect, he] at h
    rcases hes : collect (operandIter userType resolveEdge) edges with err | rs
    · simp [collect, he, hes] at h
    · obtain rfl : r ++ rs = iters := by simpa [collect, he, hes] using h
      obtain ⟨ops, rfl, hrel⟩ := ih hes hrest
      by_cases hw : (e.weight userType).isNone
      · have hsome : (e.weight userType).isSome = false := by
          simpa [Option.isSome_eq_false_iff] using hw
        obtain rfl : r = [] := by simpa [operandIter, hw] using he.symm
        exact ⟨ops, rfl, by simpa [hsome] using hrel⟩
      · have hsome : (e.weight userType).isSome = true := by
          simpa [Option.isSome_iff_ne_none] using hw
        rcases hr : resolveEdge e with err | m
        · simp [operandIter, hw, hr] at he
        obtain rfl : [fromChannel m] = r := by simpa [operandIter, hw, hr] using he
        obtain ⟨xs, err, hxs, hsorted⟩ := hstream e (by simp) m hr
        refine ⟨(xs, err) :: ops, by simp [hxs], ?_⟩
        rw [filter_cons, if_pos hsome]
        exact List.Forall₂.cons ⟨m, hr, hxs, hsorted⟩ hrel

/-- **The operands of a set operation**, as the operation sees them. -/
theorem setOperationSetup_ok {userType : UserType}
    {resolveEdge : Edge → Except Err (List (Msg String))}
    {resolver : List (Trace String) → List (Msg String)} {edges : List Edge}
    {msgs : List (Msg String)}
    (h : setOperationSetup userType resolveEdge resolver edges = .ok msgs)
    (hstream : ∀ e ∈ edges, ∀ m, resolveEdge e = .ok m → IsStream m) :
    ∃ ops : List (List String × Option Err),
      msgs = resolver (ops.map fun p => streamTrace p.1 p.2)
      ∧ (∀ p ∈ ops, SortedStream p.1 p.2)
      ∧ List.Forall₂ (EdgeStream resolveEdge)
        (edges.filter fun e => (e.weight userType).isSome) ops := by
  unfold setOperationSetup at h
  split at h
  · cases h
  rename_i iters hiters
  obtain ⟨ops, rfl, hrel⟩ := collect_operandIter hiters hstream
  refine ⟨ops, (Except.ok.inj h).symm, fun p hp => ?_, hrel⟩
  obtain ⟨e, -, m, -, -, hs⟩ := forall₂_mem_right hrel hp
  exact hs

section

variable {α : Type} [LinearOrder α] [Inhabited α] (ops : List (List α × Option Err))
  (hops : ∀ p ∈ ops, SortedStream p.1 p.2)
include ops hops

theorem resolveUnion_isStream :
    IsStream (resolveUnion (ops.map fun p => streamTrace p.1 p.2)) := by
  obtain ⟨zs, err, heq, hs, -⟩ := resolveUnion_spec ops hops
  exact ⟨zs, err, heq, hs⟩

theorem resolveIntersection_isStream :
    IsStream (resolveIntersection (ops.map fun p => streamTrace p.1 p.2)) := by
  cases ops with
  | nil => exact ⟨[], none, rfl, by simp, by simp, by simp⟩
  | cons p ops =>
    obtain ⟨zs, err, hout⟩ := resolveIntersection_spec (p :: ops) (by simp) hops
    have hp := hops p (by simp)
    have hsub := hout.sublist p (by simp)
    exact ⟨zs, err, by simpa using hout.eq, hp.sorted.sublist hsub,
      fun x hx => hp.nonzero x (hsub.mem hx), hout.proper⟩

theorem resolveDifference_isStream :
    IsStream (resolveDifference (ops.map fun p => streamTrace p.1 p.2)) := by
  match ops, hops with
  | [], _ => exact ⟨[], some .panicRequest, rfl, by simp, by simp, by simp [Err.isCancelled]⟩
  | [p], hops =>
    have hp := hops p (by simp)
    exact ⟨p.1, p.2, resolveDifference_base p.1 p.2 hp, hp⟩
  | p :: q :: rest, hops =>
    have hp := hops p (by simp)
    have hq := hops q (by simp)
    have htwo : resolveDifference ((p :: q :: rest).map fun p => streamTrace p.1 p.2)
        = resolveDifference [streamTrace p.1 p.2, streamTrace q.1 q.2] := by
      simp only [map_cons]
      rcases hp1 : streamTrace p.1 p.2 with _ | ⟨x | x, t⟩ <;> rfl
    obtain ⟨zs, err, heq, hsub, -, herr⟩ := resolveDifference_spec p.1 q.1 p.2 q.2 hp hq
    refine ⟨zs, err, by rw [htwo, heq, nil_append], hp.sorted.sublist hsub,
      fun x hx => hp.nonzero x (hsub.mem hx), ?_⟩
    rcases herr with ⟨rfl, -⟩ | ⟨rfl, -⟩
    · exact hp.proper
    · exact hq.proper

end

variable {strategy : StrategyKind} {fuel : ℕ}

theorem resolveRewrite_unionLike {node : Node} (h : node.isUnionLike) :
    resolveRewrite r strategy req (fuel + 1) node
      = match flattenNode r.model req.userType req.isTypedWildcard
          (skippedRelation r strategy node) node with
        | .error err => .error err
        | .ok edges =>
          setOperationSetup req.userType (resolveEdge r strategy req fuel) resolveUnion edges := by
  cases node with
  | specificType | specificTypeWildcard => cases h
  | operatorNode op =>
    cases op with
    | union => rfl
    | intersection | exclusion => cases h
  | _ => rfl

theorem resolveEdge_rewrite (hdirect : e.edgeType ≠ .direct) (httu : e.edgeType ≠ .ttu) :
    resolveEdge r strategy req fuel e = resolveRewrite r strategy req fuel e.toNode := by
  unfold resolveEdge resolveEdgeWith
  cases h : e.edgeType <;> simp_all

/-- **What a successful evaluation did.** -/
theorem resolveRewrite_cases {node : Node} {msgs : List (Msg String)}
    (h : resolveRewrite r strategy req (fuel + 1) node = .ok msgs) :
    (node.isUnionLike ∧ ∃ edges,
      flattenNode r.model req.userType req.isTypedWildcard (skippedRelation r strategy node) node
        = .ok edges
      ∧ setOperationSetup req.userType (resolveEdge r strategy req fuel) resolveUnion edges
        = .ok msgs)
    ∨ (∃ uid, node = .operatorNode .intersection uid
      ∧ (msgs = [] ∧ req.isTypedWildcard
          ∧ (∃ e ∈ r.model.getEdgesFromNode node, e.hasWildcard req.userType = false)
        ∨ setOperationSetup req.userType (resolveEdge r strategy req fuel) resolveIntersection
          (r.model.getEdgesFromNode node) = .ok msgs))
    ∨ (∃ uid, node = .operatorNode .exclusion uid ∧ req.isTypedWildcard = false
      ∧ setOperationSetup req.userType (resolveEdge r strategy req fuel) resolveDifference
        (r.model.getEdgesFromNode node) = .ok msgs) := by
  by_cases hunion : node.isUnionLike
  · rw [resolveRewrite_unionLike hunion] at h
    split at h
    · cases h
    · exact .inl ⟨hunion, _, ‹_›, h⟩
  cases node with
  | specificType | specificTypeWildcard => cases h
  | specificTypeAndRelation | logicalDirectGrouping | logicalTTUGrouping =>
    exact absurd rfl hunion
  | operatorNode op uid =>
    cases op with
    | union => exact absurd rfl hunion
    | intersection =>
      refine .inr (.inl ⟨uid, rfl, ?_⟩)
      simp only [resolveRewrite] at h
      split at h
      · cases h
      split at h
      · rename_i hwild
        rw [Bool.and_eq_true, any_eq_true] at hwild
        obtain ⟨hw, e, he, hew⟩ := hwild
        exact .inl ⟨(Except.ok.inj h).symm, hw, e, he, by simpa using hew⟩
      · exact .inr h
    | exclusion =>
      refine .inr (.inr ⟨uid, rfl, ?_⟩)
      simp only [resolveRewrite] at h
      split at h
      · cases h
      split_ifs at h with hwild
      exact ⟨by simpa using hwild, h⟩

/-- **Every bottom-up evaluation is a sorted stream.**  The induction is on the depth
of the recursion over the graph. -/
theorem resolveRewrite_isStream (r : Resolver) (strategy : StrategyKind) (req : Request) (fuel : ℕ)
    (node : Node) (msgs : List (Msg String))
    (h : resolveRewrite r strategy req fuel node = .ok msgs) : IsStream msgs := by
  induction fuel generalizing node msgs with
  | zero => cases h
  | succ fuel ih =>
    have hedge : ∀ edges : List Edge, ∀ e ∈ edges, ∀ m,
        resolveEdge r strategy req fuel e = .ok m → IsStream m := by
      intro edges e _ m hm
      unfold resolveEdge resolveEdgeWith at hm
      split at hm
      · split at hm
        · cases hm
          exact directStream_isStream r req e _
        · cases hm
      · exact ih _ m hm
      · exact ih _ m hm
      · exact ih _ m hm
      · exact ih _ m hm
      · cases hm
    rcases resolveRewrite_cases h with ⟨-, edges, -, hset⟩ | ⟨uid, -, ⟨rfl, -⟩ | hset⟩
      | ⟨uid, -, -, hset⟩
    · obtain ⟨ops, rfl, hops, -⟩ := setOperationSetup_ok hset (hedge edges)
      exact resolveUnion_isStream ops hops
    · exact isStream_nil
    · obtain ⟨ops, rfl, hops, -⟩ := setOperationSetup_ok hset (hedge _)
      exact resolveIntersection_isStream ops hops
    · obtain ⟨ops, rfl, hops, -⟩ := setOperationSetup_ok hset (hedge _)
      exact resolveDifference_isStream ops hops

end Kengen
