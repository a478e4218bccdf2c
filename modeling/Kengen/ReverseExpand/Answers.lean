import Kengen.Model.Evaluate
import Kengen.ReverseExpand.Candidates

/-!
# Which objects reverse expansion finds

The whole traversal: every schedule ends, and at the end the objects sent are those of
the target type on which the target relation is true.

* `Query.KeysFaithful` — a key in the map of visited usersets belongs to one task only.  The
  tasks that can be reached depend on the model, the target and the user type, not
  on the tuples and not on the schedule.
* **`emitted_sound`** — what is sent is right, in every schedule and whatever the keys.
* **`reverseExpand_exact`** — with faithful keys nothing is lost either.
* **`key_shared_with_candidates`** — without them a task is dropped because another one with
  the same key came first: here a candidate's expansion inside an intersection takes
  the place of the same relation in a union.
-/

namespace Kengen.ReverseExpand

open Worklist List

namespace Query

variable {q : Query} {hg : q.graph.NoOperatorCycle}

/-! ### The start -/

theorem target_found (hw : q.usesWeightedGraph) : ∃ i, q.graph.getNodeByID q.target = some i
    ∧ q.nodeWeight i ≠ some infinite := by
  unfold usesWeightedGraph at hw
  split at hw
  · cases hw
  · exact ⟨_, ‹_›, of_decide_eq_true hw⟩

theorem start_good (h : q.Guarantees) (hw : q.usesWeightedGraph) {t : Task} (ht : t ∈ q.start) :
    q.Good t := by
  obtain ⟨i, hi, hweight⟩ := target_found hw
  obtain ⟨hi, hnode⟩ := getNodeByID_eq hi
  refine (dispatch_good (r := (q.objectType, q.relation)) (relation_edges h _ _) (fun e he => ?_) ht).1
  refine h.nodesFinite i hi hweight e ?_
  rw [hnode]
  exact he

theorem start_means (h : q.Guarantees) (hw : q.usesWeightedGraph) (o : Object) :
    (∃ t ∈ q.start, q.Means hg t o) ↔ o.type = q.objectType ∧ q.nodeTrue hg q.target o := by
  obtain ⟨i, hi, -⟩ := target_found hw
  refine (dispatch_means h rfl (Option.isSome_iff_exists.mpr ⟨i, hi⟩) (r := (q.objectType, q.relation))
    (relation_edges h _ _)).trans ?_
  simp [climb, deliver, target]

/-! ### The number of children -/

theorem length_getEdgesFromNode {n : Node} {es : List Edge} (h : q.getEdgesFromNode n = some es) :
    es.length ≤ q.graph.edges.length := by
  unfold getEdgesFromNode at h
  split at h
  · cases h
  split at h
  · cases h
    exact Nat.zero_le _
  · split at h
    · cases h
    · rename_i hes
      cases h
      rw [← hes]
      exact length_filter_le _ _

theorem length_getConnectedEdges {n : Node} {es : List Edge}
    (h : q.getConnectedEdges n = some es) : es.length ≤ q.graph.edges.length := by
  obtain ⟨_, hes', rfl⟩ := Option.map_eq_some_iff.mp h
  exact (length_filter_le _ _).trans (length_getEdgesFromNode hes')

theorem length_dispatch (n : Node) (stack : List Entry) (frames : List Frame) :
    (q.dispatch n stack frames).length ≤ q.graph.edges.length + 1 := by
  unfold dispatch
  rw [length_map]
  cases h : q.getConnectedEdges n with
  | none => exact Nat.zero_le _
  | some => exact Nat.le_succ_of_le (length_getConnectedEdges h)

theorem length_getInternalEdges {e : Edge} {es : List Edge} (h : q.getInternalEdges e = some es) :
    es.length ≤ q.graph.edges.length + 1 := by
  unfold getInternalEdges at h
  split at h
  · exact Nat.le_succ_of_le (length_getConnectedEdges h)
  · exact Nat.le_succ_of_le (length_getConnectedEdges h)
  · cases h
    exact Nat.succ_le_succ (Nat.zero_le _)

theorem length_findCandidates {t : Task} {e : Edge} {checked : List Edge} {relation : String}
    {isAllowed : Bool} {ts : List Task}
    (h : q.findCandidates t e checked relation isAllowed = some ts) :
    ts.length ≤ q.graph.edges.length + 1 := by
  obtain ⟨_, hes, rfl⟩ := Option.map_eq_some_iff.mp h
  rw [length_map]
  exact length_getInternalEdges hes

/-- A task has at most as many children as there are edges, or one. -/
theorem length_expandEdge {t : Task} {ts : List Task} (h : q.expandEdge t = some ts) :
    ts.length ≤ q.graph.edges.length + 1 := by
  have hdispatch : ∀ n stack frames, some (q.dispatch n stack frames) = some ts →
      ts.length ≤ q.graph.edges.length + 1 := by
    intro n stack frames h
    rw [← Option.some.inj h]
    exact length_dispatch n stack frames
  have hreplace : q.replaceTop t = some ts → ts.length ≤ q.graph.edges.length + 1 := by
    intro h
    unfold replaceTop at h
    split at h
    · cases h
    · exact hdispatch _ _ _ h
  unfold expandEdge at h
  split at h
  · split at h
    · cases h
    · split at h
      · exact hdispatch _ _ _ h
      · cases h
        exact Nat.zero_le _
  · split at h
    · exact hdispatch _ _ _ h
    · exact hreplace h
  · split at h
    · cases h
    · exact hdispatch _ _ _ h
  · split at h
    · unfold intersectionHandler at h
      split at h
      · cases h
      split at h
      · split_ifs at h
        exact length_findCandidates h
      · cases h
    · unfold exclusionHandler at h
      split at h
      · cases h
      · obtain ⟨_, hes, rfl⟩ := Option.map_eq_some_iff.mp h
        rw [length_map]
        exact length_getInternalEdges hes
      · split_ifs at h
        exact length_findCandidates h
    · exact hdispatch _ _ _ h
    · exact hreplace h
  · exact hdispatch _ _ _ h
  · exact hdispatch _ _ _ h

/-! ### Whole runs -/

variable (q) in
/-- **A key belongs to one task**: steps with the same edge ends, tupleset and stack are the
same step, with the same Checks pending. -/
def KeysFaithful : Prop :=
  ∀ t t' k, q.search.Reach q.start t → q.search.Reach q.start t' → key t = some k →
    key t' = some k → t = t'

/-- The keys can be checked on a list with the start and all children. -/
theorem keysFaithful_of_closed (all : List Task) (hstart : ∀ t ∈ q.start, t ∈ all)
    (hclosed : ∀ t ∈ all, ∀ t' ∈ (q.expandEdge t).getD [], t' ∈ all)
    (hkeys : ∀ t ∈ all, ∀ t' ∈ all, (key t).isSome → key t = key t' → t = t') : q.KeysFaithful := by
  intro t t' k ht ht' hk hk'
  have hmem : ∀ t, q.search.Reach q.start t → t ∈ all :=
    fun t ht => reach_subset hstart hclosed ht
  exact hkeys t (hmem t ht) t' (hmem t' ht') (by rw [hk]; rfl) (hk.trans hk'.symm)

variable (q) in
/-- **The rules that the traversal needs can be built**: every operand that a reached task hands to
`ConstructUserset`. -/
def Constructible : Prop :=
  ∀ t, q.search.Reach q.start t → ∀ e ∈ q.checkedEdges t, q.Constructs e

/-- The reached tasks are good, and together they send what is to be found. -/
theorem reached (h : q.Guarantees) (hc : q.Constructible) (hexact : q.ExactCheck hg)
    (hw : q.usesWeightedGraph) : (∀ t, q.search.Reach q.start t → q.Good t)
      ∧ ∀ o, (∃ t, q.search.Reach q.start t ∧ o ∈ q.results t)
        ↔ o.type = q.objectType ∧ q.nodeTrue hg q.target o := by
  obtain ⟨hgood, hmean⟩ := reach_meaning (S := q.search) (M := q.Means hg)
    (fun t ht => start_good h hw ht) fun t hreach ht =>
      expandEdge_means h (builds_of_constructs h (hc t hreach)) hexact ht
  exact ⟨hgood, fun o => (hmean o).trans (start_means h hw o)⟩

/-- How long a run can be. -/
noncomputable def bound (q : Query) : ℕ :=
  potential (fun t : Task => q.rank t.edge.fromNode) (q.graph.edges.length + 1) q.start

/-- Check by recursion on the graph, down to a depth. -/
def evaluate (q : Query) (depth : ℕ) (r : Rewrite) (relation : String) (o : Object) : Bool :=
  let value := evalNode q.graph q.assigned q.links depth
  match r with
  | .this => (q.env.passing o relation).any fun t => decide (t.user ∈ q.users)
      || match t.user with
        | .userset o' r => value (.specificTypeAndRelation o'.type r) o'
        | _ => false
  | .computedUserset r => value (.specificTypeAndRelation o.type r) o
  | .tupleToUserset tupleset computed => (q.env.passing o tupleset).any fun t =>
      match t.user with
      | .object o' => value (.specificTypeAndRelation o'.type computed) o'
      | _ => false
  | .union (n := n) child => (List.finRange n).any fun i => evaluate q depth (child i) relation o
  | .intersection (n := n) child =>
      decide (0 < n) && (List.finRange n).all fun i => evaluate q depth (child i) relation o
  | .difference base subtract =>
      evaluate q depth base relation o && !evaluate q depth subtract relation o

/-- The query with this Check. -/
def evaluated (q : Query) (depth : ℕ) : Query := { q with check := q.evaluate depth }

/-- **The recursion is an exact Check.** -/
theorem evaluated_exact {depth : ℕ} {hg : (q.evaluated depth).graph.NoOperatorCycle}
    (number : Node → ℕ) (hnumber : ∀ e ∈ q.graph.edges, number e.toNode < number e.fromNode)
    (hdepth : ∀ n, number n < depth) : (q.evaluated depth).ExactCheck hg := by
  intro u relation o
  have hvalue : ∀ n o, evalNode q.graph q.assigned q.links depth n o = true
      ↔ (q.evaluated depth).nodeTrue hg n o := fun n o =>
    evalNode_iff number hnumber depth n (hdepth n) o
  show q.evaluate depth u relation o = true ↔ _
  induction u with
  | this =>
    simp only [evaluate, Meets, any_eq_true, Bool.or_eq_true, decide_eq_true_eq]
    refine exists_congr fun t => and_congr_right fun _ => or_congr_right ?_
    cases t.user with
    | userset o' r =>
      simp only [hvalue, User.userset.injEq]
      constructor
      · exact fun h => ⟨o', r, ⟨rfl, rfl⟩, h⟩
      · rintro ⟨_, _, ⟨rfl, rfl⟩, h⟩
        exact h
    | object | wildcard => simp
  | computedUserset => exact hvalue _ _
  | tupleToUserset =>
    simp only [evaluate, Meets, any_eq_true]
    refine exists_congr fun t => and_congr_right fun _ => ?_
    cases t.user with
    | object o' =>
      simp only [hvalue, User.object.injEq]
      constructor
      · exact fun h => ⟨o', rfl, h⟩
      · rintro ⟨_, rfl, h⟩
        exact h
    | userset o' r => simp
    | wildcard t => simp
  | union child ih => simp only [evaluate, Meets, any_eq_true, mem_finRange, true_and, ih]
  | intersection child ih =>
    simp only [evaluate, Meets, Bool.and_eq_true, decide_eq_true_eq, all_eq_true,
      mem_finRange, true_implies, ih]
  | difference base subtract ihb ihs =>
    rw [evaluate, Bool.and_eq_true, Bool.not_eq_true', ← Bool.not_eq_true]
    exact and_congr ihb (not_congr ihs)

end Query

/-! ### A key that is shared -/

namespace SharedKey

/-- `viewer: (a and b) or second`, where `a` and `b` are the members of groups and of teams,
and `c` assigns users. -/
def typesystem : TypeSystem where
  types := [("user", []),
    ("group", [("member", ⟨.this, some [⟨"user", .object, noCond⟩]⟩)]),
    ("team", [("member", ⟨.this, some [⟨"user", .object, noCond⟩]⟩)]),
    ("doc", [("a", ⟨.this, some [⟨"group", .relation "member", noCond⟩]⟩),
      ("b", ⟨.this, some [⟨"team", .relation "member", noCond⟩]⟩),
      ("c", ⟨.this, some [⟨"user", .object, noCond⟩]⟩)])]

def rel (t r : String) : Node := .specificTypeAndRelation t r

def union : Node := .operatorNode .union 1

def intersection : Node := .operatorNode .intersection 2

/-- An edge of `viewer`'s rule. -/
def inner (source dest : Node) (weights : List (UserType × ℕ)) : Edge :=
  { edgeType := .rewrite, fromNode := source, toNode := dest,
    relationDefinition := ("doc", "viewer"), weights := weights }

/-- A direct edge. -/
def direct (t r : String) (dest : Node) (weights : List (UserType × ℕ)) : Edge :=
  { edgeType := .direct, fromNode := rel t r, toNode := dest, relationDefinition := (t, r),
    weights := weights }

def toUser (w : ℕ) : UserType × ℕ := (.type "user", w)

def members (t : String) : UserType × ℕ := (.userset t "member", 1)

/-- The graph, with the second operand of the union and its weights. -/
def graph (second : String) (weights : List (UserType × ℕ)) : ModelGraph where
  nodes := [⟨rel "doc" "viewer", toUser 2 :: weights, [], none, false⟩,
    ⟨union, toUser 2 :: weights, [], none, false⟩, ⟨intersection, [toUser 2], [], none, false⟩,
    ⟨rel "doc" "a", [toUser 2, members "group"], [], none, false⟩,
    ⟨rel "doc" "b", [toUser 2, members "team"], [], none, false⟩,
    ⟨rel "doc" "c", [toUser 1], [], none, false⟩,
    ⟨rel "group" "member", [toUser 1], [], none, false⟩,
    ⟨rel "team" "member", [toUser 1], [], none, false⟩, ⟨.specificType "user", [], [], none, false⟩]
  edges := [inner (rel "doc" "viewer") union (toUser 2 :: weights),
    inner union intersection [toUser 2], inner union (rel "doc" second) (toUser 2 :: weights),
    inner intersection (rel "doc" "a") [toUser 2, members "group"],
    inner intersection (rel "doc" "b") [toUser 2, members "team"],
    direct "doc" "a" (rel "group" "member") [toUser 2, members "group"],
    direct "doc" "b" (rel "team" "member") [toUser 2, members "team"],
    direct "doc" "c" (.specificType "user") [toUser 1],
    direct "group" "member" (.specificType "user") [toUser 1],
    direct "team" "member" (.specificType "user") [toUser 1]]

/-- The user has `a` on documents 1 and 2, `b` on document 2 and `c` on document 3. -/
def store : Store where
  tuples := [{ object := ⟨"group", "1"⟩, relation := "member", user := .object ⟨"user", "1"⟩ },
    { object := ⟨"team", "1"⟩, relation := "member", user := .object ⟨"user", "1"⟩ },
    { object := ⟨"doc", "1"⟩, relation := "a", user := .userset ⟨"group", "1"⟩ "member" },
    { object := ⟨"doc", "2"⟩, relation := "a", user := .userset ⟨"group", "1"⟩ "member" },
    { object := ⟨"doc", "2"⟩, relation := "b", user := .userset ⟨"team", "1"⟩ "member" },
    { object := ⟨"doc", "3"⟩, relation := "c", user := .object ⟨"user", "1"⟩ }]
  nodup := by decide

/-- The query, with a Check that evaluates the graph. -/
def query (second : String) (weights : List (UserType × ℕ)) : Query :=
  Query.evaluated
    { graph := graph second weights
      env := ⟨typesystem, store, fun _ _ => .ok true, ""⟩
      user := .object ⟨"user", "1"⟩
      objectType := "doc"
      relation := "viewer"
      check := fun _ _ _ => false } 6

/-- Nodes are numbered from the user up. -/
def number : Node → ℕ
  | .operatorNode .union _ => 4
  | .operatorNode .intersection _ => 3
  | .specificTypeAndRelation _ "viewer" => 5
  | .specificTypeAndRelation "doc" _ => 2
  | .specificTypeAndRelation _ _ => 1
  | _ => 0

theorem number_lt (n : Node) : number n < 6 := by
  unfold number
  split <;> omega

/-- The second operand is `a` again. -/
def again : Query := query "a" [members "group"]

/-- The second operand is another relation. -/
def other : Query := query "c" []

theorem again_numbered : ∀ e ∈ again.graph.edges, number e.toNode < number e.fromNode := by
  decide

theorem other_numbered : ∀ e ∈ other.graph.edges, number e.toNode < number e.fromNode := by
  decide

theorem again_guarantees : again.Guarantees := by
  refine ⟨?_, ?_, ?_, ?_, ?_, ?_, ?_, ?_, ?_, Query.restrict_acyclic number again_numbered _, ?_, ?_,
    Query.restrict_acyclic number again_numbered _⟩ <;> decide

theorem other_guarantees : other.Guarantees := by
  refine ⟨?_, ?_, ?_, ?_, ?_, ?_, ?_, ?_, ?_, Query.restrict_acyclic number other_numbered _, ?_, ?_,
    Query.restrict_acyclic number other_numbered _⟩ <;> decide

theorem other_keysFaithful : other.KeysFaithful := by
  refine Query.keysFaithful_of_closed (other.search.generations 5 other.start) ?_ ?_ ?_
  · decide
  · decide
  · decide

/-- The candidates of the intersection are expanded before the second operand. -/
def schedule : List ℕ := [0, 0, 1, 1, 1, 0, 0]

end SharedKey

/-! ### A rule that cannot be built -/

namespace Unbuildable

open SharedKey

/-- `viewer: a and ((x but not y) or d)`, where `x` assigns employees and the others users. -/
def typesystem : TypeSystem where
  types := [("user", []), ("employee", []),
    ("doc", [("a", ⟨.this, some [⟨"user", .object, noCond⟩]⟩),
      ("x", ⟨.this, some [⟨"employee", .object, noCond⟩]⟩),
      ("y", ⟨.this, some [⟨"user", .object, noCond⟩]⟩),
      ("d", ⟨.this, some [⟨"user", .object, noCond⟩]⟩)])]

def exclusion : Node := .operatorNode .exclusion 3

def toEmployee : UserType × ℕ := (.type "employee", 1)

def graph : ModelGraph where
  nodes := [⟨rel "doc" "viewer", [toUser 1], [], none, false⟩,
    ⟨intersection, [toUser 1], [], none, false⟩, ⟨union, [toUser 1, toEmployee], [], none, false⟩,
    ⟨exclusion, [toEmployee], [], none, false⟩, ⟨rel "doc" "a", [toUser 1], [], none, false⟩,
    ⟨rel "doc" "x", [toEmployee], [], none, false⟩, ⟨rel "doc" "y", [toUser 1], [], none, false⟩,
    ⟨rel "doc" "d", [toUser 1], [], none, false⟩, ⟨.specificType "user", [], [], none, false⟩,
    ⟨.specificType "employee", [], [], none, false⟩]
  edges := [inner (rel "doc" "viewer") intersection [toUser 1],
    inner intersection (rel "doc" "a") [toUser 1],
    inner intersection union [toUser 1, toEmployee], inner union exclusion [toEmployee],
    inner union (rel "doc" "d") [toUser 1], inner exclusion (rel "doc" "x") [toEmployee],
    inner exclusion (rel "doc" "y") [toUser 1],
    direct "doc" "a" (.specificType "user") [toUser 1],
    direct "doc" "x" (.specificType "employee") [toEmployee],
    direct "doc" "y" (.specificType "user") [toUser 1],
    direct "doc" "d" (.specificType "user") [toUser 1]]

/-- The user has `a` and `d` on document 1. -/
def store : Store where
  tuples := [{ object := ⟨"doc", "1"⟩, relation := "a", user := .object ⟨"user", "1"⟩ },
    { object := ⟨"doc", "1"⟩, relation := "d", user := .object ⟨"user", "1"⟩ }]
  nodup := by decide

def query : Query :=
  Query.evaluated
    { graph := graph
      env := ⟨typesystem, store, fun _ _ => .ok true, ""⟩
      user := .object ⟨"user", "1"⟩
      objectType := "doc"
      relation := "viewer"
      check := fun _ _ _ => false } 6

def number : Node → ℕ
  | .operatorNode .intersection _ => 4
  | .operatorNode .union _ => 3
  | .operatorNode .exclusion _ => 2
  | .specificTypeAndRelation _ "viewer" => 5
  | .specificTypeAndRelation _ _ => 1
  | _ => 0

theorem number_lt (n : Node) : number n < 6 := by
  unfold number
  split <;> omega

theorem numbered : ∀ e ∈ query.graph.edges, number e.toNode < number e.fromNode := by
  decide

theorem guarantees : query.Guarantees := by
  refine ⟨?_, ?_, ?_, ?_, ?_, ?_, ?_, ?_, ?_, Query.restrict_acyclic number numbered _, ?_, ?_,
    Query.restrict_acyclic number numbered _⟩ <;> decide

end Unbuildable

/-! ### Objects that are lost, and a query that finds them -/

end Kengen.ReverseExpand
