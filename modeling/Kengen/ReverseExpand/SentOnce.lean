import Kengen.ReverseExpand.Meaning
import Kengen.ReverseExpand.Sends
import Kengen.ClassicExpand.Query

/-!
# How often reverse expansion sends an object

The classic expansion has one candidate map for the whole query.  With the weighted graph there are
several, and an object is sent once if the channel of the result belongs to one of them only.

* `Execution`, `Execution.Sends` — what `Execute` sends, with the weighted graph or without.
* **`sent_once`** — if no exclusion is reached whose excluded edge does not lead to the user type, no
  object is sent twice.
* **`sent_twice`** — otherwise one may be.
-/

namespace Kengen.ReverseExpand

/-! ### Both settings -/

/-- A call of `Execute`: the query, the weighted graph and the Check of candidates, and the setting of
the optimizations. -/
structure Execution where
  query : ClassicExpand.Query
  graph : ModelGraph
  check : Rewrite → String → Object → Bool
  optimizationsEnabled : Bool

namespace Execution

/-- A userset is not looked up in the weighted graph. -/
def userRef : User → Option UserRef
  | .object o => some (.object o)
  | .wildcard type => some (.typedWildcard type)
  | .userset _ _ => none

/-- The query over the weighted graph, if it is used. -/
def weighted (x : Execution) : Option Query :=
  if x.optimizationsEnabled then
    match userRef x.query.user with
    | none => none
    | some user =>
      let q : Query := ⟨x.graph, x.query.env, user, x.query.objectType, x.query.relation, x.check⟩
      if q.usesWeightedGraph then some q else none
  else none

/-- **What may have been sent** on the channel of the result, at any time. -/
inductive Sends (x : Execution) : List Object → Prop
  | classic (h : x.weighted = none) (choices : List ℕ)
      (s : Worklist.State ClassicExpand.Task ClassicExpand.Key
        (Object × ClassicExpand.ConditionalResultStatus))
      (hrun : x.query.run choices = some s) : Sends x ((ClassicExpand.sent s).map Prod.fst)
  | weighted (q : Query) (h : x.weighted = some q) (moves : List Move) (s : SendState)
      (hrun : q.sendRun moves = some s) : Sends x s.sent

end Execution

/-- **No object is sent twice**, with the classic expansion, and with the weighted graph if no
exclusion is reached whose excluded edge does not lead to the user type. -/
theorem sent_once (x : Execution) (sent : List Object) (h : x.Sends sent)
    (hconnected : ∀ q, x.weighted = some q → q.ExcludedConnected) : sent.Nodup := by
  cases h with
  | classic _ choices s hrun => exact Once.nodup_offerAll Prod.fst s.emitted
  | weighted q hq moves s hrun => exact (Query.run_sendInv (hconnected q hq) hrun).nodup

/-! ### Two maps on one channel -/

namespace SharedChannel

def rel (r : String) : Node := .specificTypeAndRelation "doc" r

def union : Node := .operatorNode .union 1

def exclusion : Node := .operatorNode .exclusion 2

/-- An edge of `viewer`'s rule. -/
def inner (source dest : Node) (type : String) : Edge :=
  { edgeType := .rewrite, fromNode := source, toNode := dest,
    relationDefinition := ("doc", "viewer"), weights := [(.type type, 1)] }

/-- A direct edge. -/
def direct (r type : String) : Edge :=
  { edgeType := .direct, fromNode := rel r, toNode := .specificType type,
    relationDefinition := ("doc", r), weights := [(.type type, 1)] }

def node (n : Node) (type : String) : NodeInfo := ⟨n, [(.type type, 1)], [], none, false⟩

variable (excludedType : String)

/-- `viewer: (a but not b) or c`, where `b` is for users of a type. -/
def graph : ModelGraph where
  nodes := [node (rel "viewer") "user", node union "user", node exclusion "user",
    node (rel "a") "user", node (rel "b") excludedType, node (rel "c") "user",
    ⟨.specificType "user", [], [], none, false⟩, ⟨.specificType "employee", [], [], none, false⟩]
  edges := [inner (rel "viewer") union "user", inner union exclusion "user",
    inner union (rel "c") "user", inner exclusion (rel "a") "user",
    inner exclusion (rel "b") excludedType, direct "a" "user", direct "b" excludedType,
    direct "c" "user"]

def restrictedTo (type : String) : Relation := ⟨.this, some [⟨type, .object, noCond⟩]⟩

/-- The user has `a` and `c` on document 1, and `c` on document 2. -/
def environment : Environment where
  typesystem := ⟨[("user", []), ("employee", []), ("doc", [("a", restrictedTo "user"),
    ("b", restrictedTo excludedType), ("c", restrictedTo "user"),
    ("viewer", ⟨.union (n := 2) fun i =>
      if i.val = 0 then .difference (.computedUserset "a") (.computedUserset "b")
      else .computedUserset "c", some []⟩)])], []⟩
  store := ⟨[{ object := ⟨"doc", "1"⟩, relation := "a", user := .object ⟨"user", "anne"⟩ },
    { object := ⟨"doc", "1"⟩, relation := "c", user := .object ⟨"user", "anne"⟩ },
    { object := ⟨"doc", "2"⟩, relation := "c", user := .object ⟨"user", "anne"⟩ }], by decide⟩
  cel := fun _ _ => .ok true

/-- `b` has no tuples, so Check answers that the user does not have it. -/
def execution : Execution where
  query := ⟨environment excludedType, .object ⟨"user", "anne"⟩, "doc", "viewer", fun _ _ => false⟩
  graph := graph excludedType
  check := fun _ _ _ => false
  optimizationsEnabled := true

def query : Query :=
  ⟨graph excludedType, environment excludedType, .object ⟨"user", "anne"⟩, "doc", "viewer",
    fun _ _ _ => false⟩

/-- Nodes are numbered from the user up. -/
def number : Node → ℕ
  | .specificTypeAndRelation _ "viewer" => 4
  | .operatorNode .union _ => 3
  | .operatorNode .exclusion _ => 2
  | .specificTypeAndRelation _ _ => 1
  | _ => 0

theorem guarantees : (query "employee").Guarantees := by
  have hnumber : ∀ e ∈ (query "employee").graph.edges, number e.toNode < number e.fromNode := by
    decide
  refine ⟨?_, ?_, ?_, ?_, ?_, ?_, ?_, ?_, ?_, Query.restrict_acyclic number hnumber _, ?_, ?_,
    Query.restrict_acyclic number hnumber _⟩ <;> decide

theorem connected : (query "user").ExcludedConnected := by
  intro t ht
  have hmem : t ∈ (query "user").search.generations 4 (query "user").start :=
    Worklist.reach_subset (by decide) (by decide) ht
  exact (by decide : ∀ t ∈ (query "user").search.generations 4 (query "user").start,
    (query "user").clone t ≠ .renewed) t hmem

end SharedChannel

/-- **An object is sent twice**: `b` is for employees, so the exclusion has a candidate map of its own
on the channel of the union. -/
theorem sent_twice : (SharedChannel.query "employee").Guarantees
    ∧ ∃ sent, (SharedChannel.execution "employee").Sends sent
      ∧ sent = [⟨"doc", "1"⟩, ⟨"doc", "2"⟩, ⟨"doc", "1"⟩] ∧ ¬ sent.Nodup := by
  refine ⟨SharedChannel.guarantees, ?_⟩
  have hrun : ((SharedChannel.query "employee").sendRun (List.replicate 9 (.take 0))).map
      SendState.sent = some [⟨"doc", "1"⟩, ⟨"doc", "2"⟩, ⟨"doc", "1"⟩] := by decide
  obtain ⟨s, hs, hsent⟩ := Option.map_eq_some_iff.mp hrun
  refine ⟨s.sent, .weighted (SharedChannel.query "employee") (by rfl) _ s hs, hsent, ?_⟩
  rw [hsent]
  decide

/-- With `b` for users the exclusion has a channel of its own. -/
theorem sent_once_connected : ∃ sent, (SharedChannel.execution "user").Sends sent
    ∧ sent = [⟨"doc", "1"⟩, ⟨"doc", "2"⟩] ∧ sent.Nodup := by
  have hrun : ((SharedChannel.query "user").sendRun (List.replicate 10 (.take 0))).map
      SendState.sent = some [⟨"doc", "1"⟩, ⟨"doc", "2"⟩] := by decide
  have hweighted : (SharedChannel.execution "user").weighted = some (SharedChannel.query "user") := by
    rfl
  obtain ⟨s, hs, hsent⟩ := Option.map_eq_some_iff.mp hrun
  have hsends := Execution.Sends.weighted (x := SharedChannel.execution "user") _ hweighted _ s hs
  refine ⟨s.sent, hsends, hsent, sent_once _ _ hsends fun q hq => ?_⟩
  obtain rfl := Option.some.inj (hweighted.symm.trans hq)
  exact SharedChannel.connected

end Kengen.ReverseExpand
