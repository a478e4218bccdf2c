import Kengen.Check.LeastModel

/-!
# The cache of edge responses

`ResolveUnionEdges` and `ResolveRecursive` store the response of an edge under
its key, also while a map of visited usersets is open.  A response that is false
because a userset was dropped as visited is provisional, and it is stored all
the same.

* **`cache_agrees`** — in every run that drops only usersets without the user, each stored
  response is what a fresh evaluation without a cache gives, and so is each answer.
* **`provisional_false_cached`** — a run that stores a provisional response, and a later
  check that answers by it.
-/

namespace Kengen

open TaskMachine

variable (r : Resolver)

/-- Checks come in, and a tuple with a true condition is dropped only if the user is not related to
what it names. -/
def DropsOutsiders (hg : r.model.NoOperatorCycle)
    (cfg : Config Call VisitedKey EdgeCacheKey Err) (choice : Choice Call Err) : Prop :=
  (∀ c, choice = .request c → c.isCheck)
    ∧ ∀ c, Drops (expand r) cfg choice c → ¬ callTruth r (Related r hg) c

/-- An evaluation from scratch: one call, without a cache and with no map of visited objects, that
drops a tuple with a true condition only while a task resolves what the tuple names. -/
def Scratch (c : Call) (b : Bool) : Prop :=
  ∃ choices cfg, Along (expand r) (CacheFree r (· = c)) {} (.request c :: choices)
    ∧ run (expand r) {} (.request c :: choices) = some cfg ∧ cfg.answerOf 0 = some (.ok b)

/-- An evaluation from scratch is right. -/
theorem scratch_right {r : Resolver} {hg : r.model.NoOperatorCycle} (hw : r.model.Weighted)
    (hr : r.model.RecursionMarked) (hd : r.model.Defined) {c : Call} (hc : CallValid r c)
    (hmap : c.mapOf = none) {b : Bool} (h : Scratch r c b) :
    b = true ↔ callTruth r (Related r hg) c := by
  obtain ⟨choices, cfg, hsteps, hrun, hans⟩ := h
  have hcall : cfg.callOf 0 = some c := (run_extends choices _ cfg hrun).callOf rfl
  refine cacheFree_right hg hw hr hd ?_ hsteps hrun hcall hans hmap
  rintro c' rfl
  exact ⟨hc, hmap⟩

/-- **Stored responses and answers agree with evaluations from scratch.** -/
theorem cache_agrees (hg : r.model.NoOperatorCycle) (hw : r.model.Weighted)
    (hr : r.model.RecursionMarked) (hd : r.model.Defined) (choices : List (Choice Call Err))
    (cfg : Config Call VisitedKey EdgeCacheKey Err)
    (hsteps : Along (expand r) (DropsOutsiders r hg) {} choices)
    (hrun : run (expand r) {} choices = some cfg) :
    (∀ req e b, EdgeValid r req e → e.leadsTo req.userType req.isTypedWildcard →
        (edgeCacheKey req e, b) ∈ cfg.cache →
        (b = true ↔ EdgeTrue r hg req e)
          ∧ ∀ b', Scratch r (.resolveEdge req e none) b' → b' = b)
      ∧ ∀ i req b, cfg.callOf i = some (.resolveCheck req) → cfg.answerOf i = some (.ok b) →
        ∀ b', Scratch r (.resolveCheck req) b' → b' = b := by
  have hsteps' := hsteps.imp fun cfg choice h =>
    (⟨fun c hc => (isCheck_entry c (h.1 c hc)).1, h.2⟩ :
      (∀ c, choice = .request c → (checkMeaning hg hw hr hd).valid c) ∧ _)
  obtain ⟨hanswers, hcache⟩ := run_right (checkMeaning hg hw hr hd) choices cfg hsteps' hrun
  constructor
  · intro req e b hvalid hleads hmem
    have hright : b = true ↔ EdgeTrue r hg req e :=
      (hcache _ hmem).trans (key_means hr hvalid.1).symm
    refine ⟨hright, fun b' hscratch => ?_⟩
    have hscratch' : b' = true ↔ EdgeTrue r hg req e :=
      scratch_right hw hr hd (c := .resolveEdge req e none) ⟨hvalid, hleads⟩ (passedMap_none e)
        hscratch
    rw [Bool.eq_iff_iff, hscratch', hright]
  · intro i req b hcall hans b' hscratch
    obtain ⟨t, ht, htcall⟩ := Option.map_eq_some_iff.mp hcall
    have hans' : t.answer = some (.ok b) := by
      rw [Config.answerOf, ht] at hans
      exact hans
    have hright := hanswers i t b ht hans'
    rw [htcall] at hright
    have hscratch' : b' = true ↔ callTruth r (Related r hg) (.resolveCheck req) :=
      scratch_right hw hr hd (c := .resolveCheck req) trivial rfl hscratch
    rw [Bool.eq_iff_iff, hscratch', hright]
    rfl

/-! ### A provisional response is stored -/

namespace SharedGroup

open FalseFirst

/-- `group:1` contains `group:2` and `group:3`; `group:2` contains `group:3`, which contains the
user.  There are no conditions. -/
def resolver : Resolver where
  model := model
  datastore := ⟨[contains "1" "2" "", contains "1" "3" "", contains "2" "3" "",
    { object := group "3", relation := "member", user := .object ⟨"user", "a"⟩ }], by decide⟩
  cel := fun _ _ => .ok true

/-- While `group:1` is checked both groups are marked, so `group:2` drops `group:3` and the response
of its recursive edge is false.  It is stored, and answers the check of `group:2` that follows. -/
def schedule : List (Choice Call Err) :=
  [.request (.resolveCheck (request "1")), .look 0 none, .look 1 none, .look 2 none, .look 2 none,
    .look 4 none, .look 5 none, .look 5 none,
    .look 6 none, .look 6 none, .look 8 none, .finish 10 (.ok false), .put 10, .finish 8 (.ok false),
    .look 9 none, .look 11 none, .finish 11 (.ok false), .put 11,
    .request (.resolveCheck (request "2")), .look 12 none, .look 13 none, .look 14 none,
    .look 14 none, .look 15 (some false), .finish 15 (.ok false), .look 16 (some false),
    .finish 16 (.ok false), .finish 14 (.ok false), .finish 13 (.ok false), .finish 12 (.ok false)]

/-- The recursive edge of `group:2` from scratch. -/
def edgeSchedule : List (Choice Call Err) :=
  [.look 0 none, .look 1 none, .look 2 none, .look 3 none, .finish 4 (.ok true),
    .finish 3 (.ok true), .finish 2 (.ok true), .finish 1 (.ok true), .finish 0 (.ok true)]

/-- The check of `group:2`, with the response of its recursive edge stored. -/
def rightSchedule (put : List (Choice Call Err)) : List (Choice Call Err) :=
  [.look 0 none, .look 1 none, .look 2 none, .look 2 none,
    .look 4 none, .look 5 none, .look 6 none, .look 7 none, .finish 8 (.ok true),
    .finish 7 (.ok true), .finish 6 (.ok true), .finish 5 (.ok true)] ++ put
    ++ [.finish 4 (.ok true), .finish 2 (.ok true), .finish 1 (.ok true), .finish 0 (.ok true)]

end SharedGroup

theorem Scratch.of_run {r : Resolver} {c : Call} {b : Bool} (choices : List (Choice Call Err))
    (hsteps : Along (expand r) (CacheFree r (· = c)) {} (.request c :: choices))
    (hrun : (run (expand r) {} (.request c :: choices)).bind (fun cfg => cfg.answerOf 0)
      = some (.ok b)) : Scratch r c b := by
  obtain ⟨cfg, hcfg, hans⟩ := Option.bind_eq_some_iff.mp hrun
  exact ⟨choices, cfg, hsteps, hcfg, hans⟩

open FalseFirst in
/-- **A stored response is false and the edge is true from scratch**, and a later check is
answered by it. -/
theorem provisional_false_cached :
    model.NoOperatorCycle ∧ model.Weighted ∧ model.RecursionMarked ∧ model.Defined
      ∧ (run (expand SharedGroup.resolver) {} SharedGroup.schedule).map
          (fun cfg => (decide ((edgeCacheKey (request "2") groupEdge, false) ∈ cfg.cache),
            cfg.callOf 12, cfg.answerOf 12))
        = some (true, some (.resolveCheck (request "2")), some (.ok false))
      ∧ Scratch SharedGroup.resolver (.resolveEdge (request "2") groupEdge none) true
      ∧ Scratch SharedGroup.resolver (.resolveCheck (request "2")) true := by
  refine ⟨noOperatorCycle, by decide, recursionMarked, defined, by decide, ?_, ?_⟩
  · exact Scratch.of_run SharedGroup.edgeSchedule
      (Along.imp (fun _ _ => cacheFree_of) (by decide)) (by decide)
  · exact Scratch.of_run (SharedGroup.rightSchedule [])
      (Along.imp (fun _ _ => cacheFree_of) (by decide)) (by decide)

/-- Steps that drop nothing. -/
theorem dropsOutsiders_of {r : Resolver} {hg : r.model.NoOperatorCycle}
    {cfg : Config Call VisitedKey EdgeCacheKey Err} {choice : Choice Call Err}
    (h : (match choice with
        | .request c => decide c.isCheck
        | _ => true) = true ∧ dropped (expand r) cfg choice = none) :
    DropsOutsiders r hg cfg choice := by
  refine ⟨?_, fun c hc => ?_⟩
  · rintro c rfl
    exact of_decide_eq_true h.1
  · rw [dropped_of_drops hc] at h
    cases h.2

open FalseFirst in
/-- A run that stores the response of the recursive edge of `group:2`. -/
theorem cache_agrees_chain :
    ∃ cfg, run (expand SharedGroup.resolver) {}
        (.request (.resolveCheck (request "2")) :: SharedGroup.rightSchedule [.put 5]) = some cfg
      ∧ (edgeCacheKey (request "2") groupEdge, true) ∈ cfg.cache
      ∧ EdgeTrue SharedGroup.resolver noOperatorCycle (request "2") groupEdge
      ∧ ∀ b', Scratch SharedGroup.resolver (.resolveEdge (request "2") groupEdge none) b' →
        b' = true := by
  have hrun : (run (expand SharedGroup.resolver) {}
      (.request (.resolveCheck (request "2")) :: SharedGroup.rightSchedule [.put 5])).map
        (fun cfg => decide ((edgeCacheKey (request "2") groupEdge, true) ∈ cfg.cache))
      = some true := by decide
  obtain ⟨cfg, hcfg, hmem⟩ := Option.map_eq_some_iff.mp hrun
  have hcached := of_decide_eq_true hmem
  have hsteps : Along (expand SharedGroup.resolver)
      (DropsOutsiders SharedGroup.resolver noOperatorCycle) {}
      (.request (.resolveCheck (request "2")) :: SharedGroup.rightSchedule [.put 5]) :=
    Along.imp (fun _ _ => dropsOutsiders_of) (by decide)
  have hright := (cache_agrees SharedGroup.resolver noOperatorCycle (by decide) recursionMarked
    defined _ cfg hsteps hcfg).1 (request "2") groupEdge true ⟨by decide, rfl⟩ (by decide) hcached
  exact ⟨cfg, hcfg, hcached, hright.1.mp rfl, hright.2⟩

end Kengen
