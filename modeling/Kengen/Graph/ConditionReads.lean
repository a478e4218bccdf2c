import Kengen.Graph.Mirrors
import Kengen.Graph.Returns

/-!
# Reads whose conditions are replaced

The condition of a tuple is met, is not met, or cannot be evaluated.  The iterator over the tuples
of a read reports a condition that cannot be evaluated only if no condition of the read is met:
one valid tuple makes it forget the error.

* `Replacement` — other values for the conditions that fail, tuple by tuple.
* `Mixed` — a read has a condition that fails and one that is met.
* `LocalChecker.Unmixed`, `LocalChecker.SidesUnmixed` — no read of a rule is mixed, and none on the
  subtract sides of its exclusions.
* **`messages_mirror`** — the messages of a read make the grants they made before the replacement;
  those of a read that is not mixed make the denials too.
* **`resolve_mirrors`** — so do the handlers of a request.
-/

namespace Kengen.Graph

open List

variable {κ : Type}

/-! ### Other values for the conditions that fail -/

/-- The conditions of the tuples are replaced, as far as they cannot be evaluated: a tuple keeps the
name of its condition and gets another context, which is evaluated by another `cel`. -/
structure Replacement (env : Environment) where
  context : TupleKey → String
  cel : Cel
  /-- A condition that can be evaluated keeps its value. -/
  keeps : ∀ t ∈ env.store.tuples, ∀ b, env.conditionMet t = .ok b →
    evaluateTupleCondition cel { t with condition := ⟨t.condition.name, context t⟩ } env.context
      = .ok b

namespace Replacement

variable {env : Environment} (r : Replacement env)

def tuple (t : TupleKey) : TupleKey :=
  { t with condition := ⟨t.condition.name, r.context t⟩ }

/-- The environment with the replaced conditions. -/
def environment : Environment :=
  { env with
    store := ⟨env.store.tuples.map r.tuple, by
      rw [map_map]
      exact env.store.nodup⟩
    cel := r.cel }

theorem read_environment (object : Object) (relation : String) :
    r.environment.read object relation = (env.read object relation).map r.tuple := by
  rw [Environment.read, Environment.read]
  exact filter_map

theorem readUsersetTuples_environment (object : Object) (relation : String)
    (allowed : List RelationReference) :
    r.environment.readUsersetTuples object relation allowed
      = (env.readUsersetTuples object relation allowed).map r.tuple := by
  rw [Environment.readUsersetTuples, Environment.readUsersetTuples, read_environment]
  exact filter_map

theorem conditionMet_tuple {t : TupleKey} (ht : t ∈ env.store.tuples) {b : Bool}
    (h : env.conditionMet t = .ok b) : r.environment.conditionMet (r.tuple t) = .ok b :=
  r.keeps t ht b h

end Replacement

/-- The checker over the replaced conditions, and a datastore that raises no errors. -/
def LocalChecker.replaced (c : LocalChecker κ) (r : ∀ k, Replacement (c.environment k)) :
    LocalChecker κ :=
  { c with
    environment := fun k => (r k).environment
    fails := fun _ => False }

/-! ### Reads -/

/-- A condition of the read fails and one is met. -/
def Mixed (env : Environment) (tuples : List TupleKey) : Prop :=
  (∃ t ∈ tuples, env.conditionMet t = .ok true) ∧ ∃ t ∈ tuples, ∃ e, env.conditionMet t = .error e

section Reads

variable {env : Environment} (r : Replacement env) {tuples : List TupleKey}
  {trace' : Trace TupleKey}

/-- Without storage errors a read returns all tuples, and the filter fails only on its own. -/
theorem filtered_replaced (hreturns' : Returns (fun _ => False) (tuples.map r.tuple) trace')
    (h : (∃ t ∈ tuples, r.environment.conditionMet (r.tuple t) = .ok true)
      ∨ ∀ t ∈ tuples, ∀ e, r.environment.conditionMet (r.tuple t) ≠ .error e) :
    (∀ e, .error e ∉ filtered r.environment trace')
      ∧ ∀ t ∈ tuples, r.environment.conditionMet (r.tuple t) = .ok true →
        .ok (r.tuple t) ∈ filtered r.environment trace' := by
  have hclean : ∀ e, .error e ∉ trace' := fun e he => returns_error hreturns' he
  have hall : ∀ t ∈ tuples, .ok (r.tuple t) ∈ trace' := fun t ht =>
    returns_all hreturns' hclean (mem_map_of_mem ht)
  refine ⟨filterTrace_clean.mpr ⟨hclean, .inr (h.imp ?_ ?_)⟩,
    fun t ht hmet => mem_filterTrace.mpr ⟨hall t ht, hmet⟩⟩
  · rintro ⟨t, ht, hmet⟩
    exact ⟨_, hall t ht, hmet⟩
  · intro hno
    refine ⟨rfl, fun t' ht' => ?_⟩
    obtain ⟨t, ht, rfl⟩ := mem_map.mp (returns_mem hreturns' ht')
    exact hno t ht

/-- The messages of a read make the grants they made before; the denials too, if the read is not
mixed. -/
theorem messages_mirror (htuples : ∀ t ∈ tuples, t ∈ env.store.tuples) {fails : Err → Prop}
    (hfails : ∀ e, fails e → e.isCancelled = false)
    {message : TupleKey → Option (DispatchMsg (Request κ))}
    (hmessage : ∀ t, message (r.tuple t) = message t) (hno : ∀ t e, message t ≠ some (.err e))
    {strict : Bool} (hunmixed : strict = true → ¬ Mixed env tuples) {trace : Trace TupleKey}
    (hreturns : Returns fails tuples trace)
    (hreturns' : Returns (fun _ => False) (tuples.map r.tuple) trace') :
    MessagesMirror strict (produceDispatches message (filtered env trace))
      (produceDispatches message (filtered r.environment trace')) := by
  have hmet : ∀ t ∈ tuples, ∀ b, env.conditionMet t = .ok b →
      r.environment.conditionMet (r.tuple t) = .ok b := fun t ht b h =>
    r.conditionMet_tuple (htuples t ht) h
  have hnoErr : (∀ e, .error e ∉ filtered r.environment trace') →
      ∀ e, .err e ∉ produceDispatches message (filtered r.environment trace') :=
    fun hclean e he => by
      rcases mem_produceDispatches he with ⟨e', he', -⟩ | ⟨t, -, ht⟩
      · exact hclean e' he'
      · exact hno t e ht
  have hcomplete : (∀ e, .error e ∉ filtered r.environment trace') →
      .shortCircuit ∉ produceDispatches message (filtered r.environment trace') →
      ∀ t, .ok t ∈ filtered r.environment trace' → ∀ m, message t = some m →
        m ∈ produceDispatches message (filtered r.environment trace') := fun hclean hshort =>
    (produceDispatches_complete (fun e he => absurd he (hclean e)) (hnoErr hclean) hshort).2
  refine ⟨fun hshort => ?_, fun hstrict herr hshort => ?_⟩
  · -- the tuple of a message is valid here too
    have hkept : ∀ m ∈ produceDispatches message (filtered env trace), (∀ e, m ≠ .err e) →
        m ∈ produceDispatches message (filtered r.environment trace') := by
      intro m hm hnot
      obtain ⟨t, ht, hmt⟩ := (mem_produceDispatches hm).resolve_left fun ⟨e, _, he⟩ => hnot e he
      obtain ⟨htrace, hpass⟩ := mem_filterTrace.mp ht
      have ht := returns_mem hreturns htrace
      obtain ⟨hclean, hvalid⟩ := filtered_replaced r hreturns' (.inl ⟨t, ht, hmet t ht _ hpass⟩)
      exact hcomplete hclean hshort _ (hvalid t ht (hmet t ht _ hpass)) m ((hmessage t).trans hmt)
    exact ⟨fun h => hshort (hkept _ h fun e he => nomatch he),
      fun g hg => hkept _ hg fun e he => nomatch he⟩
  · -- no condition of the read failed
    obtain ⟨hclean, hmem⟩ := produceDispatches_complete
      (fun e he => filtered_not_cancelled hfails hreturns he) herr hshort
    obtain ⟨hvalid, hfailed⟩ := filtered_clean hreturns hclean
    have hok : ∀ t ∈ tuples, ∃ b, env.conditionMet t = .ok b := by
      intro t ht
      rcases hc : env.conditionMet t with e | b
      · rcases hfailed with hpass | hnone
        · exact absurd ⟨hpass, t, ht, e, hc⟩ (hunmixed hstrict)
        · exact absurd hc (hnone t ht e)
      · exact ⟨b, rfl⟩
    obtain ⟨hclean', -⟩ := filtered_replaced r hreturns' (.inr fun t ht e he => by
      obtain ⟨b, hb⟩ := hok t ht
      rw [hmet t ht b hb] at he
      cases he)
    have hkept : ∀ m ∈ produceDispatches message (filtered r.environment trace'), (∀ e, m ≠ .err e) →
        m ∈ produceDispatches message (filtered env trace) := by
      intro m hm hnot
      obtain ⟨_, ht', hmt⟩ := (mem_produceDispatches hm).resolve_left fun ⟨e, _, he⟩ => hnot e he
      obtain ⟨htrace', hpass'⟩ := mem_filterTrace.mp ht'
      obtain ⟨t, ht, rfl⟩ := mem_map.mp (returns_mem hreturns' htrace')
      obtain ⟨b, hb⟩ := hok t ht
      obtain rfl := Except.ok.inj ((hmet t ht b hb).symm.trans hpass')
      exact hmem t (hvalid t ht hb) m ((hmessage t).symm.trans hmt)
    exact ⟨hnoErr hclean', fun h => hshort (hkept _ h fun e he => nomatch he),
      fun g hg => hkept _ hg fun e he => nomatch he⟩

end Reads

/-! ### The handlers of a request -/

namespace LocalChecker

variable (c : LocalChecker κ) (r : ∀ k, Replacement (c.environment k)) (req : Request κ)

/-- The groups of type restrictions whose tuples are read together. -/
def usersetReads : List (List RelationReference) :=
  if c.readsTogether req then [c.directlyRelatedUsersets req] else c.usersetGroups req

/-- No read of the rule is mixed. -/
def Unmixed : Rewrite → Prop
  | .this => ∀ usersets ∈ c.usersetReads req,
      ¬ Mixed (c.env req) ((c.env req).readUsersetTuples req.object req.relation usersets)
  | .computedUserset _ => True
  | .tupleToUserset tupleset _ => ¬ Mixed (c.env req) ((c.env req).read req.object tupleset)
  | .union child => ∀ i, Unmixed (child i)
  | .intersection child => ∀ i, Unmixed (child i)
  | .difference base subtract => Unmixed base ∧ Unmixed subtract

/-- No read on the subtract side of an exclusion in the rule is mixed. -/
def SidesUnmixed : Rewrite → Prop
  | .union child => ∀ i, SidesUnmixed (child i)
  | .intersection child => ∀ i, SidesUnmixed (child i)
  | .difference base subtract => SidesUnmixed base ∧ c.Unmixed req subtract
  | _ => True

section Handlers

variable {c} {req}

theorem sidesUnmixed_of_unmixed {rewrite : Rewrite} (h : c.Unmixed req rewrite) :
    c.SidesUnmixed req rewrite := by
  induction rewrite with
  | this | computedUserset | tupleToUserset => trivial
  | union child ih | intersection child ih => exact fun i => ih i (h i)
  | difference base subtract ihb => exact ⟨ihb h.1, h.2⟩

variable (c) (req)

/-- The tuple of the request itself. -/
theorem directUserTuple_replaced {resp : Response} (h : c.directUserTuple req = .ok resp) :
    (c.replaced r).directUserTuple req = .ok resp := by
  have hfind : ((c.replaced r).env req).store.readUserTuple req.object req.relation req.user
      = ((c.env req).store.readUserTuple req.object req.relation req.user).map
        (r req.invariant).tuple := find?_map
  rw [directUserTuple, hfind]
  rw [directUserTuple] at h
  cases ht : (c.env req).store.readUserTuple req.object req.relation req.user with
  | none =>
    rw [ht] at h
    exact h
  | some t =>
    rw [ht] at h
    simp only [Option.map_some] at h ⊢
    have hvalid : ((c.replaced r).env req).typesystem.validateTupleForRead
        ((r req.invariant).tuple t) = (c.env req).typesystem.validateTupleForRead t := rfl
    rw [hvalid]
    split at h
    · rename_i hread
      rw [if_pos hread]
      split at h
      · cases h
      rename_i met hmet
      have hmet' : ((c.replaced r).env req).conditionMet ((r req.invariant).tuple t) = .ok met :=
        (r req.invariant).conditionMet_tuple (mem_of_find?_eq_some ht) hmet
      rw [hmet']
      exact h
    · rename_i hread
      rw [if_neg hread]
      exact h

theorem checkDirectUserTuple_mirrors (strict : Bool) :
    (c.checkDirectUserTuple req).Mirrors strict ((c.replaced r).checkDirectUserTuple req) := by
  refine ⟨_, _, rfl, ?_, _, rfl, ?_⟩
  · rintro e ⟨_, he', -⟩
    exact he'
  · rintro resp hresp - o' rfl
    exact directUserTuple_replaced c r req hresp.symm

theorem firstNext_of_mem {trace : Trace TupleKey} (hclean : ∀ e, .error e ∉ trace) {t : TupleKey}
    (ht : .ok t ∈ trace) : firstNext trace = .ok { allowed := true } := by
  rcases trace with _ | ⟨e | _, _⟩
  · exact absurd ht not_mem_nil
  · exact absurd mem_cons_self (hclean e)
  · rfl

theorem firstNext_of_empty {trace : Trace TupleKey} (hclean : ∀ e, .error e ∉ trace)
    (hnone : ∀ t, .ok t ∉ trace) : firstNext trace = .ok { allowed := false } := by
  rcases trace with _ | ⟨e | t, _⟩
  · rfl
  · exact absurd mem_cons_self (hclean e)
  · exact absurd mem_cons_self (hnone t)

theorem checkPublicAssignable_mirrors (strict : Bool) :
    (c.checkPublicAssignable req).Mirrors strict ((c.replaced r).checkPublicAssignable req) := by
  refine ⟨_, _, rfl, ?_, _, rfl, ?_⟩
  · rintro e ⟨_, he', -⟩
    exact he'
  · rintro resp ⟨_, hreturns, hresp⟩ - o' ⟨_, hreturns', rfl⟩
    have htuples : (c.replaced r).publicTuples req
        = (c.publicTuples req).map (r req.invariant).tuple :=
      (r req.invariant).readUsersetTuples_environment _ _ _
    rw [htuples] at hreturns'
    have hmet : ∀ t ∈ c.publicTuples req, ∀ b, (c.env req).conditionMet t = .ok b →
        (r req.invariant).environment.conditionMet ((r req.invariant).tuple t) = .ok b :=
      fun t ht b h => (r req.invariant).conditionMet_tuple
        (mem_store_of_read (mem_filter.mp ht).1) h
    rcases firstNext_eq_ok hresp.symm with ⟨hempty, rfl⟩ | ⟨⟨t, ht⟩, rfl⟩
    · -- no condition is met and none fails
      have hfalse := filtered_empty hreturns hempty
      obtain ⟨hclean', -⟩ := filtered_replaced _ hreturns' (.inr fun t ht e he => by
        rw [hmet t ht _ (hfalse t ht)] at he
        cases he)
      refine firstNext_of_empty hclean' fun t' ht' => ?_
      obtain ⟨htrace', hpass'⟩ := mem_filterTrace.mp ht'
      obtain ⟨t, ht, rfl⟩ := mem_map.mp (returns_mem hreturns' htrace')
      cases (hmet t ht _ (hfalse t ht)).symm.trans hpass'
    · obtain ⟨htrace, hpass⟩ := mem_filterTrace.mp ht
      have ht := returns_mem hreturns htrace
      obtain ⟨hclean', hvalid'⟩ := filtered_replaced _ hreturns'
        (.inl ⟨t, ht, hmet t ht _ hpass⟩)
      exact firstNext_of_mem hclean' (hvalid' t ht (hmet t ht _ hpass))

theorem usersetMessage_ne_err (t : TupleKey) (e : Err) : usersetMessage req t ≠ some (.err e) := by
  simp only [usersetMessage]
  split
  · split
    · simp
    · simp
  · simp
  · simp

theorem ttuMessage_ne_err (computedRelation : String) (t : TupleKey) (e : Err) :
    c.ttuMessage req computedRelation t ≠ some (.err e) := by
  simp only [ttuMessage]
  split
  · simp
  · simp

variable (hfails : ∀ e, c.fails e → e.isCancelled = false) {strict : Bool}

include hfails

theorem defaultUserset_mirrors (usersets : List RelationReference)
    (hunmixed : strict = true →
      ¬ Mixed (c.env req) ((c.env req).readUsersetTuples req.object req.relation usersets)) :
    (c.defaultUserset req usersets).Mirrors strict ((c.replaced r).defaultUserset req usersets) := by
  refine ⟨_, rfl, ?_⟩
  rintro messages messages' ⟨_, hreturns, rfl⟩ ⟨_, hreturns', rfl⟩
  have htuples : ((c.replaced r).env req).readUsersetTuples req.object req.relation usersets
      = ((c.env req).readUsersetTuples req.object req.relation usersets).map
        (r req.invariant).tuple := (r req.invariant).readUsersetTuples_environment _ _ _
  rw [htuples] at hreturns'
  exact messages_mirror (r req.invariant)
    (fun t ht => mem_store_of_read (mem_filter.mp ht).1) hfails (fun t => rfl)
    (usersetMessage_ne_err req) hunmixed hreturns hreturns'

theorem checkTTU_mirrors (tupleset computedRelation : String)
    (hunmixed : strict = true → ¬ Mixed (c.env req) ((c.env req).read req.object tupleset)) :
    (c.checkTTU req tupleset computedRelation).Mirrors strict
      ((c.replaced r).checkTTU req tupleset computedRelation) := by
  refine ⟨_, _, rfl, ?_, _, rfl, ?_⟩
  · rintro e ⟨_, he', -⟩
    exact he'
  · rintro messages messages' ⟨_, hreturns, rfl⟩ ⟨_, hreturns', rfl⟩
    have htuples : ((c.replaced r).env req).read req.object tupleset
        = ((c.env req).read req.object tupleset).map (r req.invariant).tuple :=
      (r req.invariant).read_environment _ _
    rw [htuples] at hreturns'
    exact messages_mirror (r req.invariant) (fun t ht => mem_store_of_read ht) hfails
      (fun t => rfl) (ttuMessage_ne_err c req computedRelation) hunmixed hreturns hreturns'

theorem checkDirectUsersetTuples_mirrors (hunmixed : strict = true → c.Unmixed req .this) :
    (c.checkDirectUsersetTuples req).Mirrors strict
      ((c.replaced r).checkDirectUsersetTuples req) := by
  refine ⟨_, _, rfl, ?_, ?_⟩
  · rintro e ⟨_, he', -⟩
    exact he'
  · show (if c.readsTogether req then _ else _ : Handler (Request κ)).Mirrors strict
      (if c.readsTogether req then _ else _)
    split
    · rename_i htogether
      refine defaultUserset_mirrors c r req hfails _ fun hstrict => hunmixed hstrict _ ?_
      simp [usersetReads, htogether]
    · rename_i htogether
      refine ⟨_, rfl, fun i => ?_⟩
      refine defaultUserset_mirrors c r req hfails _ fun hstrict => hunmixed hstrict _ ?_
      simp [usersetReads, htogether]

theorem checkRewrite_mirrors (rewrite : Rewrite) (hsides : c.SidesUnmixed req rewrite)
    (hunmixed : strict = true → c.Unmixed req rewrite) :
    (c.checkRewrite req rewrite).Mirrors strict ((c.replaced r).checkRewrite req rewrite) := by
  induction rewrite generalizing strict with
  | this =>
    refine ⟨_, rfl, fun i => ?_⟩
    show (c.checkFunc req ((c.checkFuncs req).get i)).Mirrors strict
      ((c.replaced r).checkFunc req ((c.checkFuncs req).get i))
    cases (c.checkFuncs req).get i with
    | directUserTuple => exact checkDirectUserTuple_mirrors c r req strict
    | publicAssignable => exact checkPublicAssignable_mirrors c r req strict
    | directUsersetTuples => exact checkDirectUsersetTuples_mirrors c r req hfails hunmixed
  | computedUserset => rfl
  | tupleToUserset tupleset computedUserset =>
    exact checkTTU_mirrors c r req hfails tupleset computedUserset hunmixed
  | union child ih => exact ⟨_, rfl, fun i => ih i (hsides i) fun hstrict => hunmixed hstrict i⟩
  | intersection child ih =>
    exact ⟨_, rfl, fun i => ih i (hsides i) fun hstrict => hunmixed hstrict i⟩
  | difference base subtract ihb ihs =>
    refine ⟨_, _, rfl, ihb hsides.1 fun hstrict => (hunmixed hstrict).1, ?_⟩
    exact ihs (sidesUnmixed_of_unmixed hsides.2) fun _ => hsides.2

/-- **The handlers of a request make the grants they made before.** -/
theorem resolve_mirrors (hsides : ∀ rel, (c.env req).typesystem.getRelation req.object.type
      req.relation = .ok rel → c.SidesUnmixed req rel.rewrite)
    (hunmixed : strict = true → ∀ rel, (c.env req).typesystem.getRelation req.object.type
      req.relation = .ok rel → c.Unmixed req rel.rewrite) :
    (c.checker.rewrite req).Mirrors strict ((c.replaced r).checker.rewrite req) := by
  show (c.resolve req).Mirrors strict ((c.replaced r).resolve req)
  have hread : ∀ o : Outcome,
      (Handler.read (· = o) : Handler (Request κ)).Mirrors strict (.read (· = o)) := by
    rintro o
    refine ⟨_, rfl, ?_⟩
    rintro resp hresp - o' rfl
    exact hresp.symm
  have htypesystem : ((c.replaced r).env req).typesystem = (c.env req).typesystem := rfl
  have hpath : (c.replaced r).pathExists = c.pathExists := rfl
  rw [resolve, resolve, htypesystem, hpath]
  split
  · exact hread _
  · split
    · exact hread _
    · rename_i rel hrel
      split
      · exact hread _
      · exact hread _
      · exact checkRewrite_mirrors c r req hfails rel.rewrite (hsides rel hrel)
          fun hstrict => hunmixed hstrict rel hrel

end Handlers

end LocalChecker

end Kengen.Graph
