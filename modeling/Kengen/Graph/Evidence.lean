import Kengen.Lib.Decisions
import Kengen.Graph.Resolve

/-!
# What the answers of the local checker are evidence of

A response that does not report a cycle was computed without cutting a path that matters.
Such a response is finite evidence for the formula of its request: it says what the formula
decides, whatever the path and whatever the schedule.

* `Handler.Follows` — the handler evaluates the formula: its reads give the formula's values and
  its messages are the formula's goals.
* `Yields` — the responses to a formula, without the schedules; **`evaluates_yields`** — a handler
  gives one of them.
* **`evaluates_decides`** — the allowed value of a response that reports no cycle is what the
  formula decides; a response that allows reports none.
* `Placed` — where a formula stands: below the requests of a path, and maybe below a subtract side.
* **`Yields.unflagged`** — below the subtract side of an exclusion no cycle is reported, if no
  request reached from there depends on itself.
* **`Yields.allows`** — a request that is decided to be allowed is allowed by every response, if the
  requests on its path are decided later than it.
* **`history_decides`** — the cache stores what is decided.

The loops are assumed not to take a closed and empty channel for outcomes (`Safe`).
-/

namespace Kengen.Graph

open Decisions List

variable {Goal : Type}

/-! ### Handlers that evaluate a formula -/

/-- The formula that a message is about. -/
def DispatchMsg.formula : DispatchMsg Goal → Formula Goal
  | .err _ => .value none
  | .shortCircuit => .value (some true)
  | .dispatchParams g => .goal g

/-- The messages are those of the disjuncts: none is made up, and without an error and a short
circuit none is left out. -/
def MessagesOf {n : ℕ} (child : Fin n → Formula Goal) (messages : List (DispatchMsg Goal)) : Prop :=
  (∀ m ∈ messages, (∃ e, m = .err e) ∨ ∃ i, child i = m.formula)
    ∧ ((∀ e, .err e ∉ messages) → .shortCircuit ∉ messages →
      ∀ i, child i = .value (some false) ∨ ∃ g, child i = .goal g ∧ .dispatchParams g ∈ messages)

/-- The handler evaluates the formula. -/
def Handler.Follows : Handler Goal → Formula Goal → Prop
  | .read returns, f =>
    ∀ resp, returns (.ok resp) → resp.cycleDetected = false ∧ f = .value (some resp.allowed)
  | .opened _ h, f => h.Follows f
  | .resolveCheck g, f => f = .goal g
  | .delegate g, f => f = .goal g
  | .dispatch produces, f => ∃ (n : ℕ) (child : Fin n → Formula Goal), f = .any child
      ∧ ∀ messages, produces messages → MessagesOf child messages
  | .union (n := n) child, f => ∃ child' : Fin n → Formula Goal, f = .any child'
      ∧ ∀ i, (child i).Follows (child' i)
  | .intersection (n := n) child, f => ∃ child' : Fin n → Formula Goal, f = .all child'
      ∧ ∀ i, (child i).Follows (child' i)
  | .exclusion base subtract, f => ∃ fb fs, f = .butNot fb fs ∧ base.Follows fb
      ∧ subtract.Follows fs

/-- The checker evaluates the bodies of the requests. -/
def Checker.Follows (C : Checker Goal) (body : Goal → Formula Goal) : Prop :=
  ∀ g, (C.rewrite g).Follows (body g)

/-- What the cache holds is decided. -/
def Decided (body : Goal → Formula Goal) (cache : List (Goal × Response)) : Prop :=
  ∀ g resp, (g, resp) ∈ cache → resp.cycleDetected = false ∧ Decides body (.goal g) resp.allowed

section Sound

variable {C : Checker Goal} {sched : Schedules} {cache : List (Goal × Response)}
  {body : Goal → Formula Goal}

/-! ### The responses to a formula -/

section Yields

variable (cache body)

/-- **The responses that a formula can be answered with**, below the requests of a path. -/
inductive Yields : List Goal → Formula Goal → Response → Prop
  | value {visited b} : Yields visited (.value (some b)) { allowed := b }
  | cycle {visited g} (hg : g ∈ visited) :
      Yields visited (.goal g) { allowed := false, cycleDetected := true }
  | rewrite {visited g r} (h : Yields (g :: visited) (body g) r) : Yields visited (.goal g) r
  | hit {visited g r} (h : (g, r) ∈ cache) : Yields visited (.goal g) r
  | granted {visited r} {n : ℕ} {child : Fin n → Formula Goal} {i : Fin n}
      (h : Yields visited (child i) r) (hr : r.allowed = true) : Yields visited (.any child) r
  | denied {visited} {n : ℕ} {child : Fin n → Formula Goal}
      (h : ∀ i, Yields visited (child i) { allowed := false }) :
      Yields visited (.any child) { allowed := false }
  | flagged {visited r} {n : ℕ} {child : Fin n → Formula Goal} {rs : Fin n → Response} {i : Fin n}
      (h : ∀ i, Yields visited (child i) (rs i)) (hrs : ∀ i, (rs i).allowed = false)
      (hi : Yields visited (child i) r) (hr : r.cycleDetected = true) :
      Yields visited (.any child) { allowed := false, cycleDetected := true }
  | refuted {visited r} {n : ℕ} {child : Fin n → Formula Goal} {i : Fin n}
      (h : Yields visited (child i) r) (hr : r.cycleDetected = true ∨ r.allowed = false) :
      Yields visited (.all child) { allowed := false, cycleDetected := r.cycleDetected }
  | all {visited} {n : ℕ} {child : Fin n → Formula Goal}
      (h : ∀ i, Yields visited (child i) { allowed := true }) :
      Yields visited (.all child) { allowed := true }
  | base {visited r base subtract} (h : Yields visited base r)
      (hr : r.cycleDetected = true ∨ r.allowed = false) :
      Yields visited (.butNot base subtract)
        { allowed := false, cycleDetected := r.cycleDetected }
  | subtract {visited r base subtract} (h : Yields visited subtract r)
      (hr : r.cycleDetected = true ∨ r.allowed = true) :
      Yields visited (.butNot base subtract)
        { allowed := false, cycleDetected := r.cycleDetected }
  | butNot {visited base subtract} (hb : Yields visited base { allowed := true })
      (hs : Yields visited subtract { allowed := false }) :
      Yields visited (.butNot base subtract) { allowed := true }

end Yields

variable {f : Formula Goal} {resp : Response} {visited : List Goal} {n : ℕ}

theorem Response.eq_of_unflagged (hc : resp.cycleDetected = false) {b : Bool}
    (ha : resp.allowed = b) : resp = { allowed := b, cycleDetected := false } := by
  obtain ⟨allowed, cycle⟩ := resp
  obtain rfl : cycle = false := hc
  obtain rfl : allowed = b := ha
  rfl

/-- A union of operands each of which answers a disjunct, if the disjuncts without an operand are
false. -/
theorem yields_any {ι : Type} {os : ι → Outcome} {got : ι → Prop} {o : Outcome}
    {child : Fin n → Formula Goal} (h : Sums os got o)
    (hmade : ∀ i, got i → ∀ r, os i = .ok r → ∃ k, Yields cache body visited (child k) r)
    (hleft : (∀ i, ∃ r, os i = .ok r ∧ r.allowed = false) → ∀ k,
      child k = .value (some false)
        ∨ ∃ i, ∀ r, got i → os i = .ok r → Yields cache body visited (child k) r)
    (hresp : o = .ok resp) : Yields cache body visited (.any child) resp := by
  rcases h with ⟨i, r, hgot, hi, hallowed, rfl⟩ | ⟨hall, hdenied, ⟨e, rfl, -⟩ | ⟨c, rfl, hok, hcycle⟩⟩
    <;> cases hresp
  · obtain ⟨k, hk⟩ := hmade i hgot _ hi
    exact .granted hk hallowed
  · have hfalse : ∀ i, ∃ r, os i = .ok r ∧ r.allowed = false := by
      intro i
      obtain ⟨r, hr⟩ := hok i
      exact ⟨r, hr, Bool.eq_false_iff.mpr fun hallowed => hdenied i ⟨r, hr, hallowed⟩⟩
    have hrs : ∀ k, ∃ r, Yields cache body visited (child k) r ∧ r.allowed = false
        ∧ (c = false → r.cycleDetected = false) := by
      intro k
      rcases hleft hfalse k with hk | ⟨i, hi⟩
      · exact ⟨{ allowed := false }, hk ▸ .value, rfl, fun _ => rfl⟩
      · obtain ⟨r, hr, hallowed⟩ := hfalse i
        refine ⟨r, hi r (hall i) hr, hallowed, ?_⟩
        rintro rfl
        refine Bool.eq_false_iff.mpr fun hflag => Bool.noConfusion (hcycle.mpr ⟨i, ?_⟩)
        rw [hr]
        exact hflag
    choose rs hyields hallowed hflag using hrs
    cases c with
    | false =>
      exact .denied fun k => Response.eq_of_unflagged (hflag k rfl) (hallowed k) ▸ hyields k
    | true =>
      obtain ⟨i, hi⟩ := hcycle.mp rfl
      obtain ⟨r, hr⟩ := hok i
      obtain ⟨k, hk⟩ := hmade i (hall i) r hr
      rw [hr] at hi
      exact .flagged hyields hallowed hk hi

variable {alive : Bool} {depth : ℕ} {h : Handler Goal} {o : Outcome}

/-- **A response of a handler answers its formula.** -/
theorem evaluates_yields (hC : C.Follows body)
    (ho : Evaluates C sched cache alive visited depth h o) (hsafe : Safe sched alive)
    (hf : h.Follows f) (hresp : o = .ok resp) : Yields cache body visited f resp := by
  induction ho generalizing f resp with
  | cancelled | openFails | depthExceeded | fewOperands => cases hresp
  | read ho =>
    subst hresp
    obtain ⟨hc, rfl⟩ := hf resp ho
    rw [Response.eq_of_unflagged hc rfl]
    exact .value
  | opened _ ih | miss _ ih => exact ih hsafe hf hresp
  | cycle _ hg =>
    obtain rfl := hf
    cases hresp
    exact .cycle hg
  | @rewrite _ _ _ g _ _ _ _ ih =>
    obtain rfl := hf
    exact .rewrite (ih hsafe (hC g) hresp)
  | hit hmem =>
    obtain rfl := hf
    cases hresp
    exact .hit hmem
  | @dispatch _ visited _ produces checks s o hproduces hrun hs _ ih =>
    obtain ⟨n, child, rfl, hmessages⟩ := hf
    obtain ⟨hmade, hleft⟩ := hmessages _ hproduces
    -- the outcome of a message answers the message's formula
    have hmessage : ∀ check, checkOutcome checks check ∈ s.received → ∀ r,
        checkOutcome checks check = .ok r → Yields cache body visited check.1.1.formula r := by
      rintro ⟨⟨m, o'⟩, hcheck⟩ hgot r hr
      cases m with
      | err => cases hr
      | shortCircuit =>
        cases hr
        exact .value
      | dispatchParams g => exact ih g o' hcheck hgot (safe_alive sched) rfl hr
    refine yields_any (dispatch_answer hrun hs) ?_ (fun hok k => ?_) hresp
    · rintro ⟨⟨m, o'⟩, hcheck⟩ hgot r hr
      obtain ⟨k, hk⟩ := (hmade m (mem_map.mpr ⟨_, hcheck, rfl⟩)).resolve_left
        (by rintro ⟨e, rfl⟩; cases hr)
      exact ⟨k, hk ▸ hmessage ⟨_, hcheck⟩ hgot r hr⟩
    · refine (hleft (fun e herr => ?_) (fun hshort => ?_) k).imp_right fun ⟨g, hk, hg⟩ => ?_
      · obtain ⟨o', hcheck⟩ := exists_check herr
        obtain ⟨r, hr, -⟩ := hok ⟨_, hcheck⟩
        cases hr
      · obtain ⟨o', hcheck⟩ := exists_check hshort
        obtain ⟨r, hr, hallowed⟩ := hok ⟨_, hcheck⟩
        cases hr
        cases hallowed
      · obtain ⟨o', hcheck⟩ := exists_check hg
        exact ⟨⟨_, hcheck⟩, fun r hgot hr => hk ▸ hmessage ⟨_, hcheck⟩ hgot r hr⟩
  | @union _ _ _ n child os s o hrun hs _ ih =>
    obtain ⟨child', rfl, hchild⟩ := hf
    rcases union_answer hrun hsafe hs with ⟨-, rfl⟩ | hsums
    · cases hresp
    · exact yields_any hsums (fun i hgot r hr => ⟨i, ih i hgot hsafe (hchild i) hr⟩)
        (fun _ k => .inr ⟨k, fun r hgot hr => ih k hgot hsafe (hchild k) hr⟩) hresp
  | @intersection _ _ _ n child os s o _ hrun hs _ ih =>
    obtain ⟨child', rfl, hchild⟩ := hf
    rcases intersection_answer hrun hsafe hs with ⟨-, rfl⟩ | ⟨i, r, hgot, hi, hdenied, rfl⟩
      | ⟨hall, -, ⟨e, rfl, -⟩ | ⟨rfl, hok⟩⟩ <;> cases hresp
    · exact .refuted (ih i hgot hsafe (hchild i) hi) hdenied
    · exact .all fun i => ih i (hall i) hsafe (hchild i) (hok i)
  | @exclusion _ _ _ base subtract ob osub s o hrun hs _ _ ihb ihs =>
    obtain ⟨fb, fs, rfl, hfb, hfs⟩ := hf
    rcases exclusion_answer hrun hs with ⟨-, rfl⟩ | ⟨_ | _, r, hgot, hi, hdenied, rfl⟩
      | ⟨hgot, -, ⟨e, rfl, -⟩ | ⟨rfl, hok⟩⟩ <;> cases hresp
    · exact .base (ihb hgot hsafe hfb hi) hdenied
    · exact .subtract (ihs hgot hsafe hfs hi) hdenied
    · exact .butNot (ihb (hgot .base) hsafe hfb (hok .base)) (ihs (hgot .sub) hsafe hfs (hok .sub))

/-! ### Responses as evidence -/

/-- A response agrees with a formula: one that allows reports no cycle, and one that reports no
cycle says what the formula decides. -/
def Agrees (body : Goal → Formula Goal) (f : Formula Goal) (resp : Response) : Prop :=
  (resp.allowed = true → resp.cycleDetected = false)
    ∧ (resp.cycleDetected = false → Decides body f resp.allowed)

theorem agrees_of_decides (hc : resp.cycleDetected = false)
    (h : Decides body f resp.allowed) : Agrees body f resp :=
  ⟨fun _ => hc, fun _ => h⟩

theorem agrees_of_denied {c : Bool} (h : c = false → Decides body f false) :
    Agrees body f { allowed := false, cycleDetected := c } := by
  refine ⟨?_, h⟩
  intro hallowed
  cases hallowed

theorem Agrees.allowed (h : Agrees body f resp)
    (ha : resp.allowed = true) : Decides body f true := by
  have hdecides := h.2 (h.1 ha)
  rwa [ha] at hdecides

theorem Agrees.denied (h : Agrees body f resp) (hc : resp.cycleDetected = false)
    (hdenied : resp.allowed = false) : Decides body f false := by
  have hdecides := h.2 hc
  rwa [hdenied] at hdecides

theorem Yields.agrees (hcache : Decided body cache) (h : Yields cache body visited f resp) :
    Agrees body f resp := by
  induction h with
  | value => exact agrees_of_decides rfl decides_value
  | cycle | flagged => exact agrees_of_denied nofun
  | rewrite _ ih => exact ⟨ih.1, fun hc => decides_goal (ih.2 hc)⟩
  | hit hmem => exact agrees_of_decides (hcache _ _ hmem).1 (hcache _ _ hmem).2
  | granted _ hr ih =>
    refine agrees_of_decides (ih.1 hr) ?_
    rw [hr]
    exact decides_any_true (ih.allowed hr)
  | denied _ ih => exact agrees_of_denied fun _ => decides_any_false fun i => (ih i).2 rfl
  | refuted _ hr ih =>
    exact agrees_of_denied fun hc => decides_all_false (ih.denied hc (hr.resolve_left (by simp [hc])))
  | all _ ih => exact agrees_of_decides rfl (decides_all_true fun i => (ih i).2 rfl)
  | base _ hr ih =>
    exact agrees_of_denied fun hc =>
      decides_butNot_false (.inl (ih.denied hc (hr.resolve_left (by simp [hc]))))
  | subtract _ hr ih =>
    exact agrees_of_denied fun hc =>
      decides_butNot_false (.inr (ih.allowed (hr.resolve_left (by simp [hc]))))
  | butNot _ _ ihb ihs => exact agrees_of_decides rfl (decides_butNot_true (ihb.2 rfl) (ihs.2 rfl))

/-- **A response that reports no cycle is evidence.** -/
theorem evaluates_decides (hC : C.Follows body) (hcache : Decided body cache)
    (ho : Evaluates C sched cache alive visited depth h o) (hsafe : Safe sched alive)
    (hf : h.Follows f) (hresp : o = .ok resp) : Agrees body f resp :=
  (evaluates_yields hC ho hsafe hf hresp).agrees hcache

/-! ### Below a subtract side -/

/-- Every request on the path leads to the goals of the formula. -/
def Leads (body : Goal → Formula Goal) (visited : List Goal) (f : Formula Goal) : Prop :=
  ∀ v ∈ visited, ∀ g, f.Mentions g → Relation.TransGen (Refers body) v g

variable {g : Goal}

theorem leads_body (h : Leads body visited (.goal g)) : Leads body (g :: visited) (body g) := by
  intro v hv q hq
  rcases mem_cons.mp hv with rfl | hv
  · exact Relation.TransGen.single hq
  · exact (h v hv g rfl).tail hq

/-- The subtract sides of the formula are subtract sides of some body that `root` leads to. -/
def Inside (body : Goal → Formula Goal) (root : Goal) (f : Formula Goal) : Prop :=
  ∀ q, f.Subtracts q → Subtracted body root q

/-- The formula is evaluated for a request that `root` leads to, below the requests of a path; if it
is mirrored strictly, then below a subtract side. -/
structure Placed (body : Goal → Formula Goal) (root : Goal) (strict : Bool) (visited : List Goal)
    (f : Formula Goal) : Prop where
  leads : Leads body visited f
  inside : Inside body root f
  reached : ∀ g, f.Mentions g → Relation.ReflTransGen (Refers body) root g
  below : strict = true → ∀ g, f.Mentions g → Subtracted body root g

variable {root : Goal} {strict : Bool}

namespace Placed

theorem part {f' : Formula Goal} (h : Placed body root strict visited f)
    (hmentions : ∀ g, f'.Mentions g → f.Mentions g)
    (hsubtracts : ∀ g, f'.Subtracts g → f.Subtracts g) : Placed body root strict visited f' where
  leads v hv g hg := h.leads v hv g (hmentions g hg)
  inside g hg := h.inside g (hsubtracts g hg)
  reached g hg := h.reached g (hmentions g hg)
  below hstrict g hg := h.below hstrict g (hmentions g hg)

variable {child : Fin n → Formula Goal}

theorem any (h : Placed body root strict visited (.any child)) (i : Fin n) :
    Placed body root strict visited (child i) :=
  h.part (fun _ hg => ⟨i, hg⟩) fun _ hg => ⟨i, hg⟩

theorem all (h : Placed body root strict visited (.all child)) (i : Fin n) :
    Placed body root strict visited (child i) :=
  h.part (fun _ hg => ⟨i, hg⟩) fun _ hg => ⟨i, hg⟩

theorem base {fb fs : Formula Goal} (h : Placed body root strict visited (.butNot fb fs)) :
    Placed body root strict visited fb :=
  h.part (fun _ hg => .inl hg) fun _ hg => .inl hg

theorem subtracts_mentions (h : f.Subtracts g) : f.Mentions g := by
  induction f with
  | value | goal => exact absurd h id
  | any child ih | all child ih =>
    obtain ⟨i, hi⟩ := h
    exact ⟨i, ih i hi⟩
  | butNot fb fs ihb => exact h.imp_left ihb

/-- The subtract side of an exclusion is below a subtract side. -/
theorem subtract {fb fs : Formula Goal} (h : Placed body root strict visited (.butNot fb fs)) :
    Placed body root true visited fs where
  leads v hv g hg := h.leads v hv g (.inr hg)
  inside g hg := h.inside g (.inr (subtracts_mentions hg))
  reached g hg := h.reached g (.inr hg)
  below _ g hg := h.inside g (.inr hg)

/-- The request of a message. -/
theorem message (h : Placed body root strict visited (.any child))
    {messages : List (DispatchMsg Goal)} (hmessages : MessagesOf child messages)
    (hg : .dispatchParams g ∈ messages) : Placed body root strict visited (.goal g) := by
  refine h.part (fun q hq => ?_) fun q hq => absurd hq id
  obtain rfl : g = q := hq
  obtain ⟨i, hi⟩ := (hmessages.1 _ hg).resolve_left (by simp)
  refine ⟨i, ?_⟩
  rw [hi]
  rfl

/-- The body of a request that is not on its own path. -/
theorem rewrite (h : Placed body root strict visited (.goal g)) :
    Placed body root strict (g :: visited) (body g) where
  leads := leads_body h.leads
  inside _ hq := .side (h.reached g rfl) hq
  reached _ hq := (h.reached g rfl).tail hq
  below hstrict _ hq := (h.below hstrict g rfl).reach hq

/-- The request that a check starts with. -/
theorem start (body : Goal → Formula Goal) (root : Goal) :
    Placed body root false [] (.goal root) where
  leads _ hv := absurd hv not_mem_nil
  inside _ hg := absurd hg id
  reached g hg := by
    obtain rfl : root = g := hg
    exact .refl
  below hstrict := nomatch hstrict

end Placed

/-- **No cycle is reported below a subtract side**, if no request reached from there depends on
itself. -/
theorem Yields.unflagged (hcache : Decided body cache) (hacyclic : SubtractAcyclicFrom body root)
    (h : Yields cache body visited f resp) (hplaced : Placed body root true visited f) :
    resp.cycleDetected = false := by
  induction h with
  | value | denied | all | butNot => rfl
  | @cycle _ g hg =>
    -- the request is on its own path
    exact absurd (hplaced.leads g hg g rfl) (hacyclic g (hplaced.below rfl g rfl))
  | rewrite _ ih => exact ih hplaced.rewrite
  | hit hmem => exact (hcache _ _ hmem).1
  | granted _ _ ih => exact ih (hplaced.any _)
  | flagged _ _ _ hr _ ih => exact absurd hr (by simp [ih (hplaced.any _)])
  | refuted _ _ ih => exact ih (hplaced.all _)
  | base _ _ ih => exact ih hplaced.base
  | subtract _ _ ih => exact ih hplaced.subtract

/-! ### What is decided is allowed -/

/-- A goal that is decided is decided by a last unfolding. -/
theorem exists_last_unfolding {b : Bool} (h : decidedIn body n g b) :
    ∃ m, m ≤ n ∧ (body g).Settles (decidedIn body m) b ∧ ¬ decidedIn body m g b := by
  induction n with
  | zero => exact absurd h id
  | succ n ih =>
    by_cases hn : decidedIn body n g b
    · obtain ⟨m, hm, hsettles, hnot⟩ := ih hn
      exact ⟨m, Nat.le_succ_of_le hm, hsettles, hnot⟩
    · exact ⟨n, Nat.le_succ n, h, hn⟩

/-- **What is decided to be allowed is allowed**, if the requests on the path are decided later. -/
theorem Yields.allows (hcache : Decided body cache) (hacyclic : SubtractAcyclicFrom body root)
    (h : Yields cache body visited f resp) (hsettles : f.Settles (decidedIn body n) true)
    (hlater : ∀ v ∈ visited, ¬ decidedIn body n v true) (hplaced : Placed body root strict visited f) :
    resp.allowed = true := by
  induction h generalizing n with
  | value => exact Option.some.inj hsettles
  | cycle hg => exact absurd hsettles (hlater _ hg)
  | rewrite _ ih =>
    obtain ⟨m, hm, hbody, hnot⟩ := exists_last_unfolding hsettles
    refine ih hbody (fun v hv hdecided => ?_) hplaced.rewrite
    rcases mem_cons.mp hv with rfl | hv
    · exact hnot hdecided
    · exact hlater v hv (decidedIn_le hm hdecided)
  | hit hmem => exact decides_unique (hcache _ _ hmem).2 ⟨n, hsettles⟩
  | granted _ hr => exact hr
  | denied _ ih =>
    obtain ⟨i, hi⟩ := hsettles
    exact ih i hi hlater (hplaced.any i)
  | flagged _ hrs _ _ ih =>
    obtain ⟨i, hi⟩ := hsettles
    exact absurd (ih i hi hlater (hplaced.any i)) (by simp [hrs i])
  | refuted h hr ih =>
    have hallowed := ih (hsettles _) hlater (hplaced.all _)
    exact absurd hr (by simp [hallowed, (h.agrees hcache).1 hallowed])
  | all | butNot => rfl
  | base h hr ih =>
    have hallowed := ih hsettles.1 hlater hplaced.base
    exact absurd hr (by simp [hallowed, (h.agrees hcache).1 hallowed])
  | subtract h hr =>
    -- the subtract side is decided to be false, and reports no cycle
    have hunflagged := h.unflagged hcache hacyclic hplaced.subtract
    have hfalse := decides_unique ((h.agrees hcache).2 hunflagged) ⟨n, hsettles.2⟩
    exact absurd hr (by simp [hfalse, hunflagged])

/-! ### The cache -/

/-- **The cache stores what is decided.** -/
theorem history_decides (hC : C.Follows body)
    (hsched : ∀ R cancelled outcomes choices, sched R cancelled outcomes choices →
      TakesOutcomes R cancelled outcomes choices)
    {cache : List (Goal × Response)} (h : History C sched cache) : Decided body cache := by
  induction h with
  | nil => exact fun g resp hmem => absurd hmem not_mem_nil
  | @store cache alive visited depth g resp _ _ hresp hcycle ih =>
    intro g' resp' hmem
    rcases mem_cons.mp hmem with heq | hmem
    · obtain ⟨rfl, rfl⟩ := Prod.mk.inj heq
      have hagrees := evaluates_decides hC ih hresp (.inr hsched) (f := .goal g') rfl rfl
      exact ⟨hcycle, hagrees.2 hcycle⟩
    · exact ih g' resp' hmem

/-- **A stored response and an evaluation from scratch agree.** -/
theorem history_transparent (hC : C.Follows body) (hacyclic : SubtractAcyclic body)
    (hsched : ∀ R cancelled outcomes choices, sched R cancelled outcomes choices →
      TakesOutcomes R cancelled outcomes choices)
    {cache : List (Goal × Response)} (h : History C sched cache) {resp' : Response}
    (hmem : (g, resp) ∈ cache) {sched' : Schedules}
    (hresp : Evaluates C sched' [] true [] 0 (.resolveCheck g) (.ok resp')) :
    resp.allowed = resp'.allowed := by
  obtain ⟨-, n, hn⟩ := history_decides hC hsched h g resp hmem
  have hempty : Decided body [] := fun g resp hmem => absurd hmem not_mem_nil
  cases hallowed : resp.allowed with
  | true =>
    rw [hallowed] at hn
    have hyields := evaluates_yields hC hresp (safe_alive sched') (f := .goal g) rfl rfl
    exact (hyields.allows hempty (hacyclic g) hn (fun v hv => absurd hv not_mem_nil)
      (Placed.start body g)).symm
  | false =>
    rw [hallowed] at hn
    have hagrees := evaluates_decides hC hempty hresp (safe_alive sched') (f := .goal g) rfl rfl
    cases hallowed' : resp'.allowed with
    | false => rfl
    | true => exact decides_unique ⟨n, hn⟩ (hagrees.allowed hallowed')

end Sound

end Kengen.Graph
