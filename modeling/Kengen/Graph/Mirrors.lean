import Kengen.Graph.Evidence

/-!
# Answers that another checker must repeat

Two checkers build handlers of the same shape for each request, and some reads of the second
know more than those of the first.  An answer of the first is carried over to every run of the
second if the reads behind it are: a grant needs the tuples that led to it, and a denial needs all
tuples of the reads below it.

* `Handler.Mirrors` — the second handler repeats the grants of the first one, and its denials too
  where it mirrors strictly.  The subtract side of an exclusion is always mirrored strictly.
* **`mirrors_outcome`** — a response that allows, or any response without a cycle where the handler is
  mirrored strictly, is the outcome of every run of the other checker.

No run of the second checker is assumed to return without an error: that is proved.
-/

namespace Kengen.Graph

open Decisions

variable {Goal : Type}

/-! ### Handlers that mirror others -/

/-- The messages of the second list make the first list's grants, and its denials if it is mirrored
strictly. -/
def MessagesMirror (strict : Bool) (messages messages' : List (DispatchMsg Goal)) : Prop :=
  (.shortCircuit ∉ messages' → .shortCircuit ∉ messages
    ∧ ∀ g, .dispatchParams g ∈ messages → .dispatchParams g ∈ messages')
  ∧ (strict = true → (∀ e, .err e ∉ messages) → .shortCircuit ∉ messages →
    (∀ e, .err e ∉ messages') ∧ .shortCircuit ∉ messages'
      ∧ ∀ g, .dispatchParams g ∈ messages' → .dispatchParams g ∈ messages)

/-- The second handler has the shape of the first one, and its reads repeat what the first one's
reads give. -/
def Handler.Mirrors : Bool → Handler Goal → Handler Goal → Prop
  | strict, .read returns, h' => ∃ returns', h' = .read returns'
      ∧ ∀ resp, returns (.ok resp) → (resp.allowed = true ∨ strict = true) →
        ∀ o', returns' o' → o' = .ok resp
  | strict, .opened _ h, h' => ∃ fails' h'', h' = .opened fails' h'' ∧ (∀ e, ¬ fails' e)
      ∧ h.Mirrors strict h''
  | _, .resolveCheck g, h' => h' = .resolveCheck g
  | _, .delegate g, h' => h' = .delegate g
  | strict, .dispatch produces, h' => ∃ produces', h' = .dispatch produces'
      ∧ ∀ messages messages', produces messages → produces' messages' →
        MessagesMirror strict messages messages'
  | strict, .union (n := n) child, h' => ∃ child' : Fin n → Handler Goal, h' = .union child'
      ∧ ∀ i, (child i).Mirrors strict (child' i)
  | strict, .intersection (n := n) child, h' => ∃ child' : Fin n → Handler Goal,
      h' = .intersection child' ∧ ∀ i, (child i).Mirrors strict (child' i)
  | strict, .exclusion base subtract, h' => ∃ base' subtract', h' = .exclusion base' subtract'
      ∧ base.Mirrors strict base' ∧ subtract.Mirrors true subtract'

/-! ### The outcomes are repeated -/

/-- A response without a cycle that is carried over: one that allows, or any if it is mirrored
strictly. -/
def Carried (strict : Bool) (resp : Response) : Prop :=
  resp.cycleDetected = false ∧ (resp.allowed = true ∨ strict = true)

theorem carried_granted (strict : Bool) : Carried strict { allowed := true } := ⟨rfl, .inl rfl⟩

theorem carried_denied : Carried true { allowed := false } := ⟨rfl, .inr rfl⟩

/-- A response that does not allow is carried over only where it is mirrored strictly. -/
theorem Carried.strict {strict : Bool} {cycle : Bool}
    (h : Carried strict { allowed := false, cycleDetected := cycle }) :
    cycle = false ∧ strict = true :=
  ⟨h.1, h.2.resolve_left fun hallowed => nomatch hallowed⟩

variable {resp : Response}

section Outcome

variable {C C' : Checker Goal} {sched sched' : Schedules} {body body' : Goal → Formula Goal}
  {root : Goal} {strict : Bool} {visited : List Goal} {depth : ℕ}

variable {o' : Outcome}

/-- A union repeats what its operands repeat. -/
theorem sums_repeat {ι ι' : Type} {os : ι → Outcome} {os' : ι' → Outcome} {got : ι → Prop}
    {got' : ι' → Prop} (h : Sums os got (.ok resp)) (h' : Sums os' got' o')
    (hcarried : Carried strict resp)
    (hunflagged : ∀ j r, got' j → os' j = .ok r → r.allowed = true → r.cycleDetected = false)
    (hgrants : ∀ i, got i → os i = .ok { allowed := true } →
      ∃ j, got' j → os' j = .ok { allowed := true })
    (hdenials : strict = true → (∀ i, got i ∧ os i = .ok { allowed := false }) →
      ∀ j, got' j → os' j = .ok { allowed := false }) : o' = .ok resp := by
  rcases h with ⟨i, r, hgot, hi, hallowed, ⟨⟩⟩ | ⟨hall, hdenied, ⟨e, ⟨⟩, -⟩ | ⟨c, ⟨⟩, hok, hcycle⟩⟩
  · obtain rfl := Response.eq_of_unflagged hcarried.1 hallowed
    rcases h' with ⟨j, r', hgot', hj, hallowed', rfl⟩ | ⟨hall', hdenied', -⟩
    · rw [Response.eq_of_unflagged (hunflagged j r' hgot' hj hallowed') hallowed']
    · obtain ⟨j, hj⟩ := hgrants i hgot hi
      exact absurd ⟨_, hj (hall' j), rfl⟩ (hdenied' j)
  · obtain ⟨rfl, rfl⟩ := hcarried.strict
    have hfalse : ∀ i, os i = .ok { allowed := false } := by
      intro i
      obtain ⟨r, hr⟩ := hok i
      have hflag : r.cycleDetected = false := Bool.eq_false_iff.mpr fun hflag =>
        Bool.noConfusion (hcycle.mpr ⟨i, hr ▸ hflag⟩)
      rw [hr, Response.eq_of_unflagged hflag
        (Bool.eq_false_iff.mpr fun hallowed => hdenied i ⟨r, hr, hallowed⟩)]
    have hrepeats := hdenials rfl fun i => ⟨hall i, hfalse i⟩
    rcases h' with ⟨j, r', hgot', hj, -, rfl⟩
      | ⟨hall', -, ⟨e, rfl, j, e', hj⟩ | ⟨c, rfl, -, hcycle'⟩⟩
    · exact hj ▸ hrepeats j hgot'
    · cases hj ▸ hrepeats j (hall' j)
    · cases c with
      | false => rfl
      | true =>
        obtain ⟨j, hflag⟩ := hcycle'.mp rfl
        rw [hrepeats j (hall' j)] at hflag
        cases hflag

/-- Operands that must all be as wanted repeat what each of them repeats, if none of them reports a
cycle where the handler is mirrored strictly.  An operand that must not allow is mirrored
strictly. -/
theorem products_repeat {ι : Type} {want : ι → Bool} {os os' : ι → Outcome} {got got' : ι → Prop}
    (h : Products want os got (.ok resp)) (h' : Products want os' got' o')
    (hcarried : Carried strict resp)
    (hunflagged : ∀ i r, os' i = .ok r → got' i → strict = true → r.cycleDetected = false)
    (hrepeats : ∀ i r, os i = .ok r → got i → Carried (!want i || strict) r → got' i →
      os' i = .ok r) : o' = .ok resp := by
  rcases h with ⟨i, r, hgot, hi, hdenied, ⟨⟩⟩ | ⟨hall, -, ⟨e, ⟨⟩, -⟩ | ⟨⟨⟩, hok⟩⟩
  · obtain ⟨hflag, rfl⟩ := hcarried.strict
    have hr := Response.eq_of_unflagged hflag (hdenied.resolve_left (by simp [hflag]))
    rcases h' with ⟨j, r', hgot', hj, -, rfl⟩ | ⟨hall', hwanted, -⟩
    · rw [hunflagged j r' hj hgot' rfl, hflag]
    · -- the operand that refuted does so here too
      have hi' := hwanted i r (hrepeats i r hi hgot ⟨hflag, .inr (by simp)⟩ (hall' i))
      cases hw : want i <;> rw [hw] at hr hi' <;> cases hr.symm.trans hi'
  · have hwanted : ∀ i, got' i → os' i = .ok { allowed := want i } := fun i hgot' =>
      hrepeats i _ (hok i) (hall i) ⟨rfl, by cases want i <;> simp⟩ hgot'
    rcases h' with ⟨j, r', hgot', hj, hdenied, rfl⟩ | ⟨hall', -, ⟨e, rfl, j, e', hj⟩ | ⟨ho', -⟩⟩
    · obtain rfl := Except.ok.inj (hj.symm.trans (hwanted j hgot'))
      exact absurd hdenied (by simp)
    · cases hj.symm.trans (hwanted j (hall' j))
    · exact ho'

/-- **The outcome is repeated.**  Where the first checker, in a context that is alive, returns a
response that is carried over, every run of the second one returns the same. -/
theorem mirrors_outcome (hdepths : C'.maxResolutionDepth = C.maxResolutionDepth)
    (hC : C.Follows body) (hC' : C'.Follows body') (hacyclic : SubtractAcyclicFrom body' root)
    (hmirror : ∀ g, Relation.ReflTransGen (Refers body) root g →
      (C.rewrite g).Mirrors false (C'.rewrite g))
    (hstrict : ∀ g, Relation.ReflTransGen (Refers body) root g → Subtracted body root g →
      (C.rewrite g).Mirrors true (C'.rewrite g))
    {alive : Bool} (halive : alive = true) {h h' : Handler Goal} {o : Outcome}
    (ho : Evaluates C sched [] alive visited depth h o)
    (ho' : Evaluates C' sched' [] true visited depth h' o')
    (hh : h.Mirrors strict h') {f f' : Formula Goal} (hf : h.Follows f) (hf' : h'.Follows f')
    (hplaced : Placed body root strict visited f) (hplaced' : Placed body' root strict visited f')
    (hresp : o = .ok resp) (hcarried : Carried strict resp) : o' = .ok resp := by
  have hempty : Decided body' [] := fun g resp hmem => absurd hmem List.not_mem_nil
  -- a run of the second checker that allows reports no cycle, and below a subtract side none does
  have hgrant : ∀ {visited depth h' o'}, Evaluates C' sched' [] true visited depth h' o' →
      ∀ {f'}, h'.Follows f' → ∀ {r}, o' = .ok r → r.allowed = true → r.cycleDetected = false :=
    fun ho' _ hf' _ hr => (evaluates_decides hC' hempty ho' (safe_alive sched') hf' hr).1
  have hbelow : ∀ {visited depth h' o'}, Evaluates C' sched' [] true visited depth h' o' →
      ∀ {f'}, h'.Follows f' → Placed body' root true visited f' → ∀ {r}, o' = .ok r →
        r.cycleDetected = false :=
    fun ho' _ hf' hp _ hr =>
      (evaluates_yields hC' ho' (safe_alive sched') hf' hr).unflagged hempty hacyclic hp
  induction ho generalizing strict h' o' f f' resp with
  | cancelled => cases halive
  | read ho =>
    obtain ⟨returns', rfl, hreturns⟩ := hh
    subst hresp
    cases ho' with
    | read ho'' => exact hreturns resp ho hcarried.2 _ ho''
  | openFails | depthExceeded | fewOperands => cases hresp
  | opened _ ih =>
    obtain ⟨fails', h'', rfl, hfails, hh⟩ := hh
    cases ho' with
    | openFails he => exact absurd he (hfails _)
    | opened ho' => exact ih halive ho' hh hf hf' hplaced hplaced' hresp hcarried
  | @cycle _ _ _ g _ _ =>
    cases hresp
    exact absurd hcarried.1 (by simp)
  | @rewrite alive visited depth g o hdepth hg _ ih =>
    obtain rfl := hh
    obtain rfl := hf
    obtain rfl := hf'
    cases ho' with
    | depthExceeded hdepth' => exact absurd (hdepth'.trans hdepths) hdepth
    | cycle _ hg' => exact absurd hg' hg
    | rewrite _ _ ho' =>
      have hreach := hplaced.reached g rfl
      have hbody : (C.rewrite g).Mirrors strict (C'.rewrite g) := by
        cases strict with
        | false => exact hmirror g hreach
        | true => exact hstrict g hreach (hplaced.below rfl g rfl)
      exact ih halive ho' hbody (hC g) (hC' g) hplaced.rewrite hplaced'.rewrite hresp hcarried
  | hit hmem => exact absurd hmem List.not_mem_nil
  | miss _ ih =>
    obtain rfl := hh
    cases ho' with
    | hit hmem => exact absurd hmem List.not_mem_nil
    | miss ho' => exact ih halive ho' rfl hf hf' hplaced hplaced' hresp hcarried
  | @dispatch _ _ _ produces checks s o hproduces hrun hs _ ih =>
    obtain ⟨produces', rfl, hmessages⟩ := hh
    obtain ⟨n, child, rfl, hof⟩ := hf
    obtain ⟨n', child', rfl, hof'⟩ := hf'
    subst hresp
    cases ho' with
    | @dispatch _ _ _ _ checks' s' _ hproduces' hrun' hs' hchecks' =>
      have hmem : ∀ {m o''} {checks : List (DispatchMsg Goal × Outcome)}, (m, o'') ∈ checks →
          m ∈ checks.map Prod.fst := fun hcheck => List.mem_map.mpr ⟨_, hcheck, rfl⟩
      -- a check that both dispatch
      have hsame : ∀ {g o o'' r}, (.dispatchParams g, o) ∈ checks → o ∈ s.received → o = .ok r →
          Carried strict r → (.dispatchParams g, o'') ∈ checks' → o'' ∈ s'.received → o'' = .ok r :=
        fun hcheck hgot hr hcarried hcheck' hgot' => ih _ _ hcheck hgot rfl
          (hchecks' _ _ hcheck' hgot') rfl rfl rfl (hplaced.message (hof _ hproduces) (hmem hcheck))
          (hplaced'.message (hof' _ hproduces') (hmem hcheck')) hr hcarried
      obtain ⟨hgrants, hdenials⟩ := hmessages _ _ hproduces hproduces'
      refine sums_repeat (dispatch_answer hrun hs) (dispatch_answer hrun' hs') hcarried ?_ ?_ ?_
      · rintro ⟨⟨m, o''⟩, hcheck'⟩ r hgot' hr hallowed
        cases m with
        | err | shortCircuit => cases hr <;> rfl
        | dispatchParams g => exact hgrant (hchecks' g _ hcheck' hgot') rfl hr hallowed
      · rintro ⟨⟨m, o⟩, hcheck⟩ hgot hr
        by_cases hshort' : .shortCircuit ∈ checks'.map Prod.fst
        · obtain ⟨o'', hcheck'⟩ := exists_check hshort'
          exact ⟨⟨_, hcheck'⟩, fun _ => rfl⟩
        obtain ⟨hshort, hdispatched⟩ := hgrants hshort'
        cases m with
        | err => cases hr
        | shortCircuit => exact absurd (hmem hcheck) hshort
        | dispatchParams g =>
          obtain ⟨o'', hcheck'⟩ := exists_check (hdispatched g (hmem hcheck))
          exact ⟨⟨_, hcheck'⟩, fun hgot' =>
            hsame hcheck hgot hr (carried_granted strict) hcheck' hgot'⟩
      · rintro rfl hfalse ⟨⟨m, o''⟩, hcheck'⟩ hgot'
        obtain ⟨herr', hshort', hback⟩ := hdenials rfl
          (fun e he => by obtain ⟨o, hcheck⟩ := exists_check he; cases (hfalse ⟨_, hcheck⟩).2)
          (fun he => by obtain ⟨o, hcheck⟩ := exists_check he; cases (hfalse ⟨_, hcheck⟩).2)
        cases m with
        | err e => exact absurd (hmem hcheck') (herr' e)
        | shortCircuit => exact absurd (hmem hcheck') hshort'
        | dispatchParams g =>
          obtain ⟨o, hcheck⟩ := exists_check (hback g (hmem hcheck'))
          obtain ⟨hgot, ho⟩ := hfalse ⟨_, hcheck⟩
          exact hsame hcheck hgot ho carried_denied hcheck' hgot'
  | @union _ _ _ n child os s o hrun hs _ ih =>
    obtain ⟨child', rfl, hchild⟩ := hh
    obtain ⟨fs, rfl, hfs⟩ := hf
    obtain ⟨fs', rfl, hfs'⟩ := hf'
    subst halive hresp
    cases ho' with
    | @union _ _ _ _ _ os' s' _ hrun' hs' hos' =>
      have hsame : ∀ i {r}, os i ∈ s.received → os i = .ok r → Carried strict r →
          os' i ∈ s'.received → os' i = .ok r := fun i _ hgot hi hr hgot' =>
        ih i hgot rfl (hos' i hgot') (hchild i) (hfs i) (hfs' i) (hplaced.any i) (hplaced'.any i) hi hr
      rcases union_answer hrun (safe_alive sched) hs with ⟨⟨⟩, -⟩ | hsums
      rcases union_answer hrun' (safe_alive sched') hs' with ⟨⟨⟩, -⟩ | hsums'
      refine sums_repeat hsums hsums' hcarried
        (fun i r hgot hi => hgrant (hos' i hgot) (hfs' i) hi)
        (fun i hgot hi => ⟨i, hsame i hgot hi (carried_granted strict)⟩) ?_
      rintro rfl hfalse i
      exact hsame i (hfalse i).1 (hfalse i).2 carried_denied
  | @intersection _ _ _ n child os s o hn hrun hs _ ih =>
    obtain ⟨child', rfl, hchild⟩ := hh
    obtain ⟨fs, rfl, hfs⟩ := hf
    obtain ⟨fs', rfl, hfs'⟩ := hf'
    subst halive hresp
    cases ho' with
    | fewOperands hn' => exact absurd hn' (Nat.not_lt.mpr hn)
    | @intersection _ _ _ _ _ os' s' _ _ hrun' hs' hos' =>
      rcases intersection_answer hrun (safe_alive sched) hs with ⟨⟨⟩, -⟩ | hprod
      rcases intersection_answer hrun' (safe_alive sched') hs' with ⟨⟨⟩, -⟩ | hprod'
      refine products_repeat hprod hprod' hcarried (fun i r hi hgot hstrict => ?_)
        fun i r hi hgot hr hgot' => ?_
      · subst hstrict
        exact hbelow (hos' i hgot) (hfs' i) (hplaced'.all i) hi
      · exact ih i hgot rfl (hos' i hgot') (hchild i) (hfs i) (hfs' i) (hplaced.all i)
          (hplaced'.all i) hi hr
  | @exclusion _ _ _ base subtract ob osub s o hrun hs _ _ ihb ihs =>
    obtain ⟨base', subtract', rfl, hhb, hhs⟩ := hh
    obtain ⟨fb, fs, rfl, hfb, hfs⟩ := hf
    obtain ⟨fb', fs', rfl, hfb', hfs'⟩ := hf'
    subst halive hresp
    cases ho' with
    | @exclusion _ _ _ _ _ ob' osub' s' _ hrun' hs' hbase' hsub' =>
      rcases exclusion_answer hrun hs with ⟨⟨⟩, -⟩ | hprod
      rcases exclusion_answer hrun' hs' with ⟨⟨⟩, -⟩ | hprod'
      refine products_repeat hprod hprod' hcarried ?_ ?_
      · rintro (_ | _) r hi hgot rfl
        · exact hbelow (hbase' hgot) hfb' hplaced'.base hi
        · exact hbelow (hsub' hgot) hfs' hplaced'.subtract hi
      · rintro (_ | _) r hi hgot hr hgot'
        · exact ihb hgot rfl (hbase' hgot') hhb hfb hfb' hplaced.base hplaced'.base hi hr
        · exact ihs hgot rfl (hsub' hgot') hhs hfs hfs' hplaced.subtract hplaced'.subtract hi hr

end Outcome

end Kengen.Graph
