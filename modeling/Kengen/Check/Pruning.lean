import Kengen.Check.Weight2

/-!
# Pruning in the weight-two strategy

While it looks for a value of both sides, `Weight2.execute` does not keep a value that is
not above the last value kept of the other side.  That value may be behind what the other
side has sent, since values that were dropped do not count.

The argument is the same for both sides.  A `Half` speaks of one side: what was received
and not kept does not come any more from the other one.  A value is dropped only below the
last value kept of the other side, which that side, in order, has passed.

* **`Apart.take`** — one more value of one side.
* `Looking` — the invariant of a search in which both sides may also send errors.
* **`returns_denial_iff`** — when exactly some interleaving denies without an error.
* **`execute_exact`** — without errors the search ends in every interleaving, and it allows exactly
  if the two sides share a value.
-/

namespace Kengen.Weight2

open Runs List

/-- One side: what was received of it, what is still to come, what is kept, and the last value
kept. -/
structure Side where
  done : List String
  rest : List String
  seen : List String
  last : String

/-- One side `a` as the other side `b` sees it. -/
structure Half (pruning : Bool) (a b : Side) : Prop where
  seen : ∀ v ∈ a.seen, v ∈ a.done
  last : a.last = "" ∨ a.last ∈ a.seen
  ordered : pruning = true → (a.done ++ a.rest).Pairwise (· ≤ ·)
  kept : a.seen = [] → a.done = []
  dropped : ∀ v ∈ a.done, v ∈ a.seen ∨ v ∉ b.rest

/-- **No match so far**, and none was made impossible. -/
structure Apart (pruning : Bool) (a b : Side) : Prop where
  left : Half pruning a b
  right : Half pruning b a
  disjoint : ∀ v ∈ a.done, v ∉ b.done

theorem Apart.symm {pruning : Bool} {a b : Side} (h : Apart pruning a b) : Apart pruning b a :=
  ⟨h.right, h.left, fun v hb ha => h.disjoint v ha hb⟩

variable {pruning : Bool} {a b : Side} {t : String} {rest : List String}

/-- **One more value of one side** that does not match.  It may be kept, and it may be dropped if it
is not above the last value kept of the other side and its own side has a value kept. -/
theorem Apart.take (h : Apart pruning a b) (hrest : a.rest = t :: rest) (hnew : t ∉ b.seen) :
    Apart pruning ⟨a.done ++ [t], rest, t :: a.seen, t⟩ b
    ∧ (pruning = true → a.last ≠ "" → b.last ≠ "" → t ≤ b.last →
      Apart pruning ⟨a.done ++ [t], rest, a.seen, a.last⟩ b) := by
  have hother : t ∉ b.done := by
    intro hb
    refine (h.right.dropped t hb).elim hnew fun hnot => hnot ?_
    simp [hrest]
  have hordered : pruning = true → ((a.done ++ [t]) ++ rest).Pairwise (· ≤ ·) := by
    intro hp
    simpa [hrest] using h.left.ordered hp
  have hdisjoint : ∀ v ∈ a.done ++ [t], v ∉ b.done := by
    intro v hv
    rcases mem_append.mp hv with hv | hv
    · exact h.disjoint v hv
    · rwa [mem_singleton.mp hv]
  have hright : ∀ v ∈ b.done, v ∈ b.seen ∨ v ∉ rest := fun v hv =>
    (h.right.dropped v hv).imp_right fun hnot hv' => hnot (by simp [hrest, hv'])
  have hb : Half pruning b ⟨a.done ++ [t], rest, a.seen, a.last⟩ :=
    ⟨h.right.seen, h.right.last, h.right.ordered, h.right.kept, hright⟩
  refine ⟨⟨⟨fun v hv => ?_, .inr (by simp), hordered, by simp, fun v hv => ?_⟩,
    ⟨hb.seen, hb.last, hb.ordered, hb.kept, hright⟩, hdisjoint⟩, fun hp hown hlast hle =>
    ⟨⟨fun v hv => mem_append_left _ (h.left.seen v hv), h.left.last, hordered, fun hseen => ?_,
      fun v hv => ?_⟩, hb, hdisjoint⟩⟩
  · rcases mem_cons.mp hv with rfl | hv
    · simp
    · exact mem_append_left _ (h.left.seen v hv)
  · rcases mem_append.mp hv with hv | hv
    · exact (h.left.dropped v hv).imp_left (mem_cons_of_mem _)
    · exact .inl (by simp [mem_singleton.mp hv])
  · have hkept : a.last ∈ a.seen := h.left.last.resolve_left hown
    rw [hseen] at hkept
    cases hkept
  · rcases mem_append.mp hv with hv | hv
    · exact h.left.dropped v hv
    · -- the other side has passed its last value, which is not below the dropped one
      rw [mem_singleton.mp hv]
      refine .inr fun hcome => hnew ?_
      have hkept : b.last ∈ b.seen := h.right.last.resolve_left hlast
      have hpassed : b.last ≤ t := (pairwise_append.mp (h.right.ordered hp)).2.2 _
        (h.right.seen _ hkept) _ hcome
      exact le_antisymm hpassed hle ▸ hkept

/-! ### The search -/

theorem traceError_append (t u : Trace String) :
    traceError (t ++ u) = none ↔ traceError t = none ∧ traceError u = none := by
  induction t with
  | nil => simp [traceError]
  | cons r t ih => cases r <;> simp [traceError, ih]

theorem eq_nil_of_values {u : Trace String} (hvalues : traceValues u = [])
    (herror : traceError u = none) : u = [] := by
  rcases u with _ | ⟨_ | v, u⟩
  · rfl
  · cases herror
  · cases hvalues

theorem error_not_mem {u : Trace String} {e : Err} (h : traceError u = none) : .error e ∉ u := by
  induction u with
  | nil => exact not_mem_nil
  | cons r u ih =>
    cases r with
    | error => cases h
    | ok v => simpa using ih h

theorem eq_none_of_errors {u w : Trace String} {err : Option Err} (hu : traceError u = none)
    (hw : traceError w = none) (h : ∀ e ∈ err, .error e ∈ u ∨ .error e ∈ w) : err = none :=
  Option.eq_none_iff_forall_not_mem.mpr fun e he => (h e he).elim (error_not_mem hu) (error_not_mem hw)

/-- The sides of a state, with what was received and what is still to come. -/
def State.leftSide (s : State) (done rest : List String) : Side :=
  ⟨done, rest, s.leftSeen, s.lastLeftVal⟩

@[inherit_doc State.leftSide]
def State.rightSide (s : State) (done rest : List String) : Side :=
  ⟨done, rest, s.rightSeen, s.lastRightVal⟩

/-- **The search may deny without an error**: one side sends nothing at all, or no side sends an error
and they share no value. -/
def Silent (lefts : List (Msg String)) (rights : Trace String) : Prop :=
  fromChannel lefts = [] ∨ rights = []
    ∨ traceError (fromChannel lefts) = none ∧ traceError rights = none
      ∧ ∀ v ∈ traceValues (fromChannel lefts), v ∉ traceValues rights

/-- What the search may return: a match, or a denial with an error of one of the sides, if there was
one so far. -/
def Answers (lefts : List (Msg String)) (rights : Trace String) (r : Bool × Option Err) : Prop :=
  (r = (true, none) ∧ ∃ v ∈ traceValues (fromChannel lefts), v ∈ traceValues rights)
    ∨ (r.1 = false ∧ (r.2 = none → Silent lefts rights)
      ∧ ∀ e ∈ r.2, .error e ∈ fromChannel lefts ∨ .error e ∈ rights)

/-- The error that is remembered, after these parts of the two sides. -/
def Remembers (doneL doneR : Trace String) (err : Option Err) : Prop :=
  (err = none → traceError doneL = none ∧ traceError doneR = none)
    ∧ ∀ e ∈ err, .error e ∈ doneL ∨ .error e ∈ doneR

/-- **The invariant of a search.**  An error that was received is remembered, and no match was lost.
A denial comes from a left side without values, or from the end of the right side. -/
structure Looking (pruning : Bool) (lefts : List (Msg String)) (rights : Trace String) (s : State) :
    Prop where
  calm : s.cancelled = false
  sides : s.result = none → ∃ doneL doneR,
    fromChannel lefts = doneL ++ fromChannel (remaining s.leftChan)
    ∧ rights = doneR ++ remaining s.rightChan ∧ Remembers doneL doneR s.lastErr
    ∧ Apart pruning
      (s.leftSide (traceValues doneL) (traceValues (fromChannel (remaining s.leftChan))))
      (s.rightSide (traceValues doneR) (traceValues (remaining s.rightChan)))
  answered : ∀ r ∈ s.result, Answers lefts rights r
  denied : ∀ err, s.result = some (false, err) →
    traceValues (fromChannel lefts) = [] ∨ s.rightChan = none

/-- Keeping a left value, or not. -/
theorem storeLeft_apart {s : State} {doneL doneR restR : List String}
    (h : Apart pruning (s.leftSide doneL (t :: rest)) (s.rightSide doneR restR))
    (hnew : t ∉ s.rightSeen) :
    ∃ seen last, s.storeLeft pruning t = { s with leftSeen := seen, lastLeftVal := last }
      ∧ Apart pruning ⟨doneL ++ [t], rest, seen, last⟩ (s.rightSide doneR restR) := by
  obtain ⟨hkeep, hdrop⟩ := h.take rfl hnew
  unfold State.storeLeft
  split
  · exact ⟨_, _, rfl, hkeep⟩
  · rename_i hprune
    simp only [Bool.or_eq_true, Bool.not_eq_true', beq_iff_eq, decide_eq_true_eq, not_or,
      Bool.not_eq_false, not_lt] at hprune
    exact ⟨_, _, rfl, hdrop hprune.1.1.1 hprune.1.1.2 hprune.1.2 hprune.2⟩

/-- Keeping a right value, or not. -/
theorem storeRight_apart {s : State} {doneL restL doneR : List String}
    (h : Apart pruning (s.leftSide doneL restL) (s.rightSide doneR (t :: rest)))
    (hnew : t ∉ s.leftSeen) :
    ∃ seen last, s.storeRight pruning t = { s with rightSeen := seen, lastRightVal := last }
      ∧ Apart pruning (s.leftSide doneL restL) ⟨doneR ++ [t], rest, seen, last⟩ := by
  obtain ⟨hkeep, hdrop⟩ := h.symm.take rfl hnew
  unfold State.storeRight
  split
  · exact ⟨_, _, rfl, hkeep.symm⟩
  · rename_i hprune
    simp only [Bool.or_eq_true, Bool.not_eq_true', beq_iff_eq, decide_eq_true_eq, not_or,
      Bool.not_eq_false, not_lt] at hprune
    exact ⟨_, _, rfl, (hdrop hprune.1.1.1 hprune.1.2 hprune.1.1.2 hprune.2).symm⟩

variable {doneL doneR : Trace String} {err : Option Err}

theorem Remembers.symm (h : Remembers doneL doneR err) : Remembers doneR doneL err :=
  ⟨fun hnone => (h.1 hnone).symm, fun e he => (h.2 e he).symm⟩

theorem Remembers.value (h : Remembers doneL doneR err) (v : String) :
    Remembers (doneL ++ [.ok v]) doneR err := by
  refine ⟨fun hnone => ⟨?_, (h.1 hnone).2⟩, fun e he => (h.2 e he).imp_left (mem_append_left _)⟩
  exact (traceError_append _ _).mpr ⟨(h.1 hnone).1, rfl⟩

theorem remembers_error (doneL doneR : Trace String) (e : Err) :
    Remembers (doneL ++ [.error e]) doneR (some e) := by
  refine ⟨nofun, fun e' he => .inl ?_⟩
  obtain rfl := Option.some.inj he
  simp

/-- **The loop over a left iterator** changes what is kept of the left side, remembers the errors, and
ends with a match or with all values of the iterator received. -/
theorem takeLeft_apart {rest restR : List String} (u : Trace String) (doneL : Trace String) (s : State)
    (h : Apart pruning (s.leftSide (traceValues doneL) (traceValues (untilCancelled u) ++ rest))
      (s.rightSide (traceValues doneR) restR))
    (herr : Remembers doneL doneR s.lastErr) :
    ∃ seen last err result, s.takeLeft pruning u
        = { s with leftSeen := seen, lastLeftVal := last, lastErr := err, result := result }
      ∧ (result = some (true, none)
          ∧ (∃ v ∈ traceValues (untilCancelled u), v ∈ traceValues doneR)
        ∨ result = s.result ∧ Remembers (doneL ++ untilCancelled u) doneR err
          ∧ Apart pruning ⟨traceValues (doneL ++ untilCancelled u), rest, seen, last⟩
            (s.rightSide (traceValues doneR) restR)) := by
  -- the iterator has ended, or a cancellation ends it
  have hend : ∀ (s : State) (doneL : Trace String),
      Apart pruning (s.leftSide (traceValues doneL) rest) (s.rightSide (traceValues doneR) restR) →
      Remembers doneL doneR s.lastErr → Remembers (doneL ++ []) doneR s.lastErr
        ∧ Apart pruning ⟨traceValues (doneL ++ []), rest, s.leftSeen, s.lastLeftVal⟩
          (s.rightSide (traceValues doneR) restR) := by
    intro s doneL h herr
    rw [append_nil]
    exact ⟨herr, h⟩
  induction u generalizing s doneL with
  | nil => exact ⟨_, _, _, _, rfl, .inr ⟨rfl, hend s doneL h herr⟩⟩
  | cons r u ih =>
    cases r with
    | error e =>
      rw [untilCancelled] at h ⊢
      rw [State.takeLeft]
      split at h <;> rename_i he
      · rw [if_pos he, if_pos he]
        exact ⟨_, _, _, _, rfl, .inr ⟨rfl, hend s doneL h herr⟩⟩
      · rw [if_neg he, if_neg he, append_cons]
        refine ih (doneL ++ [.error e]) { s with lastErr := some e } ?_ (remembers_error doneL doneR e)
        rw [traceValues_append]
        exact (append_nil (traceValues doneL)).symm ▸ h
    | ok v =>
      rw [untilCancelled] at h ⊢
      rw [State.takeLeft, append_cons]
      split
      · rename_i hmatch
        exact ⟨_, _, _, _, rfl, .inl ⟨rfl, v, mem_cons_self, h.right.seen v hmatch⟩⟩
      · rename_i hnew
        obtain ⟨seen₁, last₁, hstore, hnext⟩ := storeLeft_apart h hnew
        rw [hstore]
        obtain ⟨seen, last, err, result, heq, hres⟩ := ih (doneL ++ [.ok v])
          { s with leftSeen := seen₁, lastLeftVal := last₁ } (by rw [traceValues_append]; exact hnext)
          (herr.value v)
        refine ⟨seen, last, err, result, heq, hres.imp_left (.imp_right ?_)⟩
        rintro ⟨v', hv', hd⟩
        exact ⟨v', mem_cons_of_mem _ hv', hd⟩

/-- The steps that a channel still allows. -/
def chanSize {β : Type} : Option (List β) → ℕ
  | none => 0
  | some messages => messages.length + 1

/-- The steps that the search still allows. -/
def State.size (s : State) : ℕ :=
  chanSize s.leftChan + chanSize s.rightChan + if s.result.isNone then 1 else 0

variable {lefts : List (Msg String)} {rights : Trace String} {ctxErr : Err} {s s' : State}

/-- A search that denies returns the error that it remembers. -/
theorem answers_denial {restL restR : Trace String} (hleft : fromChannel lefts = doneL ++ restL)
    (hright : rights = doneR ++ restR) (herr : Remembers doneL doneR err)
    (hsilent : err = none → Silent lefts rights) : Answers lefts rights (false, err) := by
  refine .inr ⟨rfl, hsilent, fun e he => ?_⟩
  rw [hleft, hright]
  exact (herr.2 e he).imp (mem_append_left _) (mem_append_left _)

theorem looking_left (h : Looking pruning lefts rights s) (hresult : s.result = none)
    (hstep : s.left pruning ctxErr = some s') :
    Looking pruning lefts rights s' ∧ s'.size < s.size := by
  obtain ⟨doneL, doneR, hleft, hright, herr, hapart⟩ := h.sides hresult
  have hopen : ∀ err, s.result ≠ some (false, err) := fun err => by simp [hresult]
  unfold State.left at hstep
  split at hstep
  · cases hstep
  rename_i messages hchan
  rw [if_neg (by simp [h.calm])] at hstep
  rw [hchan] at hleft hapart
  split at hstep
  · -- the channel is closed
    have hsize : chanSize (none : Option (List (Msg String))) < chanSize s.leftChan := by
      simp [hchan, chanSize]
    split at hstep
    · rename_i hseen
      cases hstep
      have hnil : traceValues doneL = [] := hapart.left.kept (isEmpty_iff.mp hseen)
      have hall : fromChannel lefts = doneL := hleft.trans (append_nil doneL)
      refine ⟨⟨h.calm, by simp, ?_, fun _ _ => .inl (by rw [hall, hnil])⟩,
        by simp [State.size, hresult]; omega⟩
      rintro r ⟨⟩
      refine answers_denial hleft hright herr fun hnone => .inl ?_
      rw [hall]
      exact eq_nil_of_values hnil (herr.1 hnone).1
    · cases hstep
      exact ⟨⟨h.calm, fun _ => ⟨doneL, doneR, hleft, hright, herr, hapart⟩, h.answered,
        fun err he => absurd he (hopen err)⟩, by simp [State.size]; omega⟩
  · rename_i e messages
    cases hstep
    refine ⟨⟨h.calm, fun _ => ⟨doneL ++ [.error e], doneR,
      by simpa [remaining, fromChannel] using hleft, hright, remembers_error doneL doneR e, ?_⟩,
      h.answered, fun err he => absurd he (hopen err)⟩,
      by simp [State.size, hchan, chanSize]⟩
    rw [traceValues_append]
    exact (append_nil (traceValues doneL)).symm ▸ hapart
  · rename_i u messages
    cases hstep
    rw [remaining, Option.getD_some, fromChannel] at hleft hapart
    rw [traceValues_append] at hapart
    obtain ⟨seen, last, err, result, heq, hres⟩ :=
      takeLeft_apart u doneL { s with leftChan := some messages } hapart herr
    rw [heq]
    rw [← append_assoc] at hleft
    refine ⟨⟨h.calm, fun hr => ?_, fun r hr => ?_, fun err he => ?_⟩, ?_⟩
    · rcases hres with ⟨rfl, -⟩ | ⟨-, herr', hnext⟩
      · cases hr
      · exact ⟨doneL ++ untilCancelled u, doneR, hleft, hright, herr', hnext⟩
    · rcases hres with ⟨rfl, v, hv, hd⟩ | ⟨rfl, -⟩
      · cases hr
        exact .inl ⟨rfl, v, by simp [hleft, hv], by simp [hright, hd]⟩
      · exact absurd (hresult ▸ hr) (by simp)
    · rcases hres with ⟨rfl, -⟩ | ⟨rfl, -⟩
      · cases he
      · exact absurd he (hopen err)
    · have hlast : (if result.isNone then 1 else 0) ≤ 1 := by split <;> simp
      simp only [State.size, hchan, hresult, chanSize, length_cons, Option.isNone_none, if_true]
      omega

/-- A message of the right side, or its end. -/
theorem looking_right (h : Looking pruning lefts rights s) (hresult : s.result = none)
    (hstep : s.right pruning ctxErr = some s') :
    Looking pruning lefts rights s' ∧ s'.size < s.size := by
  obtain ⟨doneL, doneR, hleft, hright, herr, hapart⟩ := h.sides hresult
  have hopen : ∀ err, s.result ≠ some (false, err) := fun err => by simp [hresult]
  unfold State.right at hstep
  split at hstep
  · cases hstep
  rename_i messages hchan
  rw [if_neg (by simp [h.calm])] at hstep
  rw [hchan] at hright hapart
  split at hstep
  · have hsize : chanSize (none : Option (Trace String)) < chanSize s.rightChan := by
      simp [hchan, chanSize]
    split at hstep
    · rename_i hseen
      cases hstep
      have hall : rights = doneR := hright.trans (append_nil doneR)
      refine ⟨⟨h.calm, by simp, ?_, fun _ _ => .inr rfl⟩, by simp [State.size, hresult]; omega⟩
      rintro r ⟨⟩
      refine answers_denial hleft hright herr fun hnone => .inr (.inl ?_)
      rw [hall]
      exact eq_nil_of_values (hapart.right.kept (isEmpty_iff.mp hseen)) (herr.1 hnone).2
    · cases hstep
      exact ⟨⟨h.calm, fun _ => ⟨doneL, doneR, hleft, hright, herr, hapart⟩, h.answered,
        fun err he => absurd he (hopen err)⟩, by simp [State.size]; omega⟩
  · rename_i e messages
    cases hstep
    refine ⟨⟨h.calm, fun _ => ⟨doneL, doneR ++ [.error e], hleft, by simpa [remaining] using hright,
      (remembers_error doneR doneL e).symm, ?_⟩, h.answered, fun err he => absurd he (hopen err)⟩,
      by simp [State.size, hchan, chanSize]⟩
    rw [traceValues_append]
    exact (append_nil (traceValues doneR)).symm ▸ hapart
  · rename_i v messages
    have hdone : rights = (doneR ++ [.ok v]) ++ messages := by simpa [remaining] using hright
    have hsize : chanSize (some messages) < chanSize s.rightChan := by simp [hchan, chanSize]
    dsimp only at hstep
    split at hstep
    · rename_i hmatch
      cases hstep
      refine ⟨⟨h.calm, by simp, ?_, fun _ he => by cases he⟩, by simp [State.size, hresult]; omega⟩
      rintro r ⟨⟩
      have hv := hapart.left.seen v hmatch
      refine .inl ⟨rfl, v, ?_, ?_⟩
      · rw [hleft, traceValues_append]
        exact mem_append_left _ hv
      · rw [hdone, traceValues_append, traceValues_append]
        exact mem_append_left _ (mem_append_right _ mem_cons_self)
    · rename_i hnew
      cases hstep
      obtain ⟨seen, _, heq, hnext⟩ :=
        storeRight_apart (s := { s with rightChan := some messages }) hapart hnew
      rw [heq]
      refine ⟨⟨h.calm, fun _ => ⟨doneL, doneR ++ [.ok v], hleft, hdone, (herr.symm.value v).symm, ?_⟩,
        h.answered, fun err he => absurd he (hopen err)⟩, by simp [State.size]; omega⟩
      rw [traceValues_append]
      exact hnext

/-- **A step without a cancellation.** -/
theorem looking_step {c : Choice} (h : Looking pruning lefts rights s) (hc : c ≠ .cancel)
    (hstep : step pruning ctxErr s c = some s') :
    Looking pruning lefts rights s' ∧ s'.size < s.size := by
  unfold step at hstep
  split at hstep
  · cases hstep
  rename_i hnone
  have hresult : s.result = none := by simpa using hnone
  cases c with
  | cancel => exact absurd rfl hc
  | giveUp => simp [h.calm] at hstep
  | left => exact looking_left h hresult hstep
  | right => exact looking_right h hresult hstep
  | finish =>
    simp only [Bool.and_eq_true, Option.isNone_iff_eq_none] at hstep
    split_ifs at hstep with hclosed
    cases hstep
    obtain ⟨doneL, doneR, hleft, hright, herr, hapart⟩ := h.sides hresult
    rw [hclosed.1, remaining, Option.getD_none, fromChannel] at hleft
    rw [hclosed.2, remaining, Option.getD_none] at hright
    refine ⟨⟨h.calm, by simp, ?_, fun _ _ => .inr hclosed.2⟩, by simp [State.size, hresult]⟩
    rintro r ⟨⟩
    refine answers_denial hleft hright herr fun hnone => .inr (.inr ?_)
    rw [hleft, hright, append_nil, append_nil]
    exact ⟨(herr.1 hnone).1, (herr.1 hnone).2, hapart.disjoint⟩

theorem looking_start {rightIter : Trace String}
    (hleft : pruning = true → (traceValues (fromChannel lefts)).Pairwise (· ≤ ·))
    (hright : pruning = true → (traceValues (untilCancelled rightIter)).Pairwise (· ≤ ·)) :
    Looking pruning lefts (untilCancelled rightIter) (start lefts rightIter) :=
  ⟨rfl, fun _ => ⟨[], [], rfl, rfl, ⟨fun _ => ⟨rfl, rfl⟩, fun _ he => by cases he⟩,
    ⟨⟨by simp [State.leftSide, start], .inl rfl, hleft, fun _ => rfl,
        by simp [State.leftSide, traceValues]⟩,
      ⟨by simp [State.rightSide, start], .inl rfl, hright, fun _ => rfl,
        by simp [State.rightSide, traceValues]⟩,
      by simp [State.leftSide, traceValues]⟩⟩, by simp [start], by simp [start]⟩

/-- A search without an answer has a step to take. -/
theorem exists_step (h : Looking pruning lefts rights s) (hresult : s.result = none) :
    ∃ c, c ≠ .cancel ∧ (step pruning ctxErr s c).isSome := by
  cases hl : s.leftChan with
  | some =>
    refine ⟨.left, nofun, ?_⟩
    simp only [step, hresult, State.left, hl, h.calm, Option.isSome_none, Bool.false_eq_true,
      if_false]
    split
    · split <;> rfl
    · rfl
    · rfl
  | none =>
    cases hr : s.rightChan with
    | some =>
      refine ⟨.right, nofun, ?_⟩
      simp only [step, hresult, State.right, hr, h.calm, Option.isSome_none, Bool.false_eq_true,
        if_false]
      split
      · split <;> rfl
      · rfl
      · split <;> rfl
    | none => exact ⟨.finish, nofun, by simp [step, hresult, hl, hr]⟩

/-- **Every run without a cancellation** is bounded, can go on until it returns, and returns a match
or a denial that reports the errors. -/
theorem run_answers {rightIter : Trace String}
    (hleft : pruning = true → (traceValues (fromChannel lefts)).Pairwise (· ≤ ·))
    (hright : pruning = true → (traceValues (untilCancelled rightIter)).Pairwise (· ≤ ·))
    {choices : List Choice} (hcalm : Choice.cancel ∉ choices)
    (hrun : run (step pruning ctxErr) (start lefts rightIter) choices = some s) :
    choices.length ≤ lefts.length + (untilCancelled rightIter).length + 3
    ∧ (s.result = none → ∃ c, c ≠ .cancel ∧ (step pruning ctxErr s c).isSome)
    ∧ ∀ r ∈ s.result, Answers lefts (untilCancelled rightIter) r := by
  have hwithout : Along (step pruning ctxErr) (fun _ c => c ≠ .cancel) (start lefts rightIter)
      choices :=
    along_of_forall (fun _ c hc => ne_of_mem_of_not_mem hc hcalm) _
  have hstart : Looking pruning lefts (untilCancelled rightIter) (start lefts rightIter) :=
    looking_start hleft hright
  have hlooking := run_invariant (fun _ _ _ h hc hstep => (looking_step h hc hstep).1) hstart
    hwithout hrun
  have hlength := run_length_le_along (fun _ _ _ h hc hstep => looking_step h hc hstep) hstart
    hwithout hrun
  refine ⟨?_, exists_step hlooking, hlooking.answered⟩
  simp only [State.size, start, chanSize, Option.isNone_none, if_true] at hlength
  omega

/-! ### Denials without an error -/

/-- A left side that sends nothing leaves the search as it was, until its channel is closed. -/
theorem run_silent_left {messages : List (Msg String)} (hsilent : fromChannel messages = [])
    (hchan : s.leftChan = some messages) (hcalm : s.cancelled = false) (hresult : s.result = none)
    (hseen : s.leftSeen = []) (herr : s.lastErr = none) :
    (run (step pruning ctxErr) s (replicate (messages.length + 1) .left)).bind (·.result)
      = some (false, none) := by
  induction messages generalizing s with
  | nil => simp [run, step, State.left, hchan, hcalm, hresult, hseen, herr]
  | cons m messages ih =>
    cases m with
    | err e => cases hsilent
    | iter u =>
      obtain ⟨hu, hrest⟩ := append_eq_nil_iff.mp hsilent
      have htake : State.takeLeft pruning u { s with leftChan := some messages }
          = { s with leftChan := some messages } := by
        rcases u with _ | ⟨e | v, u⟩
        · rfl
        · rw [untilCancelled] at hu
          split at hu
          · rename_i he
            rw [State.takeLeft, if_pos he]
          · cases hu
        · cases hu
      have hstep : step pruning ctxErr s .left = some { s with leftChan := some messages } := by
        simp only [step, State.left, hchan]
        rw [if_neg (by simp [hresult]), if_neg (by simp [hcalm]), htake]
      rw [length_cons, replicate_succ, run, hstep]
      exact ih hrest rfl hcalm hresult hseen herr

/-- **When a search may deny without an error**: exactly if one side is silent, or there are no errors
and no match. -/
theorem returns_denial_iff {rightIter : Trace String}
    (hleft : pruning = true → (traceValues (fromChannel lefts)).Pairwise (· ≤ ·))
    (hright : pruning = true → (traceValues (untilCancelled rightIter)).Pairwise (· ≤ ·)) :
    (∃ choices, .cancel ∉ choices
        ∧ execute pruning ctxErr lefts rightIter choices = some (false, none))
      ↔ Silent lefts (untilCancelled rightIter) := by
  constructor
  · rintro ⟨choices, hcalm, hexec⟩
    obtain ⟨s, hrun, hs⟩ := Option.bind_eq_some_iff.mp hexec
    rcases (run_answers hleft hright hcalm hrun).2.2 _ hs with ⟨⟨⟩, -⟩ | ⟨-, hsilent, -⟩
    exact hsilent rfl
  · rintro (hnil | hnil | ⟨herrL, herrR, hdisjoint⟩)
    · refine ⟨replicate (lefts.length + 1) .left, by simp [mem_replicate], ?_⟩
      exact run_silent_left hnil rfl rfl rfl rfl rfl
    · refine ⟨[.right], by simp, ?_⟩
      simp [execute, run, step, State.right, start, hnil]
    · -- any run to the end will do
      have hprogress : ∀ s, Looking pruning lefts (untilCancelled rightIter) s →
          ¬ s.result.isSome → ∃ c s', c ≠ .cancel ∧ step pruning ctxErr s c = some s'
            ∧ Looking pruning lefts (untilCancelled rightIter) s' ∧ s'.size < s.size := by
        intro s h hopen
        obtain ⟨c, hc, hstep⟩ := @exists_step _ _ _ ctxErr _ h (by simpa using hopen)
        obtain ⟨s', hs'⟩ := Option.isSome_iff_exists.mp hstep
        exact ⟨c, s', hc, hs', looking_step h hc hs'⟩
      obtain ⟨choices, s, hcalm, hrun, hlooking, hend⟩ :=
        exists_run_to hprogress (looking_start hleft hright)
      obtain ⟨⟨allowed, err⟩, hr⟩ := Option.isSome_iff_exists.mp hend
      refine ⟨choices, fun hmem => hcalm _ hmem rfl, ?_⟩
      rw [execute, hrun, Option.bind_some, hr]
      rcases hlooking.answered _ hr with ⟨-, v, hv, hv'⟩ | ⟨hdenied, -, herr⟩
      · exact absurd hv' (hdisjoint v hv)
      · obtain rfl : allowed = false := hdenied
        obtain rfl : err = none := eq_none_of_errors herrL herrR herr
        rfl

/-! ### Searches without errors -/

/-- The left messages: one static iterator for each batch. -/
def batchMsgs (batches : List (List String)) : List (Msg String) :=
  batches.map fun batch => .iter (okTrace batch)

theorem fromChannel_batchMsgs (batches : List (List String)) :
    fromChannel (batchMsgs batches) = okTrace batches.flatten := by
  induction batches with
  | nil => rfl
  | cons batch batches ih =>
    rw [batchMsgs, map_cons, fromChannel, untilCancelled_ok, flatten_cons]
    rw [batchMsgs] at ih
    rw [ih]
    simp [okTrace]

/-- What a search that has ended must have returned. -/
def Answered (lefts : List (List String)) (rights : List String) (s : State) : Prop :=
  ∀ r ∈ s.result, r.2 = none ∧ (r.1 = true ↔ ∃ v ∈ lefts.flatten, v ∈ rights)

theorem traceError_okTrace (xs : List String) : traceError (okTrace xs) = none := by
  rw [← streamTrace_none, traceError_streamTrace]

/-- **Pruning loses no match.**  The left side is ascending, in any batches, and so is the right side
if its iterator says that it is in order.  A run without errors and cancellations takes a bounded
number of steps, can go on until it returns, and then it has returned without an error, and
`Allowed` exactly if the two sides share a value. -/
theorem execute_exact (pruning : Bool) (ctxErr : Err) (lefts : List (List String))
    (rights : List String) (hleft : lefts.flatten.Pairwise (· ≤ ·))
    (hright : pruning = true → rights.Pairwise (· ≤ ·)) (choices : List Choice)
    (hcalm : Choice.cancel ∉ choices) (s : State)
    (hrun : run (step pruning ctxErr) (start (batchMsgs lefts) (okTrace rights)) choices = some s) :
    choices.length ≤ lefts.length + rights.length + 3
    ∧ (s.result = none → ∃ c, c ≠ .cancel ∧ (step pruning ctxErr s c).isSome)
    ∧ Answered lefts rights s := by
  have hlefts := fromChannel_batchMsgs lefts
  have hrights := untilCancelled_ok rights
  obtain ⟨hlength, hprogress, hanswers⟩ := run_answers (fun _ => by rwa [hlefts, traceValues_okTrace])
    (fun hp => by rw [hrights, traceValues_okTrace]; exact hright hp) hcalm hrun
  refine ⟨by simpa [hrights, batchMsgs] using hlength, hprogress, fun r hr => ?_⟩
  have hanswer := hanswers r hr
  simp only [Answers, Silent, hlefts, hrights, traceValues_okTrace, traceError_okTrace] at hanswer
  rcases hanswer with ⟨rfl, hshared⟩ | ⟨hdenied, hsilent, herr⟩
  · exact ⟨rfl, iff_of_true rfl hshared⟩
  · have hnone : r.2 = none :=
      eq_none_of_errors (traceError_okTrace _) (traceError_okTrace _) herr
    refine ⟨hnone, iff_of_false (by simp [hdenied]) ?_⟩
    rintro ⟨v, hv, hv'⟩
    rcases hsilent hnone with hnil | hnil | ⟨-, -, hdisjoint⟩
    · rw [map_eq_nil_iff.mp hnil] at hv
      cases hv
    · rw [map_eq_nil_iff.mp hnil] at hv'
      cases hv'
    · exact hdisjoint v hv hv'

theorem execute_exact_lagging :
    ∃ s, run (step true .canceled) (start (batchMsgs [["a"], ["c", "d"]]) (okTrace ["b", "d"]))
        [.left, .right, .left, .right] = some s
      ∧ s.result = some (true, none) ∧ Answered [["a"], ["c", "d"]] ["b", "d"] s :=
  ⟨_, rfl, by decide, (execute_exact true .canceled _ _ (by decide)
    (fun _ => by decide) [.left, .right, .left, .right] (by decide) _ rfl).2.2⟩

end Kengen.Weight2
