import Kengen.Iterator.Trace

/-!
# The difference of the bottom-up evaluation

`resolveDifference` of `bottom_up.go` reads the sorted iterators of the base and
of the subtrahend by their heads and writes a channel of batches.  A failing
operand stops it; a subtrahend that is done leaves the rest of the base.

* **`resolveDifference_spec`** — the difference subtracts *multiplicities*: a
  value comes out as often as the base has it more often than the subtrahend.
  If the subtrahend ends in an error, only values below one of its own values
  come out.
-/

namespace Kengen

open SortedList List

variable {α : Type} [LinearOrder α] [Inhabited α]

/-- The `drainBase` loop: the base value is added, then the base advances. -/
def drainBase (batch : Batcher α) (value : α) : Trace α → List (Msg α)
  | [] => (batch.add value).close none
  | .error e :: _ => (batch.add value).close (some e)
  | .ok next :: rest => drainBase (batch.add value) next rest

/-- `skipTo`: the first value at or above the target and what follows it;
`inl none` is `ErrIteratorDone`. -/
def skipTo (target : α) : Trace α → (Option Err) ⊕ (α × Trace α)
  | [] => .inl none
  | .error e :: _ => .inl (some e)
  | .ok t :: rest => if target ≤ t then .inr (t, rest) else skipTo target rest

/-- The main loop of `resolveDifference`, with the two head values in hand. -/
def differenceLoop : ℕ → Batcher α → α → Trace α → α → Trace α → List (Msg α)
  | 0, batch, _, _, _, _ => batch.close none
  | fuel + 1, batch, base, baseRest, diff, diffRest =>
    if base = diff then
      -- both iterators advance
      match baseRest with
      | [] => batch.close none
      | .error e :: _ => batch.close (some e)
      | .ok base' :: baseRest' =>
        match diffRest with
        | [] => drainBase batch base' baseRest'
        | .error e :: _ =>
          if e.isCancelled then drainBase batch base' baseRest' else batch.close (some e)
        | .ok diff' :: diffRest' => differenceLoop fuel batch base' baseRest' diff' diffRest'
    else if base < diff then
      match baseRest with
      | [] => (batch.add base).close none
      | .error e :: _ => (batch.add base).close (some e)
      | .ok base' :: baseRest' => differenceLoop fuel (batch.add base) base' baseRest' diff diffRest
    else
      -- the subtrahend is behind and catches up with the base
      match skipTo base diffRest with
      | .inl none => drainBase batch base baseRest
      | .inl (some e) => if e.isCancelled then drainBase batch base baseRest else batch.close (some e)
      | .inr (diff', diffRest') => differenceLoop fuel batch base baseRest diff' diffRest'

/-- `resolveDifference` over the iterators of the operands that have a path to the
user: the base and, if it is there, the subtrahend. -/
def resolveDifference (iters : List (Trace α)) : List (Msg α) :=
  match iters with
  | [] => [.err .panicRequest]
  | [] :: _ => newBatcher.close none
  | (.error e :: _) :: _ => newBatcher.close (some e)
  | [.ok base :: baseRest] => drainBase newBatcher base baseRest
  | (.ok base :: baseRest) :: diff :: _ =>
    match diff with
    | [] => drainBase newBatcher base baseRest
    | .error e :: _ =>
      if e.isCancelled then drainBase newBatcher base baseRest else newBatcher.close (some e)
    | .ok d :: diffRest =>
      differenceLoop (baseRest.length + diffRest.length + 1) newBatcher base baseRest d diffRest

variable (batch : Batcher α)

theorem drainBase_spec (b : α) (xs : List α) (e : Option Err) (h : SortedStream (b :: xs) e) :
    fromChannel (drainBase batch b (streamTrace xs e)) = batch.trace ++ streamTrace (b :: xs) e := by
  induction xs generalizing b batch with
  | nil =>
    have hb : b ≠ default := h.nonzero b (by simp)
    cases e with
    | none => simp [drainBase, Batcher.fromChannel_close, Batcher.add_trace _ _ hb]
    | some e =>
      simp [drainBase, Batcher.fromChannel_close _ (some e) h.proper, Batcher.add_trace _ _ hb]
  | cons x xs ih =>
    have hb : b ≠ default := h.nonzero b (by simp)
    rw [streamTrace_cons, drainBase, ih (batch.add b) x h.tail, Batcher.add_trace _ _ hb]
    simp

omit [Inhabited α] in
theorem skipTo_spec (target : α) (ys : List α) (e : Option Err) :
    skipTo target (streamTrace ys e)
      = match ys.dropWhile fun y => decide (y < target) with
        | [] => .inl e
        | d :: rest => .inr (d, streamTrace rest e) := by
  induction ys with
  | nil => cases e <;> rfl
  | cons y ys ih =>
    by_cases hy : y < target
    · simp [skipTo, hy, not_le.mpr hy, ih]
    · simp [skipTo, not_lt.mp hy, hy]

/-- The subtrahend did not fail, or it has reached every value of the base. -/
def BaseEnds (xs ys : List α) (eS : Option Err) : Prop := eS = none ∨ ∀ o ∈ xs, ∃ p ∈ ys, o ≤ p

/-- What a difference of two sorted streams sends after `before`: a part of the base
with the multiplicities of `differenceCount`, then the error of the operand that ended it. -/
def DifferenceOut (t before : Trace α) (xs ys : List α) (eB eS : Option Err) : Prop :=
  ∃ zs err, t = before ++ streamTrace zs err ∧ zs.Sublist xs
    ∧ (∀ o, zs.count o = differenceCount o xs ys eS.isSome)
    ∧ (err = eB ∧ BaseEnds xs ys eS ∨ err = eS ∧ eS ≠ none)

/-- The base is drained when the subtrahend is done. -/
theorem drainBase_differenceOut (b : α) (xs : List α) (eB : Option Err)
    (h : SortedStream (b :: xs) eB) :
    DifferenceOut (fromChannel (drainBase batch b (streamTrace xs eB))) batch.trace
      (b :: xs) [] eB none :=
  ⟨b :: xs, eB, drainBase_spec batch b xs eB h, List.Sublist.refl _,
    fun o => by simp [differenceCount], .inl ⟨rfl, .inl rfl⟩⟩

omit [Inhabited α] in
/-- A difference that stops here sends nothing more. -/
theorem close_differenceOut (e : Option Err) (xs ys : List α)
    (eB eS : Option Err) (hproper : ∀ e' ∈ e, e'.isCancelled = false)
    (hcount : ∀ o, differenceCount o xs ys eS.isSome = 0)
    (he : e = eB ∧ BaseEnds xs ys eS ∨ e = eS ∧ eS ≠ none) :
    DifferenceOut (fromChannel (batch.close e)) batch.trace xs ys eB eS :=
  ⟨[], e, Batcher.fromChannel_close batch e hproper, nil_sublist _,
    fun o => by rw [hcount o]; rfl, he⟩

omit [Inhabited α] in
/-- Transfer along one iteration that takes the operands from `xs`, `ys` to `xs'`, `ys'`. -/
theorem DifferenceOut.step {t before : Trace α} {xs xs' ys ys' : List α} {eB eS : Option Err}
    (h : DifferenceOut t before xs' ys' eB eS) (hsub : xs'.Sublist xs)
    (hcount : ∀ o, differenceCount o xs ys eS.isSome = differenceCount o xs' ys' eS.isSome)
    (hpassed : ∀ o ∈ xs, o ∈ xs' ∨ o ∈ ys) (hys : ∀ p ∈ ys', p ∈ ys) :
    DifferenceOut t before xs ys eB eS := by
  obtain ⟨zs, err, heq, hzs, hc, herr⟩ := h
  refine ⟨zs, err, heq, hzs.trans hsub, fun o => by rw [hc o, hcount o],
    herr.imp_left (.imp_right (.imp_right fun hends o ho => ?_))⟩
  rcases hpassed o ho with ho | ho
  · obtain ⟨p, hp, hle⟩ := hends o ho
    exact ⟨p, hys p hp, hle⟩
  · exact ⟨o, ho, le_rfl⟩

/-- Transfer along one iteration that emits the base head `b`. -/
theorem DifferenceOut.emit {t : Trace α} {batch : Batcher α} {b d : α} {xs ys : List α}
    {eB eS : Option Err} (h : DifferenceOut t (batch.add b).trace xs (d :: ys) eB eS)
    (hb : b ≠ default) (hy : (d :: ys).Pairwise (· ≤ ·)) (hbd : b < d) :
    DifferenceOut t batch.trace (b :: xs) (d :: ys) eB eS := by
  obtain ⟨zs, err, heq, hzs, hc, herr⟩ := h
  refine ⟨b :: zs, err, ?_, hzs.cons_cons b, ?_, herr.imp_left (.imp_right (.imp_right
    fun hends => forall_mem_cons.mpr ⟨⟨d, by simp, hbd.le⟩, hends⟩))⟩
  · rw [heq, Batcher.add_trace batch b hb]
    simp
  · intro o
    rw [differenceCount_cons_of_lt hy hbd, count_cons, hc o]

/-- **The loop of the difference.**  The induction is on the fuel, which the two
remaining streams bound; each branch removes heads as the count lemmas say. -/
theorem differenceLoop_spec (fuel : ℕ) (batch : Batcher α) (b d : α) (xs ys : List α)
    (eB eS : Option Err) (hB : SortedStream (b :: xs) eB) (hS : SortedStream (d :: ys) eS)
    (hfuel : xs.length + ys.length < fuel) :
    DifferenceOut
      (fromChannel (differenceLoop fuel batch b (streamTrace xs eB) d (streamTrace ys eS)))
      batch.trace (b :: xs) (d :: ys) eB eS := by
  induction fuel generalizing batch b d xs ys with
  | zero => omega
  | succ fuel ih =>
    have hb : b ≠ default := hB.nonzero b (by simp)
    rcases lt_trichotomy b d with hlt | rfl | hgt
    · -- the base head is below the subtrahend's: it comes out and the base advances
      apply DifferenceOut.emit _ hb hS.sorted hlt
      cases xs with
      | nil =>
        have hclose : differenceLoop (fuel + 1) batch b (streamTrace [] eB) d (streamTrace ys eS)
            = (batch.add b).close eB := by
          cases eB <;> simp [differenceLoop, hlt, hlt.ne]
        rw [hclose]
        exact close_differenceOut _ eB _ _ eB eS hB.proper (by simp [differenceCount])
          (.inl ⟨rfl, .inr (by simp)⟩)
      | cons x xs =>
        simp only [differenceLoop, if_neg hlt.ne, if_pos hlt, streamTrace_cons]
        exact ih (batch.add b) x d xs ys hB.tail hS (by simp only [length_cons] at hfuel; omega)
    · -- equal heads: both sides advance
      cases xs with
      | nil =>
        have hclose : differenceLoop (fuel + 1) batch b (streamTrace [] eB) b (streamTrace ys eS)
            = batch.close eB := by
          cases eB <;> simp [differenceLoop]
        rw [hclose]
        refine close_differenceOut _ eB _ _ eB eS hB.proper (fun o => ?_)
          (.inl ⟨rfl, .inr (by simp)⟩)
        rw [differenceCount_cons_self hB.sorted]
        simp [differenceCount]
      | cons x xs =>
        have hstep : ∀ o, differenceCount o (b :: x :: xs) (b :: ys) eS.isSome
            = differenceCount o (x :: xs) ys eS.isSome :=
          fun o => differenceCount_cons_self hB.sorted o eS.isSome
        have hpassed : ∀ o ∈ b :: x :: xs, o ∈ x :: xs ∨ o ∈ b :: ys := fun o ho =>
          (mem_cons.mp ho).elim (fun h => .inr (by simp [h])) .inl
        cases ys with
        | nil =>
          cases eS with
          | none =>
            simp only [differenceLoop, streamTrace_cons, streamTrace_none, okTrace_nil, if_true]
            exact (drainBase_differenceOut batch x xs eB hB.tail).step (sublist_cons_self b _)
              hstep hpassed (by simp)
          | some e =>
            have hcancel : e.isCancelled = false := hS.proper e rfl
            simp only [differenceLoop, streamTrace_cons, streamTrace_nil_some, if_true, hcancel]
            refine close_differenceOut _ (some e) _ _ eB (some e) hS.proper (fun o => ?_)
              (.inr ⟨rfl, by simp⟩)
            rw [hstep o]
            simp [differenceCount]
        | cons y ys =>
          simp only [differenceLoop, streamTrace_cons, if_true]
          refine (ih batch x y xs ys hB.tail hS.tail ?_).step (sublist_cons_self b _) hstep
            hpassed fun p hp => mem_cons_of_mem b hp
          simp only [length_cons] at hfuel
          omega
    · -- the subtrahend is behind: it skips to the base head
      have hstep : ∀ o, differenceCount o (b :: xs) (d :: ys) eS.isSome
          = differenceCount o (b :: xs) (ys.dropWhile fun y => decide (y < b)) eS.isSome :=
        fun o => differenceCount_dropWhile hB.sorted hgt o eS.isSome
      have hsub := dropWhile_sublist (l := ys) fun y => decide (y < b)
      have hskip := skipTo_spec b ys eS
      generalize ys.dropWhile (fun y => decide (y < b)) = ws at hstep hsub hskip
      cases ws with
      | nil =>
        cases eS with
        | none =>
          simp only [differenceLoop, if_neg hgt.ne', if_neg hgt.not_gt, hskip]
          exact (drainBase_differenceOut batch b xs eB hB).step (List.Sublist.refl _) hstep
            (fun o ho => .inl ho) (by simp)
        | some e =>
          have hcancel : e.isCancelled = false := hS.proper e rfl
          simp only [differenceLoop, if_neg hgt.ne', if_neg hgt.not_gt, hskip, hcancel]
          refine close_differenceOut _ (some e) _ _ eB (some e) hS.proper (fun o => ?_)
            (.inr ⟨rfl, by simp⟩)
          rw [hstep o]
          simp [differenceCount]
      | cons d' rest =>
        simp only [differenceLoop, if_neg hgt.ne', if_neg hgt.not_gt, hskip]
        have hS' : SortedStream (d' :: rest) eS :=
          ⟨hS.tail.sorted.sublist hsub, fun x hx => hS.tail.nonzero x (hsub.mem hx), hS.proper⟩
        have hlen := hsub.length_le
        refine (ih batch b d' xs rest hB hS' ?_).step (List.Sublist.refl _) hstep
          (fun o ho => .inl ho) fun p hp => mem_cons_of_mem d (hsub.mem hp)
        simp only [length_cons] at hlen
        omega

/-- A difference without a subtrahend is its base. -/
theorem resolveDifference_base (xs : List α) (eB : Option Err) (hB : SortedStream xs eB) :
    fromChannel (resolveDifference [streamTrace xs eB]) = streamTrace xs eB := by
  cases xs with
  | nil => cases eB <;> simp [resolveDifference, Batcher.fromChannel_close, hB.proper]
  | cons b xs =>
    simp only [resolveDifference, streamTrace_cons]
    rw [drainBase_spec newBatcher b xs eB hB, newBatcher_trace, nil_append, streamTrace_cons]

/-- **The difference subtracts multiplicities.** -/
theorem resolveDifference_spec (xs ys : List α) (eB eS : Option Err) (hB : SortedStream xs eB)
    (hS : SortedStream ys eS) :
    DifferenceOut (fromChannel (resolveDifference [streamTrace xs eB, streamTrace ys eS])) []
      xs ys eB eS := by
  rw [← @newBatcher_trace α]
  cases xs with
  | nil =>
    have hclose : resolveDifference [streamTrace [] eB, streamTrace ys eS]
        = newBatcher.close eB := by
      cases eB <;> rfl
    rw [hclose]
    exact close_differenceOut _ eB _ _ eB eS hB.proper (by simp [differenceCount])
      (.inl ⟨rfl, .inr (by simp)⟩)
  | cons b xs =>
    cases ys with
    | nil =>
      cases eS with
      | none => exact drainBase_differenceOut newBatcher b xs eB hB
      | some e =>
        have hcancel : e.isCancelled = false := hS.proper e rfl
        simp only [resolveDifference, streamTrace_cons, streamTrace_nil_some, hcancel]
        exact close_differenceOut _ (some e) _ _ eB (some e) hS.proper (by simp [differenceCount])
          (.inr ⟨rfl, by simp⟩)
    | cons d ys =>
      have hx := length_le_streamTrace xs eB
      have hy := length_le_streamTrace ys eS
      simp only [resolveDifference, streamTrace_cons]
      exact differenceLoop_spec _ newBatcher b d xs ys eB eS hB hS (by omega)

end Kengen
