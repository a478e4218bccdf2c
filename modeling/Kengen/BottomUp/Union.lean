import Kengen.Iterator.Trace

/-!
# The union of the bottom-up evaluation

`resolveUnion` of `bottom_up.go` merges any number of sorted iterators.  Every
round looks at the heads in index order and keeps the smallest one so far; a
head equal to it is advanced on the spot.  Then the smallest head is emitted
and its iterator advances.  An iterator that is done or fails leaves the
merge; the last error is sent after all values.

An iterator in the merge is a `Slot`: its index, its head and what follows.

* **`Round`** — what one round does to the slots, proved from the two advances it
  makes (`Round.of_scanned`).
* **`resolveUnion_spec`** — the output is a sorted stream with exactly the values
  of the operands; a value is repeated at most as often as in the operand that
  repeats it most, and exactly as often when there are at most two operands.
-/

namespace Kengen

open SortedList List

variable {α : Type}

/-- An active iterator: its index among the operands, its head and the rest. -/
structure Slot (α : Type) where
  idx : ℕ
  value : α
  rest : Trace α

/-- `handleError`: the last error that is no cancellation is kept. -/
def keepError (e : Err) (lastError : Option Err) : Option Err :=
  if e.isCancelled then lastError else some e

/-- Advance a slot; `none` when it leaves the merge. -/
def Slot.advance (s : Slot α) (lastError : Option Err) : Option (Slot α) × Option Err :=
  match s.rest with
  | [] => (none, lastError)
  | .error e :: _ => (none, keepError e lastError)
  | .ok v :: rest => (some { s with value := v, rest := rest }, lastError)

section

variable [LinearOrder α] [Inhabited α]

/-- The inner loop of a round: the slots that stay active, the smallest head with
its index, and the last error. -/
def scanHeads : List (Slot α) → Option (α × ℕ) → Option Err →
    List (Slot α) × Option (α × ℕ) × Option Err
  | [], least, lastError => ([], least, lastError)
  | s :: slots, none, lastError =>
    let (rest, result) := scanHeads slots (some (s.value, s.idx)) lastError
    (s :: rest, result)
  | s :: slots, some (minValue, minIndex), lastError =>
    if s.value < minValue then
      let (rest, result) := scanHeads slots (some (s.value, s.idx)) lastError
      (s :: rest, result)
    else if s.value = minValue then
      let (s', lastError') := s.advance lastError
      let (rest, result) := scanHeads slots (some (minValue, minIndex)) lastError'
      (s'.toList ++ rest, result)
    else
      let (rest, result) := scanHeads slots (some (minValue, minIndex)) lastError
      (s :: rest, result)

/-- Advance the slot that held the smallest head. -/
def advanceIndex (minIndex : ℕ) : List (Slot α) → Option Err → List (Slot α) × Option Err
  | [], lastError => ([], lastError)
  | s :: slots, lastError =>
    if s.idx = minIndex then
      let (s', lastError') := s.advance lastError
      (s'.toList ++ slots, lastError')
    else
      let (rest, lastError') := advanceIndex minIndex slots lastError
      (s :: rest, lastError')

/-- The rounds of `resolveUnion`. -/
def unionLoop : ℕ → List (Slot α) → Batcher α → Option Err → List (Msg α)
  | 0, _, batch, lastError => batch.close lastError
  | fuel + 1, slots, batch, lastError =>
    match scanHeads slots none lastError with
    | (_, none, lastError') => batch.close lastError'
    | (slots', some (minValue, minIndex), lastError') =>
      let (slots'', lastError'') := advanceIndex minIndex slots' lastError'
      unionLoop fuel slots'' (batch.add minValue) lastError''

/-- The first value of each iterator. -/
def openSlots : ℕ → List (Trace α) → Option Err → List (Slot α) × Option Err
  | _, [], lastError => ([], lastError)
  | idx, [] :: iters, lastError => openSlots (idx + 1) iters lastError
  | idx, (.error e :: _) :: iters, lastError => openSlots (idx + 1) iters (keepError e lastError)
  | idx, (.ok v :: rest) :: iters, lastError =>
    let (slots, lastError') := openSlots (idx + 1) iters lastError
    (⟨idx, v, rest⟩ :: slots, lastError')

/-- `resolveUnion`. -/
def resolveUnion (iters : List (Trace α)) : List (Msg α) :=
  let (slots, lastError) := openSlots 0 iters none
  unionLoop ((iters.map List.length).sum + 1) slots newBatcher lastError

end

/-! ### One slot -/

/-- The values a slot still has, its head first. -/
def Slot.values (s : Slot α) : List α := s.value :: traceValues s.rest

/-- The error a slot ends with. -/
def Slot.pending (s : Slot α) : Option Err := traceError s.rest

theorem Slot.value_mem (s : Slot α) : s.value ∈ s.values := by simp [Slot.values]

/-- The last error after a slot has left the merge. -/
def errorAfter (pending lastError : Option Err) : Option Err :=
  match pending with
  | some e => some e
  | none => lastError

/-- An error has been met or will be. -/
def hasError (slots : List (Slot α)) (lastError : Option Err) : Prop :=
  lastError.isSome ∨ ∃ s ∈ slots, s.pending.isSome

theorem hasError_cons (s : Slot α) (slots : List (Slot α)) (lastError : Option Err) :
    hasError (s :: slots) lastError ↔ s.pending.isSome ∨ hasError slots lastError := by
  simp only [hasError, exists_mem_cons_iff]
  tauto

/-! ### Advancing some of the slots -/

/-- What becomes of a slot when those with an index in `A` advance. -/
def Slot.after (A : List ℕ) (s : Slot α) : Option (Slot α) :=
  if s.idx ∈ A then (s.advance none).1 else some s

theorem Slot.advance_fst (s : Slot α) (lastError : Option Err) :
    (s.advance lastError).1 = (s.advance none).1 := by
  unfold Slot.advance
  split <;> rfl

theorem Slot.after_idx {A : List ℕ} {s s' : Slot α} (h : s.after A = some s') : s'.idx = s.idx := by
  unfold Slot.after Slot.advance at h
  split at h
  · split at h <;> cases h
    rfl
  · cases h
    rfl

theorem indices_sublist (A : List ℕ) (slots : List (Slot α)) :
    ((slots.filterMap (Slot.after A)).map Slot.idx).Sublist (slots.map Slot.idx) := by
  induction slots with
  | nil => exact List.Sublist.refl _
  | cons s slots ih =>
    cases h : s.after A with
    | none => simpa [filterMap_cons, h] using ih.cons s.idx
    | some => simpa [filterMap_cons, h, Slot.after_idx h] using ih.cons_cons s.idx

/-- An index that no slot has changes nothing. -/
theorem filterMap_after_cons {a : ℕ} {slots : List (Slot α)} (ha : a ∉ slots.map Slot.idx)
    (A : List ℕ) : slots.filterMap (Slot.after (a :: A)) = slots.filterMap (Slot.after A) :=
  filterMap_congr fun s hs => by
    have hne : s.idx ≠ a := fun h => ha (h ▸ mem_map_of_mem hs)
    simp [Slot.after, hne]

theorem filterMap_after_nil (slots : List (Slot α)) : slots.filterMap (Slot.after []) = slots := by
  rw [filterMap_congr (g := some) fun s _ => by simp [Slot.after], filterMap_some]

/-- Slots advanced one after the other. -/
theorem filterMap_after {A : List ℕ} {i : ℕ} (hi : i ∉ A) (slots : List (Slot α)) :
    (slots.filterMap (Slot.after A)).filterMap (Slot.after [i])
      = slots.filterMap (Slot.after (i :: A)) := by
  rw [filterMap_filterMap]
  refine filterMap_congr fun s _ => ?_
  by_cases hA : s.idx ∈ A
  · have hne : s.idx ≠ i := fun h => hi (h ▸ hA)
    have hlist : s.after (i :: A) = s.after A := by simp [Slot.after, hne]
    rw [hlist]
    cases h : s.after A with
    | none => rfl
    | some => simp [Slot.after, Slot.after_idx h, hne]
  · simp [Slot.after, hA]

/-! ### Slots of sorted streams -/

variable [LinearOrder α] [Inhabited α]

/-- A slot that reads a sorted stream. -/
def Slot.Good (s : Slot α) : Prop :=
  ∃ ys e, s.rest = streamTrace ys e ∧ SortedStream (s.value :: ys) e

theorem Slot.Good.sorted {s : Slot α} (h : s.Good) : s.values.Pairwise (· ≤ ·) := by
  obtain ⟨_, e, hrest, hs⟩ := h
  simpa [Slot.values, hrest] using hs.sorted

theorem Slot.Good.nonzero {s : Slot α} (h : s.Good) : s.value ≠ default := by
  obtain ⟨_, e, -, hs⟩ := h
  exact hs.nonzero s.value (by simp)

theorem Slot.Good.errorAfter_proper {s : Slot α} (h : s.Good) {lastError : Option Err}
    (hle : ∀ e ∈ lastError, e.isCancelled = false) :
    ∀ e ∈ errorAfter s.pending lastError, e.isCancelled = false := by
  obtain ⟨_, e, hrest, hs⟩ := h
  have hpending : s.pending = e := by simp [Slot.pending, hrest]
  rw [hpending]
  cases e with
  | none => exact hle
  | some => exact hs.proper

/-- How many values the slots still have. -/
def slotsSize (slots : List (Slot α)) : ℕ := (slots.map fun s => s.values.length).sum

/-- `s'` is `s` one value later. -/
structure Slot.Later (s s' : Slot α) : Prop where
  good : s'.Good
  values : s.values = s.value :: s'.values
  pending : s'.pending = s.pending

/-- **What advancing a slot does**: it drops the head, or the slot leaves with its error. -/
theorem Slot.advance_cases (s : Slot α) (h : s.Good) (lastError : Option Err) :
    (∃ s' : Slot α, s.advance lastError = (some s', lastError) ∧ s.Later s')
    ∨ (s.advance lastError = (none, errorAfter s.pending lastError) ∧ s.values = [s.value]) := by
  obtain ⟨ys, e, hrest, hs⟩ := h
  cases ys with
  | nil =>
    right
    cases e with
    | none => simp [Slot.advance, Slot.pending, Slot.values, hrest, traceError, errorAfter,
        traceValues]
    | some e =>
      have hcancel : e.isCancelled = false := hs.proper e rfl
      simp [Slot.advance, Slot.pending, Slot.values, hrest, traceError, errorAfter, traceValues,
        keepError, hcancel, Except.toOption]
  | cons y ys =>
    left
    refine ⟨⟨s.idx, y, streamTrace ys e⟩, ?_, ⟨ys, e, rfl, hs.tail⟩, ?_, ?_⟩
    · simp [Slot.advance, hrest]
    · simp [Slot.values, hrest, traceValues, Except.toOption]
    · simp [Slot.pending, hrest, traceError]

section

variable {A : List ℕ} {slots : List (Slot α)}

theorem Slot.after_cases {s : Slot α} (h : s.Good) (hA : s.idx ∈ A) :
    (∃ s', s.after A = some s' ∧ s.Later s') ∨ (s.after A = none ∧ s.values = [s.value]) := by
  rw [Slot.after, if_pos hA]
  rcases s.advance_cases h none with ⟨s', hadv, hlater⟩ | ⟨hadv, hval⟩
  · exact .inl ⟨s', by rw [hadv], hlater⟩
  · exact .inr ⟨by rw [hadv], hval⟩

/-- A slot stands for itself or for the same slot one value earlier. -/
theorem Slot.of_after (hgood : ∀ s ∈ slots, s.Good) {s' : Slot α}
    (hs' : s' ∈ slots.filterMap (Slot.after A)) :
    ∃ s ∈ slots, (s.idx ∉ A ∧ s' = s) ∨ (s.idx ∈ A ∧ s.Later s') := by
  obtain ⟨s, hs, hafter⟩ := mem_filterMap.mp hs'
  refine ⟨s, hs, ?_⟩
  by_cases hA : s.idx ∈ A
  · rcases Slot.after_cases (hgood s hs) hA with ⟨t, ht, hlater⟩ | ⟨hnone, -⟩
    · exact .inr ⟨hA, Option.some.inj (ht.symm.trans hafter) ▸ hlater⟩
    · cases hnone.symm.trans hafter
  · rw [Slot.after, if_neg hA] at hafter
    exact .inl ⟨hA, (Option.some.inj hafter).symm⟩

theorem Slot.good_after (hgood : ∀ s ∈ slots, s.Good) :
    ∀ s ∈ slots.filterMap (Slot.after A), s.Good := by
  intro s' hs'
  obtain ⟨s, hs, ⟨-, rfl⟩ | ⟨-, hlater⟩⟩ := Slot.of_after hgood hs'
  · exact hgood s' hs
  · exact hlater.good

/-- Advancing slots only removes values. -/
theorem Slot.values_sublist (hgood : ∀ s ∈ slots, s.Good) {s' : Slot α}
    (hs' : s' ∈ slots.filterMap (Slot.after A)) : ∃ s ∈ slots, s'.values.Sublist s.values := by
  obtain ⟨s, hs, ⟨-, rfl⟩ | ⟨-, hlater⟩⟩ := Slot.of_after hgood hs'
  · exact ⟨s', hs, List.Sublist.refl _⟩
  · exact ⟨s, hs, hlater.values ▸ sublist_cons_self _ _⟩

theorem slotsSize_after (hgood : ∀ s ∈ slots, s.Good) :
    slotsSize (slots.filterMap (Slot.after A)) + (slots.filter (·.idx ∈ A)).length
      = slotsSize slots := by
  induction slots with
  | nil => rfl
  | cons s slots ih =>
    obtain ⟨hs, hgood⟩ := forall_mem_cons.mp hgood
    have hrest := ih hgood
    simp only [slotsSize] at hrest ⊢
    by_cases hA : s.idx ∈ A
    · rcases Slot.after_cases hs hA with ⟨_, hafter, hlater⟩ | ⟨hafter, hval⟩
      · simp [hafter, hA, hlater.values]
        omega
      · simp [hafter, hA, hval]
        omega
    · simp [Slot.after, hA]
      omega

/-- Errors are kept, and they are no cancellations. -/
def Errors (slots slots' : List (Slot α)) (lastError lastError' : Option Err) : Prop :=
  (hasError slots' lastError' ↔ hasError slots lastError)
    ∧ ((∀ e ∈ lastError, e.isCancelled = false) → ∀ e ∈ lastError', e.isCancelled = false)

variable {slots' : List (Slot α)} {s : Slot α} {lastError lastError' : Option Err}

omit [LinearOrder α] [Inhabited α] in
theorem Errors.cons (h : Errors slots slots' lastError lastError') :
    Errors (s :: slots) (s :: slots') lastError lastError' :=
  ⟨by rw [hasError_cons, hasError_cons, h.1], h.2⟩

theorem Errors.advance (hs : s.Good) (h : Errors slots slots' (s.advance lastError).2 lastError') :
    Errors (s :: slots) ((s.advance lastError).1.toList ++ slots') lastError lastError' := by
  rcases s.advance_cases hs lastError with ⟨_, hadv, hlater⟩ | ⟨hadv, -⟩
  · rw [hadv] at h ⊢
    exact ⟨by simp [hasError_cons, hlater.pending, h.1], h.2⟩
  · rw [hadv] at h ⊢
    refine ⟨?_, h.2 ∘ hs.errorAfter_proper⟩
    cases hp : s.pending <;> simpa [hasError_cons, hasError, errorAfter, hp] using h.1

/-- Indices are distinct, so the holder alone is advanced. -/
theorem advanceIndex_spec (i : ℕ) (lastError : Option Err) (hgood : ∀ s ∈ slots, s.Good)
    (hnodup : (slots.map Slot.idx).Nodup) :
    ∃ lastError', advanceIndex i slots lastError = (slots.filterMap (Slot.after [i]), lastError')
      ∧ Errors slots (slots.filterMap (Slot.after [i])) lastError lastError' := by
  induction slots with
  | nil => exact ⟨lastError, rfl, Iff.rfl, id⟩
  | cons s slots ih =>
    obtain ⟨hs, hgood⟩ := forall_mem_cons.mp hgood
    rw [map_cons, nodup_cons] at hnodup
    by_cases hi : s.idx = i
    · subst hi
      have hlist : (s :: slots).filterMap (Slot.after [s.idx])
          = (s.advance lastError).1.toList ++ slots := by
        rw [filterMap_cons, filterMap_after_cons hnodup.1, filterMap_after_nil, s.advance_fst]
        cases h : (s.advance none).1 <;> simp [Slot.after, h]
      rw [hlist]
      exact ⟨_, by simp [advanceIndex], Errors.advance hs ⟨Iff.rfl, id⟩⟩
    · obtain ⟨lastError', hout, herrors⟩ := ih hgood hnodup.2
      have hlist : (s :: slots).filterMap (Slot.after [i]) = s :: slots.filterMap (Slot.after [i]) := by
        simp [Slot.after, hi]
      rw [hlist]
      exact ⟨lastError', by simp [advanceIndex, hi, hout], herrors.cons⟩

end

/-! ### One round -/

/-- What the inner loop finds among the slots: it advances those in `A`; the least head `m` is that
of the slot with index `i`. -/
structure Scanned (slots : List (Slot α)) (A : List ℕ) (m : α) (i : ℕ) : Prop where
  holder : ∃ h ∈ slots, h.idx = i ∧ h.value = m
  holder_kept : i ∉ A
  least : ∀ s ∈ slots, m ≤ s.value
  covered : ∀ s ∈ slots, s.idx ∈ A → ∃ t ∈ slots, t.idx ∉ A ∧ t.value = s.value
  equal : ∀ s ∈ slots, s.value = m → s.idx ∈ A ∨ s.idx = i

section

variable {slots slots' : List (Slot α)} {A : List ℕ} {m : α} {i : ℕ} {t : Slot α}

omit [Inhabited α] in
/-- A slot with a larger head is left alone. -/
theorem Scanned.insert_kept (h : Scanned slots A m i)
    (hmem : ∀ s, s ∈ slots' ↔ s = t ∨ s ∈ slots) (htA : t.idx ∉ A) (hlt : m < t.value) :
    Scanned slots' A m i := by
  have hsub : ∀ s ∈ slots, s ∈ slots' := fun s hs => (hmem s).mpr (.inr hs)
  refine ⟨?_, h.holder_kept, ?_, ?_, ?_⟩
  · obtain ⟨u, hu, hui⟩ := h.holder
    exact ⟨u, hsub u hu, hui⟩
  · intro s hs
    rcases (hmem s).mp hs with rfl | hs
    · exact hlt.le
    · exact h.least s hs
  · intro s hs hsA
    rcases (hmem s).mp hs with rfl | hs
    · exact absurd hsA htA
    · obtain ⟨u, hu, huA⟩ := h.covered s hs hsA
      exact ⟨u, hsub u hu, huA⟩
  · intro s hs hsm
    rcases (hmem s).mp hs with rfl | hs
    · exact absurd hsm hlt.ne'
    · exact h.equal s hs hsm

omit [Inhabited α] in
/-- A slot whose head is also that of a slot left alone is advanced on the spot. -/
theorem Scanned.insert_equal (h : Scanned slots A m i)
    (hmem : ∀ s, s ∈ slots' ↔ s = t ∨ s ∈ slots) (ht : t.idx ∉ slots.map Slot.idx)
    {p : Slot α} (hp : p ∈ slots) (hpA : p.idx ∉ A) (heq : t.value = p.value) :
    Scanned slots' (t.idx :: A) m i := by
  have hsub : ∀ s ∈ slots, s ∈ slots' := fun s hs => (hmem s).mpr (.inr hs)
  have hne : ∀ s ∈ slots, s.idx ≠ t.idx := fun s hs hst => ht (hst ▸ mem_map_of_mem hs)
  obtain ⟨u, hu, rfl, hum⟩ := h.holder
  refine ⟨⟨u, hsub u hu, rfl, hum⟩, by simp [hne u hu, h.holder_kept], ?_, ?_, ?_⟩
  · intro s hs
    rcases (hmem s).mp hs with rfl | hs
    · exact heq ▸ h.least p hp
    · exact h.least s hs
  · intro s hs hsA
    rcases (hmem s).mp hs with rfl | hs
    · exact ⟨p, hsub p hp, by simp [hne p hp, hpA], heq.symm⟩
    · obtain ⟨v, hv, hvA, hvs⟩ := h.covered s hs (by simpa [hne s hs] using hsA)
      exact ⟨v, hsub v hv, by simp [hne v hv, hvA], hvs⟩
  · intro s hs hsm
    rcases (hmem s).mp hs with rfl | hs
    · exact .inl (by simp)
    · exact (h.equal s hs hsm).imp_left (mem_cons_of_mem _)

end

/-- **The inner loop of a round**, after it has found `p` to have the smallest head so far.  The
induction is on the slots, for every such `p`. -/
theorem scanHeads_spec (p : Slot α) (slots : List (Slot α)) (lastError : Option Err)
    (hgood : ∀ s ∈ slots, s.Good) (hnodup : ((p :: slots).map Slot.idx).Nodup) :
    ∃ A m i lastError', A ⊆ slots.map Slot.idx ∧ Scanned (p :: slots) A m i
      ∧ scanHeads slots (some (p.value, p.idx)) lastError
        = (slots.filterMap (Slot.after A), some (m, i), lastError')
      ∧ Errors slots (slots.filterMap (Slot.after A)) lastError lastError' := by
  induction slots generalizing p lastError with
  | nil =>
    exact ⟨[], p.value, p.idx, lastError, by simp, ⟨by simp, by simp, by simp, by simp, by simp⟩,
      rfl, Iff.rfl, id⟩
  | cons s slots ih =>
    simp only [map_cons, nodup_cons, mem_cons, not_or] at hnodup
    obtain ⟨⟨hne, hp⟩, hs, hrest⟩ := hnodup
    obtain ⟨hsgood, hgood⟩ := forall_mem_cons.mp hgood
    have hkept : ∀ {A : List ℕ}, A ⊆ slots.map Slot.idx →
        (s :: slots).filterMap (Slot.after A) = s :: slots.filterMap (Slot.after A) := fun hA => by
      simp [Slot.after, show s.idx ∉ _ from fun h => hs (hA h)]
    rcases lt_trichotomy s.value p.value with hlt | heq | hgt
    · -- a new smallest head
      obtain ⟨A, m, i, e, hA, hscan, hout, herrors⟩ :=
        ih s lastError hgood (nodup_cons.mpr ⟨hs, hrest⟩)
      refine ⟨A, m, i, e, fun a ha => mem_cons_of_mem _ (hA ha), ?_, ?_, ?_⟩
      · exact hscan.insert_kept (fun t => mem_cons) (fun h => hp (hA h))
          ((hscan.least s mem_cons_self).trans_lt hlt)
      · simp [scanHeads, hlt, hout, hkept hA]
      · exact hkept hA ▸ herrors.cons
    · obtain ⟨A, m, i, e, hA, hscan, hout, herrors⟩ :=
        ih p (s.advance lastError).2 hgood (nodup_cons.mpr ⟨hp, hrest⟩)
      have hlist : (s :: slots).filterMap (Slot.after (s.idx :: A))
          = (s.advance lastError).1.toList ++ slots.filterMap (Slot.after A) := by
        rw [filterMap_cons, filterMap_after_cons hs, s.advance_fst]
        cases h : (s.advance none).1 <;> simp [Slot.after, h]
      refine ⟨s.idx :: A, m, i, e, ?_, ?_, ?_, ?_⟩
      · exact cons_subset.mpr ⟨mem_cons_self, fun a ha => mem_cons_of_mem _ (hA ha)⟩
      · exact hscan.insert_equal (by simp [or_left_comm]) (by simp [Ne.symm hne, hs]) mem_cons_self
          (fun h => hp (hA h)) heq
      · simp [scanHeads, heq, hout, hlist]
      · exact hlist ▸ herrors.advance hsgood
    · obtain ⟨A, m, i, e, hA, hscan, hout, herrors⟩ :=
        ih p lastError hgood (nodup_cons.mpr ⟨hp, hrest⟩)
      refine ⟨A, m, i, e, fun a ha => mem_cons_of_mem _ (hA ha), ?_, ?_, ?_⟩
      · exact hscan.insert_kept (by simp [or_left_comm]) (fun h => hs (hA h))
          ((hscan.least p mem_cons_self).trans_lt hgt)
      · simp [scanHeads, hgt.not_gt, hgt.ne', hout, hkept hA]
      · exact hkept hA ▸ herrors.cons

/-- One round of the union, from the slots `slots` to the slots `slots'`, emitting `m`. -/
structure Round (slots slots' : List (Slot α)) (m : α) (lastError lastError' : Option Err) :
    Prop where
  good : ∀ s ∈ slots', s.Good
  nodup : (slots'.map Slot.idx).Nodup
  nonzero : m ≠ default
  least : ∀ s ∈ slots, ∀ o ∈ s.values, m ≤ o
  mem : ∀ o, (∃ s ∈ slots, o ∈ s.values) ↔ o = m ∨ ∃ s ∈ slots', o ∈ s.values
  count : ∀ o k, (∀ s ∈ slots, s.values.count o ≤ k) → ∀ s ∈ slots', s.values.count o ≤ k
  count_least : ∀ k, (∀ s ∈ slots, s.values.count m ≤ k + 1) → ∀ s ∈ slots', s.values.count m ≤ k
  length : slots'.length ≤ slots.length
  count_two : slots.length ≤ 2 → ∀ s ∈ slots, ∀ o, s.values.count o ≤ (if m == o then 1 else 0)
    ∨ ∃ s' ∈ slots', s.values.count o ≤ s'.values.count o + if m == o then 1 else 0
  error : hasError slots' lastError' ↔ hasError slots lastError
  proper : (∀ e ∈ lastError, e.isCancelled = false) → ∀ e ∈ lastError', e.isCancelled = false
  size : slotsSize slots' < slotsSize slots

/-- **The slots after a round**: those that the inner loop has advanced, and the holder `i` of the
least head `m`. -/
theorem Round.of_scanned {slots : List (Slot α)} {e e' : Option Err} {A : List ℕ} {m : α} {i : ℕ}
    (hgood : ∀ s ∈ slots, s.Good) (hnodup : (slots.map Slot.idx).Nodup)
    (hscan : Scanned slots A m i)
    (herrors : Errors slots (slots.filterMap (Slot.after (i :: A))) e e') :
    Round slots (slots.filterMap (Slot.after (i :: A))) m e e' := by
  obtain ⟨h, hmem, hidx, hval⟩ := hscan.holder
  have hholder : ∀ s ∈ slots, s.idx = i → s.value = m := fun s hs hsi =>
    inj_on_of_nodup_map hnodup hs hmem (hsi.trans hidx.symm) ▸ hval
  have hkept : ∀ s ∈ slots, s.idx ∉ i :: A → s ∈ slots.filterMap (Slot.after (i :: A)) :=
    fun s hs hA => mem_filterMap.mpr ⟨s, hs, if_neg hA⟩
  have hdrop : ∀ s ∈ slots, s.idx ∈ i :: A → s.values = [s.value]
      ∨ ∃ s' ∈ slots.filterMap (Slot.after (i :: A)), s.values = s.value :: s'.values := by
    intro s hs hA
    rcases Slot.after_cases (hgood s hs) hA with ⟨s', hafter, hlater⟩ | ⟨-, hone⟩
    · exact .inr ⟨s', mem_filterMap.mpr ⟨s, hs, hafter⟩, hlater.values⟩
    · exact .inl hone
  have hzero : ∀ s ∈ slots, s.value ≠ m → s.values.count m = 0 := fun s hs hne =>
    count_eq_zero_of_lt_head (hgood s hs).sorted (lt_of_le_of_ne (hscan.least s hs) hne.symm)
  refine ⟨Slot.good_after hgood, hnodup.sublist (indices_sublist _ _),
    hval ▸ (hgood h hmem).nonzero, fun s hs o ho =>
      (hscan.least s hs).trans (head_le_of_mem (hgood s hs).sorted ho), fun o => ⟨?_, ?_⟩, ?_, ?_,
    by simpa using (indices_sublist (i :: A) slots).length_le, ?_, herrors.1, herrors.2, ?_⟩
  · rintro ⟨s, hs, ho⟩
    by_cases hA : s.idx ∈ i :: A
    · -- a head that is dropped is the least one, or also the head of a slot that is kept
      have hhead : s.value = m ∨ ∃ t ∈ slots.filterMap (Slot.after (i :: A)), s.value ∈ t.values := by
        rcases mem_cons.mp hA with hsi | hA
        · exact .inl (hholder s hs hsi)
        · obtain ⟨u, hu, huA, huv⟩ := hscan.covered s hs hA
          by_cases hui : u.idx = i
          · exact .inl (huv ▸ hholder u hu hui)
          · exact .inr ⟨u, hkept u hu (by simp [hui, huA]), huv ▸ u.value_mem⟩
      rcases hdrop s hs hA with hone | ⟨s', hs', hvalues⟩
      · rw [hone, mem_singleton] at ho
        exact ho ▸ hhead
      · rw [hvalues, mem_cons] at ho
        exact ho.elim (fun ho => ho ▸ hhead) fun ho => .inr ⟨s', hs', ho⟩
    · exact .inr ⟨s, hkept s hs hA, ho⟩
  · rintro (rfl | ⟨s', hs', ho⟩)
    · exact ⟨h, hmem, hval ▸ h.value_mem⟩
    · obtain ⟨s, hs, hsub⟩ := Slot.values_sublist hgood hs'
      exact ⟨s, hs, hsub.mem ho⟩
  · intro o k hk s' hs'
    obtain ⟨s, hs, hsub⟩ := Slot.values_sublist hgood hs'
    exact (hsub.count_le o).trans (hk s hs)
  · intro k hk s' hs'
    obtain ⟨s, hs, ⟨hA, rfl⟩ | ⟨-, hlater⟩⟩ := Slot.of_after hgood hs'
    · have hne : s'.value ≠ m := fun hm => hA (by simpa [or_comm] using hscan.equal s' hs hm)
      rw [hzero s' hs hne]
      omega
    · have hks := hk s hs
      have hz := hzero s hs
      rw [hlater.values, count_cons] at hks hz
      by_cases hm : s.value = m
      · simp only [hm, beq_self_eq_true, if_true] at hks
        omega
      · have := hz hm
        omega
  · intro htwo s hs o
    by_cases hA : s.idx ∈ i :: A
    · -- with two slots the only one the inner loop can advance has the least head
      have hsm : s.value = m := by
        rcases mem_cons.mp hA with hsi | hA
        · exact hholder s hs hsi
        · obtain ⟨u, hu, huA, huv⟩ := hscan.covered s hs hA
          have hsh : s ≠ h := by rintro rfl; exact hscan.holder_kept (hidx ▸ hA)
          have hsu : s ≠ u := by rintro rfl; exact huA hA
          rw [← huv, mem_unique_of_length_le_two htwo hs hmem hu hsh hsu, hval]
      rcases hdrop s hs hA with hone | ⟨s', hs', hvalues⟩
      · exact .inl (by rw [hone, hsm, count_cons, count_nil, Nat.zero_add])
      · exact .inr ⟨s', hs', by rw [hvalues, hsm, count_cons]⟩
    · exact .inr ⟨s, hkept s hs hA, Nat.le_add_right _ _⟩
  · have hpos : 0 < (slots.filter (·.idx ∈ i :: A)).length :=
      length_pos_of_mem (mem_filter.mpr ⟨hmem, by simp [hidx]⟩)
    have := slotsSize_after (A := i :: A) hgood
    omega

/-- **A round of the union** that finds active slots. -/
theorem unionLoop_round (fuel : ℕ) (slots : List (Slot α)) (batch : Batcher α)
    (lastError : Option Err) (hne : slots ≠ []) (hgood : ∀ s ∈ slots, s.Good)
    (hnodup : (slots.map Slot.idx).Nodup) :
    ∃ slots' m lastError', Round slots slots' m lastError lastError'
      ∧ unionLoop (fuel + 1) slots batch lastError
        = unionLoop fuel slots' (batch.add m) lastError' := by
  obtain ⟨s, rest, rfl⟩ := exists_cons_of_ne_nil hne
  obtain ⟨A, m, i, e, hA, hscan, hout, herrors⟩ :=
    scanHeads_spec s rest lastError (forall_mem_cons.mp hgood).2 hnodup
  have hlist : (s :: rest).filterMap (Slot.after A) = s :: rest.filterMap (Slot.after A) := by
    simp [Slot.after, show s.idx ∉ A from fun h => (nodup_cons.mp hnodup).1 (hA h)]
  obtain ⟨e', hout', herrors'⟩ := advanceIndex_spec i e (Slot.good_after (A := A) hgood)
    (hnodup.sublist (indices_sublist A (s :: rest)))
  rw [filterMap_after hscan.holder_kept] at hout' herrors'
  have hall := hlist ▸ herrors.cons (s := s)
  refine ⟨_, m, e', Round.of_scanned hgood hnodup hscan
    ⟨herrors'.1.trans hall.1, herrors'.2 ∘ hall.2⟩, ?_⟩
  simp only [unionLoop, scanHeads, hout, ← hlist, hout']

/-! ### The whole union -/

/-- What a union of active slots sends after `before`. -/
structure UnionOut (t before : Trace α) (slots : List (Slot α)) (lastError : Option Err)
    (zs : List α) (err : Option Err) : Prop where
  eq : t = before ++ streamTrace zs err
  stream : SortedStream zs err
  mem : ∀ o, o ∈ zs ↔ ∃ s ∈ slots, o ∈ s.values
  count_le : ∀ o k, (∀ s ∈ slots, s.values.count o ≤ k) → zs.count o ≤ k
  count_two : slots.length ≤ 2 → ∀ s ∈ slots, ∀ o, s.values.count o ≤ zs.count o
  error : err.isSome ↔ hasError slots lastError

theorem unionLoop_done (fuel : ℕ) (batch : Batcher α) (lastError : Option Err)
    (hproper : ∀ e ∈ lastError, e.isCancelled = false) :
    ∃ zs err, UnionOut (fromChannel (unionLoop fuel [] batch lastError)) batch.trace
      ([] : List (Slot α)) lastError zs err := by
  have hclose : unionLoop fuel [] batch lastError = batch.close lastError := by
    cases fuel <;> rfl
  refine ⟨[], lastError, ?_, ⟨by simp, by simp, hproper⟩, by simp, by simp, by simp,
    by simp [hasError]⟩
  rw [hclose, Batcher.fromChannel_close batch lastError hproper]

/-- **The rounds of the union.**  The induction is on the fuel; the invariant is that
the slots' values are what is still to come out. -/
theorem unionLoop_spec (fuel : ℕ) (slots : List (Slot α)) (batch : Batcher α)
    (lastError : Option Err) (hgood : ∀ s ∈ slots, s.Good) (hnodup : (slots.map Slot.idx).Nodup)
    (hproper : ∀ e ∈ lastError, e.isCancelled = false) (hfuel : slotsSize slots ≤ fuel) :
    ∃ zs err, UnionOut (fromChannel (unionLoop fuel slots batch lastError)) batch.trace slots
      lastError zs err := by
  induction fuel generalizing slots batch lastError with
  | zero =>
    cases slots with
    | nil => exact unionLoop_done 0 batch lastError hproper
    | cons => simp [slotsSize, Slot.values] at hfuel
  | succ fuel ih =>
    cases slots with
    | nil => exact unionLoop_done (fuel + 1) batch lastError hproper
    | cons s slots =>
      obtain ⟨slots', m, lastError', hr, heq⟩ :=
        unionLoop_round fuel (s :: slots) batch lastError (by simp) hgood hnodup
      have hsize := hr.size
      obtain ⟨zs, err, hout⟩ := ih slots' (batch.add m) lastError' hr.good hr.nodup
        (hr.proper hproper) (by omega)
      refine ⟨m :: zs, err, ?_, ⟨?_, ?_, hout.stream.proper⟩, ?_, ?_, ?_, ?_⟩
      · rw [heq, hout.eq, Batcher.add_trace batch m hr.nonzero]
        simp
      · refine pairwise_cons.mpr ⟨fun o ho => ?_, hout.stream.sorted⟩
        obtain ⟨t, ht, hto⟩ := (hr.mem o).mpr (.inr ((hout.mem o).mp ho))
        exact hr.least t ht o hto
      · intro x hx
        rcases mem_cons.mp hx with rfl | hx
        · exact hr.nonzero
        · exact hout.stream.nonzero x hx
      · intro o
        rw [hr.mem o, mem_cons, hout.mem o]
      · intro o k hk
        by_cases ho : m = o
        · subst ho
          obtain ⟨t, ht, htm⟩ := (hr.mem m).mpr (.inl rfl)
          have hpos : 0 < k := (count_pos_iff.mpr htm).trans_le (hk t ht)
          obtain ⟨k, rfl⟩ : ∃ k', k = k' + 1 := ⟨k - 1, by omega⟩
          rw [count_cons_self]
          have := hout.count_le m k (hr.count_least k hk)
          omega
        · rw [count_cons_of_ne ho]
          exact hout.count_le o k (hr.count o k hk)
      · intro htwo t ht o
        rw [count_cons]
        rcases hr.count_two htwo t ht o with hle | ⟨t', ht', hle⟩
        · exact hle.trans (Nat.le_add_left _ _)
        · exact hle.trans (Nat.add_le_add_right (hout.count_two (hr.length.trans htwo) t' ht' o) _)
      · rw [hout.error, hr.error]

/-- The slots that `openSlots` finds in operands that are sorted streams. -/
theorem openSlots_spec (idx : ℕ) (ops : List (List α × Option Err)) (lastError : Option Err)
    (hops : ∀ p ∈ ops, SortedStream p.1 p.2) (hproper : ∀ e ∈ lastError, e.isCancelled = false)
    (slots : List (Slot α)) (lastError' : Option Err)
    (hopen : openSlots idx (ops.map fun p => streamTrace p.1 p.2) lastError = (slots, lastError')) :
    (∀ s ∈ slots, s.Good) ∧ (∀ s ∈ slots, idx ≤ s.idx) ∧ (slots.map Slot.idx).Nodup
      ∧ (∀ e ∈ lastError', e.isCancelled = false)
      ∧ slots.map Slot.values = (ops.map Prod.fst).filter (· ≠ [])
      ∧ (hasError slots lastError' ↔ lastError.isSome ∨ ∃ p ∈ ops, p.2.isSome) := by
  induction ops generalizing idx lastError slots lastError' with
  | nil =>
    obtain ⟨rfl, rfl⟩ := Prod.mk.inj hopen
    exact ⟨by simp, by simp, by simp, hproper, by simp, by simp [hasError]⟩
  | cons p ops ih =>
    have hp := hops p (by simp)
    have hops' : ∀ q ∈ ops, SortedStream q.1 q.2 := fun q hq => hops q (mem_cons_of_mem _ hq)
    obtain ⟨xs, e⟩ := p
    cases xs with
    | nil =>
      have hproper' : ∀ e' ∈ errorAfter e lastError, e'.isCancelled = false := by
        cases e with
        | none => exact hproper
        | some => exact hp.proper
      have hopen' : openSlots (idx + 1) (ops.map fun p => streamTrace p.1 p.2)
          (errorAfter e lastError) = (slots, lastError') := by
        rw [← hopen]
        cases e with
        | none => rfl
        | some e => simp [openSlots, keepError, hp.proper e rfl, errorAfter]
      obtain ⟨hg, hi, hn, hpr, hv, he⟩ := ih (idx + 1) _ hops' hproper' slots lastError' hopen'
      refine ⟨hg, fun s hs => (Nat.le_succ idx).trans (hi s hs), hn, hpr, by simpa using hv, ?_⟩
      rw [he]
      cases e <;> simp [errorAfter]
    | cons x xs =>
      rcases hrest : openSlots (idx + 1) (ops.map fun p => streamTrace p.1 p.2) lastError
        with ⟨rest, lastError''⟩
      obtain ⟨rfl, rfl⟩ : (⟨idx, x, streamTrace xs e⟩ : Slot α) :: rest = slots
          ∧ lastError'' = lastError' := by
        simpa [openSlots, hrest] using hopen
      obtain ⟨hg, hi, hn, hpr, hv, he⟩ := ih (idx + 1) lastError hops' hproper rest _ hrest
      refine ⟨?_, ?_, ?_, hpr, ?_, ?_⟩
      · intro s hs
        rcases mem_cons.mp hs with rfl | hs
        · exact ⟨xs, e, rfl, hp⟩
        · exact hg s hs
      · intro s hs
        rcases mem_cons.mp hs with rfl | hs
        · exact le_refl idx
        · exact (Nat.le_succ idx).trans (hi s hs)
      · refine nodup_cons.mpr ⟨fun hmem => ?_, hn⟩
        obtain ⟨s, hs, hsi⟩ := mem_map.mp hmem
        have := hi s hs
        simp only at hsi
        omega
      · simpa [Slot.values] using hv
      · rw [hasError_cons, he]
        simp [Slot.pending, or_left_comm]

/-- **The union of sorted streams** is a sorted stream of their values.  A value is
repeated at most as often as in the operand that repeats it most, and exactly
as often when there are at most two operands.  It fails if an operand fails. -/
theorem resolveUnion_spec (ops : List (List α × Option Err))
    (hops : ∀ p ∈ ops, SortedStream p.1 p.2) :
    ∃ zs err, fromChannel (resolveUnion (ops.map fun p => streamTrace p.1 p.2))
        = streamTrace zs err
      ∧ SortedStream zs err ∧ (∀ o, o ∈ zs ↔ ∃ p ∈ ops, o ∈ p.1)
      ∧ (∀ o k, (∀ p ∈ ops, p.1.count o ≤ k) → zs.count o ≤ k)
      ∧ (ops.length ≤ 2 → ∀ p ∈ ops, ∀ o, p.1.count o ≤ zs.count o)
      ∧ (err.isSome ↔ ∃ p ∈ ops, p.2.isSome) := by
  rcases hopen : openSlots 0 (ops.map fun p => streamTrace p.1 p.2) none with ⟨slots, lastError⟩
  obtain ⟨hg, -, hn, hpr, hv, he⟩ :=
    openSlots_spec 0 ops none hops (by simp) slots lastError hopen
  -- the operands without values have no slot
  have hall : ∀ P : List α → Prop, P [] → ((∀ s ∈ slots, P s.values) ↔ ∀ p ∈ ops, P p.1) := by
    intro P hnil
    rw [← forall_mem_map, hv]
    simp only [mem_filter, forall_mem_map, and_imp, decide_eq_true_eq]
    exact forall₂_congr fun p _ => ⟨fun h => if hp : p.1 = [] then hp ▸ hnil else h hp, fun h _ => h⟩
  have hsize : slotsSize slots ≤ ((ops.map fun p => streamTrace p.1 p.2).map List.length).sum + 1 := by
    have hmap : slotsSize slots = ((ops.map Prod.fst).map List.length).sum := by
      rw [← length_flatten, ← flatten_filter_ne_nil, length_flatten, ← hv, slotsSize, map_map]
      rfl
    have hle : ((ops.map Prod.fst).map List.length).sum
        ≤ ((ops.map fun p => streamTrace p.1 p.2).map List.length).sum := by
      simp only [map_map]
      exact sum_le_sum fun p _ => length_le_streamTrace p.1 p.2
    omega
  obtain ⟨zs, err, hout⟩ := unionLoop_spec _ slots newBatcher lastError hg hn hpr hsize
  refine ⟨zs, err, ?_, hout.stream, ?_, ?_, ?_, ?_⟩
  · simpa [resolveUnion, hopen] using hout.eq
  · intro o
    rw [hout.mem o, ← not_iff_not]
    simpa using hall (o ∉ ·) not_mem_nil
  · exact fun o k hk => hout.count_le o k ((hall (count o · ≤ k) (by simp)).mpr hk)
  · intro htwo p hp o
    have hlen := congrArg List.length hv
    have hfilter := length_filter_le (fun l : List α => decide (l ≠ [])) (ops.map Prod.fst)
    simp only [length_map] at hlen hfilter
    exact (hall (count o · ≤ zs.count o) (by simp)).mp
      (fun s hs => hout.count_two (by omega) s hs o) p hp
  · rw [hout.error, he]
    simp

end Kengen
