import Kengen.Lib.PoolSearch

/-!
# A search by a pool of goroutines comes to an end

Every step uses up something: an object that was not visited, an entry, a
message.  So all runs are finite.  A search that has no result yet can make a
step, with one exception: while the main routine still hands start objects to the
pool it does not receive, and if the channel is full and every goroutine wants to
send, nothing moves any more.

* **`weight_step`** — every step lowers a weight.
* **`progress`** — a search without a result can make a step, unless it is jammed.
* **`noError_step`** — without errors in the conditions there is no error in the result.
-/

namespace Kengen.PoolSearch

open List

variable {Id ε : Type}

/-! ### All runs are finite -/

/-- What is left to do in a frame. -/
def Frame.weight : Frame Id ε → ℕ
  | .reading _ rest _ _ => rest.length + 3
  | .sending _ => 2

section Marks

variable [DecidableEq Id]

/-- How many of the objects were not visited. -/
def unvisited (univ visited : List Id) : ℕ := (univ.filter fun x => decide (x ∉ visited)).length

/-- The entries of a search name objects of a list, and an object has at most `bound` entries. -/
structure Search.Bounded (S : Search Id ε) (univ : List Id) (bound : ℕ) : Prop where
  mem : ∀ x, ∀ p ∈ S.read x, p.1 ∈ univ
  length : ∀ x, (S.read x).length ≤ bound

/-- What is left to do. -/
def State.weight (univ : List Id) (bound : ℕ) (s : State Id ε) : ℕ :=
  (bound + 3) * unvisited univ s.visited + (s.frames.map Frame.weight).sum
    + (bound + 5) * s.pending.length + (if s.current.isSome then bound + 4 else 0)
    + s.buffer.length + (if s.result.isNone then 1 else 0)

theorem unvisited_cons_le (univ visited : List Id) (x : Id) :
    unvisited univ (x :: visited) ≤ unvisited univ visited := by
  unfold unvisited
  rw [← countP_eq_length_filter, ← countP_eq_length_filter]
  refine countP_mono_left fun y _ hy => ?_
  simp only [mem_cons, not_or, decide_eq_true_eq] at hy ⊢
  exact hy.2

/-- A new mark on one of the objects lowers the count. -/
theorem unvisited_cons_lt {univ visited : List Id} {x : Id} (hx : x ∈ univ) (hnew : x ∉ visited) :
    unvisited univ (x :: visited) < unvisited univ visited := by
  unfold unvisited
  induction univ with
  | nil => cases hx
  | cons y univ ih =>
    have hle : (univ.filter fun z => decide (z ∉ x :: visited)).length
        ≤ (univ.filter fun z => decide (z ∉ visited)).length := unvisited_cons_le univ visited x
    by_cases hy : y = x
    · subst hy
      simp only [filter_cons, mem_cons, true_or, not_true_eq_false, decide_false, hnew,
        not_false_eq_true, decide_true, if_true, length_cons, Bool.false_eq_true, if_false]
      simp only [mem_cons] at hle
      omega
    · have hlt := ih ((mem_cons.mp hx).resolve_left fun h => hy h.symm)
      simp only [mem_cons] at hlt
      by_cases hv : y ∈ visited
      · simpa [filter_cons, hy, hv] using hlt
      · simpa [filter_cons, hy, hv] using hlt

/-- What a move leaves to do is less than what it found. -/
theorem act_weight {S : Search Id ε} {univ : List Id} {bound : ℕ}
    (hb : S.Bounded univ bound) (visited : List Id) {f : Frame Id ε}
    (hf : ∀ id rest v e, f = .reading id rest v e → ∀ p ∈ rest, p.1 ∈ univ) :
    (bound + 3) * unvisited univ ((act S visited f).mark.toList ++ visited)
        + (((act S visited f).child.toList.map S.open).map Frame.weight).sum
        + ((act S visited f).frame.toList.map Frame.weight).sum
        + (act S visited f).message.toList.length
      < (bound + 3) * unvisited univ visited + f.weight := by
  have hacts := acts_act S visited f
  generalize act S visited f = eff at hacts
  cases hacts with
  | send | fail | done | pass =>
    simp [Frame.weight]
  | mark id x | found id x =>
    have hle := Nat.mul_le_mul_left (bound + 3) (unvisited_cons_le univ visited x)
    simp only [Option.toList_some, Option.toList_none, singleton_append, map_nil,
      map_cons, sum_nil, sum_cons, length_nil, Frame.weight, length_cons]
    omega
  | take id x rest v lastErr hx =>
    have hmem : x ∈ univ := hf _ _ _ _ rfl (x, .ok true) (by simp)
    have hlt : (bound + 3) * (unvisited univ (x :: visited) + 1)
        ≤ (bound + 3) * unvisited univ visited :=
      Nat.mul_le_mul_left _ (unvisited_cons_lt hmem hx)
    have hlen := hb.length x
    rw [Nat.mul_succ] at hlt
    simp only [Option.toList_some, Option.toList_none, singleton_append, map_nil,
      map_cons, sum_nil, sum_cons, length_nil, Frame.weight, length_cons,
      Search.open]
    omega

end Marks

/-- There is no goroutine without frames, and the frames are within the objects of the search. -/
structure Shaped (univ : List Id) (s : State Id ε) : Prop where
  nonempty : ∀ stack ∈ s.routines, stack ≠ []
  entries : ∀ id rest v e, .reading id rest v e ∈ s.frames → ∀ p ∈ rest, p.1 ∈ univ

theorem ne_nil_of_mem_keep {stack l : List (Frame Id ε)} (h : l ∈ keep stack) : l ≠ [] := by
  unfold keep at h
  split at h
  · cases h
  rename_i hne
  rw [mem_singleton.mp h]
  exact hne

/-- A move leaves no goroutine without frames. -/
theorem mem_place {S : Search Id ε} {before after : List (List (Frame Id ε))}
    {stack : List (Frame Id ε)} {eff : Effect Id ε} {l : List (Frame Id ε)}
    (h : l ∈ place S before after stack eff) : l ∈ before ∨ l ∈ after ∨ l ≠ [] := by
  unfold place at h
  dsimp only at h
  split at h
  · simp only [mem_append] at h
    rcases h with (h | h) | h
    · exact .inl h
    · exact .inr (.inr (ne_nil_of_mem_keep h))
    · exact .inr (.inl h)
  · split at h
    · simp only [mem_append, mem_singleton] at h
      rcases h with ((h | h) | h) | h
      · exact .inl h
      · exact .inr (.inr (ne_nil_of_mem_keep h))
      · exact .inr (.inl h)
      · exact .inr (.inr (by simp [h]))
    · simp only [mem_append, mem_cons] at h
      rcases h with h | h | h
      · exact .inl h
      · exact .inr (.inr (by simp [h]))
      · exact .inr (.inl h)

theorem drop_of_mem {l : List (List (Frame Id ε))} {x : List (Frame Id ε)} (h : x ∈ l) :
    ∃ i after, l.drop i = x :: after := by
  obtain ⟨before, after, rfl⟩ := append_of_mem h
  exact ⟨before.length, after, by simp⟩

/-- The conditions of a search are true or false. -/
def Search.Decided (S : Search Id ε) : Prop := ∀ x, ∀ p ∈ S.read x, ∀ e, p.2 ≠ .error e

/-- A frame without an error. -/
def Frame.Clean : Frame Id ε → Prop
  | .reading _ rest _ lastErr => lastErr = none ∧ ∀ p ∈ rest, ∀ e, p.2 ≠ .error e
  | .sending msg => msg = .ok ()

/-- There is no error in the state. -/
structure NoError (s : State Id ε) : Prop where
  frames : ∀ f ∈ s.frames, f.Clean
  buffer : ∀ m ∈ s.buffer, m = .ok ()
  err : s.err = none
  result : ∀ e, s.result ≠ some (.error e)

section Steps

variable [DecidableEq Id] {S : Search Id ε} {univ : List Id} {bound : ℕ} {s s' : State Id ε} {c : Choice}

section

variable (hb : S.Bounded univ bound) (h : Shaped univ s)
include hb h

/-- The frames after a move are within the objects. -/
theorem entries_move {f : Frame Id ε}
    {others : List (Frame Id ε)} (hm : Moved S s s' f others) :
    ∀ id rest v e, .reading id rest v e ∈ s'.frames → ∀ p ∈ rest, p.1 ∈ univ := by
  intro id rest v e hmem p hp
  have hf : ∀ id rest v e, f = .reading id rest v e → ∀ p ∈ rest, p.1 ∈ univ :=
    fun id rest v e heq => h.entries id rest v e (hm.before.mem_iff.mpr (by simp [heq]))
  rw [hm.after.mem_iff, mem_append, mem_append] at hmem
  rcases hmem with hmem | hmem | hmem
  · obtain ⟨x, -, heq⟩ := mem_map.mp hmem
    obtain ⟨rfl, rfl, -, -⟩ := Frame.reading.inj heq
    exact hb.mem x p hp
  · have hacts := acts_act S s.visited f
    rw [Option.mem_toList] at hmem
    generalize act S s.visited f = eff at hmem hacts
    -- a frame that goes on has entries of the old one
    cases hacts with
    | pass | mark | take =>
      obtain ⟨rfl, rfl, -, -⟩ := Frame.reading.inj (Option.some.inj hmem)
      exact hf _ _ _ _ rfl p (mem_cons_of_mem _ hp)
    | _ => cases hmem
  · exact h.entries id rest v e (hm.before.mem_iff.mpr (by simp [hmem])) p hp

/-- The shape is kept. -/
theorem shaped_step
    (hstep : step S s c = some s') : Shaped univ s' := by
  obtain ⟨hresult, hstepped⟩ := stepped_of_step hstep
  cases hstepped with
  | store id pending hpending hcurrent heq | found buffer hbuffer heq
  | failed e buffer hbuffer heq | close hcurrent hpending hroutines hbuffer heq =>
    subst heq
    exact ⟨h.nonempty, h.entries⟩
  | launch id hcurrent heq =>
    subst heq
    refine ⟨fun stack hstack => ?_, fun id' rest v e hmem p hp => ?_⟩
    · rcases mem_cons.mp hstack with rfl | hstack
      · simp
      · exact h.nonempty stack hstack
    · rw [State.frames, flatten_cons, singleton_append, mem_cons] at hmem
      rcases hmem with heq | hmem
      · obtain ⟨rfl, rfl, -, -⟩ := Frame.reading.inj heq
        exact hb.mem id' p hp
      · exact h.entries id' rest v e hmem p hp
  | move i f stack after hdrop others hm =>
    refine ⟨fun l hl => ?_, entries_move hb h hm⟩
    simp only [step, hresult, hdrop] at hstep
    split_ifs at hstep
    cases hstep
    rcases mem_place hl with hl | hl | hl
    · exact h.nonempty l (mem_of_mem_take hl)
    · exact h.nonempty l (mem_of_mem_drop (by rw [hdrop]; exact mem_cons_of_mem _ hl))
    · exact hl

/-- **Every step lowers the weight.** -/
theorem weight_step
    (hstep : step S s c = some s') : s'.weight univ bound < s.weight univ bound := by
  obtain ⟨hresult, hstepped⟩ := stepped_of_step hstep
  cases hstepped with
  | store id pending hpending hcurrent heq =>
    subst heq
    have hle := Nat.mul_le_mul_left (bound + 3) (unvisited_cons_le univ s.visited id)
    simp only [State.weight, State.frames, hpending, hcurrent, length_cons, Nat.mul_succ,
      Option.isSome_some, Option.isSome_none, if_true, Bool.false_eq_true, if_false]
    omega
  | launch id hcurrent heq =>
    subst heq
    have hlen := hb.length id
    simp only [State.weight, State.frames, hcurrent, flatten_cons, singleton_append,
      map_cons, sum_cons, Search.open, Frame.weight, Option.isSome_some,
      Option.isSome_none, if_true, Bool.false_eq_true, if_false]
    omega
  | move i f stack after hdrop others hm =>
    have hf : ∀ id rest v e, f = .reading id rest v e → ∀ p ∈ rest, p.1 ∈ univ :=
      fun id rest v e heq => h.entries id rest v e (hm.before.mem_iff.mpr (by simp [heq]))
    have hlt := act_weight hb s.visited hf
    have hbefore := (hm.before.map Frame.weight).sum_eq
    have hafter := (hm.after.map Frame.weight).sum_eq
    simp only [map_cons, sum_cons, map_append, sum_append] at hbefore hafter
    simp only [State.weight, hbefore, hafter, hm.visited, hm.pending, hm.current, hm.buffer,
      hm.result, hresult, length_append]
    omega
  | found buffer hbuffer heq | close hcurrent hpending hroutines hbuffer heq =>
    subst heq
    simp [State.weight, State.frames, hresult]
  | failed e buffer hbuffer heq =>
    subst heq
    simp [State.weight, State.frames, hbuffer]

end

/-! ### No search stops without a result, unless it is jammed -/

/-- A goroutine can move unless its message waits for room in the channel. -/
theorem move_enabled (hresult : s.result = none) {i : ℕ} {f : Frame Id ε}
    {stack : List (Frame Id ε)} {after : List (List (Frame Id ε))}
    (hdrop : s.routines.drop i = (f :: stack) :: after)
    (hroom : (∃ msg, f = .sending msg) → s.buffer.length < S.limit) :
    ∃ s', step S s (.move i) = some s' := by
  have hfree : ¬ ((act S s.visited f).message.isSome ∧ S.limit ≤ s.buffer.length) := by
    rintro ⟨hmsg, hfull⟩
    have hacts := acts_act S s.visited f
    generalize act S s.visited f = eff at hmsg hacts
    cases hacts with
    | send msg =>
      have hlt := hroom ⟨msg, rfl⟩
      omega
    | _ => simp at hmsg
  simp only [step, hresult, hdrop, if_neg hfree]
  exact ⟨_, rfl⟩

/-- **A search without a result can make a step, unless it is jammed.** -/
theorem progress (hlimit : 0 < S.limit) (h : Shaped univ s) (hresult : s.result = none) :
    Jammed S s ∨ ∃ c s', step S s c = some s' := by
  by_cases hfree : ∃ stack ∈ s.routines, ∃ f rest, stack = f :: rest
      ∧ ((∃ msg, f = .sending msg) → s.buffer.length < S.limit)
  · obtain ⟨stack, hstack, f, rest, rfl, hroom⟩ := hfree
    obtain ⟨i, after, hdrop⟩ := drop_of_mem hstack
    exact .inr ⟨.move i, move_enabled hresult hdrop hroom⟩
  -- every goroutine has a message and the channel is full
  have hblocked : ∀ stack ∈ s.routines, S.limit ≤ s.buffer.length
      ∧ ∃ msg rest, stack = .sending msg :: rest := by
    intro stack hstack
    rcases hs : stack with _ | ⟨f, rest⟩
    · exact absurd hs (h.nonempty stack hstack)
    have hnot : ¬ ((∃ msg, f = .sending msg) → s.buffer.length < S.limit) :=
      fun hroom => hfree ⟨stack, hstack, f, rest, hs, hroom⟩
    obtain ⟨⟨msg, rfl⟩, hfull⟩ := Classical.not_imp.mp hnot
    exact ⟨Nat.le_of_not_lt hfull, msg, rest, rfl⟩
  rcases hcurrent : s.current with _ | id
  · rcases hpending : s.pending with _ | ⟨id, pending⟩
    · rcases hbuffer : s.buffer with _ | ⟨e | ⟨⟩, buffer⟩
      · rcases hroutines : s.routines with _ | ⟨stack, routines⟩
        · refine .inr ⟨.close, ?_⟩
          simp only [step, hresult, hcurrent, hpending, hroutines, hbuffer]
          exact ⟨_, rfl⟩
        · have hfull := (hblocked stack (by simp [hroutines])).1
          rw [hbuffer, length_nil] at hfull
          omega
      · refine .inr ⟨.receive, ?_⟩
        simp only [step, hresult, hcurrent, hpending, hbuffer]
        exact ⟨_, rfl⟩
      · refine .inr ⟨.receive, ?_⟩
        simp only [step, hresult, hcurrent, hpending, hbuffer]
        exact ⟨_, rfl⟩
    · refine .inr ⟨.store, ?_⟩
      simp only [step, hresult, hcurrent, hpending]
      exact ⟨_, rfl⟩
  · by_cases hroom : s.routines.length < S.limit
    · refine .inr ⟨.launch, ?_⟩
      simp only [step, hresult, hcurrent, if_pos hroom]
      exact ⟨_, rfl⟩
    · refine .inl ⟨by rw [hcurrent]; rfl, Nat.le_of_not_lt hroom, ?_,
        fun stack hs => (hblocked stack hs).2⟩
      rcases hroutines : s.routines with _ | ⟨stack, routines⟩
      · rw [hroutines, length_nil] at hroom
        omega
      · exact (hblocked stack (by simp [hroutines])).1

/-! ### Without errors in the conditions there is no error -/

/-- A move leaves clean frames. -/
theorem clean_act (S : Search Id ε) (visited : List Id) {f : Frame Id ε} (hf : f.Clean) :
    (∀ g ∈ (act S visited f).frame, g.Clean) ∧ ∀ m ∈ (act S visited f).message, m = .ok () := by
  have hacts := acts_act S visited f
  generalize act S visited f = eff at hacts
  cases hacts with
  | send msg =>
    refine ⟨by simp, fun m hm => ?_⟩
    obtain rfl : msg = m := Option.some.inj hm
    exact hf
  | fail => cases hf.1
  | done => simp
  | found =>
    refine ⟨fun g hg => ?_, by simp⟩
    cases hg
    rfl
  | mark id x cond rest v lastErr lastErr' hx hcond herr =>
    refine ⟨fun g hg => ?_, by simp⟩
    cases hg
    refine ⟨?_, fun p hp => hf.2 p (mem_cons_of_mem _ hp)⟩
    rcases herr' : lastErr' with _ | e
    · rfl
    · rcases herr e herr' with hlast | hcond
      · rw [hf.1] at hlast
        cases hlast
      · exact absurd hcond (hf.2 _ (mem_cons_self ..) e)
  | _ =>
    refine ⟨fun g hg => ?_, by simp⟩
    cases hg
    exact ⟨hf.1, fun p hp => hf.2 p (mem_cons_of_mem _ hp)⟩

/-- **No step makes an error** if all conditions are true or false. -/
theorem noError_step (hd : S.Decided) (h : NoError s) (hstep : step S s c = some s') :
    NoError s' := by
  obtain ⟨hresult, hstepped⟩ := stepped_of_step hstep
  cases hstepped with
  | store id pending hpending hcurrent heq =>
    subst heq
    exact ⟨h.frames, h.buffer, h.err, h.result⟩
  | launch id hcurrent heq =>
    subst heq
    refine ⟨fun f hf => ?_, h.buffer, h.err, h.result⟩
    rw [State.frames, flatten_cons, singleton_append, mem_cons] at hf
    rcases hf with rfl | hf
    · exact ⟨rfl, hd id⟩
    · exact h.frames f hf
  | move i f stack after hdrop others hm =>
    have hf := h.frames f (hm.before.mem_iff.mpr (by simp))
    obtain ⟨hframe, hmessage⟩ := clean_act S s.visited hf
    refine ⟨fun g hg => ?_, fun m hmem => ?_, hm.err.trans h.err, fun e => by simp [hm.result]⟩
    · rw [hm.after.mem_iff, mem_append, mem_append] at hg
      rcases hg with hg | hg | hg
      · obtain ⟨x, -, rfl⟩ := mem_map.mp hg
        exact ⟨rfl, hd x⟩
      · exact hframe g (Option.mem_toList.mp hg)
      · exact h.frames g (hm.before.mem_iff.mpr (by simp [hg]))
    · rw [hm.buffer, mem_append, Option.mem_toList] at hmem
      exact hmem.elim (h.buffer m) (hmessage m)
  | found buffer hbuffer heq =>
    subst heq
    exact ⟨h.frames, h.buffer, h.err, by simp⟩
  | failed e buffer hbuffer => cases h.buffer (.error e) (by simp [hbuffer])
  | close hcurrent hpending hroutines hbuffer heq =>
    subst heq
    exact ⟨h.frames, h.buffer, h.err, by simp [h.err]⟩

end Steps

end Kengen.PoolSearch
