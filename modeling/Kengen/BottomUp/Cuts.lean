import Kengen.BottomUp.Intersection

/-!
# Operands that fail on the way

An operand of a set operation may fail before it has listed everything.  What it
lists up to then is an initial part of its complete list, and the error ends it:
its trace is a *cut* of the list.  The difference and the intersection read their
operands one value after the other and stop at the first error, so up to there
they do the same as on the complete operands.

Both follow from what the operations send for any sorted streams: a strictly ascending
list that is closed downwards in another one is an initial part of it
(`prefix_of_lower`).

* **`resolveDifference_cut`** — the difference of cut operands is a cut of the difference of the
  complete ones; it ends without an error only if its base does.
* **`resolveIntersection_cut`** — the same for an intersection.

A union does not have this property: it goes on with its other operands and
reports an error at the very end.
-/

namespace Kengen

open List

variable {α : Type}

/-! ### Cuts -/

/-- The trace of an iterator over a list that may fail on the way, with an error that is no
cancellation. -/
inductive Cut : Trace α → List α → Prop
  | done : Cut [] []
  | fail (e : Err) (xs : List α) (proper : e.isCancelled = false) : Cut [.error e] xs
  | cons (v : α) {t : Trace α} {xs : List α} (rest : Cut t xs) : Cut (.ok v :: t) (v :: xs)

variable {t : Trace α} {xs ys : List α} {e : Option Err}

/-- **A cut lists an initial part**, and all of the list if there is no error. -/
theorem Cut.stream (h : Cut t xs) :
    ∃ ys e, t = streamTrace ys e ∧ ys <+: xs ∧ (e = none → ys = xs)
      ∧ ∀ e' ∈ e, e'.isCancelled = false := by
  induction h with
  | done => exact ⟨[], none, rfl, nil_prefix, fun _ => rfl, by simp⟩
  | fail e xs proper =>
    exact ⟨[], some e, rfl, nil_prefix, fun h => (nomatch h), by simpa using proper⟩
  | cons v _ ih =>
    obtain ⟨ys, e, rfl, hinit, hall, hproper⟩ := ih
    exact ⟨v :: ys, e, rfl, cons_prefix_cons.mpr ⟨rfl, hinit⟩,
      fun he => by rw [hall he], hproper⟩

theorem cut_streamTrace (hinit : ys <+: xs) (hall : e = none → ys = xs)
    (proper : ∀ e' ∈ e, e'.isCancelled = false) : Cut (streamTrace ys e) xs := by
  induction ys generalizing xs with
  | nil =>
    cases e with
    | none => exact hall rfl ▸ .done
    | some e => exact .fail e xs (proper e rfl)
  | cons y ys ih =>
    obtain ⟨zs, rfl⟩ := hinit
    exact .cons y (ih (prefix_append ys zs) fun he => by simpa using hall he)

theorem Cut.eq_okTrace (h : Cut t xs) (hnone : traceError t = none) : t = okTrace xs := by
  obtain ⟨_, e, rfl, -, hall, -⟩ := h.stream
  obtain rfl : e = none := by simpa using hnone
  rw [streamTrace_none, hall rfl]

theorem cut_okTrace (xs : List α) : Cut (okTrace xs) xs := by
  rw [← streamTrace_none]
  exact cut_streamTrace (prefix_refl xs) (fun _ => rfl) (by simp)

/-! ### Lists without repetition -/

variable [LinearOrder α] [Inhabited α]

/-- Sorted non-zero values, none of them twice. -/
structure StrictValues (xs : List α) : Prop extends SortedStream xs none where
  nodup : xs.Nodup

theorem StrictValues.lt (h : StrictValues xs) : xs.Pairwise (· < ·) :=
  (h.sorted.and h.nodup).imp fun hab => lt_of_le_of_ne hab.1 hab.2

theorem StrictValues.sublist (h : StrictValues xs) (hsub : ys.Sublist xs) : StrictValues ys where
  sorted := h.sorted.sublist hsub
  nonzero := fun x hx => h.nonzero x (hsub.mem hx)
  proper := by simp
  nodup := h.nodup.sublist hsub

theorem strictValues_of_lt (h : xs.Pairwise (· < ·)) (hne : ∀ x ∈ xs, x ≠ default) :
    StrictValues xs where
  sorted := h.imp le_of_lt
  nonzero := hne
  proper := by simp
  nodup := h.imp ne_of_lt

/-- A stream of an initial part. -/
theorem StrictValues.stream (h : StrictValues xs) (hinit : ys <+: xs)
    (proper : ∀ e' ∈ e, e'.isCancelled = false) : SortedStream ys e :=
  ⟨(h.sublist hinit.sublist).sorted, (h.sublist hinit.sublist).nonzero, proper⟩

/-- An initial part lists all values below one of its own. -/
theorem StrictValues.mem_of_lt (h : StrictValues xs) (hinit : ys <+: xs) {o x : α} (ho : o ∈ xs)
    (hx : x ∈ ys) (hlt : o < x) : o ∈ ys := by
  obtain ⟨_, rfl⟩ := hinit
  refine (mem_append.mp ho).resolve_right fun hz => ?_
  exact absurd ((pairwise_append.mp h.lt).2.2 x hx o hz) hlt.not_gt

omit [Inhabited α] in
/-- **A part that is closed downwards is an initial part.** -/
theorem prefix_of_lower (hxs : xs.Pairwise (· < ·)) (hys : ys.Pairwise (· < ·))
    (hsub : ∀ y ∈ ys, y ∈ xs) (hlower : ∀ y ∈ ys, ∀ x ∈ xs, x < y → x ∈ ys) : ys <+: xs := by
  induction ys generalizing xs with
  | nil => exact nil_prefix
  | cons y ys ih =>
    obtain ⟨hy, hys'⟩ := pairwise_cons.mp hys
    cases xs with
    | nil => exact absurd (hsub y (by simp)) not_mem_nil
    | cons x xs =>
      obtain ⟨hx, hxs'⟩ := pairwise_cons.mp hxs
      -- the two heads are the least values of their lists
      obtain rfl : x = y := by
        rcases mem_cons.mp (hsub y (by simp)) with h | h
        · exact h.symm
        · rcases mem_cons.mp (hlower y (by simp) x (by simp) (hx y h)) with h' | h'
          · exact h'
          · exact absurd (hx y h) (hy x h').not_gt
      refine cons_prefix_cons.mpr ⟨rfl, ih hxs' hys' (fun z hz => ?_) fun z hz w hw hlt => ?_⟩
      · exact (mem_cons.mp (hsub z (by simp [hz]))).resolve_left (hy z hz).ne'
      · exact (mem_cons.mp (hlower z (by simp [hz]) w (by simp [hw]) hlt)).resolve_left (hx w hw).ne'

/-- **A cut from its members**: what is listed is closed downwards in the complete list, and is all
of it if there is no error. -/
theorem StrictValues.cut (hxs : StrictValues xs) (hys : StrictValues ys) (hsub : ∀ y ∈ ys, y ∈ xs)
    (hlower : ∀ y ∈ ys, ∀ x ∈ xs, x < y → x ∈ ys) (hall : e = none → ∀ x ∈ xs, x ∈ ys)
    (proper : ∀ e' ∈ e, e'.isCancelled = false) : Cut (streamTrace ys e) xs := by
  have hinit := prefix_of_lower hxs.lt hys.lt hsub hlower
  refine cut_streamTrace hinit (fun he => ?_) proper
  exact hinit.eq_of_length ((subperm_of_subset hys.nodup hsub).length_le.antisymm
    (subperm_of_subset hxs.nodup (hall he)).length_le)

/-! ### Differences -/

omit [Inhabited α] in
/-- What a difference lists of a base without repetition. -/
theorem mem_difference {zs : List α} {failing : Bool} (hnodup : xs.Nodup)
    (hcount : ∀ o, zs.count o = SortedList.differenceCount o xs ys failing) (o : α) :
    o ∈ zs ↔ o ∈ xs ∧ o ∉ ys ∧ (failing = true → ∃ p ∈ ys, o < p) := by
  have hle := nodup_iff_count_le_one.mp hnodup o
  rw [← count_pos_iff, hcount o, SortedList.differenceCount]
  split
  · rename_i hfail
    refine iff_of_false (lt_irrefl 0) fun h => ?_
    obtain ⟨p, hp, hlt⟩ := h.2.2 hfail.1
    exact absurd (hfail.2 p hp) hlt.not_ge
  · rename_i hfail
    rw [← count_pos_iff, ← count_eq_zero]
    refine ⟨fun h => ⟨by omega, by omega, fun hf => ?_⟩, fun h => by omega⟩
    simpa [hf] using hfail

variable {tB tS : Trace α}

/-- **The difference of cut operands** is a cut of the difference, and ends with the error of one
of them. -/
theorem resolveDifference_cut (hB : Cut tB xs) (hS : Cut tS ys) (hxs : StrictValues xs)
    (hys : StrictValues ys) :
    Cut (fromChannel (resolveDifference [tB, tS])) (xs.filter (· ∉ ys))
    ∧ (traceError (fromChannel (resolveDifference [tB, tS])) = traceError tB
      ∨ traceError (fromChannel (resolveDifference [tB, tS])) = traceError tS
        ∧ traceError tS ≠ none) := by
  obtain ⟨xs', eB, rfl, hinitB, hallB, hproperB⟩ := hB.stream
  obtain ⟨ys', eS, rfl, hinitS, hallS, hproperS⟩ := hS.stream
  obtain ⟨_, _, heq, hsub, hcount, hend⟩ := resolveDifference_spec xs' ys' eB eS
    (hxs.stream hinitB hproperB) (hys.stream hinitS hproperS)
  have hxs' := hxs.sublist hinitB.sublist
  have hmem := mem_difference hxs'.nodup hcount
  simp only [heq, nil_append, traceError_streamTrace]
  refine ⟨(hxs.sublist filter_sublist).cut (hxs'.sublist hsub) (fun z hz => ?_) (fun z hz o ho hlt => ?_)
    (fun hnone o ho => ?_) ?_, hend.imp And.left id⟩
  · obtain ⟨hx, hy, hpassed⟩ := (hmem z).mp hz
    refine mem_filter.mpr ⟨hinitB.mem hx, decide_eq_true fun hy' => hy ?_⟩
    cases heS : eS with
    | none => rwa [hallS heS]
    | some e =>
      obtain ⟨p, hp, hlt⟩ := hpassed (by simp [heS])
      exact hys.mem_of_lt hinitS hy' hp hlt
  · obtain ⟨hx, -, hpassed⟩ := (hmem z).mp hz
    obtain ⟨hox, hoy⟩ := mem_filter.mp ho
    refine (hmem o).mpr ⟨hxs.mem_of_lt hinitB hox hx hlt,
      fun h => of_decide_eq_true hoy (hinitS.mem h), fun hf => ?_⟩
    obtain ⟨p, hp, hzp⟩ := hpassed hf
    exact ⟨p, hp, hlt.trans hzp⟩
  · -- no error: the base is complete, and the subtrahend has reached all of it
    obtain ⟨hox, hoy⟩ := mem_filter.mp ho
    have hnot : o ∉ ys' := fun h => of_decide_eq_true hoy (hinitS.mem h)
    rcases hend with ⟨rfl, hends⟩ | ⟨rfl, hsome⟩
    · obtain rfl := hallB hnone
      refine (hmem o).mpr ⟨hox, hnot, fun hf => ?_⟩
      rcases hends with rfl | hreached
      · cases hf
      · obtain ⟨p, hp, hle⟩ := hreached o hox
        exact ⟨p, hp, lt_of_le_of_ne hle fun h => hnot (h ▸ hp)⟩
    · exact absurd hnone hsome
  · rcases hend with ⟨rfl, -⟩ | ⟨rfl, -⟩
    · exact hproperB
    · exact hproperS

/-! ### Intersections -/

variable {n : ℕ} {ts : Fin n → Trace α} {lists : Fin n → List α}

/-- **The intersection of cut operands** is a cut of the intersection, and ends with the error of one
of them. -/
theorem resolveIntersection_cut (hcut : ∀ i, Cut (ts i) (lists i))
    (hstrict : ∀ i, StrictValues (lists i)) :
    ∃ zs, Cut (fromChannel (resolveIntersection (ofFn ts))) zs
      ∧ ((∀ i, traceError (ts i) = none) →
        traceError (fromChannel (resolveIntersection (ofFn ts))) = none)
      ∧ StrictValues zs ∧ ∀ o, o ∈ zs ↔ 0 < n ∧ ∀ i, o ∈ lists i := by
  rcases Nat.eq_zero_or_pos n with rfl | hn
  · rw [ofFn_zero]
    exact ⟨[], .done, fun _ => rfl, strictValues_of_lt .nil (by simp), by simp⟩
  choose ys es hts hinit hall hproper using fun i => (hcut i).stream
  have hiters : ofFn ts = (ofFn fun i => (ys i, es i)).map fun p => streamTrace p.1 p.2 := by
    rw [map_ofFn]
    exact congrArg ofFn (funext hts)
  have hmem : ∀ i, (ys i, es i) ∈ ofFn fun i => (ys i, es i) := fun i => mem_ofFn.mpr ⟨i, rfl⟩
  obtain ⟨zs, _, hout⟩ := resolveIntersection_spec (ofFn fun i => (ys i, es i))
    (ne_nil_of_mem (hmem ⟨0, hn⟩))
    (forall_mem_ofFn_iff.mpr fun i => (hstrict i).stream (hinit i) (hproper i))
  have hzs : ∀ o, o ∈ zs ↔ ∀ i, o ∈ ys i := fun o =>
    ⟨fun ho i => (hout.sublist _ (hmem i)).mem ho,
      fun ho => hout.complete o (forall_mem_ofFn_iff.mpr ho)⟩
  obtain ⟨p, hp, herr, hended⟩ := hout.ended
  obtain ⟨j, rfl⟩ := mem_ofFn.mp hp
  have hall' : ∀ o, o ∈ (lists j).filter (fun o => ∀ i, o ∈ lists i) ↔ 0 < n ∧ ∀ i, o ∈ lists i := by
    simp only [mem_filter, decide_eq_true_eq]
    exact fun o => ⟨fun h => ⟨hn, h.2⟩, fun h => ⟨h.2 j, h.2⟩⟩
  have hcomplete := (hstrict j).sublist (filter_sublist (p := fun o => decide (∀ i, o ∈ lists i)))
  rw [hiters, hout.eq, nil_append, traceError_streamTrace]
  refine ⟨_, hcomplete.cut ((hstrict j).sublist ((hout.sublist _ hp).trans (hinit j).sublist))
    (fun z hz => (hall' z).mpr ⟨hn, fun i => (hinit i).mem ((hzs z).mp hz i)⟩)
    (fun z hz o ho hlt => (hzs o).mpr fun i => (hstrict i).mem_of_lt (hinit i)
      (((hall' o).mp ho).2 i) ((hzs z).mp hz i) hlt) (fun hnone o ho => ?_) hout.proper, fun hnone => ?_,
    hcomplete, hall'⟩
  · -- the operand that ended the intersection is complete, and nothing that all list was passed
    obtain ⟨-, ho⟩ := (hall' o).mp ho
    refine (hended o (hall j (herr.trans hnone) ▸ ho j)).resolve_right ?_
    rintro ⟨q, hq, hnot, x, hx, hlt⟩
    obtain ⟨i, rfl⟩ := mem_ofFn.mp hq
    exact hnot ((hstrict i).mem_of_lt (hinit i) (ho i) hx hlt)
  · have hj := hnone j
    rw [hts j, traceError_streamTrace] at hj
    exact herr.symm.trans hj

end Kengen
