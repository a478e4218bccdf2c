import Kengen.BottomUp.Difference

/-!
# The intersection of the bottom-up evaluation

`resolveIntersection` of `bottom_up.go` keeps the head of every operand.  When
all heads agree the value is emitted and every operand advances; otherwise
every operand below the largest head skips to it.  The first operand that is
done or fails ends the intersection.

An operand in the loop is its head together with what follows; `heads` gives
the loop's view of operands that are sorted streams.

* **`resolveIntersection_spec`** — what comes out is part of every operand, and
  when no operand fails it is everything the operands have in common.
-/

namespace Kengen

open SortedList List

variable {α : Type} [LinearOrder α] [Inhabited α]

/-- Advance every operand; `inl` is the first one that is done or fails. -/
def advanceHeads : List (α × Trace α) → (Option Err) ⊕ List (α × Trace α)
  | [] => .inr []
  | (_, []) :: _ => .inl none
  | (_, .error e :: _) :: _ => .inl (some e)
  | (_, .ok v :: rest) :: heads =>
    match advanceHeads heads with
    | .inl e => .inl e
    | .inr heads' => .inr ((v, rest) :: heads')

/-- Let every operand below the largest head skip to it. -/
def catchUp (maxValue : α) : List (α × Trace α) → (Option Err) ⊕ List (α × Trace α)
  | [] => .inr []
  | (v, rest) :: heads =>
    if v < maxValue then
      match skipTo maxValue rest with
      | .inl e => .inl e
      | .inr head =>
        match catchUp maxValue heads with
        | .inl e => .inl e
        | .inr heads' => .inr (head :: heads')
    else
      match catchUp maxValue heads with
      | .inl e => .inl e
      | .inr heads' => .inr ((v, rest) :: heads')

/-- The largest of the heads. -/
def maxHead (v : α) (heads : List (α × Trace α)) : α := heads.foldl (fun m h => max m h.1) v

/-- The loop of `resolveIntersection`. -/
def intersectionLoop : ℕ → List (α × Trace α) → Batcher α → List (Msg α)
  | 0, _, batch => batch.close none
  | _ + 1, [], batch => batch.close none
  | fuel + 1, (v, rest) :: heads, batch =>
    if heads.all (·.1 == v) then
      match advanceHeads ((v, rest) :: heads) with
      | .inl e => (batch.add v).close e
      | .inr heads' => intersectionLoop fuel heads' (batch.add v)
    else
      match catchUp (maxHead v heads) ((v, rest) :: heads) with
      | .inl e => batch.close e
      | .inr heads' => intersectionLoop fuel heads' batch

/-- The first value of each operand. -/
def openHeads : List (Trace α) → (Option Err) ⊕ List (α × Trace α)
  | [] => .inr []
  | [] :: _ => .inl none
  | (.error e :: _) :: _ => .inl (some e)
  | (.ok v :: rest) :: iters =>
    match openHeads iters with
    | .inl e => .inl e
    | .inr heads => .inr ((v, rest) :: heads)

/-- `resolveIntersection`. -/
def resolveIntersection (iters : List (Trace α)) : List (Msg α) :=
  match openHeads iters with
  | .inl e => newBatcher.close e
  | .inr heads => intersectionLoop ((iters.map List.length).sum + 1) heads newBatcher

/-! ### Operands that are sorted streams -/

/-- The loop's view of operands with their remaining values and errors. -/
def heads (ops : List (α × List α × Option Err)) : List (α × Trace α) :=
  ops.map fun p => (p.1, streamTrace p.2.1 p.2.2)

omit [LinearOrder α] [Inhabited α] in
@[simp] theorem heads_cons (v : α) (ys : List α) (e : Option Err)
    (ops : List (α × List α × Option Err)) :
    heads ((v, ys, e) :: ops) = (v, streamTrace ys e) :: heads ops := rfl

/-- How many values the operands still have after their heads. -/
def restSize (ops : List (α × List α × Option Err)) : ℕ := (ops.map fun p => p.2.1.length).sum

/-- Every operand is a sorted stream. -/
def GoodOps (ops : List (α × List α × Option Err)) : Prop :=
  ∀ p ∈ ops, SortedStream (p.1 :: p.2.1) p.2.2

omit [LinearOrder α] [Inhabited α] in
/-- The operands one value later, unless one of them has no more. -/
theorem advanceHeads_spec (ops : List (α × List α × Option Err)) :
    (∃ e, advanceHeads (heads ops) = .inl e ∧ ∃ p ∈ ops, p.2.1 = [] ∧ p.2.2 = e)
    ∨ ∃ ops' : List (α × List α × Option Err), advanceHeads (heads ops) = .inr (heads ops')
      ∧ List.Forall₂ (fun p p' => p.2.1 = p'.1 :: p'.2.1 ∧ p'.2.2 = p.2.2) ops ops' := by
  induction ops with
  | nil => exact .inr ⟨[], rfl, List.Forall₂.nil⟩
  | cons p ops ih =>
    obtain ⟨v, ys, e⟩ := p
    cases ys with
    | nil =>
      refine .inl ⟨e, ?_, (v, [], e), by simp, rfl, rfl⟩
      cases e <;> simp [advanceHeads]
    | cons y ys =>
      rcases ih with ⟨e', he, q, hq, hqe⟩ | ⟨ops', hops', hrel⟩
      · exact .inl ⟨e', by simp [advanceHeads, he], q, mem_cons_of_mem _ hq, hqe⟩
      · exact .inr ⟨(y, ys, e) :: ops', by simp [advanceHeads, hops'],
          List.Forall₂.cons ⟨rfl, rfl⟩ hrel⟩

/-- What skipping to `maxValue` does to one operand. -/
def SkipsTo (maxValue : α) (p p' : α × List α × Option Err) : Prop :=
  p'.2.2 = p.2.2 ∧ maxValue ≤ p'.1 ∧ (p'.1 :: p'.2.1).Sublist (p.1 :: p.2.1)
    ∧ (∀ o, maxValue ≤ o → o ∈ p.1 :: p.2.1 → o ∈ p'.1 :: p'.2.1)
    ∧ (p.1 < maxValue → p'.2.1.length < p.2.1.length)

omit [Inhabited α] in
theorem catchUp_spec (maxValue : α) (ops : List (α × List α × Option Err)) :
    (∃ e, catchUp maxValue (heads ops) = .inl e
      ∧ ∃ p ∈ ops, (∀ x ∈ p.1 :: p.2.1, x < maxValue) ∧ p.2.2 = e)
    ∨ ∃ ops' : List (α × List α × Option Err), catchUp maxValue (heads ops) = .inr (heads ops')
      ∧ List.Forall₂ (SkipsTo maxValue) ops ops' := by
  induction ops with
  | nil => exact .inr ⟨[], rfl, List.Forall₂.nil⟩
  | cons p ops ih =>
    obtain ⟨v, ys, e⟩ := p
    by_cases hv : v < maxValue
    · have hskip := skipTo_spec maxValue ys e
      have hsub := dropWhile_sublist (l := ys) fun y => decide (y < maxValue)
      have hkeep : ∀ o, maxValue ≤ o → o ∈ ys → o ∈ ys.dropWhile fun y => decide (y < maxValue) :=
        fun o ho hmem => mem_dropWhile_lt hmem ho
      have hhead : ∀ d rest, ys.dropWhile (fun y => decide (y < maxValue)) = d :: rest →
          maxValue ≤ d := by
        intro d rest heq
        have := head?_dropWhile_not (fun y => decide (y < maxValue)) ys
        rw [heq] at this
        simpa using this
      generalize ys.dropWhile (fun y => decide (y < maxValue)) = ws at hskip hsub hkeep hhead
      cases ws with
      | nil =>
        refine .inl ⟨e, by simp [catchUp, hv, hskip], (v, ys, e), by simp, ?_, rfl⟩
        intro x hx
        rcases mem_cons.mp hx with rfl | hx
        · exact hv
        · by_contra hge
          exact not_mem_nil (hkeep x (not_lt.mp hge) hx)
      | cons d rest =>
        rcases ih with ⟨e', he, q, hq, hqe⟩ | ⟨ops', hops', hrel⟩
        · exact .inl ⟨e', by simp [catchUp, hv, hskip, he], q, mem_cons_of_mem _ hq, hqe⟩
        · refine .inr ⟨(d, rest, e) :: ops', by simp [catchUp, hv, hskip, hops'],
            List.Forall₂.cons ⟨rfl, hhead d rest rfl, hsub.cons v, ?_, ?_⟩ hrel⟩
          · intro o ho hmem
            rcases mem_cons.mp hmem with rfl | hmem
            · exact absurd hv (not_lt.mpr ho)
            · exact hkeep o ho hmem
          · intro _
            have := hsub.length_le
            simp only [length_cons] at this
            exact this
    · rcases ih with ⟨e', he, q, hq, hqe⟩ | ⟨ops', hops', hrel⟩
      · exact .inl ⟨e', by simp [catchUp, hv, he], q, mem_cons_of_mem _ hq, hqe⟩
      · refine .inr ⟨(v, ys, e) :: ops', by simp [catchUp, hv, hops'],
          List.Forall₂.cons ⟨rfl, not_lt.mp hv, List.Sublist.refl _, fun o _ h => h, ?_⟩ hrel⟩
        intro hlt
        exact absurd hlt hv

/-! ### The whole intersection -/

variable (lists : List (List α × Option Err))

/-- Some operand has gone beyond a value that it does not list. -/
def Passed (o : α) : Prop :=
  ∃ q ∈ lists, o ∉ q.1 ∧ ∃ x ∈ q.1, o < x

/-- What an intersection sends after `before`: what all operands list, then the error of the one
that ended it.  Of its values those that were not sent were passed. -/
structure IntersectionOut (t before : Trace α) (lists : List (List α × Option Err)) (zs : List α)
    (err : Option Err) : Prop where
  eq : t = before ++ streamTrace zs err
  proper : ∀ e ∈ err, e.isCancelled = false
  sublist : ∀ p ∈ lists, zs.Sublist p.1
  complete : ∀ o, (∀ p ∈ lists, o ∈ p.1) → o ∈ zs
  ended : ∃ p ∈ lists, p.2 = err ∧ ∀ o ∈ p.1, o ∈ zs ∨ Passed lists o

omit [Inhabited α] in
/-- An intersection that stops because an operand ran out sends nothing more. -/
theorem close_intersectionOut (batch : Batcher α) {lists : List (List α × Option Err)}
    {p : List α × Option Err} (hp : p ∈ lists) (hproper : ∀ e ∈ p.2, e.isCancelled = false)
    (hpassed : ∀ o ∈ p.1, Passed lists o) :
    ∃ zs err, IntersectionOut (fromChannel (batch.close p.2)) batch.trace lists zs err := by
  refine ⟨[], p.2, Batcher.fromChannel_close batch p.2 hproper, hproper, fun _ _ => nil_sublist _,
    fun o ho => ?_, p, hp, rfl, fun o ho => .inr (hpassed o ho)⟩
  obtain ⟨q, hq, hnot, -⟩ := hpassed o (ho p hp)
  exact absurd (ho q hq) hnot

/-- The values and errors of the operands. -/
def opLists (ops : List (α × List α × Option Err)) : List (List α × Option Err) :=
  ops.map fun p => (p.1 :: p.2.1, p.2.2)

omit [LinearOrder α] [Inhabited α] in
theorem mem_opLists {ops : List (α × List α × Option Err)} {p : α × List α × Option Err}
    (hp : p ∈ ops) : (p.1 :: p.2.1, p.2.2) ∈ opLists ops :=
  mem_map_of_mem (f := fun p => (p.1 :: p.2.1, p.2.2)) hp

omit [Inhabited α] in
theorem le_maxHead (v : α) (hs : List (α × Trace α)) :
    v ≤ maxHead v hs ∧ (∀ h ∈ hs, h.1 ≤ maxHead v hs)
      ∧ (maxHead v hs = v ∨ ∃ h ∈ hs, h.1 = maxHead v hs) := by
  induction hs generalizing v with
  | nil => simp [maxHead]
  | cons h hs ih =>
    obtain ⟨h1, h2, h3⟩ := ih (max v h.1)
    have hunfold : maxHead v (h :: hs) = maxHead (max v h.1) hs := rfl
    rw [hunfold]
    refine ⟨(le_max_left _ _).trans h1, ?_, ?_⟩
    · intro k hk
      rcases mem_cons.mp hk with rfl | hk
      · exact (le_max_right _ _).trans h1
      · exact h2 k hk
    · rcases h3 with h3 | ⟨k, hk, hkm⟩
      · rcases max_choice v h.1 with hmax | hmax
        · exact .inl (h3.trans hmax)
        · exact .inr ⟨h, by simp, hmax.symm.trans h3.symm⟩
      · exact .inr ⟨k, mem_cons_of_mem _ hk, hkm⟩

theorem forall₂_mem_left {β γ : Type} {R : β → γ → Prop} {l : List β} {l' : List γ}
    (h : List.Forall₂ R l l') {x : β} (hx : x ∈ l) : ∃ y ∈ l', R x y := by
  obtain ⟨i, hi, rfl⟩ := mem_iff_getElem.mp hx
  have hi' := h.length_eq ▸ hi
  exact ⟨l'[i], getElem_mem hi', h.get hi hi'⟩

theorem forall₂_mem_right {β γ : Type} {R : β → γ → Prop} {l : List β} {l' : List γ}
    (h : List.Forall₂ R l l') {y : γ} (hy : y ∈ l') : ∃ x ∈ l, R x y :=
  forall₂_mem_left h.flip hy

omit [LinearOrder α] [Inhabited α] in
/-- A step that lengthens no operand and shortens one of them leaves fewer values. -/
theorem restSize_lt {R : α × List α × Option Err → α × List α × Option Err → Prop}
    {ops ops' : List (α × List α × Option Err)} (h : List.Forall₂ R ops ops')
    (hle : ∀ p p', R p p' → p'.2.1.length ≤ p.2.1.length)
    (hlt : ∃ p ∈ ops, ∀ p', R p p' → p'.2.1.length < p.2.1.length) :
    restSize ops' < restSize ops := by
  have hall : ∀ {l l' : List (α × List α × Option Err)}, List.Forall₂ R l l' →
      restSize l' ≤ restSize l := by
    intro l l' hl
    induction hl with
    | nil => exact le_refl _
    | cons hr _ ih =>
      have := hle _ _ hr
      simp only [restSize, map_cons, sum_cons] at ih ⊢
      omega
  induction h with
  | nil => simp at hlt
  | @cons p p' ops ops' hr hrest ih =>
    have hp := hle _ _ hr
    have htail := hall hrest
    obtain ⟨q, hq, hqlt⟩ := hlt
    simp only [restSize, map_cons, sum_cons] at ih htail ⊢
    rcases mem_cons.mp hq with rfl | hq
    · have := hqlt _ hr
      omega
    · have := ih ⟨q, hq, hqlt⟩
      omega

/-- With this fuel the loop sends what it should. -/
def LoopSpec (α : Type) [LinearOrder α] [Inhabited α] (fuel : ℕ) : Prop :=
  ∀ (ops : List (α × List α × Option Err)) (batch : Batcher α), ops ≠ [] → GoodOps ops →
    restSize ops < fuel →
    ∃ zs err, IntersectionOut (fromChannel (intersectionLoop fuel (heads ops) batch)) batch.trace
      (opLists ops) zs err

/-- What a round that sends `sent` leaves of an operand: all but what was sent or passed. -/
def Remains (sent : List α) (p p' : α × List α × Option Err) :
    Prop :=
  p'.2.2 = p.2.2 ∧ (sent ++ p'.1 :: p'.2.1).Sublist (p.1 :: p.2.1)
    ∧ ∀ o ∈ p.1 :: p.2.1, o ∈ sent ∨ Passed lists o ∨ o ∈ p'.1 :: p'.2.1

section Rounds

variable {fuel : ℕ} {v : α} {ys : List α} {e : Option Err} {ops ops' : List (α × List α × Option Err)}
  {batch batch' : Batcher α}

/-- **A round that goes on with `ops'`.** -/
theorem intersectionLoop_next (sent : List α) (ih : LoopSpec α fuel) (hne : ops ≠ [])
    (hgood : GoodOps ops) (hrel : List.Forall₂ (Remains (opLists ops) sent) ops ops')
    (hsize : restSize ops' < fuel)
    (htrace : batch'.trace = batch.trace ++ okTrace sent) :
    ∃ zs err, IntersectionOut (fromChannel (intersectionLoop fuel (heads ops') batch')) batch.trace
      (opLists ops) zs err := by
  have hne' : ops' ≠ [] := by
    rintro rfl
    cases hrel
    exact hne rfl
  have hgood' : GoodOps ops' := by
    intro p' hp'
    obtain ⟨p, hp, he, hsub, -⟩ := forall₂_mem_right hrel hp'
    have hsub := (sublist_append_right _ _).trans hsub
    exact ⟨(hgood p hp).sorted.sublist hsub, fun x hx => (hgood p hp).nonzero x (hsub.mem hx),
      he ▸ (hgood p hp).proper⟩
  obtain ⟨zs, err, hout⟩ := ih ops' batch' hne' hgood' hsize
  refine ⟨sent ++ zs, err, ?_, hout.proper, fun l hl => ?_, fun o ho => ?_, ?_⟩
  · rw [hout.eq, htrace]
    simp [streamTrace, okTrace]
  · obtain ⟨p, hp, rfl⟩ := mem_map.mp hl
    obtain ⟨p', hp', -, hsub, -⟩ := forall₂_mem_left hrel hp
    exact ((hout.sublist _ (mem_opLists hp')).append_left sent).trans hsub
  · by_cases hsent : o ∈ sent
    · exact mem_append_left _ hsent
    · refine mem_append_right _ (hout.complete o fun l hl => ?_)
      obtain ⟨p', hp', rfl⟩ := mem_map.mp hl
      obtain ⟨p, hp, -, -, hkeep⟩ := forall₂_mem_right hrel hp'
      rcases hkeep o (ho _ (mem_opLists hp)) with h | ⟨q, hq, hnot, -⟩ | h
      · exact absurd h hsent
      · exact absurd (ho q hq) hnot
      · exact h
  · obtain ⟨l, hl, herr, hended⟩ := hout.ended
    obtain ⟨p', hp', rfl⟩ := mem_map.mp hl
    obtain ⟨p, hp, hrem⟩ := forall₂_mem_right hrel hp'
    refine ⟨_, mem_opLists hp, hrem.1.symm.trans herr, fun o ho => ?_⟩
    by_cases hdone : o ∈ sent ∨ Passed (opLists ops) o
    · exact hdone.imp_left (mem_append_left _)
    · have hleft : ∀ {q q'}, Remains (opLists ops) sent q q' → o ∈ q.1 :: q.2.1 →
          o ∈ q'.1 :: q'.2.1 := fun h ho =>
        (or_assoc.mpr (h.2.2 o ho)).resolve_left hdone
      refine (hended o (hleft hrem ho)).imp (mem_append_right _) ?_
      rintro ⟨l, hl, hnot, x, hx, hlt⟩
      obtain ⟨q', hq', rfl⟩ := mem_map.mp hl
      obtain ⟨q, hq, hrem⟩ := forall₂_mem_right hrel hq'
      exact ⟨_, mem_opLists hq, fun ho => hnot (hleft hrem ho), x,
        hrem.2.1.mem (mem_append_right _ hx), hlt⟩

/-- All heads agree: the value comes out and the operands advance. -/
theorem intersectionLoop_equal (ih : LoopSpec α fuel) (hgood : GoodOps ((v, ys, e) :: ops))
    (hsame : ∀ p ∈ ops, p.1 = v) (hfuel : restSize ((v, ys, e) :: ops) < fuel + 1) :
    ∃ zs err, IntersectionOut
      (fromChannel (intersectionLoop (fuel + 1) (heads ((v, ys, e) :: ops)) batch)) batch.trace
      (opLists ((v, ys, e) :: ops)) zs err := by
  have hv : v ≠ default := (hgood (v, ys, e) (by simp)).nonzero v (by simp)
  have hall : (heads ops).all (·.1 == v) = true := by simpa [heads] using hsame
  have hhead : ∀ p ∈ (v, ys, e) :: ops, p.1 = v := forall_mem_cons.mpr ⟨rfl, hsame⟩
  have htrace := Batcher.add_trace batch v hv
  rcases advanceHeads_spec ((v, ys, e) :: ops) with ⟨e', hadv, q, hq, hqnil, hqe⟩ | ⟨ops', hadv, hrel⟩
  all_goals
    rw [heads_cons] at hadv ⊢
    simp only [intersectionLoop, hall, hadv, if_true]
  · -- an operand has no more values
    have hproper : ∀ e'' ∈ e', e''.isCancelled = false := hqe ▸ (hgood q hq).proper
    refine ⟨[v], e', ?_, hproper, fun l hl => ?_, fun o ho => ?_, _, mem_opLists hq, hqe,
      fun o ho => .inl ?_⟩
    · rw [Batcher.fromChannel_close _ _ hproper, htrace]
      simp
    · obtain ⟨p, hp, rfl⟩ := mem_map.mp hl
      simp [hhead p hp]
    · simpa [hqnil, hhead q hq] using ho _ (mem_opLists hq)
    · simpa [hqnil, hhead q hq] using ho
  · -- every operand advances
    have hsize : restSize ops' < restSize ((v, ys, e) :: ops) :=
      restSize_lt hrel (fun p p' h => by simp [h.1]) ⟨(v, ys, e), by simp, fun p' h => by rw [h.1]; simp⟩
    refine intersectionLoop_next [v] ih (by simp) hgood
      (((forall₂_and_left _ _).mpr ⟨hhead, hrel⟩).imp fun p p' ⟨hp, hys, he⟩ => ⟨he, by simp [hp, hys],
        fun o ho => ?_⟩) (by omega) htrace
    rw [hp, hys] at ho
    exact (mem_cons.mp ho).imp mem_singleton.mpr .inr

/-- Some heads differ: the operands below the largest head skip to it. -/
theorem intersectionLoop_unequal (ih : LoopSpec α fuel) (hgood : GoodOps ((v, ys, e) :: ops))
    (hdiff : ∃ p ∈ ops, p.1 ≠ v) (hfuel : restSize ((v, ys, e) :: ops) < fuel + 1) :
    ∃ zs err, IntersectionOut
      (fromChannel (intersectionLoop (fuel + 1) (heads ((v, ys, e) :: ops)) batch)) batch.trace
      (opLists ((v, ys, e) :: ops)) zs err := by
  have hall : (heads ops).all (·.1 == v) = false := by simpa [heads] using hdiff
  obtain ⟨hvmax, hmax, hattained⟩ := le_maxHead v (heads ops)
  set m := maxHead v (heads ops) with hm
  have hmaxOps : ∀ p ∈ ops, p.1 ≤ m := fun p hp =>
    hmax _ (mem_map_of_mem (f := fun p => (p.1, streamTrace p.2.1 p.2.2)) hp)
  -- an operand whose head is the maximum has nothing below it
  obtain ⟨top, htop, htopm⟩ : ∃ p ∈ (v, ys, e) :: ops, p.1 = m := by
    rcases hattained with h | ⟨h, hh, hhm⟩
    · exact ⟨(v, ys, e), by simp, h.symm⟩
    · obtain ⟨p, hp, rfl⟩ := mem_map.mp hh
      exact ⟨p, mem_cons_of_mem _ hp, hhm⟩
  have habove : ∀ o, o ∈ top.1 :: top.2.1 → m ≤ o := fun o ho =>
    htopm ▸ head_le_of_mem (hgood top htop).sorted ho
  have hpassed : ∀ o, o < m → Passed (opLists ((v, ys, e) :: ops)) o := fun o ho =>
    ⟨_, mem_opLists htop, fun h => absurd ho (habove o h).not_gt, m, by simp [htopm], ho⟩
  rcases catchUp_spec m ((v, ys, e) :: ops) with ⟨e', hcatch, q, hq, hqlt, hqe⟩ | ⟨ops', hcatch, hrel⟩
  all_goals
    rw [heads_cons] at hcatch ⊢
    simp only [intersectionLoop, hall, ← hm, hcatch, Bool.false_eq_true, if_false]
  · subst hqe
    exact close_intersectionOut (p := (q.1 :: q.2.1, q.2.2)) batch (mem_opLists hq)
      (hgood q hq).proper fun o ho => hpassed o (hqlt o ho)
  · obtain ⟨p, hp, hplt⟩ : ∃ p ∈ (v, ys, e) :: ops, p.1 < m := by
      obtain ⟨p, hp, hpv⟩ := hdiff
      rcases hvmax.lt_or_eq with hlt | heq
      · exact ⟨(v, ys, e), by simp, hlt⟩
      · exact ⟨p, mem_cons_of_mem _ hp, lt_of_le_of_ne (hmaxOps p hp) (heq ▸ hpv)⟩
    have hsize : restSize ops' < restSize ((v, ys, e) :: ops) :=
      restSize_lt hrel (fun p p' h => by simpa using h.2.2.1.length_le)
        ⟨p, hp, fun p' h => h.2.2.2.2 hplt⟩
    refine intersectionLoop_next [] ih (by simp) hgood
      (hrel.imp fun p p' h => ⟨h.1, h.2.2.1, fun o ho => .inr ?_⟩) (by omega) (by simp)
    exact (lt_or_ge o m).imp (hpassed o) fun hle => h.2.2.2.1 o hle ho

end Rounds

/-- **The loop of the intersection.** -/
theorem intersectionLoop_spec (fuel : ℕ) : LoopSpec α fuel := by
  induction fuel with
  | zero => exact fun _ _ _ _ hfuel => absurd hfuel (Nat.not_lt_zero _)
  | succ fuel ih =>
    intro ops batch hne hgood hfuel
    obtain ⟨⟨v, ys, e⟩, rest, rfl⟩ := exists_cons_of_ne_nil hne
    by_cases hsame : ∀ p ∈ rest, p.1 = v
    · exact intersectionLoop_equal ih hgood hsame hfuel
    · exact intersectionLoop_unequal ih hgood (by simpa using hsame) hfuel

omit [LinearOrder α] [Inhabited α] in
/-- The operands' first values, unless one of them has none. -/
theorem openHeads_spec :
    (∃ e, openHeads (lists.map fun p => streamTrace p.1 p.2) = .inl e ∧ ([], e) ∈ lists)
    ∨ ∃ ops, openHeads (lists.map fun p => streamTrace p.1 p.2) = .inr (heads ops)
      ∧ opLists ops = lists := by
  induction lists with
  | nil => exact .inr ⟨[], rfl, rfl⟩
  | cons p lists ih =>
    obtain ⟨xs, e⟩ := p
    cases xs with
    | nil =>
      refine .inl ⟨e, ?_, by simp⟩
      cases e <;> simp [openHeads]
    | cons x xs =>
      rcases ih with ⟨e', he, hmem⟩ | ⟨ops, hops, hlists⟩
      · exact .inl ⟨e', by simp [openHeads, he], mem_cons_of_mem _ hmem⟩
      · exact .inr ⟨(x, xs, e) :: ops, by simp [openHeads, hops], by simp [← hlists, opLists]⟩

/-- **The intersection of sorted streams.** -/
theorem resolveIntersection_spec (hne : lists ≠ [])
    (hgood : ∀ p ∈ lists, SortedStream p.1 p.2) :
    ∃ zs err, IntersectionOut
      (fromChannel (resolveIntersection (lists.map fun p => streamTrace p.1 p.2))) [] lists zs err := by
  rw [← @newBatcher_trace α]
  rcases openHeads_spec lists with ⟨e, hopen, hmem⟩ | ⟨ops, hopen, rfl⟩
  · simp only [resolveIntersection, hopen]
    exact close_intersectionOut newBatcher hmem (hgood _ hmem).proper (by simp)
  · simp only [resolveIntersection, hopen]
    refine intersectionLoop_spec _ ops newBatcher ?_ ?_ ?_
    · rintro rfl
      exact hne rfl
    · intro p hp
      exact hgood _ (mem_opLists hp)
    · have hle : restSize ops ≤ (((opLists ops).map fun p => streamTrace p.1 p.2).map
          List.length).sum := by
        simp only [restSize, opLists, map_map]
        refine sum_le_sum fun p _ => ?_
        exact (Nat.le_succ _).trans (length_le_streamTrace (p.1 :: p.2.1) p.2.2)
      omega

end Kengen
