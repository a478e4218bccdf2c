import Kengen.Lib.PoolSearch

/-!
# What a search by a pool of goroutines comes to

A result says whether a target can be reached, as long as an entry with a true
condition is passed over only if its object has been taken up.  The condition is
needed because an object is marked before its condition is looked at.

* **`Inv`** — what was taken up is reached, and what it leads to is taken up or still to be read.
* **`inv_step`** — every step keeps the invariant, so that a result is right.
-/

namespace Kengen.PoolSearch

open List

variable {Id ε : Type}

/-! ### Results are right -/

/-- An entry with a true condition leads from one object to another. -/
def Search.Link (S : Search Id ε) (x y : Id) : Prop := (y, .ok true) ∈ S.read x

/-- The object is reached from one of the start objects. -/
def Search.Reached (S : Search Id ε) (roots : List Id) (x : Id) : Prop :=
  ∃ root ∈ roots, Relation.ReflTransGen S.Link root x

/-- A target is reached in one step or more. -/
def Search.Found (S : Search Id ε) (roots : List Id) : Prop :=
  ∃ x y, S.Reached roots x ∧ S.Link x y ∧ S.target y = true

variable {S : Search Id ε} {roots : List Id}

theorem Search.Reached.link {x y : Id}
    (hx : S.Reached roots x) (hy : S.Link x y) : S.Reached roots y := by
  obtain ⟨root, hroot, hpath⟩ := hx
  exact ⟨root, hroot, hpath.tail hy⟩

/-- What a frame has come to is right. -/
def FrameRight (S : Search Id ε) (roots taken : List Id) : Frame Id ε → Prop
  | .reading id rest _ _ => id ∈ taken ∧ rest <:+ S.read id
  | .sending (.ok ()) => S.Found roots
  | .sending (.error _) => True

variable {f : Frame Id ε}

theorem FrameRight.mono {taken taken' : List Id} (hsub : ∀ x ∈ taken, x ∈ taken')
    (h : FrameRight S roots taken f) : FrameRight S roots taken' f := by
  rcases f with ⟨id, _, _, _⟩ | (e | ⟨⟩)
  · exact ⟨hsub id h.1, h.2⟩
  · trivial
  · exact h

/-- A target has been found, and the main routine has yet to receive it. -/
def State.Announced (s : State Id ε) : Prop :=
  .ok () ∈ s.buffer ∨ .sending (.ok ()) ∈ s.frames

/-- What an object leads to has been taken up, or its entry is still to be read. -/
def State.Covers (S : Search Id ε) (s : State Id ε) (x : Id) : Prop :=
  s.current = some x ∨ ∀ y, S.Link x y → y ∈ s.taken
    ∨ ∃ rest v e, .reading x rest v e ∈ s.frames ∧ (y, .ok true) ∈ rest

/-- **The invariant of a search** from the objects `roots`. -/
structure Inv (S : Search Id ε) (roots : List Id) (s : State Id ε) : Prop where
  start : ∀ x ∈ roots, x ∈ s.pending ∨ x ∈ s.taken
  pending : ∀ x ∈ s.pending, x ∈ roots
  taken : ∀ x ∈ s.taken, S.Reached roots x ∧ S.target x = false
  current : ∀ x, s.current = some x → x ∈ s.taken
  frames : ∀ f ∈ s.frames, FrameRight S roots s.taken f
  buffer : .ok () ∈ s.buffer → S.Found roots
  covered : s.Announced ∨ ∀ x ∈ s.taken, s.Covers S x
  result : ∀ b, s.result = some (.ok b) → (b = true ↔ S.Found roots)

/-- The start of a search. -/
theorem inv_init (S : Search Id ε) (roots : List Id) : Inv S roots { pending := roots } where
  start := fun _ hx => .inl hx
  pending := fun _ hx => hx
  taken := by simp
  current := by simp
  frames := by simp [State.frames]
  buffer := by simp
  covered := by simp
  result := by simp

/-- The end of a search: nothing is left to be read, so what was taken up is closed. -/
theorem not_found_of_closed {s : State Id ε}
    (h : Inv S roots s) (hcurrent : s.current = none) (hpending : s.pending = [])
    (hroutines : s.routines = []) (hbuffer : s.buffer = []) : ¬ S.Found roots := by
  have hframes : s.frames = [] := by rw [State.frames, hroutines]; rfl
  have hclosed : ∀ x ∈ s.taken, ∀ y, S.Link x y → y ∈ s.taken := by
    rcases h.covered with hann | hcov
    · simp [State.Announced, hbuffer, hframes] at hann
    intro x hx y hy
    rcases hcov x hx with hcur | hlinks
    · rw [hcurrent] at hcur
      cases hcur
    · rcases hlinks y hy with hy | ⟨_, v, e, hmem, -⟩
      · exact hy
      · rw [hframes] at hmem
        cases hmem
  have hreached : ∀ x, S.Reached roots x → x ∈ s.taken := by
    rintro x ⟨root, hroot, hpath⟩
    induction hpath with
    | refl =>
      rcases h.start root hroot with hp | ht
      · rw [hpending] at hp
        cases hp
      · exact ht
    | tail _ hlink ih => exact hclosed _ ih _ hlink
  rintro ⟨x, y, hx, hlink, htarget⟩
  have hy := (h.taken y (hclosed x (hreached x hx) y hlink)).2
  rw [htarget] at hy
  cases hy

section Right

variable [DecidableEq Id] {S : Search Id ε} {roots : List Id} {s s' : State Id ε}

variable {others : List (Frame Id ε)}

theorem Moved.mem_taken (hm : Moved S s s' f others)
    {x : Id} (hx : x ∈ s.taken) : x ∈ s'.taken := by
  rw [hm.taken]
  exact mem_append_right _ hx

theorem Moved.mem_frames (hm : Moved S s s' f others)
    {g : Frame Id ε} : g ∈ s'.frames ↔ (∃ x ∈ (act S s.visited f).child, S.open x = g)
      ∨ (act S s.visited f).frame = some g ∨ g ∈ others := by
  rw [hm.after.mem_iff]
  simp [Option.mem_toList]

/-- The objects taken up are reached. -/
theorem taken_move (h : Inv S roots s) (hm : Moved S s s' f others) :
    ∀ x ∈ s'.taken, S.Reached roots x ∧ S.target x = false := by
  have hf := h.frames f (hm.before.mem_iff.mpr (by simp))
  have hacts := acts_act S s.visited f
  intro x hx
  rw [hm.taken, mem_append] at hx
  rcases hx with hx | hx
  · generalize act S s.visited f = eff at hx hacts
    cases hacts with
    | take id y rest v lastErr hy htarget =>
      obtain rfl : x = y := by simpa using hx
      obtain ⟨hid, hsuffix⟩ := hf
      have hlink : S.Link id x := hsuffix.subset (by simp)
      exact ⟨(h.taken id hid).1.link hlink, htarget⟩
    | _ => simp at hx
  · exact h.taken x hx

/-- The frames stay right. -/
theorem frames_move (h : Inv S roots s)
    (hm : Moved S s s' f others) : ∀ g ∈ s'.frames, FrameRight S roots s'.taken g := by
  have hf := h.frames f (hm.before.mem_iff.mpr (by simp))
  have hmono : ∀ g, FrameRight S roots s.taken g → FrameRight S roots s'.taken g :=
    fun g => FrameRight.mono fun x hx => hm.mem_taken hx
  intro g hg
  rcases hm.mem_frames.mp hg with ⟨x, hx, rfl⟩ | hg | hg
  · refine ⟨?_, suffix_refl _⟩
    rw [hm.taken, mem_append, Option.mem_toList]
    exact .inl hx
  · refine hmono g ?_
    have hacts := acts_act S s.visited f
    generalize act S s.visited f = eff at hg hacts
    cases hacts with
    | send | done => cases hg
    | fail =>
      cases hg
      trivial
    | found id x rest v lastErr hx htarget =>
      cases hg
      exact ⟨id, x, (h.taken id hf.1).1, hf.2.subset (by simp), htarget⟩
    | _ =>
      -- the frame goes on to the next entry
      cases hg
      exact ⟨hf.1, (suffix_cons _ _).trans hf.2⟩
  · exact hmono g (h.frames g (hm.before.mem_iff.mpr (by simp [hg])))

/-- A target that was announced stays announced until it is received. -/
theorem announced_move (hm : Moved S s s' f others) (hann : s.Announced) : s'.Announced := by
  rcases hann with hann | hann
  · refine .inl ?_
    rw [hm.buffer]
    exact mem_append_left _ hann
  · rcases mem_cons.mp (hm.before.mem_iff.mp hann) with rfl | hothers
    · refine .inl ?_
      rw [hm.buffer]
      simp [act]
    · exact .inr (hm.mem_frames.mpr (.inr (.inr hothers)))

/-- Nothing that the entries lead to is lost, or a target is announced. -/
theorem covered_move
    (hm : Moved S s s' f others)
    (hsettled : ∀ id x rest v e, f = .reading id ((x, .ok true) :: rest) v e → x ∈ s.visited →
      x ∈ s.taken)
    (hcov : ∀ x ∈ s.taken, s.Covers S x) : s'.Announced ∨ ∀ x ∈ s'.taken, s'.Covers S x := by
  by_cases hfound : (act S s.visited f).frame = some (.sending (.ok ()))
  · exact .inl (.inr (hm.mem_frames.mpr (.inr (.inl hfound))))
  refine .inr fun x hx => ?_
  rw [hm.taken, mem_append, Option.mem_toList] at hx
  rcases hx with hx | hx
  · -- just taken up: all its entries are still to be read
    refine .inr fun y hy => .inr ⟨S.read x, false, none, ?_, hy⟩
    exact hm.mem_frames.mpr (.inl ⟨x, hx, rfl⟩)
  · rcases hcov x hx with hcur | hlinks
    · exact .inl (hm.current.trans hcur)
    refine .inr fun y hy => ?_
    rcases hlinks y hy with hy | ⟨rest, v, e, hmem, hrest⟩
    · exact .inl (hm.mem_taken hy)
    rcases mem_cons.mp (hm.before.mem_iff.mp hmem) with rfl | hothers
    · -- the frame that moves is the one that has the entry
      have hstay : ∀ rest' v' e', (act S s.visited (.reading x rest v e)).frame
          = some (.reading x rest' v' e') → (y, .ok true) ∈ rest' →
          y ∈ s'.taken ∨ ∃ rest v e, .reading x rest v e ∈ s'.frames ∧ (y, .ok true) ∈ rest :=
        fun rest' v' e' heq hin =>
          .inr ⟨rest', v', e', hm.mem_frames.mpr (.inr (.inl heq)), hin⟩
      have hchild : ∀ z ∈ (act S s.visited (.reading x rest v e)).child, z ∈ s'.taken := by
        intro z hz
        rw [hm.taken]
        exact mem_append_left _ (Option.mem_toList.mpr hz)
      have hacts := acts_act S s.visited (.reading x rest v e)
      generalize act S s.visited (.reading x rest v e) = eff at hstay hchild hfound hacts
      cases hacts with
      | fail | done => cases hrest
      | pass _ z cond rest' _ _ hz =>
        rcases mem_cons.mp hrest with heq | hin
        · obtain ⟨rfl, rfl⟩ := Prod.mk.inj heq
          exact .inl (hm.mem_taken (hsettled _ _ _ _ _ rfl hz))
        · exact hstay _ _ _ rfl hin
      | mark _ z cond rest' _ _ lastErr' _ hcond =>
        rcases mem_cons.mp hrest with heq | hin
        · exact absurd (Prod.mk.inj heq).2.symm hcond
        · exact hstay _ _ _ rfl hin
      | found => exact absurd rfl hfound
      | take =>
        rcases mem_cons.mp hrest with heq | hin
        · obtain ⟨rfl, -⟩ := Prod.mk.inj heq
          exact .inl (hchild _ rfl)
        · exact hstay _ _ _ rfl hin
    · exact .inr ⟨rest, v, e, hm.mem_frames.mpr (.inr (.inr hothers)), hrest⟩

/-- **A step keeps the invariant**, if it does not pass over an entry with a true condition whose
object was only marked. -/
theorem inv_step (h : Inv S roots s) (hroots : ∀ x ∈ roots, S.target x = false) {c : Choice}
    (hsettled : Settled s c) (hstep : step S s c = some s') : Inv S roots s' := by
  obtain ⟨-, hstepped⟩ := stepped_of_step hstep
  cases hstepped with
  | store id pending hpending hcurrent heq =>
    subst heq
    have hid : id ∈ roots := h.pending id (by simp [hpending])
    refine ⟨fun x hx => ?_, fun x hx => h.pending x (by simp [hpending, hx]), fun x hx => ?_,
      fun x hx => ?_, fun f hf => (h.frames f hf).mono fun x hx => mem_cons_of_mem _ hx,
      h.buffer, ?_, h.result⟩
    · rcases h.start x hx with hx | hx
      · rw [hpending, mem_cons] at hx
        rcases hx with rfl | hx
        · exact .inr (mem_cons_self ..)
        · exact .inl hx
      · exact .inr (mem_cons_of_mem _ hx)
    · rcases mem_cons.mp hx with rfl | hx
      · exact ⟨⟨x, hid, .refl⟩, hroots x hid⟩
      · exact h.taken x hx
    · obtain rfl : id = x := Option.some.inj hx
      exact mem_cons_self ..
    · refine h.covered.imp (fun h => h) fun hcov x hx => ?_
      rcases mem_cons.mp hx with rfl | hx
      · exact .inl rfl
      · rcases hcov x hx with hcur | hlinks
        · rw [hcurrent] at hcur
          cases hcur
        · exact .inr fun y hy => (hlinks y hy).imp (mem_cons_of_mem _) fun h => h
  | launch id hcurrent heq =>
    subst heq
    have hid := h.current id hcurrent
    have hframes : ∀ f, f ∈ State.frames { s with
        current := none, routines := [S.open id] :: s.routines } ↔ f = S.open id ∨ f ∈ s.frames := by
      simp [State.frames]
    refine ⟨h.start, h.pending, h.taken, fun x hx => (by cases hx), fun f hf => ?_, h.buffer, ?_,
      h.result⟩
    · rcases (hframes f).mp hf with rfl | hf
      · exact ⟨hid, suffix_refl _⟩
      · exact h.frames f hf
    · rcases h.covered with hann | hcov
      · exact .inl (hann.imp (fun h => h) fun h => (hframes _).mpr (.inr h))
      · refine .inr fun x hx => .inr fun y hy => ?_
        rcases hcov x hx with hcur | hlinks
        · -- the object that waited is now read from the beginning
          obtain rfl : id = x := Option.some.inj (hcurrent.symm.trans hcur)
          exact .inr ⟨S.read id, false, none, (hframes _).mpr (.inl rfl), hy⟩
        · refine (hlinks y hy).imp (fun h => h) fun h => ?_
          obtain ⟨rest, v, e, hmem, hin⟩ := h
          exact ⟨rest, v, e, (hframes _).mpr (.inr hmem), hin⟩
  | move i f stack after hdrop others hm =>
    have hpass : ∀ id x rest v e, f = .reading id ((x, .ok true) :: rest) v e → x ∈ s.visited →
        x ∈ s.taken := by
      intro id x rest v e hf
      rw [Settled, hdrop, hf] at hsettled
      exact hsettled
    refine ⟨fun x hx => ?_, fun x hx => ?_, taken_move h hm, fun x hx => ?_, frames_move h hm,
      fun hmem => ?_, ?_, fun b hb => ?_⟩
    · rw [hm.pending]
      exact (h.start x hx).imp (fun h => h) hm.mem_taken
    · rw [hm.pending] at hx
      exact h.pending x hx
    · rw [hm.current] at hx
      exact hm.mem_taken (h.current x hx)
    · rw [hm.buffer, mem_append] at hmem
      rcases hmem with hmem | hmem
      · exact h.buffer hmem
      · have hf := h.frames f (hm.before.mem_iff.mpr (by simp))
        have hacts := acts_act S s.visited f
        generalize act S s.visited f = eff at hmem hacts
        cases hacts with
        | send msg =>
          obtain rfl : .ok () = msg := by simpa using hmem
          exact hf
        | _ => simp at hmem
    · rcases h.covered with hann | hcov
      · exact .inl (announced_move hm hann)
      · exact covered_move hm hpass hcov
    · rw [hm.result] at hb
      cases hb
  | found buffer hbuffer heq =>
    subst heq
    have hfound := h.buffer (by simp [hbuffer])
    refine ⟨h.start, h.pending, h.taken, h.current, h.frames, h.buffer, h.covered, fun b hb => ?_⟩
    obtain rfl : true = b := Except.ok.inj (Option.some.inj hb)
    exact iff_of_true rfl hfound
  | failed e buffer hbuffer heq =>
    subst heq
    have hmem : ∀ m : Except ε Unit, m = .ok () → (m ∈ buffer ↔ m ∈ s.buffer) := by
      rintro m rfl
      simp [hbuffer]
    refine ⟨h.start, h.pending, h.taken, h.current, h.frames, fun hb => ?_, ?_, h.result⟩
    · exact h.buffer ((hmem _ rfl).mp hb)
    · exact h.covered.imp (Or.imp (hmem _ rfl).mpr fun h => h) fun h => h
  | close hcurrent hpending hroutines hbuffer heq =>
    subst heq
    refine ⟨h.start, h.pending, h.taken, h.current, h.frames, h.buffer, h.covered, fun b hb => ?_⟩
    have hnot := not_found_of_closed h hcurrent hpending hroutines hbuffer
    rcases herr : s.err with _ | e <;> rw [herr] at hb
    · obtain rfl : false = b := Except.ok.inj (Option.some.inj hb)
      exact iff_of_false (by simp) hnot
    · cases Option.some.inj hb

end Right

end Kengen.PoolSearch
