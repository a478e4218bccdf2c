import Kengen.Check.Recursive

/-!
# Runs of the recursive strategy

`execute` loads the two sides and then searches on.  Whatever the order in which
messages arrive and goroutines move, a result says whether the right side or what
is searched from it meets the left side.

* `Meets` — the right side, or what is searched from it, meets the left side.
* **`execInv_step`** — every step keeps the invariant, from which a result is right.
-/

namespace Kengen

namespace Recursive

open PoolSearch List

section Answers

variable {r : Resolver} {req : Request} {limit : ℕ} {e : Edge} {kind : RecursiveType} {edge : Edge}
  {left : List String} {first : List User}

/-- The right side, or what is searched from it, meets the left side. -/
def Meets (r : Resolver) (req : Request) (limit : ℕ) (kind : RecursiveType) (edge : Edge)
    (left : List String) (first : List User) : Prop :=
  (∃ v ∈ first, v.str ∈ left) ∨ (searchFor r req limit kind edge left).Found first

/-- What has been loaded of the two sides and what is still to come. -/
structure Loading (left : List String) (first : List User) (b : Bootstrap) : Prop where
  user : ∀ x, x ∈ left ↔ x ∈ b.idsFromUser ∨ x ∈ messageIds (b.left.getD [])
  object : ∀ v, v ∈ first ↔ v ∈ b.idsFromObject ∨ v ∈ traceValues (b.right.getD [])
  apart : ∀ v ∈ b.idsFromObject, v.str ∉ b.idsFromUser

/-- **The invariant of the strategy.** -/
def ExecInv (r : Resolver) (req : Request) (limit : ℕ) (kind : RecursiveType) (edge : Edge)
    (left : List String) (first : List User) : State → Prop
  | .bootstrap b => Loading left first b
  | .matching b s => (∀ x, x ∈ left ↔ x ∈ b.idsFromUser) ∧ ∃ roots, (∀ v, v ∈ first ↔ v ∈ roots)
    ∧ (∀ v ∈ roots, v.str ∉ left)
    ∧ PoolSearch.Inv (searchFor r req limit kind edge b.idsFromUser) roots s
  | .returned res => ∀ b, res = .ok b → (b = true ↔ Meets r req limit kind edge left first)

theorem refuse_ok {err : Option Err} {b : Bool} (h : refuse err = .ok b) : b = false := by
  rcases err with _ | err
  · exact (Except.ok.inj h).symm
  · cases h

/-- Draining an iterator of the left side finds an id of the right side … -/
theorem drainLeft_none {t : Trace String} {b : Bootstrap} (h : drainLeft b t = none) :
    ∃ x ∈ valuesBefore t, x ∈ b.idsFromObject.map User.str := by
  induction t generalizing b with
  | nil => cases h
  | cons x t ih =>
    rcases x with err | x
    · cases h
    unfold drainLeft at h
    split at h
    · rename_i hx
      exact ⟨x, by simp [valuesBefore], hx⟩
    · obtain ⟨y, hy, hmem⟩ := ih h
      exact ⟨y, by simp [valuesBefore, hy], hmem⟩

/-- What has been collected from an iterator of the left side. -/
structure Drained (b : Bootstrap) (t : Trace String) (b' : Bootstrap) : Prop where
  left : b'.left = b.left
  right : b'.right = b.right
  object : b'.idsFromObject = b.idsFromObject
  user : ∀ x, x ∈ b'.idsFromUser ↔ x ∈ b.idsFromUser ∨ x ∈ valuesBefore t
  apart : (∀ v ∈ b.idsFromObject, v.str ∉ b.idsFromUser) →
    ∀ v ∈ b'.idsFromObject, v.str ∉ b'.idsFromUser
  err : b'.err = ((traceError t).filter (!·.isCancelled)).or b.err

/-- … or collects its values. -/
theorem drainLeft_some {t : Trace String} {b b' : Bootstrap} (h : drainLeft b t = some b') :
    Drained b t b' := by
  induction t generalizing b with
  | nil =>
    obtain rfl : b = b' := Option.some.inj h
    exact ⟨rfl, rfl, rfl, by simp [valuesBefore], fun h => h, rfl⟩
  | cons x t ih =>
    rcases x with err | x
    · cases h
      by_cases hc : err.isCancelled = true <;> simp only [hc]
      all_goals exact ⟨rfl, rfl, rfl, by simp [valuesBefore], fun h => h,
        by simp [traceError, Option.filter, hc]⟩
    · unfold drainLeft at h
      split_ifs at h with hx
      have hd := ih h
      refine ⟨hd.left, hd.right, hd.object, fun y => ?_, fun hapart => hd.apart fun v hv => ?_,
        hd.err⟩
      · rw [hd.user y]
        simp only [valuesBefore, mem_cons]
        tauto
      · rw [mem_cons, not_or]
        exact ⟨fun heq => hx (mem_map.mpr ⟨v, hv, heq⟩), hapart v hv⟩

/-- An iterator of the left side has been read. -/
theorem Loading.drained {b b' : Bootstrap} {t : Trace String} {msgs : List (Msg String)}
    (h : Loading left first b) (hmsgs : b.left = some (.iter t :: msgs))
    (hd : Drained { b with left := some msgs } t b') : Loading left first b' := by
  refine ⟨fun x => ?_, fun v => ?_, hd.apart h.apart⟩
  · rw [h.user x, hmsgs, hd.user x, hd.left]
    simp only [messageIds, mem_append, Option.getD_some]
    tauto
  · rw [h.object v, hd.object, hd.right]

/-- A value of the right side has been received. -/
theorem Loading.received {b : Bootstrap} {v : User} {t : Trace User} (h : Loading left first b)
    (ht : b.right = some (.ok v :: t)) (hnew : v.str ∉ b.idsFromUser) :
    Loading left first { b with right := some t, idsFromObject := v :: b.idsFromObject } := by
  refine ⟨h.user, fun w => ?_, forall_mem_cons.mpr ⟨hnew, h.apart⟩⟩
  rw [h.object w, ht]
  simp [traceValues, Except.toOption]
  tauto

/-- A message of the left side. -/
theorem takeLeft_inv {b : Bootstrap} (h : Loading left first b) {msgs : List (Msg String)}
    (hmsgs : b.left = some msgs) : ExecInv r req limit kind edge left first (takeLeft b msgs) := by
  have huser := h.user
  rw [hmsgs, Option.getD_some] at huser
  rcases msgs with _ | ⟨t | _, msgs⟩
  · simp only [takeLeft]
    split
    · rename_i hempty
      -- the left side is empty
      have hleft : ∀ x, x ∉ left := by
        intro x hx
        simpa [hempty, messageIds] using (huser x).mp hx
      intro ok hok
      rw [refuse_ok hok]
      refine iff_of_false (by simp) ?_
      rintro (⟨v, -, hv⟩ | ⟨x, y, -, -, hy⟩)
      · exact hleft _ hv
      · exact hleft _ (of_decide_eq_true hy)
    · exact ⟨huser, h.object, h.apart⟩
  · simp only [takeLeft]
    split
    · rename_i hnone
      obtain ⟨x, hx, hmem⟩ := drainLeft_none hnone
      obtain ⟨v, hv, rfl⟩ := mem_map.mp hmem
      intro ok hok
      obtain rfl : true = ok := Except.ok.inj hok
      refine iff_of_true rfl (.inl ⟨v, (h.object v).mpr (.inl hv), (huser _).mpr (.inr ?_)⟩)
      simp [messageIds, hx]
    · rename_i b' hsome
      exact h.drained hmsgs (drainLeft_some hsome)
  · simp only [takeLeft]
    split
    · intro ok hok
      cases hok
    · exact ⟨huser, h.object, h.apart⟩

/-- A message of the right side. -/
theorem takeRight_inv {b : Bootstrap} (h : Loading left first b) {t : Trace User}
    (ht : b.right = some t) : ExecInv r req limit kind edge left first (takeRight b t) := by
  have hobject := h.object
  rw [ht, Option.getD_some] at hobject
  rcases t with _ | ⟨_ | v, t⟩
  · simp only [takeRight]
    split
    · rename_i hempty
      -- the right side is empty
      have hfirst : ∀ v, v ∉ first := by
        intro v hv
        simpa [hempty, traceValues] using (hobject v).mp hv
      intro ok hok
      rw [refuse_ok hok]
      refine iff_of_false (by simp) ?_
      rintro (⟨v, hv, -⟩ | ⟨x, y, ⟨root, hroot, -⟩, -⟩)
      · exact hfirst v hv
      · exact hfirst root hroot
    · exact ⟨h.user, hobject, h.apart⟩
  · exact ⟨h.user, hobject, h.apart⟩
  · simp only [takeRight]
    split
    · rename_i hmem
      intro ok hok
      obtain rfl : true = ok := Except.ok.inj hok
      exact iff_of_true rfl (.inl ⟨v, (hobject v).mpr (.inr mem_cons_self), (h.user _).mpr (.inl hmem)⟩)
    · rename_i hnew
      exact h.received ht hnew

/-- What is found does not depend on how the two sides are listed. -/
theorem found_congr {ids : List String} {roots : List User} (hids : ∀ x, x ∈ left ↔ x ∈ ids)
    (hroots : ∀ v, v ∈ first ↔ v ∈ roots) :
    (searchFor r req limit kind edge ids).Found roots
      ↔ (searchFor r req limit kind edge left).Found first := by
  simp only [Search.Found, Search.Reached, searchFor, hroots, hids]

/-- **A step keeps the invariant.** -/
theorem execInv_step (hedge : recursiveEdge r.model e = some (kind, edge)) {s s' : State}
    {c : Choice} (h : ExecInv r req limit kind edge left first s) (hsettled : Settled s c)
    (hstep : step r req limit e s c = some s') : ExecInv r req limit kind edge left first s' := by
  unfold step at hstep
  split at hstep
  · obtain ⟨_, hmsgs, rfl⟩ := Option.map_eq_some_iff.mp hstep
    exact takeLeft_inv h hmsgs
  · obtain ⟨t, ht, rfl⟩ := Option.map_eq_some_iff.mp hstep
    exact takeRight_inv h ht
  · rename_i b order
    split_ifs at hstep with hclosed
    obtain ⟨hleft, hright, hperm⟩ := hclosed
    rw [hedge] at hstep
    cases hstep
    rw [Option.isNone_iff_eq_none] at hleft hright
    have huser : ∀ x, x ∈ left ↔ x ∈ b.idsFromUser := by
      intro x
      rw [h.user x, hleft]
      simp [messageIds]
    have hroots : ∀ v, v ∈ first ↔ v ∈ order := by
      intro v
      rw [h.object v, hright, hperm.mem_iff]
      simp [traceValues]
    refine ⟨huser, order, hroots, fun v hv => ?_, inv_init _ _⟩
    rw [huser]
    exact h.apart v (mem_dedup.mp (hperm.mem_iff.mp hv))
  · rename_i b s c
    obtain ⟨huser, roots, hroots, hapart, hinv⟩ := h
    rw [hedge, Option.bind_some] at hstep
    obtain ⟨_, hs₁, heq⟩ := Option.map_eq_some_iff.mp hstep
    have htarget : ∀ v ∈ roots,
        (searchFor r req limit kind edge b.idsFromUser).target v = false := by
      intro v hv
      rw [searchFor, decide_eq_false_iff_not, ← huser]
      exact hapart v hv
    have hinv₁ := inv_step hinv htarget hsettled hs₁
    unfold searched at heq
    split at heq
    · subst heq
      exact ⟨huser, roots, hroots, hapart, hinv₁⟩
    · rename_i res hres
      subst heq
      intro ok hok
      have hmeets : Meets r req limit kind edge left first
          ↔ (searchFor r req limit kind edge b.idsFromUser).Found roots := by
        rw [found_congr huser hroots, Meets, or_iff_right]
        rintro ⟨v, hv, hmem⟩
        exact hapart v ((hroots v).mp hv) hmem
      rw [hmeets]
      rcases res with err | _ | _
      · cases hok
      · have hans := hinv₁.result false hres
        rw [refuse_ok hok]
        exact hans
      · obtain rfl : true = ok := Except.ok.inj hok
        exact hinv₁.result true hres
  · cases hstep
    intro ok hok
    cases hok
  · cases hstep
    intro ok hok
    cases hok
  · cases hstep

end Answers

end Recursive

end Kengen
