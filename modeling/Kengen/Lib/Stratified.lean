import Mathlib

/-!
# Stratified systems of equations and their least model

A system gives each goal a body that refers to other goals, positively or
negatively.  Goals carry a rank: a positive reference does not go up in rank, a
negative one goes strictly down.  The model is built rank by rank, at each rank
as the least set closed under the bodies of that rank.

* **`System.holds_iff_body`** — the model satisfies every equation.
* **`System.not_holds_of_unfounded`** — a set of goals whose bodies are false when
  the set itself is taken to be false contains no goal of the model.
* **`System.holds_induction`** — the model is contained in every set closed under the
  bodies.
* **`System.holds_congr`** — systems whose bodies agree in a region, below the model of one of
  them, have the same model there.

All of it is classical and about arbitrary goals.
-/

namespace Kengen.Stratified

/-- A system of equations over ranked goals. -/
structure System (Goal : Type) where
  rank : Goal → ℕ
  /-- The body of a goal, with the positive and the negative references. -/
  body : (Goal → Prop) → (Goal → Prop) → Goal → Prop
  /-- A body is monotone in the positive references, and refers to no goal of higher rank,
  negatively to none of its own rank. -/
  stratified : ∀ (p p' low low' : Goal → Prop) (g : Goal),
    (∀ x, rank x ≤ rank g → p x → p' x) → (∀ x, rank x < rank g → (low x ↔ low' x)) →
    body p low g → body p' low' g

namespace System

variable {Goal : Type} (S : System Goal) (n : ℕ)

/-- A set of goals of one rank that is closed under their bodies, over a fixed model `low`
of the lower ranks. -/
def Closed (low T : Goal → Prop) : Prop :=
  ∀ x, S.rank x = n → S.body (fun y => low y ∨ (S.rank y = n ∧ T y)) low x → T x

/-- The model of the goals of rank below `n`. -/
def stage : ℕ → Goal → Prop
  | 0, _ => False
  | n + 1, g => (S.rank g < n ∧ stage n g)
      ∨ (S.rank g = n ∧ ∀ T : Goal → Prop, S.Closed n (stage n) T → T g)

variable (g : Goal)

/-- The least model. -/
def Holds : Prop := S.stage (S.rank g + 1) g

theorem stage_rank_lt (g : Goal) (h : S.stage n g) : S.rank g < n := by
  cases n with
  | zero => exact absurd h id
  | succ n =>
    rcases h with h | h
    · exact Nat.lt_succ_of_lt h.1
    · rw [h.1]
      exact Nat.lt_succ_self n

/-- The stages agree with the model below their rank. -/
theorem stage_iff_holds (g : Goal) (hlt : S.rank g < n) : S.stage n g ↔ S.Holds g := by
  induction n with
  | zero => exact absurd hlt (Nat.not_lt_zero _)
  | succ n ih =>
    rcases Nat.lt_succ_iff_lt_or_eq.mp hlt with h | h
    · constructor
      · rintro (h' | h')
        · exact (ih h).mp h'.2
        · exact absurd h'.1 (Nat.ne_of_lt h)
      · intro hg
        exact .inl ⟨h, (ih h).mpr hg⟩
    · rw [Holds, h]

theorem stage_iff (g : Goal) : S.stage n g ↔ S.rank g < n ∧ S.Holds g := by
  constructor
  · intro h
    have hlt := S.stage_rank_lt n g h
    exact ⟨hlt, (S.stage_iff_holds n g hlt).mp h⟩
  · intro h
    exact (S.stage_iff_holds n g h.1).mpr h.2

/-- A goal of the model is in every closed set of its rank. -/
theorem holds_iff_least :
    S.Holds g ↔ ∀ T : Goal → Prop, S.Closed (S.rank g) (S.stage (S.rank g)) T → T g := by
  show S.stage (S.rank g + 1) g ↔ _
  constructor
  · rintro (h | h)
    · exact absurd h.1 (Nat.lt_irrefl _)
    · exact h.2
  · intro h
    exact .inr ⟨rfl, h⟩

/-- A goal whose body is true in the model is in the model. -/
theorem holds_of_body (h : S.body S.Holds S.Holds g) : S.Holds g := by
  rw [holds_iff_least]
  intro T hT
  apply hT g rfl
  refine S.stratified _ _ _ _ g ?_ (fun x hx => (S.stage_iff_holds _ x hx).symm) h
  intro y hle hy
  rcases Nat.lt_or_eq_of_le hle with hlt | heq
  · exact .inl ((S.stage_iff_holds _ y hlt).mpr hy)
  · refine .inr ⟨heq, ?_⟩
    rw [holds_iff_least, heq] at hy
    exact hy T hT

/-- **Induction over the model.**  A property holds of the whole model if it holds of each goal
of the model whose body is true for the goals of the model with the property. -/
theorem holds_induction (P : Goal → Prop)
    (hstep : ∀ g, S.Holds g → S.body (fun x => S.Holds x ∧ P x) S.Holds g → P g)
    (g : Goal) (hg : S.Holds g) : P g := by
  -- rank by rank: the goals of the model with the property are closed
  induction hn : S.rank g using Nat.strongRecOn generalizing g with
  | _ n ih =>
    rw [holds_iff_least, hn] at hg
    refine (hg (fun x => S.Holds x ∧ P x) ?_).2
    intro x hx hbody
    have hbody' : S.body (fun y => S.Holds y ∧ P y) S.Holds x := by
      refine S.stratified _ _ _ _ x (fun y _ hy => ?_) (fun y hy => ?_) hbody
      · rcases hy with hy | hy
        · obtain ⟨hlt, hy⟩ := (S.stage_iff n y).mp hy
          exact ⟨hy, ih (S.rank y) hlt y hy rfl⟩
        · exact hy.2
      · exact S.stage_iff_holds n y (hx ▸ hy)
    have hxs : S.Holds x := S.holds_of_body x
      (S.stratified _ _ _ _ x (fun y _ hy => hy.1) (fun y _ => Iff.rfl) hbody')
    exact ⟨hxs, hstep x hxs hbody'⟩

/-- **The model satisfies every equation.** -/
theorem holds_iff_body : S.Holds g ↔ S.body S.Holds S.Holds g := by
  refine ⟨fun hg => ?_, S.holds_of_body g⟩
  refine S.holds_induction (fun x => S.body S.Holds S.Holds x) (fun x _ hbody => ?_) g hg
  exact S.stratified _ _ _ _ x (fun y _ hy => hy.1) (fun y _ => Iff.rfl) hbody

/-- **An unfounded set is disjoint from the model.** -/
theorem not_holds_of_unfounded (P : Goal → Prop)
    (hP : ∀ g, P g → ¬ S.body (fun x => S.Holds x ∧ ¬ P x) S.Holds g) (g : Goal) (hg : P g) :
    ¬ S.Holds g := by
  intro h
  exact S.holds_induction (fun x => ¬ P x) (fun x _ hbody hx => hP x hx hbody) g h hg

/-- **Systems whose bodies agree in a region** below the model of the second have the same model in
it.  The bodies look at goals of the region only, and take from them what the model says. -/
theorem holds_congr (S' : System Goal) (T : Goal → Prop)
    (hbody : ∀ (p p' low : Goal → Prop) (x : Goal), T x → (∀ y, T y → (p y ↔ p' y)) →
      (∀ y, T y → p y → S'.Holds y) → (∀ y, T y → (low y ↔ S'.Holds y)) →
      (S.body p low x ↔ S'.body p' S'.Holds x)) (x : Goal) (hx : T x) :
    S.Holds x ↔ S'.Holds x := by
  classical
  -- rank by rank, since the negative references need the lower ranks
  induction hn : S.rank x using Nat.strongRecOn generalizing x with
  | _ n ih =>
    let low (y z : Goal) : Prop := if S.rank z < S.rank y then S.Holds z else S'.Holds z
    have hlow : ∀ y, S.rank y ≤ n → ∀ z, T z → (low y z ↔ S'.Holds z) := by
      intro y hy z hz
      by_cases hlt : S.rank z < S.rank y
      · simpa [low, hlt] using ih (S.rank z) (Nat.lt_of_lt_of_le hlt hy) z hz rfl
      · simp [low, hlt]
    have hsame : ∀ y z, S.rank z < S.rank y → (S.Holds z ↔ low y z) := fun y z hlt => by
      simp [low, hlt]
    constructor
    · intro hholds
      refine S.holds_induction (fun y => T y → S.rank y ≤ n → S'.Holds y) (fun y _ hy hT hle => ?_)
        x hholds hx (Nat.le_of_eq hn)
      have hy' := S.stratified _ (fun z => S.rank z ≤ S.rank y ∧ (T z → S'.Holds z)) _ (low y) y
        (fun z hz h => ⟨hz, fun hTz => h.2 hTz (Nat.le_trans hz hle)⟩) (hsame y) hy
      apply S'.holds_of_body
      refine S'.stratified _ _ _ _ y (fun z _ h => ?_) (fun _ _ => Iff.rfl)
        ((hbody _ (fun z => T z ∧ S.rank z ≤ S.rank y ∧ S'.Holds z) (low y) y hT
          (fun z hz => ?_) (fun z hz h => h.2 hz) (hlow y hle)).mp hy')
      · exact h.2.2
      · simp [hz]
    · intro hholds
      refine S'.holds_induction (fun y => T y → S.rank y ≤ n → S.Holds y) (fun y _ hy hT hle => ?_)
        x hholds hx (Nat.le_of_eq hn)
      have hy' := (hbody (fun z => T z ∧ S'.Holds z ∧ (T z → S.rank z ≤ n → S.Holds z)) _ (low y) y hT
        (fun z hz => by simp [hz]) (fun z _ h => h.2.1) (hlow y hle)).mpr hy
      apply S.holds_of_body
      refine S.stratified _ _ _ _ y (fun z hz h => h.2.2 h.1 (Nat.le_trans hz hle)) (fun z hz => ?_) hy'
      exact (hsame y z hz).symm

end System

end Kengen.Stratified
