import Mathlib

/-!
# Goals that are decided by finite evidence

Each goal has a body, a formula over values and other goals.  A value is true, false or
unknown.  A goal is decided when finitely many unfoldings of bodies give an answer: a
disjunction is true by one disjunct and false by all of them, an exclusion is true by a
base that is true and a subtract side that is false, and so on.  An unknown value decides
nothing, and neither does a goal that needs itself.

* `Formula.Settles` — an answer of a formula, given the answers of its goals.
* `decidedIn`, `Decides` — the answers after some number of unfoldings.
* **`decides_unique`** — no formula is decided both ways.
* `Formula.Mentions`, `Formula.Subtracts`, `Subtracted` — the goals of a formula, those on the
  subtract side of an exclusion, and all goals that such a side can reach.

Bodies are arbitrary: there is no stratification, and goals may depend on themselves.
-/

namespace Kengen.Decisions

variable {Goal : Type}

/-- A formula over goals. -/
inductive Formula (Goal : Type) where
  | value (v : Option Bool)
  | goal (g : Goal)
  | any {n : ℕ} (child : Fin n → Formula Goal)
  | all {n : ℕ} (child : Fin n → Formula Goal)
  | butNot (base subtract : Formula Goal)

/-- The formula has the answer, by the answers `D` of its goals. -/
def Formula.Settles (D : Goal → Bool → Prop) : Formula Goal → Bool → Prop
  | .value v, b => v = some b
  | .goal g, b => D g b
  | .any child, true => ∃ i, (child i).Settles D true
  | .any child, false => ∀ i, (child i).Settles D false
  | .all child, true => ∀ i, (child i).Settles D true
  | .all child, false => ∃ i, (child i).Settles D false
  | .butNot base subtract, true => base.Settles D true ∧ subtract.Settles D false
  | .butNot base subtract, false => base.Settles D false ∨ subtract.Settles D true

/-- The answers that `n` unfoldings of bodies give. -/
def decidedIn (body : Goal → Formula Goal) : ℕ → Goal → Bool → Prop
  | 0, _, _ => False
  | n + 1, g, b => (body g).Settles (decidedIn body n) b

/-- The formula is decided. -/
def Decides (body : Goal → Formula Goal) (f : Formula Goal) (b : Bool) : Prop :=
  ∃ n, f.Settles (decidedIn body n) b

/-! ### More unfoldings decide more -/

variable {f : Formula Goal} {b : Bool}

theorem Formula.Settles.mono {D D' : Goal → Bool → Prop} (hD : ∀ g b, D g b → D' g b)
    (h : f.Settles D b) : f.Settles D' b := by
  induction f generalizing b with
  | value v => exact h
  | goal g => exact hD g b h
  | any child ih =>
    cases b with
    | true =>
      obtain ⟨i, hi⟩ := h
      exact ⟨i, ih i hi⟩
    | false => exact fun i => ih i (h i)
  | all child ih =>
    cases b with
    | true => exact fun i => ih i (h i)
    | false =>
      obtain ⟨i, hi⟩ := h
      exact ⟨i, ih i hi⟩
  | butNot base subtract ihb ihs =>
    cases b with
    | true => exact ⟨ihb h.1, ihs h.2⟩
    | false => exact h.imp ihb ihs

variable {body : Goal → Formula Goal}

theorem decidedIn_succ (n : ℕ) (g : Goal) (b : Bool)
    (h : decidedIn body n g b) : decidedIn body (n + 1) g b := by
  induction n generalizing g b with
  | zero => exact absurd h id
  | succ n ih =>
    show (body g).Settles (decidedIn body (n + 1)) b
    exact Formula.Settles.mono ih h

theorem decidedIn_le {m n : ℕ} (hmn : m ≤ n) {g : Goal}
    (h : decidedIn body m g b) : decidedIn body n g b := by
  induction hmn with
  | refl => exact h
  | step _ ih => exact decidedIn_succ _ g b ih

theorem Formula.Settles.le {m n : ℕ} (hmn : m ≤ n) (h : f.Settles (decidedIn body m) b) :
    f.Settles (decidedIn body n) b :=
  h.mono fun _ _ hg => decidedIn_le hmn hg

/-! ### Nothing is decided both ways -/

theorem Formula.Settles.unique {D : Goal → Bool → Prop} (hD : ∀ g, ¬ (D g true ∧ D g false))
    (ht : f.Settles D true) (hf : f.Settles D false) : False := by
  induction f with
  | value v => exact Bool.noConfusion (Option.some.inj (Eq.trans (Eq.symm ht) hf))
  | goal g => exact hD g ⟨ht, hf⟩
  | any child ih =>
    obtain ⟨i, hi⟩ := ht
    exact ih i hi (hf i)
  | all child ih =>
    obtain ⟨i, hi⟩ := hf
    exact ih i (ht i) hi
  | butNot base subtract ihb ihs =>
    rcases hf with hb | hs
    · exact ihb ht.1 hb
    · exact ihs hs ht.2

theorem decidedIn_unique (n : ℕ) (g : Goal) :
    ¬ (decidedIn body n g true ∧ decidedIn body n g false) := by
  induction n generalizing g with
  | zero => exact fun h => h.1
  | succ n ih => exact fun h => Formula.Settles.unique ih h.1 h.2

/-- **No formula is decided both ways.** -/
theorem decides_unique {b' : Bool} (h : Decides body f b) (h' : Decides body f b') : b = b' := by
  have hne : ¬ (Decides body f true ∧ Decides body f false) := by
    rintro ⟨⟨m, hm⟩, ⟨n, hn⟩⟩
    exact Formula.Settles.unique (decidedIn_unique (max m n)) (hm.le (le_max_left m n))
      (hn.le (le_max_right m n))
  cases b <;> cases b'
  · rfl
  · exact absurd ⟨h', h⟩ hne
  · exact absurd ⟨h, h'⟩ hne
  · rfl

/-! ### Deciding a formula from its parts -/

section Parts

variable {body : Goal → Formula Goal} {n : ℕ} {child : Fin n → Formula Goal}
  {base subtract : Formula Goal}

theorem decides_value : Decides body (.value (some b)) b := ⟨0, rfl⟩

theorem decides_goal {g : Goal} (h : Decides body (body g) b) : Decides body (.goal g) b := by
  obtain ⟨n, hn⟩ := h
  exact ⟨n + 1, hn⟩

/-- Finitely many formulas are decided after a common number of unfoldings. -/
theorem exists_common (h : ∀ i, Decides body (child i) b) :
    ∃ k, ∀ i, (child i).Settles (decidedIn body k) b := by
  choose k hk using h
  exact ⟨Finset.univ.sup k, fun i => (hk i).le (Finset.le_sup (Finset.mem_univ i))⟩

theorem decides_any_true {i : Fin n} (h : Decides body (child i) true) :
    Decides body (.any child) true := by
  obtain ⟨k, hk⟩ := h
  exact ⟨k, i, hk⟩

theorem decides_any_false (h : ∀ i, Decides body (child i) false) :
    Decides body (.any child) false := by
  obtain ⟨k, hk⟩ := exists_common h
  exact ⟨k, hk⟩

theorem decides_all_true (h : ∀ i, Decides body (child i) true) :
    Decides body (.all child) true := by
  obtain ⟨k, hk⟩ := exists_common h
  exact ⟨k, hk⟩

theorem decides_all_false {i : Fin n} (h : Decides body (child i) false) :
    Decides body (.all child) false := by
  obtain ⟨k, hk⟩ := h
  exact ⟨k, i, hk⟩

theorem decides_butNot_true (hb : Decides body base true) (hs : Decides body subtract false) :
    Decides body (.butNot base subtract) true := by
  obtain ⟨j, hj⟩ := hb
  obtain ⟨k, hk⟩ := hs
  exact ⟨max j k, hj.le (le_max_left j k), hk.le (le_max_right j k)⟩

theorem decides_butNot_false (h : Decides body base false ∨ Decides body subtract true) :
    Decides body (.butNot base subtract) false := by
  rcases h with ⟨k, hk⟩ | ⟨k, hk⟩
  · exact ⟨k, .inl hk⟩
  · exact ⟨k, .inr hk⟩

end Parts

/-! ### The goals of a formula -/

/-- The formula mentions the goal. -/
def Formula.Mentions : Formula Goal → Goal → Prop
  | .value _, _ => False
  | .goal g, q => g = q
  | .any child, q => ∃ i, (child i).Mentions q
  | .all child, q => ∃ i, (child i).Mentions q
  | .butNot base subtract, q => base.Mentions q ∨ subtract.Mentions q

/-- The formula mentions the goal on the subtract side of an exclusion. -/
def Formula.Subtracts : Formula Goal → Goal → Prop
  | .value _, _ => False
  | .goal _, _ => False
  | .any child, q => ∃ i, (child i).Subtracts q
  | .all child, q => ∃ i, (child i).Subtracts q
  | .butNot base subtract, q => base.Subtracts q ∨ subtract.Mentions q

/-- The body of the first goal mentions the second. -/
def Refers (body : Goal → Formula Goal) (p q : Goal) : Prop := (body p).Mentions q

/-- The goals that the subtract side of an exclusion can reach, for the exclusions that a goal leads
to. -/
inductive Subtracted (body : Goal → Formula Goal) (root : Goal) : Goal → Prop
  | side {p q : Goal} (hp : Relation.ReflTransGen (Refers body) root p)
      (h : (body p).Subtracts q) : Subtracted body root q
  | reach {p q : Goal} (hp : Subtracted body root p) (h : (body p).Mentions q) :
      Subtracted body root q

/-- No goal that a subtract side can reach depends on itself, for the exclusions that a goal leads
to. -/
def SubtractAcyclicFrom (body : Goal → Formula Goal) (root : Goal) : Prop :=
  ∀ g, Subtracted body root g → ¬ Relation.TransGen (Refers body) g g

/-- No goal that a subtract side can reach depends on itself. -/
def SubtractAcyclic (body : Goal → Formula Goal) : Prop :=
  ∀ root, SubtractAcyclicFrom body root

end Kengen.Decisions
