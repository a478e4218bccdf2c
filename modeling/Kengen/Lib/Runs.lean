import Mathlib

/-!
# Runs of a system that is driven by choices

A concurrent program is a partial function `step` of a state and a choice of the
scheduler; a choice that is not enabled gives `none`.  A run is a list of choices.

* **`run_invariant`**, `run_keeps` — what every step keeps holds at the end of a run.
* **`run_length_le`**, **`run_length_le_along`** — a measure that every step lowers bounds the
  length of runs.
* **`exists_run_to`** — with such a measure, a system that can go on comes to its end.
-/

namespace Kengen.Runs

variable {σ χ : Type}

/-- The state after the choices; `none` if one of them is not enabled. -/
def run (step : σ → χ → Option σ) : σ → List χ → Option σ
  | s, [] => some s
  | s, c :: cs => (step s c).bind fun s' => run step s' cs

/-- A condition on the state before each step and the choice taken there. -/
def Along (step : σ → χ → Option σ) (P : σ → χ → Prop) : σ → List χ → Prop
  | _, [] => True
  | s, c :: cs => P s c ∧ ∀ s', step s c = some s' → Along step P s' cs

instance decidableAlong (step : σ → χ → Option σ) (P : σ → χ → Prop)
    [∀ s c, Decidable (P s c)] : (cs : List χ) → (s : σ) → Decidable (Along step P s cs)
  | [], _ => isTrue trivial
  | c :: cs, s =>
    have : Decidable (∀ s', step s c = some s' → Along step P s' cs) :=
      match h : step s c with
      | none => isTrue fun s' hs' => by cases hs'
      | some s₁ =>
        match decidableAlong step P cs s₁ with
        | isTrue h₁ => isTrue fun s' hs' => by cases hs'; exact h₁
        | isFalse h₁ => isFalse fun hall => h₁ (hall s₁ rfl)
    inferInstanceAs (Decidable (_ ∧ _))

variable {step : σ → χ → Option σ}

variable {s s' : σ} {cs : List χ}

theorem run_cons {c : χ} (h : run step s (c :: cs) = some s') :
    ∃ s₁, step s c = some s₁ ∧ run step s₁ cs = some s' :=
  Option.bind_eq_some_iff.mp h

variable {P : σ → χ → Prop}

/-- A condition that holds in all states for the choices taken. -/
theorem along_of_forall (h : ∀ s, ∀ c ∈ cs, P s c) (s : σ) : Along step P s cs := by
  induction cs generalizing s with
  | nil => trivial
  | cons c cs ih =>
    exact ⟨h s c (by simp), fun s' _ => ih (fun s c hc => h s c (by simp [hc])) s'⟩

variable {I : σ → Prop}

/-- In a run, a condition that follows from another one where an invariant holds. -/
theorem Along.imp_of_invariant {Q : σ → χ → Prop}
    (h : Along step P s cs) (hstep : ∀ s c s', I s → P s c → step s c = some s' → I s')
    (himp : ∀ s c s', I s → P s c → step s c = some s' → Q s c) (hs : I s)
    (hrun : run step s cs = some s') : Along step Q s cs := by
  induction cs generalizing s with
  | nil => trivial
  | cons c cs ih =>
    obtain ⟨hP, hrest⟩ := h
    obtain ⟨s₁, hs₁, hrun⟩ := run_cons hrun
    refine ⟨himp s c s₁ hs hP hs₁, fun s₂ hs₂ => ?_⟩
    obtain rfl := Option.some.inj (hs₁.symm.trans hs₂)
    exact ih (hrest s₁ hs₁) (hstep s c s₁ hs hP hs₁) hrun

/-- **What every step keeps holds at the end of a run.** -/
theorem run_invariant (hstep : ∀ s c s', I s → P s c → step s c = some s' → I s') (hs : I s)
    (hP : Along step P s cs) (hrun : run step s cs = some s') : I s' := by
  induction cs generalizing s with
  | nil =>
    obtain rfl : s = s' := Option.some.inj hrun
    exact hs
  | cons c cs ih =>
    obtain ⟨s₁, h₁, hrun₁⟩ := run_cons hrun
    exact ih (hstep s c s₁ hs hP.1 h₁) (hP.2 s₁ h₁) hrun₁

/-- What every step keeps, whatever is chosen. -/
theorem run_keeps (hstep : ∀ s c s', I s → step s c = some s' → I s') (hs : I s)
    (hrun : run step s cs = some s') : I s' :=
  run_invariant (P := fun _ _ => True) (fun s c s' h _ => hstep s c s' h) hs
    (along_of_forall (fun _ _ _ => trivial) s) hrun

/-- **Runs are bounded by a measure that every step lowers**, if the steps are of a kind that
lowers it. -/
theorem run_length_le_along {μ : σ → ℕ}
    (hstep : ∀ s c s', I s → P s c → step s c = some s' → I s' ∧ μ s' < μ s) (hs : I s)
    (hP : Along step P s cs) (hrun : run step s cs = some s') : cs.length + μ s' ≤ μ s := by
  induction cs generalizing s with
  | nil =>
    obtain rfl : s = s' := Option.some.inj hrun
    simp
  | cons c cs ih =>
    obtain ⟨s₁, h₁, hrun₁⟩ := run_cons hrun
    obtain ⟨hs₁, hlt⟩ := hstep s c s₁ hs hP.1 h₁
    have hle := ih hs₁ (hP.2 s₁ h₁) hrun₁
    rw [List.length_cons]
    omega

/-- Runs are bounded by a measure that every step lowers. -/
theorem run_length_le {μ : σ → ℕ} (hstep : ∀ s c s', I s → step s c = some s' → I s' ∧ μ s' < μ s)
    (hs : I s) (hrun : run step s cs = some s') : cs.length + μ s' ≤ μ s :=
  run_length_le_along (P := fun _ _ => True) (fun s c s' hi _ => hstep s c s' hi) hs
    (along_of_forall (fun _ _ _ => trivial) s) hrun

/-- **A system that can go on until it has ended comes to its end**, if it can do so with a measure
that goes down. -/
theorem exists_run_to {μ : σ → ℕ} {Q : χ → Prop} {ended : σ → Prop}
    (hprogress : ∀ s, I s → ¬ ended s → ∃ c s', Q c ∧ step s c = some s' ∧ I s' ∧ μ s' < μ s)
    (hs : I s) : ∃ cs s', (∀ c ∈ cs, Q c) ∧ run step s cs = some s' ∧ I s' ∧ ended s' := by
  induction hμ : μ s using Nat.strong_induction_on generalizing s with
  | _ n ih =>
    by_cases hend : ended s
    · exact ⟨[], s, by simp, rfl, hs, hend⟩
    · obtain ⟨c, s₁, hc, h₁, hs₁, hlt⟩ := hprogress s hs hend
      obtain ⟨cs, s', hcs, hrun, hs', hend'⟩ := ih (μ s₁) (hμ ▸ hlt) hs₁ rfl
      refine ⟨c :: cs, s', List.forall_mem_cons.mpr ⟨hc, hcs⟩, ?_, hs', hend'⟩
      rw [run, h₁]
      exact hrun

end Kengen.Runs
