import Mathlib.Data.List.Induction
import Mathlib.Data.Option.Basic

/-! # Runs of a guarded transition function

A transition system is a function `step : σ → α → Option σ`: the action `a` is enabled in
`s` when `step s a` is defined.  `run step as s` performs the actions of `as` in order and
is undefined as soon as one of them is not enabled, so that an interleaving of any number
of parties is a list of actions whose run is defined.

`run_concat` splits off the last action, and `run_history` is the induction rule all results
about runs use: a relation between the actions performed so far and the state reached that
holds of no action and the initial state, and that every enabled action extends, holds of
every run.  `run_invariant` is its special case for a property of the state alone.  `countP_add_le`
bounds how often a run can perform actions that lower a measure. -/

namespace Runs

variable {σ α : Type*} (step : σ → α → Option σ)

/-- Perform actions in order; undefined when one of them is not enabled. -/
def run : List α → σ → Option σ
  | [], s => some s
  | a :: as, s => (step s a).bind (run as)

variable {step}

theorem run_append (as bs : List α) (s : σ) :
    run step (as ++ bs) s = (run step as s).bind (run step bs) := by
  induction as generalizing s with
  | nil => rfl
  | cons a as ih =>
      rw [List.cons_append, run, run, Option.bind_assoc]
      congr 1
      funext s₁
      exact ih s₁

theorem run_append_eq_some {as bs : List α} {s s' : σ} :
    run step (as ++ bs) s = some s' ↔ ∃ s₁, run step as s = some s₁ ∧ run step bs s₁ = some s' := by
  rw [run_append, Option.bind_eq_some_iff]

/-- A run ends with its last action. -/
theorem run_concat {as : List α} {a : α} {s s' : σ} :
    run step (as ++ [a]) s = some s' ↔ ∃ s₁, run step as s = some s₁ ∧ step s₁ a = some s' := by
  rw [run_append_eq_some]
  simp only [run, Option.bind_fun_some]

/-- **Induction over a run**, with the actions performed so far at hand. -/
theorem run_history {P : List α → σ → Prop} {s₀ : σ} (h₀ : P [] s₀)
    (hstep : ∀ as s a s', run step as s₀ = some s → P as s → step s a = some s' → P (as ++ [a]) s') :
    ∀ {as : List α} {s : σ}, run step as s₀ = some s → P as s := by
  intro as
  induction as using List.reverseRecOn with
  | nil =>
      intro s h
      obtain rfl := Option.some.inj h
      exact h₀
  | append_singleton as a ih =>
      intro s h
      obtain ⟨s₁, h₁, h₂⟩ := run_concat.mp h
      exact hstep as s₁ a s h₁ (ih h₁) h₂

/-- A property of states that every action keeps holds in every state reached. -/
theorem run_invariant {P : σ → Prop} {s₀ : σ} (h₀ : P s₀)
    (hstep : ∀ s a s', P s → step s a = some s' → P s') {as : List α} {s : σ}
    (h : run step as s₀ = some s) : P s :=
  run_history (P := fun _ s => P s) h₀ (fun _ s a s' _ hs ha => hstep s a s' hs ha) h

/-- **A measure bounds the actions that lower it**: where `P` holds no action raises `μ`, and those of `p`
lower it. -/
theorem countP_add_le {P : σ → Prop} {μ : σ → ℕ} {p : α → Bool}
    (hstep : ∀ s a s', P s → step s a = some s' → P s' ∧ μ s' + (if p a then 1 else 0) ≤ μ s)
    {as : List α} {s s' : σ} (hs : P s) (h : run step as s = some s') : as.countP p + μ s' ≤ μ s := by
  induction as generalizing s with
  | nil =>
      cases h
      simp
  | cons a as ih =>
      obtain ⟨s₁, h₁, h₂⟩ := Option.bind_eq_some_iff.mp h
      obtain ⟨hs₁, hμ⟩ := hstep s a s₁ hs h₁
      have hrest := ih hs₁ h₂
      rw [List.countP_cons]
      omega

end Runs
