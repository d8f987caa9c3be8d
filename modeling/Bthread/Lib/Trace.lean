import Bthread.Lib.Machine

set_option relaxedAutoImplicit false
set_option autoImplicit false

/-!
# Recorded runs

A run together with the steps it has taken, for properties of what has happened before, or of what
happens between two steps.

## Main definitions

* `Conc.Machine.Trace` — a run and its steps, each with the state it starts from.

## Main results

* `Conc.Machine.Trace.invariant` — the invariant rule for a state and the steps that led to it.
* `Conc.Machine.Trace.of_checked` — a list of actions that runs is a recorded run.
-/

namespace Conc.Machine

variable {σ α : Type*}

/-- `M.Trace C s tr s'`: a run all of whose steps meet `C` leads from `s` to `s'` and takes the
steps `tr`. -/
inductive Trace (M : Machine σ α) (C : σ → α → Prop) (s : σ) : List (σ × α) → σ → Prop
  | refl : Trace M C s [] s
  | snoc {tr : List (σ × α)} {u v : σ} {a : α} (h : Trace M C s tr u) (hC : C u a)
      (hs : M.next u a = some v) : Trace M C s (tr ++ [(u, a)]) v

namespace Trace

variable {M : Machine σ α} {C : σ → α → Prop} {s s' s₁ : σ} {tr : List (σ × α)} {a : α}

/-- The end of a recorded run is reached. -/
theorem reachableIf (h : M.Trace C s tr s') (hs : M.ReachableIf C s) : M.ReachableIf C s' := by
  induction h with
  | refl => exact hs
  | snoc _ hC hn ih => exact ih.step hC hn

/-- The end of a recorded run from a reachable state is reachable. -/
theorem reachable (h : M.Trace C s tr s') (hs : M.Reachable s) : M.Reachable s' := by
  induction h with
  | refl => exact hs
  | snoc _ _ hn ih => exact ih.step hn

/-- **The invariant rule**: what holds of the start and no steps, and is kept by every step, holds
of the end and all steps. -/
theorem invariant {I : List (σ × α) → σ → Prop} (hs : M.ReachableIf C s) (h₀ : I [] s)
    (hstep : ∀ tr u a v, M.ReachableIf C u → I tr u → C u a → M.next u a = some v →
      I (tr ++ [(u, a)]) v)
    (h : M.Trace C s tr s') : I tr s' := by
  induction h with
  | refl => exact h₀
  | snoc h hC hn ih => exact hstep _ _ _ _ (h.reachableIf hs) ih hC hn

/-- One step before a recorded run. -/
theorem head (hC : C s a) (hn : M.next s a = some s₁) (h : M.Trace C s₁ tr s') :
    M.Trace C s ((s, a) :: tr) s' := by
  induction h with
  | refl =>
    have h₁ : M.Trace C s ([] ++ [(s, a)]) s₁ := .snoc .refl hC hn
    exact h₁
  | snoc _ hC' hn' ih =>
    have h₁ := ih.snoc hC' hn'
    exact h₁

/-- One recorded run after another. -/
theorem trans {tr' : List (σ × α)} (h : M.Trace C s tr s₁) (h' : M.Trace C s₁ tr' s') :
    M.Trace C s (tr ++ tr') s' := by
  induction h' with
  | refl => simpa using h
  | snoc _ hC hn ih =>
    rw [← List.append_assoc]
    exact ih.snoc hC hn

/-- A list of actions that runs and meets a check is a recorded run whose steps meet it. -/
theorem of_checked (check : σ → α → Bool) (hC : ∀ s a, check s a = true → C s a) {as : List α}
    (h : M.exec s as = some s') (ha : M.checked check s as = true) :
    ∃ tr, M.Trace C s tr s' ∧ tr.map Prod.snd = as ∧ ∀ e ∈ tr, check e.1 e.2 = true := by
  induction as generalizing s with
  | nil =>
    obtain rfl : s = s' := by simpa [Machine.exec] using h
    exact ⟨[], .refl, rfl, by simp⟩
  | cons a as ih =>
    obtain ⟨s₁, h₁, h₂⟩ := Option.bind_eq_some_iff.mp h
    simp only [checked, h₁, Option.any_some, Bool.and_eq_true] at ha
    obtain ⟨tr, ht, hm, hc⟩ := ih h₂ ha.2
    refine ⟨(s, a) :: tr, ht.head (hC s a ha.1) h₁, by simp [hm], ?_⟩
    rintro e (_ | ⟨_, he⟩)
    · exact ha.1
    · exact hc e he

end Trace

end Conc.Machine
