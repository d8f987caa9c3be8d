import Mathlib.Logic.Basic

set_option relaxedAutoImplicit false
set_option autoImplicit false

/-!
# Functions as sequences of accesses

A function that works on a shared memory is given by its control points: at each of them it makes
one access and goes on at another control point or returns. `Ensures` is the partial-correctness
assertion about one such step, with a rule for each way to build a step.

## Main definitions

* `Conc.Res`, `Conc.goto`, `Conc.ret`, `Conc.inside` — steps of functions.
* `Conc.Ensures` — every outcome of a step satisfies a postcondition.

## Main results

* `Conc.ensures_goto`, `Conc.ensures_ret`, `Conc.ensures_ite`, `Conc.ensures_inside` — the rules.
-/

namespace Conc

variable {A P Q R S X : Type}

/-- The next access of a function with control points `P` and result `R`, with the control point
or the result it leads to; `none` where the function cannot move (a lock is taken, nothing to wait
for has happened). -/
abbrev Res (A P R : Type) := Option (A × (P ⊕ R))

/-- The access leads to control point `p`. -/
def goto (a : A) (p : P) : Res A P R := some (a, .inl p)

/-- The access ends the function with result `r`. -/
def ret (a : A) (r : R) : Res A P R := some (a, .inr r)

/-- Run a function as a part of another one: its control points are mapped by `k`, its results by
`g`. -/
def inside (k : P → Q) (g : R → Q ⊕ S) : Res A P R → Res A Q S
  | none => none
  | some (a, r) => some (a, r.elim (fun p => .inl (k p)) g)

/-- If there is a step, its access and what comes after it satisfy `Φ`. -/
def Ensures (r : Option (A × X)) (Φ : A → X → Prop) : Prop := ∀ a x, r = some (a, x) → Φ a x

/-- Weaken the postcondition. -/
theorem Ensures.mono {r : Option (A × X)} {Φ Ψ : A → X → Prop} (h : Ensures r Φ)
    (hΦ : ∀ a x, Φ a x → Ψ a x) : Ensures r Ψ :=
  fun a x hx => hΦ a x (h a x hx)

/-- Where there is no step there is nothing to show. -/
@[simp]
theorem ensures_none (Φ : A → X → Prop) : Ensures none Φ := by simp [Ensures]

/-- The rule for a step. -/
@[simp]
theorem ensures_some (Φ : A → X → Prop) (a : A) (x : X) : Ensures (some (a, x)) Φ ↔ Φ a x := by
  simp [Ensures]

/-- The rule for a step to a control point. -/
@[simp]
theorem ensures_goto (Φ : A → P ⊕ R → Prop) (a : A) (p : P) :
    Ensures (goto a p) Φ ↔ Φ a (.inl p) := by simp [goto]

/-- The rule for a step that returns. -/
@[simp]
theorem ensures_ret (Φ : A → P ⊕ R → Prop) (a : A) (r : R) :
    Ensures (ret a r) Φ ↔ Φ a (.inr r) := by simp [ret]

/-- The rule for a test. -/
@[simp]
theorem ensures_ite (Φ : A → X → Prop) (c : Prop) [Decidable c] (r r' : Option (A × X)) :
    Ensures (if c then r else r') Φ ↔ (c → Ensures r Φ) ∧ (¬c → Ensures r' Φ) := by
  split <;> simp [*]

/-- The rule for a function that is a part of another one. -/
@[simp]
theorem ensures_inside (k : P → Q) (g : R → Q ⊕ S) (r : Res A P R) (Φ : A → Q ⊕ S → Prop) :
    Ensures (inside k g r) Φ ↔
      Ensures r fun a x => Φ a (x.elim (fun p => .inl (k p)) g) := by
  rcases r with _ | ⟨a, p | v⟩ <;> simp [inside]

end Conc
