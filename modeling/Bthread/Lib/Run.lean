import Bthread.Lib.Step

set_option relaxedAutoImplicit false
set_option autoImplicit false

/-!
# Undisturbed runs of a function

A function given by its control points, run from some control point on while nobody else touches
the memory. Runs are composed from the runs of the loops and of the functions inside.

## Main definitions

* `Conc.Reaches` — the run up to a control point, with the control points passed on the way and the
  accesses made there.
* `Conc.Returns` — the run up to the return of the function.

## Main results

* `Conc.Reaches.trans`, `Conc.Reaches.returns`, `Conc.Returns.inside` — composing runs.
* `Conc.Reaches.invariant` — the invariant rule.
* `Conc.Returns.unique` — a function returns in one way.
-/

namespace Conc

variable {A P Q R S M : Type}

/-- `Reaches code effect p m tr q m'`: from control point `p` and memory `m` the function comes to
`q` and `m'`; `tr` lists the control points passed on the way with the accesses made at them. -/
inductive Reaches (code : P → M → Res A P R) (effect : A → M → M) :
    P → M → List (P × A) → P → M → Prop
  | refl (p : P) (m : M) : Reaches code effect p m [] p m
  | head {p q r : P} {m m' : M} {a : A} {tr : List (P × A)} (h : code p m = goto a q)
      (hr : Reaches code effect q (effect a m) tr r m') :
      Reaches code effect p m ((p, a) :: tr) r m'

/-- `Returns code effect p m tr v m'`: from control point `p` and memory `m` the function passes
the control points `tr`, with these accesses, and returns `v`, with memory `m'`. -/
def Returns (code : P → M → Res A P R) (effect : A → M → M) (p : P) (m : M) (tr : List (P × A))
    (v : R) (m' : M) : Prop :=
  ∃ q m₁ tr₁ a, Reaches code effect p m tr₁ q m₁ ∧ code q m₁ = ret a v ∧ tr = tr₁ ++ [(q, a)] ∧
    m' = effect a m₁

variable {code : P → M → Res A P R} {effect : A → M → M} {p q r : P} {m m₁ m' : M} {a : A}
  {tr tr' : List (P × A)} {v : R}

namespace Reaches

/-- One step is a run. -/
theorem single (h : code p m = goto a q) : Reaches code effect p m [(p, a)] q (effect a m) :=
  .head h (.refl _ _)

/-- Runs compose. -/
theorem trans (h : Reaches code effect p m tr q m₁) (h' : Reaches code effect q m₁ tr' r m') :
    Reaches code effect p m (tr ++ tr') r m' := by
  induction h with
  | refl => exact h'
  | head h _ ih => exact .head h (ih h')

/-- A run that goes on to the return of the function. -/
theorem returns (h : Reaches code effect p m tr q m₁)
    (h' : Returns code effect q m₁ tr' v m') : Returns code effect p m (tr ++ tr') v m' := by
  obtain ⟨r, m₂, tr₁, a, hr, hc, rfl, rfl⟩ := h'
  exact ⟨r, m₂, tr ++ tr₁, a, h.trans hr, hc, by simp, rfl⟩

/-- What the start of a run satisfies and every step keeps, the end of the run satisfies. -/
theorem invariant {I : P → M → Prop} (h : Reaches code effect p m tr q m') (h₀ : I p m)
    (hstep : ∀ p m a q, I p m → code p m = goto a q → I q (effect a m)) : I q m' := by
  induction h with
  | refl => exact h₀
  | head h _ ih => exact ih (hstep _ _ _ _ h₀ h)

/-- The run of a function inside another one. -/
theorem inside {f : Q → M → Res A Q S} {k : P → Q} {g : R → Q ⊕ S}
    (h : Reaches code effect p m tr q m')
    (ho : ∀ p m, f (k p) m = Conc.inside k g (code p m)) :
    Reaches f effect (k p) m (tr.map (Prod.map k id)) (k q) m' := by
  induction h with
  | refl => exact .refl _ _
  | head h _ ih => exact .head (by rw [ho, h]; rfl) ih

end Reaches

namespace Returns

/-- A return is a run. -/
theorem single (h : code p m = ret a v) : Returns code effect p m [(p, a)] v (effect a m) :=
  ⟨p, m, [], a, .refl _ _, h, rfl, rfl⟩

/-- The run of a function inside another one, which goes on at `q` after it. -/
theorem inside {f : Q → M → Res A Q S} {k : P → Q} {g : R → Q ⊕ S} {q : Q}
    (h : Returns code effect p m tr v m')
    (ho : ∀ p m, f (k p) m = Conc.inside k g (code p m)) (hg : g v = .inl q) :
    Reaches f effect (k p) m (tr.map (Prod.map k id)) q m' := by
  obtain ⟨r, m₁, tr₁, a, hr, hc, rfl, rfl⟩ := h
  rw [List.map_append]
  exact (hr.inside ho).trans (.single (by rw [ho, hc]; simp [Conc.inside, ret, goto, hg]))

/-- A function returns in one way: the same control points, accesses, result and memory.

**Proof sketch.** Induction on the first run; the second one has to take the same step. -/
theorem unique {tr' : List (P × A)} {v' : R} {m₂ : M} (h : Returns code effect p m tr v m₁)
    (h' : Returns code effect p m tr' v' m₂) : tr = tr' ∧ v = v' ∧ m₁ = m₂ := by
  obtain ⟨q, n, t, a, hr, hc, rfl, rfl⟩ := h
  obtain ⟨q', n', t', a', hr', hc', rfl, rfl⟩ := h'
  induction hr generalizing t' with
  | refl =>
    cases hr' with
    | refl =>
      rw [hc] at hc'
      simp only [ret, Option.some.injEq, Prod.mk.injEq, Sum.inr.injEq] at hc'
      obtain ⟨rfl, rfl⟩ := hc'
      exact ⟨rfl, rfl, rfl⟩
    | head h _ => simp [hc, ret, goto] at h
  | head h _ ih =>
    cases hr' with
    | refl => simp [hc', ret, goto] at h
    | head h' hr' =>
      rw [h] at h'
      simp only [goto, Option.some.injEq, Prod.mk.injEq, Sum.inl.injEq] at h'
      obtain ⟨rfl, rfl⟩ := h'
      obtain ⟨ht, hv⟩ := ih hc _ hr'
      exact ⟨by simpa using ht, hv⟩

end Returns

end Conc
