import Mathlib.Logic.Relation
import Mathlib.Logic.Function.Basic

set_option relaxedAutoImplicit false
set_option autoImplicit false

/-!
# Transition machines and programs over a shared memory

A small library for safety proofs about interleaved programs. A *machine* is a labelled
transition system whose successor function is executable; a *program* runs any number of
sequential calls over one shared memory, one access at a time.

## Main definitions

* `Conc.Machine`, `Conc.Machine.ReachableIf`, `Conc.Machine.Reachable` — machines and the states
  reached by runs all of whose steps meet a condition.
* `Conc.Machine.Along` — runs that stay inside a set of states.
* `Conc.Program`, `Conc.Program.machine` — interleaved programs.
* `Conc.LockStep` — what one step of a call can do to one lock.

## Main results

* `Conc.Machine.ReachableIf.invariant` — the invariant rule.
* `Conc.Machine.Along.stable` — the stability rule for runs that stay inside a set of states.
* `Conc.Program.mutex` — lock words and critical sections agree in every reachable state.
-/

namespace Conc

/-- A labelled transition system with an executable, partial successor function: `next s a` is the
state after action `a`, or `none` when `a` is not enabled in `s`. -/
structure Machine (σ α : Type*) where
  /-- The initial states. -/
  init : σ → Prop
  /-- The successor of a state under an action. -/
  next : σ → α → Option σ

namespace Machine

variable {σ α : Type*} (M : Machine σ α)

/-- A step whose source state and action meet `C`. -/
def StepIf (C : σ → α → Prop) (s s' : σ) : Prop := ∃ a, C s a ∧ M.next s a = some s'

/-- The states reached by runs all of whose steps meet `C`. -/
def ReachableIf (C : σ → α → Prop) (s : σ) : Prop :=
  ∃ s₀, M.init s₀ ∧ Relation.ReflTransGen (M.StepIf C) s₀ s

/-- The reachable states. -/
def Reachable (s : σ) : Prop := M.ReachableIf (fun _ _ => True) s

variable {M}

/-- Initial states are reachable. -/
theorem ReachableIf.of_init {C : σ → α → Prop} {s : σ} (h : M.init s) : M.ReachableIf C s :=
  ⟨s, h, .refl⟩

/-- Reachability is closed under steps that meet the condition. -/
theorem ReachableIf.step {C : σ → α → Prop} {s s' : σ} {a : α} (h : M.ReachableIf C s)
    (hC : C s a) (hs : M.next s a = some s') : M.ReachableIf C s' := by
  obtain ⟨s₀, h₀, hr⟩ := h
  exact ⟨s₀, h₀, hr.tail ⟨a, hC, hs⟩⟩

/-- **The invariant rule**: what holds initially and is kept by every step that meets the
condition holds in every state reached; the step may use that its source is reachable.

**Proof sketch.** Induction on the run, last step first. -/
theorem ReachableIf.invariant {C : σ → α → Prop} {I : σ → Prop}
    (h₀ : ∀ s, M.init s → I s)
    (hstep : ∀ s a s', M.ReachableIf C s → I s → C s a → M.next s a = some s' → I s')
    {s : σ} (h : M.ReachableIf C s) : I s := by
  obtain ⟨s₀, hi, hr⟩ := h
  induction hr with
  | refl => exact h₀ _ hi
  | tail hr hs ih =>
    obtain ⟨a, hC, ha⟩ := hs
    exact hstep _ a _ ⟨s₀, hi, hr⟩ ih hC ha

/-- A run under a condition is one under every condition that follows in the states it reaches. -/
theorem ReachableIf.weaken {C D : σ → α → Prop}
    (hCD : ∀ s a, M.ReachableIf C s → C s a → D s a) {s : σ} (h : M.ReachableIf C s) :
    M.ReachableIf D s :=
  h.invariant (fun _ hi => ReachableIf.of_init hi)
    fun s a _ hr ih hC hs => ih.step (hCD s a hr hC) hs

/-- A run under a condition is one under every weaker condition. -/
theorem ReachableIf.mono {C D : σ → α → Prop} (hCD : ∀ s a, C s a → D s a) {s : σ}
    (h : M.ReachableIf C s) : M.ReachableIf D s :=
  h.weaken fun s a _ hC => hCD s a hC

/-- A run under a condition is a run. -/
theorem ReachableIf.reachable {C : σ → α → Prop} {s : σ} (h : M.ReachableIf C s) :
    M.Reachable s :=
  h.mono fun _ _ _ => trivial

/-- Reachability is closed under steps. -/
theorem Reachable.step {s s' : σ} {a : α} (h : M.Reachable s) (hs : M.next s a = some s') :
    M.Reachable s' :=
  ReachableIf.step h trivial hs

variable (M)

/-- `M.Along P s s'`: some run leads from `s` to `s'`, and every state after `s` on it satisfies
`P`. -/
def Along (P : σ → Prop) : σ → σ → Prop :=
  Relation.ReflTransGen fun s s' => (∃ a, M.next s a = some s') ∧ P s'

variable {M}

/-- The end of a run from a reachable state is reachable. -/
theorem Along.reachable {P : σ → Prop} {s s' : σ} (h : M.Along P s s') (hs : M.Reachable s) :
    M.Reachable s' := by
  induction h with
  | refl => exact hs
  | tail _ ht ih => exact ih.step ht.1.choose_spec

/-- **The stability rule**: a property of reachable states kept by every step between states of
`P` is kept by a run through `P`. -/
theorem Along.stable {P I : σ → Prop}
    (hstep : ∀ s a s', M.Reachable s → P s' → I s → M.next s a = some s' → I s')
    {s s' : σ} (h : M.Along P s s') (hs : M.Reachable s) (hi : I s) : I s' := by
  induction h with
  | refl => exact hi
  | tail hr ht ih =>
    obtain ⟨⟨a, ha⟩, hP⟩ := ht
    exact hstep _ a _ (Along.reachable hr hs) hP ih ha

/-- Run a list of actions. -/
def exec (M : Machine σ α) : σ → List α → Option σ
  | s, [] => some s
  | s, a :: as => (M.next s a).bind fun s' => exec M s' as

/-- A list of actions that runs ends in a reachable state. -/
theorem Reachable.exec {s s' : σ} {as : List α} (h : M.Reachable s)
    (he : M.exec s as = some s') : M.Reachable s' := by
  induction as generalizing s with
  | nil =>
    obtain rfl : s = s' := by simpa [Machine.exec] using he
    exact h
  | cons a as ih =>
    obtain ⟨t, ht, he'⟩ := Option.bind_eq_some_iff.mp he
    exact ih (h.step ht) he'

/-- Every step of a list of actions meets a check. -/
def checked (M : Machine σ α) (check : σ → α → Bool) : σ → List α → Bool
  | _, [] => true
  | s, a :: as => check s a && (M.next s a).any (checked M check · as)

/-- A list of actions that runs and meets a check is a run all of whose steps meet the
condition. -/
theorem StepIf.of_checked {C : σ → α → Prop} (check : σ → α → Bool)
    (hC : ∀ s a, check s a = true → C s a) {s s' : σ} {as : List α}
    (h : M.exec s as = some s') (ha : M.checked check s as = true) :
    Relation.ReflTransGen (M.StepIf C) s s' := by
  induction as generalizing s with
  | nil =>
    obtain rfl : s = s' := by simpa [Machine.exec] using h
    exact .refl
  | cons a as ih =>
    obtain ⟨s₁, h₁, h₂⟩ := Option.bind_eq_some_iff.mp h
    simp only [checked, h₁, Option.any_some, Bool.and_eq_true] at ha
    exact .head ⟨a, hC s a ha.1, h₁⟩ (ih h₂ ha.2)

/-- A list of actions that runs and meets a check ends in a state reached under the condition. -/
theorem ReachableIf.of_checked {C : σ → α → Prop} (check : σ → α → Bool)
    (hC : ∀ s a, check s a = true → C s a) {s s' : σ} {as : List α} (hs : M.ReachableIf C s)
    (h : M.exec s as = some s') (ha : M.checked check s as = true) : M.ReachableIf C s' := by
  obtain ⟨s₀, h₀, hr⟩ := hs
  exact ⟨s₀, h₀, hr.trans (StepIf.of_checked check hC h ha)⟩

end Machine

/-! ## Programs: any number of calls over one memory -/

/-- A program: `code c p k m` is one access of call `c` at control point `p`, with the outcome `k`
of whatever the memory does not decide; it gives the new memory and the next control point, or
`none` where the call cannot move. -/
structure Program (ι μ π κ : Type*) where
  /-- One access of one call. -/
  code : ι → π → κ → μ → Option (μ × π)

/-- A state of a program: the memory and the control point of every call. -/
structure Config (ι μ π : Type*) where
  /-- The shared memory. -/
  mem : μ
  /-- The control point of each call. -/
  pc : ι → π

namespace Program

variable {ι μ π κ : Type*} [DecidableEq ι] (P : Program ι μ π κ)

/-- The machine of a program: every call starts at `start`, and any call may take the next
access. -/
def machine (init : μ → Prop) (start : π) : Machine (Config ι μ π) (ι × κ) where
  init s := init s.mem ∧ s.pc = fun _ => start
  next s a := (P.code a.1 (s.pc a.1) a.2 s.mem).map fun r =>
    ⟨r.1, Function.update s.pc a.1 r.2⟩

variable {P} {init : μ → Prop} {start : π}

/-- A step of a program is one access of one call. -/
theorem next_eq_some {s s' : Config ι μ π} {a : ι × κ} :
    (P.machine init start).next s a = some s' ↔
      ∃ m p, P.code a.1 (s.pc a.1) a.2 s.mem = some (m, p) ∧
        s' = ⟨m, Function.update s.pc a.1 p⟩ := by
  simp only [machine, Option.map_eq_some_iff, Prod.exists]
  constructor
  · rintro ⟨m, p, h, rfl⟩; exact ⟨m, p, h, rfl⟩
  · rintro ⟨m, p, h, rfl⟩; exact ⟨m, p, h, rfl⟩

/-- The invariant rule for programs: what holds before any call has moved and is kept by every
access holds in every reachable state. -/
theorem invariant {C : Config ι μ π → ι × κ → Prop} {I : Config ι μ π → Prop}
    (h₀ : ∀ m, init m → I ⟨m, fun _ => start⟩)
    (hstep : ∀ s c k m p, (P.machine init start).ReachableIf C s → I s → C s (c, k) →
      P.code c (s.pc c) k s.mem = some (m, p) → I ⟨m, Function.update s.pc c p⟩)
    {s : Config ι μ π} (h : (P.machine init start).ReachableIf C s) : I s := by
  refine h.invariant (fun s hi => ?_) fun s a s' hr hi hC hs => ?_
  · obtain ⟨m, pc⟩ := s
    obtain ⟨hm, rfl⟩ := hi
    exact h₀ m hm
  · obtain ⟨m, p, hc, rfl⟩ := next_eq_some.mp hs
    exact hstep s a.1 a.2 m p hr hi hC hc

end Program

/-! ## Locks -/

/-- What one step of call `c` can do to one lock, `l` and `l'` being the lock word before and
after and `h`, `h'` whether `c` is inside the critical section. -/
inductive LockStep {ι : Type*} (c : ι) (l l' : Option ι) (h h' : Prop) : Prop
  | keep (hl : l' = l) (hh : h' ↔ h)
  | acquire (hl : l = none) (hl' : l' = some c) (hh : h')
  | release (hh : h) (hl' : l' = none) (hh' : ¬h')

namespace Program

variable {ι μ π κ β : Type*} [DecidableEq ι] {P : Program ι μ π κ} {init : μ → Prop} {start : π}

/-- **Mutual exclusion**: if initially every lock is free, no call starts inside a section, and
every access acts on each lock by a `LockStep`, then in every reachable state the word of lock `b`
is `c` exactly when `c` is inside the section of `b`. Whatever else is needed to know how an access
acts may be carried along as `J`.

**Proof sketch.** Induction on the run. Acquiring needs a free word, so no other call is inside;
releasing is done by the call inside, which by the hypothesis is the one in the word. -/
theorem mutex (lock : μ → β → Option ι) (holds : ι → π → β → Prop) (J : Config ι μ π → Prop)
    (hinit : ∀ m, init m → J ⟨m, fun _ => start⟩ ∧ ∀ b, lock m b = none)
    (hstart : ∀ c b, ¬holds c start b)
    (hcode : ∀ s c k m p, (P.machine init start).Reachable s → J s →
      (∀ b c, lock s.mem b = some c ↔ holds c (s.pc c) b) →
      P.code c (s.pc c) k s.mem = some (m, p) →
      J ⟨m, Function.update s.pc c p⟩ ∧
        ∀ b, LockStep c (lock s.mem b) (lock m b) (holds c (s.pc c) b) (holds c p b))
    {s : Config ι μ π} (h : (P.machine init start).Reachable s) :
    J s ∧ ∀ b c, lock s.mem b = some c ↔ holds c (s.pc c) b := by
  refine Program.invariant (C := fun _ _ => True)
    (I := fun s => J s ∧ ∀ b c, lock s.mem b = some c ↔ holds c (s.pc c) b)
    (fun m hm => ⟨(hinit m hm).1, fun b c => by simp [(hinit m hm).2, hstart]⟩) ?_ h
  rintro s d k m p hr ⟨hJ, ih⟩ _ hc
  obtain ⟨hJ', hl⟩ := hcode s d k m p hr hJ ih hc
  refine ⟨hJ', fun b c => ?_⟩
  have hd := ih b d
  have hcb := ih b c
  by_cases hcd : c = d
  · subst hcd
    simp only [Function.update_self]
    cases hl b with
    | keep hl hh => rw [hl, hh]; exact hd
    | acquire hl hl' hh => simp [hl', hh]
    | release hh hl' hh' => simp [hl', hh']
  · simp only [Function.update_of_ne hcd]
    cases hl b with
    | keep hl hh => rw [hl]; exact hcb
    | acquire hl hl' hh =>
      simp only [hl', Option.some.injEq, ← hcb, hl, reduceCtorEq, iff_false]
      exact fun h => hcd h.symm
    | release hh hl' hh' =>
      have hlock := hd.mpr hh
      simp only [hl', ← hcb, hlock, Option.some.injEq, reduceCtorEq, false_iff]
      exact fun h => hcd h.symm

end Program

end Conc
