import Bthread.Isolation

set_option relaxedAutoImplicit false
set_option autoImplicit false

/-!
# Handing a stack over

When a bthread ends, `ending_sched` may give its stack to the next task, so that `sched_to` finds
none in the task it leaves. In `sched_to` the `else` of `if (cur_meta->stack != NULL)`, which is
there for `next_meta == cur_meta`, logs that the bthread has switched to itself.

## Main definitions

* `Bthread.Context.LogsFatal` — `sched_to` comes to the `LOG(FATAL)`.
* `Bthread.Context.EndsInSwitch` — the end of a bthread is an ordinary switch.

## Main results

* `Bthread.Context.endsInSwitch_iff` — it is one exactly when no stack is handed over.
-/

namespace Bthread.Context

open Function (update update_of_ne)

variable {s s₁ s₂ s' : State} {w g : GroupId} {t c : TaskRef} {o : Option ℕ}

/-- `sched_to` in group `g` to task `t`, called in state `s`, comes to
`LOG(FATAL) << "bthread=" << g->current_tid() << " sched_to itself!"`. -/
def LogsFatal (s : State) (g : GroupId) (t : TaskRef) : Prop :=
  t ≠ s.cur g ∧ (s.task (s.cur g)).stack = none

/-- When the bthread on worker `w` ends and `t` is run next, `ending_sched` calls `sched_to` with a
task that is not the current one, and `sched_to` does not come to the `LOG(FATAL)`. -/
def EndsInSwitch (s : State) (w : GroupId) (t : TaskRef) (o : Option ℕ) : Prop :=
  ∀ b m g s', (s.thread w).cont = .code (.returnKeytable b m g) →
    needStackEnding g t o (setRemained g (.releaseLastContext m) (.ended g) s) = some s' →
    t ≠ s'.cur g ∧ ¬LogsFatal s' g t

/-- The task that `ending_sched` has chosen owns a stack, or needs one of another type than the
ending task. -/
def KeepsStack (s : State) (w : GroupId) (t : TaskRef) : Prop :=
  (s.task t).stack ≠ none ∨ (s.task t).stackType ≠ (s.task (s.cur w)).stackType

/-! ## The stack of the ending task -/

/-- `set_remained` changes no stack, no stack type and no current task. -/
theorem stack_setRemained {r : Remained} {p : Phase} (i : TaskRef) :
    ((setRemained g r p s).task i).stack = (s.task i).stack ∧
      ((setRemained g r p s).task i).stackType = (s.task i).stackType ∧
      (setRemained g r p s).cur = s.cur := by
  refine ⟨?_, ?_, ?_⟩
  · by_cases hi : i = r.task
    · subst hi
      simp [setRemained, State.setGroup, State.setTask]
    · simp [setRemained, State.setGroup, State.setTask, hi]
  · by_cases hi : i = r.task
    · subst hi
      simp [setRemained, State.setGroup, State.setTask]
    · simp [setRemained, State.setGroup, State.setTask, hi]
  · funext h
    by_cases hh : h = g
    · subst hh
      simp [setRemained, State.setGroup, State.setTask, State.cur]
    · simp [setRemained, State.setGroup, State.setTask, State.cur, hh]

/-- A new stack changes neither the current tasks nor the stacks of the others. -/
theorem stack_allocateStack (h : allocateStack g t o s₁ = some s₂) (hc : c ≠ t) :
    (s₂.task c).stack = (s₁.task c).stack ∧ s₂.cur = s₁.cur := by
  cases o with
  | none =>
    cases h
    exact ⟨by simp [State.setTask, hc], rfl⟩
  | some k =>
    obtain ⟨s', hs', rfl⟩ := Option.map_eq_some_iff.mp h
    have hs : s'.task = s₁.task ∧ s'.group = s₁.group := by
      unfold getStack at hs'
      split at hs'
      · cases hs'
      · split at hs'
        · cases hs'
          exact ⟨rfl, rfl⟩
        · split at hs'
          · cases hs'
            exact ⟨rfl, rfl⟩
          · cases hs'
        · cases hs'
    refine ⟨by simp [State.setTask, hc, hs.1], ?_⟩
    funext h
    simp [State.setTask, State.cur, hs.2]

/-- The task whose stack is handed over has none afterwards, and is still current. -/
theorem stack_handOver (hc : c ≠ t) :
    ((handOver c t s).task c).stack = none ∧ (handOver c t s).cur = s.cur := by
  unfold handOver
  dsimp only
  split
  · split
    · exact ⟨by simp [State.setTask, hc], rfl⟩
    · exact ⟨by simp [State.setTask, hc], rfl⟩
  · exact ⟨by simp [State.setTask, hc], rfl⟩

/-- **The end of a bthread is an ordinary switch exactly when its stack is not handed over**: when
the next task owns a stack already, or has another stack type. With a stack handed over, `sched_to`
logs that the bthread has switched to itself.

**Proof sketch.** By the invariant of the workers the ending bthread is current and on a stack, and
the next task is another one. `ending_sched` clears the stack on one branch only. -/
theorem endsInSwitch_iff (hs : machine.ReachableIf InOwnGroup s)
    (hown : InOwnGroup s (.endTask w t o)) (hn : next s (.endTask w t o) = some s') :
    EndsInSwitch s w t o ↔ KeepsStack s w t := by
  have h := good hs
  obtain ⟨x, hx, hc⟩ := (h.worker w).cont
  obtain ⟨b, m, g, hk⟩ : ∃ b m g, (s.thread w).cont = .code (.returnKeytable b m g) := by
    simp only [next] at hn
    split at hn
    · next b m g hk => exact ⟨b, m, g, hk⟩
    · cases hn
  obtain rfl := hown w t o rfl b m g hk
  rw [hk] at hc
  obtain ⟨-, rfl, hne, -, -⟩ := hc
  simp only [next, hk, Option.ite_none_right_eq_some, Option.map_eq_some_iff] at hn
  obtain ⟨hrun, s₂, h₂, -⟩ := hn
  -- the next task is not the current one
  have hct : s.cur g ≠ t := by
    obtain rfl | ⟨i, rfl, hready⟩ := hrun
    · exact hne
    · exact (h.ready_ne hready).symm
  set s₁ := setRemained g (.releaseLastContext (s.cur g)) (.ended g) s with hs₁
  have hstack : ∀ i, (s₁.task i).stack = (s.task i).stack := fun i => (stack_setRemained i).1
  have htype : ∀ i, (s₁.task i).stackType = (s.task i).stackType := fun i =>
    (stack_setRemained i).2.1
  have hcur : s₁.cur = s.cur := (stack_setRemained (s.cur g)).2.2
  have hiff : EndsInSwitch s g t o ↔ t ≠ s₂.cur g ∧ ¬LogsFatal s₂ g t := by
    constructor
    · intro he
      exact he b (s.cur g) g s₂ hk h₂
    · intro he b' m' g' s₂' hk' h₂'
      rw [hk] at hk'
      cases hk'
      rw [← hs₁, h₂] at h₂'
      cases h₂'
      exact he
  rw [hiff]
  have hkept : ∀ s₂ : State, s₂.cur = s.cur → (s₂.task (s.cur g)).stack = some x →
      t ≠ s₂.cur g ∧ ¬LogsFatal s₂ g t := by
    intro s₂ hcur₂ hx₂
    rw [LogsFatal, hcur₂, hx₂]
    exact ⟨hct.symm, fun hf => by simp at hf⟩
  by_cases hnone : (s.task t).stack = none
  · by_cases hty : (s.task t).stackType = (s.task (s.cur g)).stackType
    · -- the stack is handed over
      rw [needStackEnding, hstack, htype, hcur, htype, if_pos hnone, if_pos hty] at h₂
      cases h₂
      have hho := stack_handOver (s := s₁) hct
      refine iff_of_false (fun hl => hl.2 ⟨hl.1, ?_⟩) (fun hk => hk.elim (· hnone) (· hty))
      rw [hho.2, hcur]
      exact hho.1
    · rw [needStackEnding, hstack, htype, hcur, htype, if_pos hnone, if_neg hty] at h₂
      have ha := stack_allocateStack h₂ hct
      exact iff_of_true (hkept _ (ha.2.trans hcur) (by rw [ha.1, hstack, hx.1])) (.inr hty)
  · rw [needStackEnding, hstack, if_neg hnone] at h₂
    rw [← Option.some.inj h₂]
    exact iff_of_true (hkept _ hcur (by rw [hstack, hx.1])) (.inl hnone)

/-- A bthread that ends while nothing else is runnable: the next task is the main task. -/
theorem endsInSwitch_main : ∃ s : State, machine.ReachableIf InOwnGroup s ∧
    EndsInSwitch s 0 (.main 0) none := by
  obtain ⟨s, h, hk, hx, hn⟩ : ∃ s, machine.exec .initial
      [.start none 0 .small, .runTask 0 0 (some 0), .leave 0, .call 0, .return 0] = some s ∧
      (s.task (.main 0)).stack ≠ none ∧ inOwnGroup s (.endTask 0 (.main 0) none) = true ∧
      (next s (.endTask 0 (.main 0) none)).isSome :=
    ⟨_, rfl, by decide, rfl, rfl⟩
  obtain ⟨s', hn⟩ := Option.isSome_iff_exists.mp hn
  have hs : machine.ReachableIf InOwnGroup s :=
    .of_checked inOwnGroup (fun _ _ => inOwnGroup_spec) (.of_init State.initial_initial) h rfl
  exact ⟨s, hs, (endsInSwitch_iff hs (inOwnGroup_spec hx) hn).mpr (.inl hk)⟩

/-- **The `LOG(FATAL)` can be reached**: a bthread with a small stack ends, and the next one has not
run yet and needs a small stack. -/
theorem not_endsInSwitch : ∃ s s', machine.Reachable s ∧
    next s (.endTask 0 (.slot 1) none) = some s' ∧ ¬EndsInSwitch s 0 (.slot 1) none := by
  obtain ⟨s, h, hk, hc, hn, hf⟩ : ∃ s, machine.exec .initial
      [.start none 0 .small, .start none 1 .small, .runTask 0 0 (some 0), .leave 0, .call 0,
        .return 0] = some s ∧
      (s.thread 0).cont = .code (.returnKeytable none (.slot 0) 0) ∧ s.cur 0 = .slot 0 ∧
      (next s (.endTask 0 (.slot 1) none)).isSome ∧
      needStackEnding 0 (.slot 1) none
        (setRemained 0 (.releaseLastContext (.slot 0)) (.ended 0) s) =
        some (handOver (.slot 0) (.slot 1)
          (setRemained 0 (.releaseLastContext (.slot 0)) (.ended 0) s)) :=
    ⟨_, rfl, rfl, rfl, rfl, rfl⟩
  obtain ⟨s', hn⟩ := Option.isSome_iff_exists.mp hn
  refine ⟨s, s', .exec (.of_init State.initial_initial) h, hn, fun he => ?_⟩
  obtain ⟨hne, hl⟩ := he none (.slot 0) 0 _ hk hf
  have hho := stack_handOver (c := .slot 0) (t := .slot 1)
    (s := setRemained 0 (.releaseLastContext (.slot 0)) (.ended 0) s) (by decide)
  refine hl ⟨hne, ?_⟩
  rw [hho.2, (stack_setRemained (s := s) (.slot 0)).2.2, hc]
  exact hho.1

end Bthread.Context
