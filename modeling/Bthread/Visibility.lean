import Bthread.Lib.Trace
import Bthread.Origins

set_option relaxedAutoImplicit false
set_option autoImplicit false

/-!
# Visibility of stores to waiters

A waiter compares the value of the butex under the `waiter_lock` before it is queued, and a waker
empties the queue under the same lock. So a waiter whose value has changed does not miss a wake that
comes after the store.

## Main definitions

* `Bthread.Differs` — the value of the butex is not the one the waiter expects.
* `Bthread.Out` — a waiter is not in the queue of a butex and nobody is about to put it there.
* `Bthread.LeftSection` — a waker has left its critical section.

## Main results

* `Bthread.visible` — no waiter that the value differs for is left in the queue.
-/

namespace Bthread

open Function (update update_self update_of_ne)
open Conc (Ensures)

variable {s s' s₁ s₂ : State} {c d w : CallId} {m : Mem} {a : Access} {p p' : Pc} {k : Move}
  {b : ButexId} {x : Tid} {tr : List (State × (CallId × Move))}

/-! ## Putting a waiter into a queue -/

/-- Inside the critical section of its wait, after the values were compared. -/
def Pc.Compared (b : ButexId) : Pc → Prop
  | .butexWait y (.callback .state) | .butexWait y (.callback .interrupted)
  | .butexWait y (.callback .append) => y.butex = b
  | .butexWaitFromPthread y .interrupted | .butexWaitFromPthread y .append => y.butex = b
  | _ => False

/-- `butex_wake_except` has taken waiter `w` out of the queue, or is about to. -/
def WakeExceptPc.Has (w : CallId) : WakeExceptPc → Prop
  | .drain _ _ ex | .reappend _ _ ex => ex = some w
  | .remove _ _ ex v | .clear _ _ ex v => ex = some w ∨ v = w
  | _ => False

/-- A call is inside `butex_wake_except(b, x)` at `q`, alone or at the end of a bthread. -/
def Pc.WakesExcept (b : ButexId) (x : Tid) (q : WakeExceptPc) : Pc → Prop
  | .butexWakeExcept b' x' _ q' => b' = b ∧ x' = x ∧ q' = q
  | .endTask t (.wakeExcept q') => .version t = b ∧ x = 0 ∧ q' = q
  | _ => False

/-- `butex_wake_except` on butex `b` has taken waiter `w` out of the queue, or is about to. -/
def Pc.SetsAside (b : ButexId) (w : CallId) (p : Pc) : Prop :=
  ∃ x q, p.WakesExcept b x q ∧ q.Has w

/-- A wait appends its own waiter to butex `b`. -/
def Pc.Appends (b : ButexId) : Pc → Prop
  | .butexWait y (.callback .append) => y.butex = b
  | .butexWaitFromPthread y .append => y.butex = b
  | _ => False

/-- `butex_wake_except` appends waiter `w` to butex `b` again. -/
def Pc.Reappends (b : ButexId) (w : CallId) (p : Pc) : Prop :=
  ∃ x bt pt, p.WakesExcept b x (.reappend bt pt (some w))

/-- `butex_requeue` appends waiter `w` to butex `b`. -/
def Pc.Requeues (b : ButexId) (w : CallId) (p : Pc) : Prop :=
  ∃ b' f, p = .butexRequeue b' b (.append f w)

/-- Where a wait appends its waiter it has compared the values. -/
theorem Pc.Appends.compared (h : p.Appends b) : p.Compared b := by
  unfold Pc.Appends at h
  split at h <;> first | exact h | exact h.elim

/-- Where a waiter is appended again it was set aside. -/
theorem Pc.Reappends.setsAside : p.Reappends b w → p.SetsAside b w := by
  rintro ⟨x, bt, pt, h⟩
  exact ⟨x, _, h, rfl⟩

/-- The shape inside `butex_wake_except`. -/
theorem Pc.WakesExcept.shape {q : WakeExceptPc} (h : p.WakesExcept b x q) :
    ∃ base, p.shape c = q.shape base b x := by
  unfold Pc.WakesExcept at h
  split at h
  case h_1 =>
    obtain ⟨rfl, rfl, rfl⟩ := h
    exact ⟨_, rfl⟩
  case h_2 =>
    obtain ⟨rfl, rfl, rfl⟩ := h
    exact ⟨_, rfl⟩
  case h_3 => exact h.elim

/-- Nobody is inside `butex_wake_except` twice. -/
theorem Pc.WakesExcept.unique {x' : Tid} {q q' : WakeExceptPc} (h : p.WakesExcept b x q)
    (h' : p.WakesExcept b x' q') : x = x' ∧ q = q' := by
  unfold Pc.WakesExcept at h h'
  split at h
  case h_1 => exact ⟨h.2.1.symm.trans h'.2.1, h.2.2.symm.trans h'.2.2⟩
  case h_2 => exact ⟨h.2.1.trans h'.2.1.symm, h.2.2.symm.trans h'.2.2⟩
  case h_3 => exact h.elim

/-- A call inside `butex_wake_except` does not wait. -/
theorem Pc.WakesExcept.not_compared {q : WakeExceptPc} (h : p.WakesExcept b x q) :
    ¬p.Compared b := by
  unfold Pc.WakesExcept at h
  split at h
  · exact id
  · exact id
  · exact h.elim

/-- `butex_wake_except` goes on by itself. -/
theorem control_wakesExcept {q' : WakeExceptPc} : Ensures (control c p k m) fun a p' =>
    p'.WakesExcept b x q' → q' = .lock ∨
      ∃ q j, p.WakesExcept b x q ∧ butexWakeExcept b x j q m = some (a, .inl q') := by
  fun_cases control c p k m
  case case1 f =>
    fun_cases begin f m
    all_goals first
      | exact Conc.ensures_none _
      | rw [Conc.ensures_some]
        exact False.elim
      | rw [Conc.ensures_some]
        rintro ⟨-, -, rfl⟩
        exact .inl rfl
  case case17 => exact Conc.ensures_none _
  all_goals rw [ensures_within]
  case case6 b' x' j q _ =>
    rintro a (q₁ | v) hq h
    · obtain ⟨rfl, rfl, rfl⟩ := h
      exact .inr ⟨q, j, ⟨rfl, rfl, rfl⟩, hq⟩
    · exact h.elim
  case case15 t q _ =>
    fun_cases endTask t q m
    case case8 q =>
      rw [Conc.ensures_inside]
      rintro a (q₁ | v) hq h
      · obtain ⟨rfl, rfl, rfl⟩ := h
        exact .inr ⟨q, true, ⟨rfl, rfl, rfl⟩, hq⟩
      · exact h.elim
    case case5 => by_cases hv : m.value (.version t) + 1 = 0 <;> simp [hv, Pc.WakesExcept]
    all_goals first
      | exact Conc.ensures_none _
      | rw [Conc.ensures_goto]
      | rw [Conc.ensures_ret]
    all_goals first
      | exact False.elim
      | rintro ⟨-, -, rfl⟩
        exact .inl rfl
  all_goals
    intro a r _ h
    cases r <;> exact h.elim

/-- `unsleep_if_necessary` appends nobody. -/
theorem unsleepIfNecessary_append {u : UnsleepPc} {Q : ButexId → CallId → Prop} :
    Ensures (unsleepIfNecessary w u m) fun a _ => ∀ b v, a = .append b v → Q b v := by
  fun_cases unsleepIfNecessary w u m <;> simp

/-- `erase_from_butex` appends nobody. -/
theorem eraseFromButex_append {wakeup j : Bool} {st : WaiterState} {e : ErasePc}
    {Q : ButexId → CallId → Prop} :
    Ensures (eraseFromButex w wakeup j st e m) fun a _ => ∀ b v, a = .append b v → Q b v := by
  fun_cases eraseFromButex w wakeup j st e m <;> simp

/-- The end of `butex_wake` appends nobody. -/
theorem wakeFront_append {f : FrontPc} {Q : ButexId → CallId → Prop} :
    Ensures (wakeFront w f m) fun a _ => ∀ b v, a = .append b v → Q b v := by
  cases f with
  | unsleep u =>
    rw [wakeFront, Conc.ensures_inside]
    exact unsleepIfNecessary_append
  | dispatch => by_cases h : m.tid w = 0 <;> simp [wakeFront, h]
  | exchange => simp [wakeFront]

/-- Inside `butex_wake_except` only the excluded waiter is appended. -/
theorem butexWakeExcept_append (j : Bool) (q : WakeExceptPc) :
    Ensures (butexWakeExcept b x j q m) fun a _ =>
      ∀ b' w, a = .append b' w → b' = b ∧ ∃ bt pt, q = .reappend bt pt (some w) := by
  fun_cases butexWakeExcept b x j q m
  case case19 n saved => by_cases hn : saved = n <;> simp [hn]
  all_goals
    first
    | rw [Conc.ensures_inside]; exact unsleepIfNecessary_append
    | cases j <;> simp_all

/-- **Who appends a waiter to a queue.** -/
theorem control_append : Ensures (control c p k m) fun a _ => ∀ b w, a = .append b w →
    w = c ∧ p.Appends b ∨ p.Reappends b w ∨ p.Requeues b w := by
  fun_cases control c p k m
  case case1 f => fun_cases begin f m <;> simp
  case case17 => exact Conc.ensures_none _
  all_goals rw [ensures_within]
  case case2 b q o =>
    fun_cases butexWait c b q o m
    case case10 q =>
      rw [Conc.ensures_inside]
      fun_cases waitForButex c b q m <;>
        first
        | rw [Conc.ensures_inside]; exact unsleepIfNecessary_append
        | simp [Pc.Appends]
    case case13 u =>
      rw [Conc.ensures_inside]
      exact unsleepIfNecessary_append
    all_goals simp
  case case3 b q o =>
    fun_cases butexWaitFromPthread c b q o m
    case case28 e =>
      rw [Conc.ensures_inside]
      exact eraseFromButex_append
    all_goals simp_all [Pc.Appends]
  case case4 b q _ =>
    fun_cases butexWake b q m
    case case9 f =>
      rw [Conc.ensures_inside]
      exact wakeFront_append
    all_goals simp
  case case5 b j q _ =>
    fun_cases butexWakeAll b j q m
    case case17 next n saved => by_cases hn : saved = n <;> simp [hn]
    all_goals
      first
      | rw [Conc.ensures_inside]; exact unsleepIfNecessary_append
      | cases j <;> simp
  case case6 b x j q _ =>
    refine (butexWakeExcept_append j q).mono fun a r h b' w ha => ?_
    obtain ⟨rfl, bt, pt, rfl⟩ := h b' w ha
    exact .inr (.inl ⟨x, bt, pt, rfl, rfl, rfl⟩)
  case case7 b d q _ =>
    fun_cases butexRequeue b d q m
    case case17 f =>
      rw [Conc.ensures_inside]
      exact wakeFront_append
    all_goals simp [Pc.Requeues]
  case case8 tid j q _ =>
    fun_cases interrupt tid j true q m
    case case16 e =>
      rw [Conc.ensures_inside]
      exact eraseFromButex_append
    all_goals simp
  case case9 t q _ => fun_cases setStopped t q m <;> simp
  case case10 t q _ => fun_cases usleep t q m <;> simp
  case case11 e t q o => fun_cases addSleepEvent e t q o m <;> simp
  case case12 i q _ =>
    cases q with
    | erase w e =>
      rw [timerCallback, Conc.ensures_inside]
      exact eraseFromButex_append
    | ready e => simp [timerCallback]
    | finish => simp [timerCallback]
  case case13 q o => fun_cases startTask q o m <;> simp
  case case14 q o => fun_cases initGroup q o m <;> simp
  case case15 t q _ =>
    fun_cases endTask t q m
    case case8 q =>
      rw [Conc.ensures_inside]
      refine (butexWakeExcept_append true q).mono fun a r h b' w ha => ?_
      obtain ⟨rfl, bt, pt, rfl⟩ := h b' w ha
      exact .inr (.inl ⟨0, bt, pt, rfl, rfl, rfl⟩)
    all_goals simp
  case case16 t q _ => fun_cases yield t q m <;> simp

/-- The end of `butex_wait_from_pthread` is outside the critical section. -/
theorem not_compared_afterWait {y : PthreadWaitArgs} {t : Option SlotId} {rc : WaitResult} :
    ¬(Pc.butexWaitFromPthread y (afterWait t rc)).Compared b := by
  cases t <;> exact id

/-- A wait gets to its queue by comparing the values. -/
theorem control_compared : Ensures (control c p k m) fun _ p' => p'.Compared b →
    p.Compared b ∨
      (∃ y, p = .butexWait y (.callback .value) ∧ y.butex = b ∧ m.value b = y.expectedValue) ∨
      ∃ y, p = .butexWaitFromPthread y .value ∧ y.butex = b ∧ m.value b = y.expectedValue := by
  fun_cases control c p k m
  case case1 f =>
    fun_cases begin f m
    all_goals first
      | exact Conc.ensures_none _
      | rw [Conc.ensures_some]
        exact False.elim
  case case17 => exact Conc.ensures_none _
  all_goals rw [ensures_within]
  case case2 y q o =>
    fun_cases butexWait c y q o m
    case case10 q =>
      rw [Conc.ensures_inside]
      fun_cases waitForButex c y q m
      case case3 hv =>
        rw [Conc.ensures_goto]
        intro hb
        exact .inr (.inl ⟨y, rfl, hb, by rw [← hb]; exact hv⟩)
      case case14 u =>
        rw [Conc.ensures_inside]
        intro a r _
        cases r <;> exact False.elim
      all_goals first
        | exact Conc.ensures_none _
        | rw [Conc.ensures_goto]
        | rw [Conc.ensures_ret]
      all_goals first
        | exact False.elim
        | exact fun hb => .inl hb
    case case3 => cases hab : y.abstime <;> simp [Pc.Compared]
    case case13 u =>
      rw [Conc.ensures_inside]
      rintro a (u' | ok) -
      · exact False.elim
      · cases ok <;> exact False.elim
    case case14 =>
      by_cases hn : m.currentWaiter y.slot = none <;> simp [Pc.Compared, hn]
    all_goals first
      | exact Conc.ensures_none _
      | rw [Conc.ensures_goto]
        exact False.elim
      | rw [Conc.ensures_ret]
        exact False.elim
  case case3 y q o =>
    fun_cases butexWaitFromPthread c y q o m
    case case4 => cases ht : y.task <;> simp [Pc.Compared]
    case case31 t ht => by_cases hn : m.currentWaiter t = none <;> simp [Pc.Compared, hn]
    case case10 hv =>
      rw [Conc.ensures_goto]
      intro hb
      exact .inr (.inr ⟨y, rfl, hb, by rw [← hb]; exact hv⟩)
    case case28 e =>
      rw [Conc.ensures_inside]
      rintro a (e' | erased) -
      · exact False.elim
      · cases erased
        · exact False.elim
        · exact fun h => (not_compared_afterWait h).elim
    all_goals first
      | exact Conc.ensures_none _
      | rw [Conc.ensures_goto]
      | rw [Conc.ensures_ret]
    all_goals first
      | exact False.elim
      | exact fun hb => .inl hb
      | exact fun h => (not_compared_afterWait h).elim
  all_goals
    intro a r _ h
    cases r <;> exact h.elim

/-- `butex_wake_except` takes waiters out of its queue. -/
theorem butexWakeExcept_has (j : Bool) (q : WakeExceptPc) :
    Ensures (butexWakeExcept b x j q m) fun _ r => ∀ q', r = .inl q' → q'.Has w →
      q.Has w ∨ w ∈ m.waiters b := by
  fun_cases butexWakeExcept b x j q m
  case case17 u =>
    rw [Conc.ensures_inside]
    rintro a (u' | v) - q' hq h
    · cases hq
      exact h.elim
    · cases hq
      exact h.elim
  case case4 v l h =>
    simp only [Conc.ensures_goto, h]
    rintro q' ⟨⟩ (h | rfl)
    · exact .inl h
    · exact .inr List.mem_cons_self
  all_goals simp_all [WakeExceptPc.Has]

/-- `butex_wake_except` takes waiters out of its queue. -/
theorem control_setsAside : Ensures (control c p k m) fun _ p' => p'.SetsAside b w →
    p.SetsAside b w ∨ w ∈ m.waiters b := by
  rintro a p' hc ⟨x, q', hp', hw⟩
  obtain rfl | ⟨q, j, hp, hst⟩ := control_wakesExcept a p' hc hp'
  · exact hw.elim
  · exact (butexWakeExcept_has j q a _ hst q' rfl hw).imp_left fun h => ⟨x, q, hp, h⟩

/-! ## Requeueing -/

/-- `butex_requeue` goes on by itself. -/
theorem control_requeue {b' : ButexId} {q : RequeuePc}
    (h : control c p k m = some (a, .butexRequeue b b' q)) :
    (p = .idle ∧ b = b' ∧ q = .lock1) ∨
      ∃ q₀, p = .butexRequeue b b' q₀ ∧ butexRequeue b b' q₀ m = some (a, .inl q) := by
  cases k with
  | call f =>
    cases p with
    | idle =>
      left
      cases f with
      | butexRequeue x y =>
        simp only [control, begin, requeueButexes, Option.some.injEq, Prod.mk.injEq,
          Pc.butexRequeue.injEq] at h
        obtain ⟨-, rfl, rfl, rfl⟩ := h
        exact ⟨rfl, rfl, rfl⟩
      | butexWaitFromPthread y => cases ht : y.task <;> simp [control, begin, ht] at h
      | fire j => cases ht : m.timerFn j <;> simp [control, begin, ht] at h
      | _ => simp [control, begin] at h
    | _ => simp [control] at h
  | next o =>
    cases p with
    | butexRequeue x y q₀ =>
      obtain ⟨q', hq, hp⟩ | ⟨v, -, hp⟩ := within_eq h
      · cases hp
        exact .inr ⟨q₀, rfl, hq⟩
      · simp at hp
    | idle | done r => simp [control] at h
    | _ =>
      obtain ⟨q', -, hp⟩ | ⟨v, -, hp⟩ := within_eq h
      · simp at hp
      · simp at hp

/-- `butex_requeue` gets no further than the lock it already holds. -/
theorem stuck_of_requeue {b' : ButexId} {q : RequeuePc} (hs : system.Reachable s)
    (hp : s.pc c = .butexRequeue b b' q) : b = b' ∧ (q = .lock1 ∨ q = .lock2) := by
  refine system_invariant (C := fun _ _ => True) (I := fun s => ∀ c b b' q,
    s.pc c = .butexRequeue b b' q → b = b' ∧ (q = .lock1 ∨ q = .lock2))
    (fun m hm => by simp) ?_ hs c b b' q hp
  intro s c k a p hr ih _ hc _ d b b' q hp
  by_cases hd : d = c
  · subst hd
    obtain rfl : p = .butexRequeue b b' q := by simpa using hp
    obtain ⟨-, rfl, rfl⟩ | ⟨q₀, hp₀, hst⟩ := control_requeue hc
    · exact ⟨rfl, .inl rfl⟩
    · obtain ⟨rfl, rfl | rfl⟩ := ih d b b' q₀ hp₀
      · by_cases hl : s.mem.waiterLock b = none
        · simp only [butexRequeue, if_pos hl, Conc.goto, Option.some.injEq, Prod.mk.injEq,
            Sum.inl.injEq] at hst
          exact ⟨rfl, .inr hst.2.symm⟩
        · simp [butexRequeue, if_neg hl] at hst
      · have hl : s.mem.waiterLock b = some d := by
          rw [(locked hr).waiterLock, State.shape, hp₀]
          rfl
        simp [butexRequeue, hl] at hst
  · exact ih d b b' q (by simpa [hd] using hp)

/-! ## Waiters that are out of the queue -/

/-- The value of butex `b` is not the one that waiter `w` expects. -/
def Differs (b : ButexId) (w : CallId) (s : State) : Prop :=
  (∀ y q, s.pc w = .butexWait y q → y.butex = b → s.mem.value b ≠ y.expectedValue) ∧
    ∀ y q, s.pc w = .butexWaitFromPthread y q → y.butex = b → s.mem.value b ≠ y.expectedValue

/-- Waiter `w` is not in the queue of butex `b`, and nobody is about to put it there. -/
structure Out (b : ButexId) (w : CallId) (s : State) : Prop where
  queue : w ∉ s.mem.waiters b
  compared : ¬(s.pc w).Compared b
  aside : ∀ d, ¬(s.pc d).SetsAside b w

/-- Waiter `w` is a bthread that `butex_wake_except(b, x)` excludes. -/
def Excluded (w : CallId) (x : Tid) (s : State) : Prop :=
  (s.shape w).built = true ∧ s.mem.tid w = x ∧ x ≠ 0

/-- Where a waiter was compared its call holds the `waiter_lock`. -/
theorem lock_of_compared (h : p.Compared b) : (p.shape c).lock = some b := by
  unfold Pc.Compared at h
  split at h
  all_goals first
    | exact h.elim
    | rw [← h]
      rfl

/-- Where a waiter is set aside the call holds the `waiter_lock`. -/
theorem lock_of_setsAside (h : p.SetsAside b w) : (p.shape c).lock = some b := by
  obtain ⟨x, q, hp, hw⟩ := h
  obtain ⟨base, hs⟩ := hp.shape (c := c)
  rw [hs]
  cases q <;> first | rfl | exact hw.elim

section Step

variable (hs : system.Reachable s) (hc : control c (s.pc c) k s.mem = some (a, p))
include hs hc

/-- **A waiter that is out of the queue stays out** while the value differs. -/
theorem Out.step (hdiff : Differs b w s) (h : Out b w s) : Out b w (s.after c a p) := by
  refine ⟨fun hm => ?_, fun hcomp => ?_, fun d hd => ?_⟩
  · obtain hm | rfl := mem_waiters_apply hm
    · exact h.queue hm
    · obtain ⟨rfl, hp⟩ | hp | ⟨b', f, hp⟩ := control_append _ _ hc b w rfl
      · exact h.compared hp.compared
      · exact h.aside c hp.setsAside
      · obtain ⟨-, hq | hq⟩ := stuck_of_requeue hs hp
        · cases hq
        · cases hq
  · by_cases hwc : w = c
    · subst hwc
      obtain hp | ⟨y, hp, hb, hv⟩ | ⟨y, hp, hb, hv⟩ :=
        control_compared _ _ hc (by simpa using hcomp)
      · exact h.compared hp
      · exact hdiff.1 y _ hp hb hv
      · exact hdiff.2 y _ hp hb hv
    · exact h.compared (by simpa [hwc] using hcomp)
  · by_cases hdc : d = c
    · subst hdc
      obtain hp | hm := control_setsAside _ _ hc (by simpa using hd)
      · exact h.aside d hp
      · exact h.queue hm
    · exact h.aside d (by simpa [hdc] using hd)

/-- A waiter that is excluded stays so. -/
theorem Excluded.step (h : Excluded w x s) : Excluded w x (s.after c a p) := by
  obtain ⟨hb, ht, hx⟩ := h
  have hstep := step_shape hs hc
  refine ⟨?_, (hstep.tid_eq hb).trans ht, hx⟩
  rw [shape_after]
  exact hstep.built_update hb

end Step

/-! ## Wakers -/

/-- `butex_wake_except` has seen the queue empty, in its critical section. -/
def WakeExceptPc.Drained : WakeExceptPc → Prop
  | .reappend _ _ _ | .unlock _ _ => True
  | _ => False

/-- A waker of all waiters of butex `b` but `x` has seen the queue empty, in its critical section;
`x` is `0` where no waiter is excluded. -/
def Pc.Drained (b : ButexId) (x : Tid) (p : Pc) : Prop :=
  (∃ j bt pt, p = .butexWakeAll b j (.unlock bt pt) ∧ x = 0) ∨
    ∃ q, p.WakesExcept b x q ∧ q.Drained

/-- A waker of all waiters of butex `b` but `x` is about to leave its critical section. -/
def Pc.Leaves (b : ButexId) (x : Tid) : Pc → Prop
  | .butexWakeAll b' _ (.unlock _ _) => b' = b ∧ x = 0
  | .butexWakeExcept b' x' _ (.unlock _ _) => b' = b ∧ x' = x
  | .endTask t (.wakeExcept (.unlock _ _)) => .version t = b ∧ x = 0
  | _ => False

/-- What `butex_wake_except` sees when it finds the queue empty. -/
theorem butexWakeExcept_drained (j : Bool) (q : WakeExceptPc) :
    Ensures (butexWakeExcept b x j q m) fun a r => ∀ q', r = .inl q' → q'.Drained →
      q.Drained ∨ a = .nop ∧ m.waiters b = [] ∧
        ∃ bt pt ex, q = .drain bt pt ex ∧ q' = .reappend bt pt ex := by
  fun_cases butexWakeExcept b x j q m
  case case17 u =>
    rw [Conc.ensures_inside]
    rintro a (u' | v) - q' hq h
    · cases hq
      exact h.elim
    · cases hq
      exact h.elim
  all_goals simp_all [WakeExceptPc.Drained]

/-- What `butex_wake_all` sees when it finds the queue empty. -/
theorem control_wakesAll {j : Bool} {bt pt : List CallId} : Ensures (control c p k m) fun a p' =>
    p' = .butexWakeAll b j (.unlock bt pt) →
      a = .nop ∧ (p.shape c).lock = some b ∧ m.waiters b = [] := by
  fun_cases control c p k m
  case case1 f =>
    fun_cases begin f m <;> simp
  case case17 => exact Conc.ensures_none _
  all_goals rw [ensures_within]
  case case5 b' j' q _ =>
    fun_cases butexWakeAll b' j' q m
    case case3 bt' pt' hm =>
      rw [Conc.ensures_goto]
      intro h
      obtain ⟨rfl, -⟩ := Pc.butexWakeAll.inj h
      exact ⟨rfl, rfl, hm⟩
    case case12 | case15 =>
      rw [Conc.ensures_inside]
      rintro a (u | v) - h
      · simp at h
      · simp at h
    all_goals simp
  all_goals
    rintro a (q | v) - h
    · simp at h
    · simp at h

/-- What a waker sees when it finds the queue empty, and whom it has set aside. -/
theorem control_drained : Ensures (control c p k m) fun a p' => p'.Drained b x →
    p.Drained b x ∨ a = .nop ∧ (p.shape c).lock = some b ∧ m.waiters b = [] ∧ ¬p'.Compared b ∧
      ∀ w, p'.SetsAside b w → (p.shape c).ex = some (w, x) ∧ w ∈ (p.shape c).unl := by
  rintro a p' hc (⟨j, bt, pt, rfl, rfl⟩ | ⟨q', hp', hd⟩)
  · obtain ⟨ha, hl, he⟩ := control_wakesAll a _ hc rfl
    refine .inr ⟨ha, hl, he, id, ?_⟩
    rintro w ⟨x, q, hp, -⟩
    exact hp.elim
  · obtain rfl | ⟨q, j, hp, hst⟩ := control_wakesExcept a p' hc hp'
    · exact hd.elim
    obtain hq | ⟨ha, he, bt, pt, ex, rfl, rfl⟩ := butexWakeExcept_drained j q a _ hst q' rfl hd
    · exact .inl (.inr ⟨q, hp, hq⟩)
    obtain ⟨base, hs⟩ := hp.shape (c := c)
    refine .inr ⟨ha, by rw [hs]; rfl, he, hp'.not_compared, ?_⟩
    rintro w ⟨x', q, hq, hw⟩
    obtain ⟨rfl, rfl⟩ := hp'.unique hq
    obtain rfl : ex = some w := hw
    rw [hs]
    exact ⟨rfl, List.mem_cons_self⟩

/-- **An emptied queue**: of the waiters of the butex, only the excluded one is not out. -/
theorem out_of_drained (hs : system.Reachable s)
    (hc : control c (s.pc c) k s.mem = some (a, p)) (ha : a = .nop) (hl : (s.shape c).lock = some b)
    (he : s.mem.waiters b = []) (hp : ¬p.Compared b)
    (hx : ∀ w, p.SetsAside b w → (s.shape c).ex = some (w, x) ∧ w ∈ (s.shape c).unl) :
    Out b w (s.after c a p) ∨ Excluded w x (s.after c a p) := by
  subst ha
  by_cases hw : p.SetsAside b w
  · obtain ⟨hex, hu⟩ := hx w hw
    obtain ⟨ht, h0⟩ := (known hs).ex c w x hex
    have hb := (known hs).callBuilt c w (.inr (.inl hu))
    exact .inr (Excluded.step hs hc ⟨hb, ht, h0⟩)
  refine .inl ⟨?_, fun hcomp => ?_, fun d hd => ?_⟩
  · change w ∉ s.mem.waiters b
    simp [he]
  · by_cases hwc : w = c
    · subst hwc
      exact hp (by simpa using hcomp)
    · have hcomp : (s.pc w).Compared b := by simpa [hwc] using hcomp
      exact hwc ((locked hs).lock_unique (lock_of_compared hcomp) hl)
  · by_cases hdc : d = c
    · subst hdc
      exact hw (by simpa using hd)
    · have hd : (s.pc d).SetsAside b w := by simpa [hdc] using hd
      exact hdc ((locked hs).lock_unique (lock_of_setsAside hd) hl)

/-- A waker that has seen the queue empty holds the `waiter_lock`. -/
theorem lock_of_drained (h : p.Drained b x) : (p.shape c).lock = some b := by
  obtain ⟨j, bt, pt, rfl, -⟩ | ⟨q, hp, hd⟩ := h
  · rfl
  · obtain ⟨base, hs⟩ := hp.shape (c := c)
    rw [hs]
    cases q <;> first | rfl | exact hd.elim

/-- A waker that leaves its critical section has seen the queue empty. -/
theorem Pc.Leaves.drained (h : p.Leaves b x) : p.Drained b x := by
  unfold Pc.Leaves at h
  split at h
  case h_1 j bt pt =>
    obtain ⟨rfl, rfl⟩ := h
    exact .inl ⟨j, bt, pt, rfl, rfl⟩
  case h_2 bt pt => exact .inr ⟨_, ⟨h.1, h.2, rfl⟩, trivial⟩
  case h_3 bt pt => exact .inr ⟨_, ⟨h.1, h.2, rfl⟩, trivial⟩
  case h_4 => exact h.elim

/-! ## The law -/

/-- In the steps `tr` the waker `c` of butex `b`, a `butex_wake_all` or a `butex_wake_except` that
does not exclude waiter `w`, has left its critical section. -/
def LeftSection (tr : List (State × (CallId × Move))) (b : ButexId) (w c : CallId) : Prop :=
  ∃ e ∈ tr, e.2.1 = c ∧ ∃ x, (e.1.pc c).Leaves b x ∧ ¬Excluded w x e.1

/-- **Stores are visible to waiters**: take a state after the store, in which the waker `c` has not
got the `waiter_lock` yet, and a run from there in which the value always differs from the one that
waiter `w` expects. When the waker has left its critical section, `w` is not in the queue.

**Proof sketch.** The waker leaves with an empty queue, and nobody else is in a critical section
then. After that `w` would have to compare the values again. -/
theorem visible (hs : system.Reachable s₁) (hc : (s₁.shape c).lock ≠ some b)
    (h : system.Trace (fun s _ => Differs b w s) s₁ tr s₂) (hleft : LeftSection tr b w c) :
    w ∉ s₂.mem.waiters b := by
  suffices main : (LeftSection tr b w c → Out b w s₂) ∧
      ∀ x, (s₂.pc c).Drained b x → Out b w s₂ ∨ Excluded w x s₂ from (main.1 hleft).queue
  clear hleft
  induction h with
  | refl =>
    refine ⟨?_, fun x hd => absurd (lock_of_drained hd) hc⟩
    rintro ⟨e, he, -⟩
    cases he
  | @snoc tr u v y h hC hn ih =>
    obtain ⟨c', k⟩ := y
    obtain ⟨a, p, hctl, rfl⟩ := system_next hn
    have hu := h.reachable hs
    have hout : Out b w u → Out b w (u.after c' a p) := Out.step hu hctl hC
    refine ⟨?_, fun x hd => ?_⟩
    · rintro ⟨e, he, hec, x, hl, hx⟩
      obtain he | rfl : e ∈ tr ∨ e = (u, c', k) := by simpa using he
      · exact hout (ih.1 ⟨e, he, hec, x, hl, hx⟩)
      · exact hout ((ih.2 x hl.drained).resolve_right hx)
    · have old : (u.pc c).Drained b x → Out b w (u.after c' a p) ∨ Excluded w x (u.after c' a p) :=
        fun hd => (ih.2 x hd).imp hout (Excluded.step hu hctl)
      by_cases hcc : c = c'
      · subst hcc
        obtain hp | ⟨ha, hl, he, hp, hx⟩ := control_drained _ _ hctl (by simpa using hd)
        · exact old hp
        · exact out_of_drained hu hctl ha hl he hp hx
      · exact old (by simpa [hcc] using hd)

/-- A check that the value differs. -/
def differs (b : ButexId) (w : CallId) (s : State) (_ : CallId × Move) : Bool :=
  match s.pc w with
  | .butexWait y _ => y.butex ≠ b || s.mem.value b ≠ y.expectedValue
  | .butexWaitFromPthread y _ => y.butex ≠ b || s.mem.value b ≠ y.expectedValue
  | _ => true

/-- The check is about the condition. -/
theorem differs_spec {v : CallId × Move} (h : differs b w s v = true) : Differs b w s := by
  constructor
  · intro y q hp hb
    simpa [differs, hp, hb] using h
  · intro y q hp hb
    simpa [differs, hp, hb] using h

/-- A pthread waits and is queued, and then the value changes. -/
def waitAndStore : List (CallId × Move) :=
  [(1, .call (.butexWaitFromPthread ⟨.user 0, 0, none, false⟩)), (1, .next .go),
   (1, .next (.garbage none)), (1, .next .go), (1, .next .go), (1, .next .go), (1, .next .go),
   (1, .next .go), (1, .next .go), (2, .call (.store 0 1))]

/-- A waker empties the queue, up to where it gives back the lock. -/
def drainQueue : List (CallId × Move) :=
  (3, .call (.butexWakeAll (.user 0) true)) :: List.replicate 5 (3, .next .go)

/-- The pthread is not in the queue when the waker has left its critical section. -/
theorem visible_waitAndStore : ∃ s₁ tr s₂, system.Reachable s₁ ∧
    system.Trace (fun s _ => Differs (.user 0) 1 s) s₁ tr s₂ ∧ 1 ∈ s₁.mem.waiters (.user 0) ∧
      LeftSection tr (.user 0) 1 3 ∧ 1 ∉ s₂.mem.waiters (.user 0) := by
  obtain ⟨s₁, h₁, hc₁, hm, hl, u, h, hc, hp, s₂, hn, hd⟩ : ∃ s₁,
      system.exec ⟨.initial, fun _ => .idle⟩ waitAndStore = some s₁ ∧
        system.checked (fun _ _ => true) ⟨.initial, fun _ => .idle⟩ waitAndStore = true ∧
          1 ∈ s₁.mem.waiters (.user 0) ∧ (s₁.shape 3).lock = none ∧
            ∃ u, system.exec s₁ drainQueue = some u ∧
              system.checked (differs (.user 0) 1) s₁ drainQueue = true ∧
                u.pc 3 = .butexWakeAll (.user 0) true (.unlock [] [1]) ∧
                  ∃ s₂, system.next u (3, .next .go) = some s₂ ∧
                    differs (.user 0) 1 u (3, .next .go) = true :=
    ⟨_, rfl, rfl, List.mem_cons_self, rfl, _, rfl, rfl, rfl, _, rfl, rfl⟩
  obtain ⟨tr₀, ht₀, -⟩ := Conc.Machine.Trace.of_checked (C := fun _ _ => True) (fun _ _ => true)
    (fun _ _ _ => trivial) h₁ hc₁
  obtain ⟨tr, ht, -⟩ := Conc.Machine.Trace.of_checked (differs (.user 0) 1)
    (fun _ _ => differs_spec) h hc
  have hs₁ : system.Reachable s₁ := ht₀.reachable (.of_init ⟨Mem.initial_initial, rfl⟩)
  have hlock : (s₁.shape 3).lock ≠ some (.user 0) := by simp [hl]
  have hleft : LeftSection (tr ++ [(u, 3, .next .go)]) (.user 0) 1 3 :=
    ⟨(u, 3, .next .go), by simp, rfl, 0, by simp [hp, Pc.Leaves], fun hx => hx.2.2 rfl⟩
  have ht' := ht.snoc (differs_spec hd) hn
  exact ⟨s₁, _, s₂, hs₁, ht', hm, hleft, visible hs₁ hlock ht' hleft⟩

end Bthread
