import Bthread.Wakeups

set_option relaxedAutoImplicit false
set_option autoImplicit false

/-!
# Where accesses come from

Which calls remove a waiter, mark it, hand it off, or write the `interrupted` flag of a task.

## Main definitions

* `Bthread.Origin` — the control points that make an access.

## Main results

* `Bthread.control_origin` — every access is made there.
* `Bthread.pushed_of_resumed` — a bthread that was resumed from its wait had been pushed.
* `Bthread.Resumed.waiterState` — nobody marks its waiter any more.
-/

namespace Bthread

open Function (update update_self update_of_ne)
open Conc (Ensures)

variable {s : State} {c d w : CallId} {m : Mem} {a : Access} {p : Pc} {k : Move}

/-- A call that wakes the waiters of a butex. -/
def Pc.Waker : Pc → Prop
  | .butexWake _ _ | .butexWakeAll _ _ _ | .butexWakeExcept _ _ _ _ | .butexRequeue _ _ _
  | .endTask _ _ => True
  | _ => False

/-- The control points at which call `c` makes an access. -/
def Origin (c : CallId) (p : Pc) : Access → Prop
  | .setState w st =>
    (w = c ∧ st = .unmatchedValue ∧ ∃ a, p = .butexWait a (.callback .setUnmatched)) ∨
      (st = .interrupted ∧ ∃ t k b, p = .interrupt t k (.erase w (.setState b))) ∨
      (st = .interrupted ∧ ∃ i b, p = .timer i (.erase w (.setState b))) ∨
      w = c ∧ ∃ a b, p = .butexWaitFromPthread a (.erase (.setState b))
  | .clearContainer w =>
    (∃ t k b, p = .interrupt t k (.erase w (.clear b))) ∨
      (∃ i b, p = .timer i (.erase w (.clear b))) ∨
      (w = c ∧ ∃ a b, p = .butexWaitFromPthread a (.erase (.clear b))) ∨ p.Waker
  | .setInterrupted t v =>
    (v = true ∧ ∃ tid k w sl, p = .interrupt tid k (.setInterrupted w sl) ∧ getSlot tid = t) ∨
      v = false ∧ (p = .usleep t .clearInterrupted ∨
        (∃ a, p = .butexWait a .clearInterrupted ∧ a.slot = t) ∨
        ∃ a, a.task = some t ∧ (p = .butexWaitFromPthread a .clearInterrupted ∨
          ∃ rc, p = .butexWaitFromPthread a (.clearAfter rc)))
  | .initTask t => p = .startTask (.init t) ∨ p = .initGroup (.init t)
  | _ => True

/-- `unsleep_if_necessary` marks and removes nobody. -/
theorem unsleepIfNecessary_origin {u : UnsleepPc} :
    Ensures (unsleepIfNecessary w u m) fun a _ => Origin c p a := by
  fun_cases unsleepIfNecessary w u m <;> simp [Origin]

/-- The end of `butex_wake` marks and removes nobody. -/
theorem wakeFront_origin {f : FrontPc} :
    Ensures (wakeFront w f m) fun a _ => Origin c p a := by
  cases f with
  | unsleep u =>
    rw [wakeFront, Conc.ensures_inside]
    exact unsleepIfNecessary_origin
  | dispatch => by_cases h : m.tid w = 0 <;> simp [wakeFront, h, Origin]
  | exchange => simp [wakeFront, Origin]

/-- Inside `erase_from_butex`. -/
theorem eraseFromButex_origin {wakeup worker : Bool} {st : WaiterState} {e : ErasePc}
    (hst : ∀ b, e = .setState b → Origin c p (.setState w st))
    (hclear : ∀ b, e = .clear b → Origin c p (.clearContainer w)) :
    Ensures (eraseFromButex w wakeup worker st e m) fun a _ => Origin c p a := by
  fun_cases eraseFromButex w wakeup worker st e m
  case case9 b => exact (Conc.ensures_goto _ _ _).mpr (hclear b rfl)
  case case11 b _ => exact (Conc.ensures_goto _ _ _).mpr (hst b rfl)
  all_goals simp [Origin]

/-- Inside `butex_wake`. -/
theorem butexWake_origin (b : ButexId) (q : WakePc) :
    Ensures (butexWake b q m) fun a _ => Origin c (.butexWake b q) a := by
  fun_cases butexWake b q m
  case case9 w f =>
    rw [Conc.ensures_inside]
    exact wakeFront_origin
  all_goals simp [Origin, Pc.Waker]

/-- Inside `butex_wake_all`. -/
theorem butexWakeAll_origin (b : ButexId) (worker : Bool) (q : WakeAllPc) :
    Ensures (butexWakeAll b worker q m) fun a _ => Origin c (.butexWakeAll b worker q) a := by
  fun_cases butexWakeAll b worker q m
  case case17 next n saved => by_cases hn : saved = n <;> simp [Origin, hn]
  all_goals
    first
    | rw [Conc.ensures_inside]; exact unsleepIfNecessary_origin
    | cases worker <;> simp [Origin, Pc.Waker]

/-- Inside `butex_wake_except`, alone or at the end of a bthread. -/
theorem butexWakeExcept_origin (b : ButexId) (x : Tid) (worker : Bool) (q : WakeExceptPc)
    (hp : p.Waker) : Ensures (butexWakeExcept b x worker q m) fun a _ => Origin c p a := by
  fun_cases butexWakeExcept b x worker q m
  case case19 n saved => by_cases hn : saved = n <;> simp [Origin, hn]
  all_goals
    first
    | rw [Conc.ensures_inside]; exact unsleepIfNecessary_origin
    | cases worker <;> simp [Origin, hp]

/-- Inside `butex_requeue`. -/
theorem butexRequeue_origin (b d : ButexId) (q : RequeuePc) :
    Ensures (butexRequeue b d q m) fun a _ => Origin c (.butexRequeue b d q) a := by
  fun_cases butexRequeue b d q m <;>
    first
    | rw [Conc.ensures_inside]; exact wakeFront_origin
    | simp [Origin, Pc.Waker]

/-- Inside `butex_wait`. -/
theorem butexWait_origin (b : WaitArgs) (q : WaitPc) (o : Outcome) :
    Ensures (butexWait c b q o m) fun a _ => Origin c (.butexWait b q) a := by
  fun_cases butexWait c b q o m
  case case10 q =>
    rw [Conc.ensures_inside]
    fun_cases waitForButex c b q m <;>
      first
      | rw [Conc.ensures_inside]; exact unsleepIfNecessary_origin
      | simp [Origin]
  case case13 u =>
    rw [Conc.ensures_inside]
    exact unsleepIfNecessary_origin
  all_goals simp [Origin]

/-- Inside `butex_wait_from_pthread`. -/
theorem butexWaitFromPthread_origin (b : PthreadWaitArgs) (q : PthreadWaitPc) (o : Outcome) :
    Ensures (butexWaitFromPthread c b q o m) fun a _ => Origin c (.butexWaitFromPthread b q) a := by
  fun_cases butexWaitFromPthread c b q o m
  case case28 e =>
    rw [Conc.ensures_inside]
    refine eraseFromButex_origin (fun b' he => ?_) fun b' he => ?_
    · simp [Origin, he]
    · simp [Origin, he]
  all_goals simp_all [Origin]

/-- Inside `TaskGroup::interrupt`. -/
theorem interrupt_origin (t : Tid) (worker : Bool) (q : InterruptPc) :
    Ensures (interrupt t worker true q m) fun a _ => Origin c (.interrupt t worker q) a := by
  fun_cases interrupt t worker true q m
  case case16 w e =>
    rw [Conc.ensures_inside]
    refine eraseFromButex_origin (fun b' he => ?_) fun b' he => ?_
    · simp [Origin, he]
    · simp [Origin, he]
  all_goals simp [Origin]

/-- Inside a timer callback. -/
theorem timerCallback_origin (i : TimerId) (q : TimerPc) :
    Ensures (timerCallback i q m) fun a _ => Origin c (.timer i q) a := by
  cases q with
  | erase w e =>
    rw [timerCallback, Conc.ensures_inside]
    refine eraseFromButex_origin (fun b' he => ?_) fun b' he => ?_
    · simp [Origin, he]
    · simp [Origin, he]
  | ready e => simp [timerCallback, Origin]
  | finish => simp [timerCallback, Origin]

/-- **Every access is made where `Origin` says.** -/
theorem control_origin : Ensures (control c p k m) fun a _ => Origin c p a := by
  fun_cases control c p k m
  case case1 f => fun_cases begin f m <;> simp [Origin]
  case case17 => exact Conc.ensures_none _
  all_goals rw [ensures_within]
  case case2 b q o => exact butexWait_origin b q o
  case case3 b q o => exact butexWaitFromPthread_origin b q o
  case case4 b q _ => exact butexWake_origin b q
  case case5 b worker q _ => exact butexWakeAll_origin b worker q
  case case6 b t worker q _ => exact butexWakeExcept_origin b t worker q trivial
  case case7 b d q _ => exact butexRequeue_origin b d q
  case case8 t worker q _ => exact interrupt_origin t worker q
  case case9 t q _ => fun_cases setStopped t q m <;> simp [Origin]
  case case10 t q _ => fun_cases usleep t q m <;> simp [Origin]
  case case11 e t q o => fun_cases addSleepEvent e t q o m <;> simp [Origin]
  case case12 i q _ => exact timerCallback_origin i q
  case case13 q o => fun_cases startTask q o m <;> simp [Origin]
  case case14 q o => fun_cases initGroup q o m <;> simp [Origin]
  case case15 t q _ =>
    fun_cases endTask t q m
    case case8 q =>
      rw [Conc.ensures_inside]
      exact butexWakeExcept_origin _ _ _ q trivial
    all_goals simp [Origin]
  case case16 t q _ => fun_cases yield t q m <;> simp [Origin]

/-! ## Resumed waits -/

/-- The bthread was resumed, and has not read its mark yet. -/
def WaitPc.Resumed : WaitPc → Prop
  | .unsleep _ | .takeBack | .loadInterrupted | .clearInterrupted | .result _ => True
  | _ => False

variable {b : WaitArgs} {q q₀ : WaitPc} {o : Outcome}

/-- The wait of a bthread goes on by itself. -/
theorem control_wait (h : control c p k m = some (a, .butexWait b q)) :
    (p = .idle ∧ q = .check) ∨
      ∃ q₀ o, p = .butexWait b q₀ ∧ butexWait c b q₀ o m = some (a, .inl q) := by
  cases k with
  | call f =>
    cases p with
    | idle =>
      left
      cases f with
      | butexWait b' =>
        simp only [control, begin, Option.ite_none_right_eq_some, Option.some.injEq,
          Prod.mk.injEq, Pc.butexWait.injEq] at h
        exact ⟨rfl, h.2.2.2.symm⟩
      | butexWaitFromPthread a' => cases ht : a'.task <;> simp [control, begin, ht] at h
      | fire j => cases ht : m.timerFn j <;> simp [control, begin, ht] at h
      | _ => simp [control, begin] at h
    | _ => simp [control] at h
  | next o =>
    cases p with
    | butexWait b' q₀ =>
      obtain ⟨q', hq, hp⟩ | ⟨v, -, hp⟩ := within_eq h
      · cases hp
        exact .inr ⟨q₀, o, rfl, hq⟩
      · simp at hp
    | idle | done r => simp [control] at h
    | _ =>
      obtain ⟨q', -, hp⟩ | ⟨v, -, hp⟩ := within_eq h
      · simp at hp
      · simp at hp

/-- A wait after a step: it was there before, it was just called, or it has taken an access
itself. -/
theorem wait_after (hc : control c (s.pc c) k s.mem = some (a, p))
    (hp : (s.after c a p).pc w = .butexWait b q) :
    (w ≠ c ∧ s.pc w = .butexWait b q) ∨
      w = c ∧ ((s.pc w = .idle ∧ q = .check) ∨
        ∃ q₀ o, s.pc w = .butexWait b q₀ ∧ butexWait w b q₀ o s.mem = some (a, .inl q)) := by
  by_cases hwc : w = c
  · subst hwc
    obtain rfl : p = .butexWait b q := by simpa using hp
    exact .inr ⟨rfl, control_wait hc⟩
  · exact .inl ⟨hwc, by simpa [hwc] using hp⟩

/-- A bthread is resumed by being switched to. -/
theorem WaitPc.Resumed.of_step (h : butexWait c b q₀ o m = some (a, .inl q)) (hq : q.Resumed) :
    q₀.Resumed ∨ q₀ = .suspended ∧ m.run b.slot = .running := by
  cases q₀ with
  | suspended =>
    by_cases hr : m.run b.slot = .running
    · exact .inr ⟨rfl, hr⟩
    · simp [butexWait, hr] at h
  | unsleep | takeBack | loadInterrupted | clearInterrupted | result => exact .inl trivial
  | callback p =>
    rw [butexWait] at h
    generalize waitForButex c b p m = r at h
    rcases r with _ | ⟨x, p' | v⟩
    · simp [Conc.inside] at h
    · simp only [Conc.inside, Sum.elim_inl, Option.some.injEq, Prod.mk.injEq, Sum.inl.injEq] at h
      rw [← h.2] at hq
      exact hq.elim
    · simp only [Conc.inside, Sum.elim_inr, Option.some.injEq, Prod.mk.injEq, Sum.inl.injEq] at h
      rw [← h.2] at hq
      exact hq.elim
  | check =>
    by_cases hv : m.value b.butex = b.expectedValue
    all_goals
      simp only [butexWait, hv, if_true, if_false, Conc.goto, Option.some.injEq, Prod.mk.injEq,
        Sum.inl.injEq] at h
      rw [← h.2] at hq
      exact hq.elim
  | init =>
    simp only [butexWait, Conc.goto, Option.some.injEq, Prod.mk.injEq, Sum.inl.injEq] at h
    rw [← h.2] at hq
    split at hq <;> exact hq.elim
  | schedule =>
    cases o <;>
      simp only [butexWait, Conc.goto, Option.some.injEq, Prod.mk.injEq, Sum.inl.injEq] at h
    all_goals
      rw [← h.2] at hq
      exact hq.elim
  | ret r => simp [butexWait, Conc.ret] at h
  | _ =>
    simp only [butexWait, Conc.goto, Option.some.injEq, Prod.mk.injEq, Sum.inl.injEq] at h
    rw [← h.2] at hq
    exact hq.elim

/-- **A bthread that was resumed from its wait had been pushed**, and has an identifier. -/
theorem pushed_of_resumed (hs : system.Reachable s) (hp : s.pc w = .butexWait b q)
    (hq : q.Resumed) : s.mem.custody w = .pushed ∧ s.mem.tid w ≠ 0 := by
  refine system_invariant (C := fun _ _ => True) (I := fun s => ∀ w b q,
    s.pc w = .butexWait b q → q.Resumed → s.mem.custody w = .pushed ∧ s.mem.tid w ≠ 0)
    (fun m hm => by simp) ?_ hs w b q hp hq
  intro s c k a p hr ih _ hc h w b q hp hq
  have L := locked hr
  have K := known hr
  have O := owned hr
  -- nobody takes a pushed bthread over
  have keep : (s.shape w).built = true → s.mem.custody w = .pushed ∧ s.mem.tid w ≠ 0 →
      (a.apply c s.mem).custody w = .pushed ∧ (a.apply c s.mem).tid w ≠ 0 := by
    rintro hb ⟨hu, ht⟩
    rw [h.tid_eq hb, custody_of_not_entrust]
    · exact ⟨hu, ht⟩
    · intro v hv
      have hm := (O.handover L K h (K.untainted ht) hv).1
      rw [hu] at hm
      cases hm
  obtain ⟨-, hp₀⟩ | ⟨rfl, ⟨-, rfl⟩ | ⟨q₀, o, hp₀, hst⟩⟩ := wait_after hc hp
  · refine keep ?_ (ih w b q hp₀ hq)
    cases q <;> first | exact hq.elim | skip
    case unsleep u => cases u <;> simp [State.shape, hp₀, Pc.shape, WaitPc.shape, UnsleepPc.shape]
    all_goals simp [State.shape, hp₀, Pc.shape, WaitPc.shape]
  · exact hq.elim
  · obtain hq₀ | ⟨rfl, hrun⟩ := hq.of_step hst
    · refine keep ?_ (ih w b q₀ hp₀ hq₀)
      cases q₀ <;> first | exact hq₀.elim | skip
      case unsleep u =>
        cases u <;> simp [State.shape, hp₀, Pc.shape, WaitPc.shape, UnsleepPc.shape]
      all_goals simp [State.shape, hp₀, Pc.shape, WaitPc.shape]
    · have hself : (s.shape w).self = some b.slot := by
        simp [State.shape, hp₀, Pc.shape, WaitPc.shape]
      have hph : (s.shape w).phase = some (b.slot, .suspended) := by
        simp [State.shape, hp₀, Pc.shape, WaitPc.shape]
      refine keep ((L.wf w).self _ hself).1 ⟨?_, (O.tid_of_self L hself).2.2.1⟩
      obtain ⟨hb, -⟩ | ⟨-, hu⟩ := O.task w _ _ hph
      · simp [hrun] at hb
      · exact hu

/-- `waiter_state` is written by the construction of the waiter and by marks. -/
theorem waiterState_apply : (a.apply c m).waiterState w = m.waiterState w ∨
    (∃ st, a = .setState w st ∧ (a.apply c m).waiterState w = st) ∨
      w = c ∧ (∃ t, a = .initBthreadWaiter t) ∧ (a.apply c m).waiterState w = .ready := by
  cases a with
  | setState w' st =>
    by_cases h : w = w'
    · subst h
      exact .inr (.inl ⟨st, rfl, by simp [Access.apply]⟩)
    · exact .inl (by simp [Access.apply, h])
  | initBthreadWaiter t =>
    by_cases h : w = c
    · subst h
      exact .inr (.inr ⟨rfl, ⟨t, rfl⟩, by simp [Access.apply]⟩)
    · exact .inl (by simp [Access.apply, h])
  | _ => exact .inl rfl

/-- An interrupter or a timer callback that marks a waiter holds it. -/
theorem held_of_marks (hs : system.Reachable s) (hw : s.mem.tainted w = false)
    (h : (∃ t k b, s.pc d = .interrupt t k (.erase w (.setState b))) ∨
      ∃ i b, s.pc d = .timer i (.erase w (.setState b))) : s.mem.custody w = .held d := by
  refine (owned hs).sound w _ hw (.held (d := d) ?_)
  obtain ⟨t, k, b, hp⟩ | ⟨i, b, hp⟩ := h
  · simp [State.shape, hp, Pc.shape, InterruptPc.shape, ErasePc.shape]
  · simp [State.shape, hp, Pc.shape, TimerPc.shape, ErasePc.shape]

/-- **Nobody marks the waiter of a resumed bthread any more.** -/
theorem Resumed.waiterState (hs : system.Reachable s)
    (hc : control c (s.pc c) k s.mem = some (a, p)) (hp : s.pc w = .butexWait b q)
    (hq : q.Resumed) : (a.apply c s.mem).waiterState w = s.mem.waiterState w := by
  obtain ⟨hu, ht⟩ := pushed_of_resumed hs hp hq
  have hw := (known hs).untainted ht
  obtain h | ⟨st, rfl, -⟩ | ⟨rfl, ⟨t, rfl⟩, -⟩ := waiterState_apply (c := c) (a := a) (m := s.mem)
    (w := w)
  · exact h
  · obtain ⟨rfl, -, x, hx⟩ | ⟨-, hx⟩ | ⟨-, hx⟩ | ⟨rfl, x, y, hx⟩ :=
      (control_origin _ p hc : Origin c (s.pc c) (.setState w st))
    · rw [hp] at hx
      obtain ⟨-, rfl⟩ := Pc.butexWait.inj hx
      exact hq.elim
    · simp [held_of_marks hs hw (.inl hx)] at hu
    · simp [held_of_marks hs hw (.inr hx)] at hu
    · simp [hp] at hx
  · have hb := ((step_shape hs hc).ages.init t (.inl rfl)).1
    rw [State.shape, hp] at hb
    cases q <;> first | exact hq.elim | skip
    case unsleep u => cases u <;> cases hb
    all_goals cases hb

end Bthread
