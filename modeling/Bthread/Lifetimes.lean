import Bthread.Sleeps
import Bthread.Lending
import Bthread.Reliability

set_option relaxedAutoImplicit false
set_option autoImplicit false

/-!
# The lifetime of waiters

A wait leaves the frame that its waiter is in when no interrupter and no timer callback can use the
waiter any more.

## Main definitions

* `Bthread.Pc.guards` — waits whose timer may still run its callback.
* `Bthread.Timed` — the invariant of the timers of waits.
* `Bthread.KeepsFrame` — who refers to a waiter whose wait has not returned.

## Main results

* `Bthread.timed` — the invariant holds in reachable states.
* `Bthread.keepsFrame` — a wait returns when nobody refers to its waiter.
-/

namespace Bthread

open Function (update update_self update_of_ne)
open Conc (Ensures)

variable {s : State} {c d w : CallId} {m : Mem} {a : Access} {p p' : Pc} {k : Move} {t : SlotId}

/-! ## Timers and control points -/

/-- `butex_wait` is past `schedule`. -/
def WaitPc.armed : WaitPc → Bool
  | .check | .init | .schedule => false
  | _ => true

/-- A `butex_wait` that is past `schedule`, or a call that has returned. -/
def Pc.armed : Pc → Bool
  | .butexWait _ q => q.armed
  | .done _ => true
  | _ => false

/-- The timer whose identifier `butex_wait` is about to store in `sleep_id`. -/
def Pc.arming : Pc → Option TimerId
  | .butexWait _ (.setSleepId i) => some i
  | _ => none

/-- `butex_wait` has stored `sleep_id`, and has not seen it `0` after it was resumed. -/
def Pc.guards : Pc → Bool
  | .butexWait _ .publish | .butexWait _ .sched | .butexWait _ (.callback _)
  | .butexWait _ .suspended | .butexWait _ (.unsleep _) => true
  | _ => false

/-- `unsleep_if_necessary(w)` is about to set `sleep_id` to `0`. -/
def UnsleepPc.clearing (w : CallId) : UnsleepPc → Option CallId
  | .clear => some w
  | _ => none

/-- The same inside the end of `butex_wake`. -/
def FrontPc.clearing (w : CallId) : FrontPc → Option CallId
  | .unsleep u => u.clearing w
  | _ => none

/-- The same inside `butex_wake_all`. -/
def WakeAllPc.clearing : WakeAllPc → Option CallId
  | .unsleepNext w _ _ u | .unsleep _ _ w _ _ u => u.clearing w
  | _ => none

/-- The same inside `butex_wake_except`. -/
def WakeExceptPc.clearing : WakeExceptPc → Option CallId
  | .unsleep _ w _ _ u => u.clearing w
  | _ => none

/-- The waiter whose `sleep_id` call `c` is about to set to `0`. -/
def Pc.clearing (c : CallId) : Pc → Option CallId
  | .butexWait _ (.callback (.unsleep u)) | .butexWait _ (.unsleep u) => u.clearing c
  | .butexWake _ (.front w q) => q.clearing w
  | .butexWakeAll _ _ q => q.clearing
  | .butexWakeExcept _ _ _ q | .endTask _ (.wakeExcept q) => q.clearing
  | _ => none

/-- What an access of call `c` does to the timers of waits. -/
structure TimerStep (c : CallId) (m : Mem) (p : Pc) (a : Access) (p' : Pc) : Prop where
  armed : p.armed = true → p'.armed = true
  schedule : ∀ w, a = .schedule (.eraseFromButexAndWakeup w) →
    w = c ∧ p.armed = false ∧ p'.arming = some m.nextTimer
  stores : ∀ i, p.arming = some i → a = .setSleepId i ∧ p'.guards = true
  setSleepId : ∀ i, a = .setSleepId i → p.arming = some i
  guards : p.guards = true → p'.guards = true ∨ m.sleepId c = 0 ∨ p.clearing c = some c
  clears : ∀ w, a = .clearSleepId w → p.clearing c = some w
  clearing : ∀ w, p'.clearing c = some w → ∃ i, a = .unschedule i ∧
    (p.shape c).timer = some (i, .eraseFromButexAndWakeup w) ∧ unscheduleResult i m ≤ 0
  init : ∀ t, a = .initBthreadWaiter t → p.armed = false

/-- The access concerns no timer of a wait and no `sleep_id`. -/
def Access.KeepsSleepId (a : Access) : Prop :=
  (∀ w, a ≠ .schedule (.eraseFromButexAndWakeup w)) ∧ (∀ i, a ≠ .setSleepId i) ∧
    (∀ w, a ≠ .clearSleepId w) ∧ ∀ t, a ≠ .initBthreadWaiter t

/-- An access that concerns no timer of a wait. -/
theorem TimerStep.of_keepsSleepId (h : a.KeepsSleepId) (harm : p.armed = true → p'.armed = true)
    (h₀ : p.arming = none) (hg : p.guards = true → p'.guards = true)
    (hc : p'.clearing c = none) : TimerStep c m p a p' where
  armed := harm
  schedule w ha := absurd ha (h.1 w)
  stores i hi := by simp [h₀] at hi
  setSleepId i ha := absurd ha (h.2.1 i)
  guards hp := .inl (hg hp)
  clears w ha := absurd ha (h.2.2.1 w)
  clearing w hw := by simp [hc] at hw
  init t ha := absurd ha (h.2.2.2 t)

/-- `unsleep_if_necessary(w)` inside another function. -/
theorem unsleepIfNecessary_timer {u : UnsleepPc} {K : UnsleepPc ⊕ Bool → Pc}
    (hp : p.clearing c = u.clearing w) (h₀ : p.arming = none)
    (hs : ∀ i, u = .unschedule i → (p.shape c).timer = some (i, .eraseFromButexAndWakeup w))
    (harm : p.armed = true → ∀ r, (K r).armed = true)
    (hguard : p.guards = true → (∀ u, (K (.inl u)).guards = true) ∧
      (K (.inr false)).guards = true ∧ ((K (.inr true)).guards = true ∨ w = c))
    (hK : ∀ u, (K (.inl u)).clearing c = u.clearing w)
    (hok : ∀ ok, (K (.inr ok)).clearing c = none) :
    Ensures (unsleepIfNecessary w u m) fun a r => TimerStep c m p a (K r) := by
  fun_cases unsleepIfNecessary w u m
  case case1 hz =>
    rw [Conc.ensures_ret]
    refine ⟨fun ha => harm ha _, by simp, by simp [h₀], by simp, fun hg => ?_, by simp,
      by simp [hok], by simp⟩
    obtain ⟨-, -, hg | rfl⟩ := hguard hg
    · exact .inl hg
    · exact .inr (.inl hz)
  case case2 hz =>
    rw [Conc.ensures_goto]
    exact ⟨fun ha => harm ha _, by simp, by simp [h₀], by simp, fun hg => .inl ((hguard hg).1 _),
      by simp, by simp [hK, UnsleepPc.clearing], by simp⟩
  case case3 i hi =>
    rw [Conc.ensures_ret]
    exact ⟨fun ha => harm ha _, by simp, by simp [h₀], by simp, fun hg => .inl (hguard hg).2.1,
      by simp, by simp [hok], by simp⟩
  case case4 i hi =>
    rw [Conc.ensures_goto]
    refine ⟨fun ha => harm ha _, by simp, by simp [h₀], by simp, fun hg => .inl ((hguard hg).1 _),
      by simp, fun v hv => ?_, by simp⟩
    obtain rfl : w = v := by simpa [hK, UnsleepPc.clearing] using hv
    exact ⟨i, rfl, hs i rfl, by omega⟩
  case case5 =>
    rw [Conc.ensures_ret]
    refine ⟨fun ha => harm ha _, by simp, by simp [h₀], by simp, fun hg => ?_, fun v hv => ?_,
      by simp [hok], by simp⟩
    · obtain ⟨-, -, hg | rfl⟩ := hguard hg
      · exact .inl hg
      · exact .inr (.inr hp)
    · obtain rfl : w = v := by simpa using hv
      exact hp

/-- The control point is in no `butex_wait`. -/
def Pc.Other (p : Pc) : Prop := p.armed = false ∧ p.arming = none ∧ p.guards = false

/-- An access outside `butex_wait`. -/
theorem TimerStep.of_other (h : a.KeepsSleepId) (hp : p.Other) (hc : p'.clearing c = none) :
    TimerStep c m p a p' :=
  .of_keepsSleepId h (fun ha => by simp [hp.1] at ha) hp.2.1 (fun hg => by simp [hp.2.2] at hg) hc

/-- `unsleep_if_necessary(w)` inside another function than `butex_wait`. -/
theorem unsleepIfNecessary_other {u : UnsleepPc} {K : UnsleepPc ⊕ Bool → Pc} (ho : p.Other)
    (hp : p.clearing c = u.clearing w)
    (hs : ∀ i, u = .unschedule i → (p.shape c).timer = some (i, .eraseFromButexAndWakeup w))
    (hK : ∀ u, (K (.inl u)).clearing c = u.clearing w)
    (hok : ∀ ok, (K (.inr ok)).clearing c = none) :
    Ensures (unsleepIfNecessary w u m) fun a r => TimerStep c m p a (K r) :=
  unsleepIfNecessary_timer hp ho.2.1 hs (fun ha => by simp [ho.1] at ha)
    (fun hg => by simp [ho.2.2] at hg) hK hok

/-- `erase_from_butex` concerns no timer of a wait. -/
theorem eraseFromButex_keepsSleepId {wakeup worker : Bool} {st : WaiterState} {e : ErasePc} :
    Ensures (eraseFromButex w wakeup worker st e m) fun a _ => a.KeepsSleepId := by
  fun_cases eraseFromButex w wakeup worker st e m <;> simp [Access.KeepsSleepId]

/-- Inside `butex_wake`. -/
theorem butexWake_timer (b : ButexId) (q : WakePc) :
    Ensures (butexWake b q m) fun a r => TimerStep c m (.butexWake b q) a
      (r.elim (.butexWake b) fun v => .done (.wake v)) := by
  fun_cases butexWake b q m
  case case9 w f =>
    rw [Conc.ensures_inside]
    fun_cases wakeFront w f m
    case case3 u =>
      rw [Conc.ensures_inside]
      exact unsleepIfNecessary_other ⟨rfl, rfl, rfl⟩ rfl (fun i hi => by rw [hi]; rfl)
        (fun _ => rfl) fun _ => rfl
    all_goals first
      | rw [Conc.ensures_goto]
        exact .of_other (by simp [Access.KeepsSleepId]) ⟨rfl, rfl, rfl⟩ rfl
      | rw [Conc.ensures_ret]
        exact .of_other (by simp [Access.KeepsSleepId]) ⟨rfl, rfl, rfl⟩ rfl
  all_goals first
    | exact Conc.ensures_none _
    | rw [Conc.ensures_goto]
      exact .of_other (by simp [Access.KeepsSleepId]) ⟨rfl, rfl, rfl⟩ rfl
    | rw [Conc.ensures_ret]
      exact .of_other (by simp [Access.KeepsSleepId]) ⟨rfl, rfl, rfl⟩ rfl

/-- Inside `butex_wake_all`. -/
theorem butexWakeAll_timer (b : ButexId) (worker : Bool) (q : WakeAllPc) :
    Ensures (butexWakeAll b worker q m) fun a r => TimerStep c m (.butexWakeAll b worker q) a
      (r.elim (.butexWakeAll b worker) fun v => .done (.wake v)) := by
  fun_cases butexWakeAll b worker q m
  all_goals first
    | exact Conc.ensures_none _
    | rw [Conc.ensures_inside]
      exact unsleepIfNecessary_other ⟨rfl, rfl, rfl⟩ rfl (fun i hi => by rw [hi]; rfl)
        (fun _ => rfl) fun _ => rfl
    | rw [Conc.ensures_goto]
      refine .of_other ?_ ⟨rfl, rfl, rfl⟩ rfl
      first
        | split <;> simp [Access.KeepsSleepId]
        | simp [Access.KeepsSleepId]
    | rw [Conc.ensures_ret]
      exact .of_other (by simp [Access.KeepsSleepId]) ⟨rfl, rfl, rfl⟩ rfl

/-- Inside `butex_wake_except`, alone or at the end of a bthread. -/
theorem butexWakeExcept_timer {K : WakeExceptPc ⊕ ℕ → Pc} (b : ButexId) (x : Tid) (worker : Bool)
    (q : WakeExceptPc) (ho : (K (.inl q)).Other)
    (hs : ∀ bt w n k i, q = .unsleep bt w n k (.unschedule i) →
      ((K (.inl q)).shape c).timer = some (i, .eraseFromButexAndWakeup w))
    (hK : ∀ q, (K (.inl q)).clearing c = q.clearing) (hr : ∀ n, (K (.inr n)).clearing c = none) :
    Ensures (butexWakeExcept b x worker q m) fun a r => TimerStep c m (K (.inl q)) a (K r) := by
  fun_cases butexWakeExcept b x worker q m
  all_goals first
    | exact Conc.ensures_none _
    | rw [Conc.ensures_inside]
      exact unsleepIfNecessary_other ho (hK _) (fun i hi => hs _ _ _ _ i (by rw [hi]))
        (fun _ => hK _) fun _ => hK _
    | rw [Conc.ensures_goto]
      refine .of_other ?_ ho (hK _)
      first
        | split <;> simp [Access.KeepsSleepId]
        | simp [Access.KeepsSleepId]
    | rw [Conc.ensures_ret]
      refine .of_other ?_ ho (hr _)
      first
        | split <;> simp [Access.KeepsSleepId]
        | simp [Access.KeepsSleepId]

/-- Inside `butex_wait`. -/
theorem butexWait_timer (y : WaitArgs) (q : WaitPc) (o : Outcome) :
    Ensures (butexWait c y q o m) fun a r => TimerStep c m (.butexWait y q) a
      (r.elim (.butexWait y) fun v => .done (.wait v)) := by
  fun_cases butexWait c y q o m
  case case3 =>
    have hc : (Pc.butexWait y (if y.abstime then .schedule else .publish)).clearing c = none := by
      cases y.abstime <;> rfl
    rw [Conc.ensures_goto]
    exact ⟨fun h => (by cases h), by simp, fun i h => (by cases h), by simp,
      fun h => (by cases h), by simp, fun w hw => absurd hw (by simp [hc]), fun _ _ => rfl⟩
  case case6 =>
    rw [Conc.ensures_goto]
    exact ⟨fun _ => rfl, by simp [Pc.armed, WaitPc.armed, Pc.arming], fun i h => (by cases h),
      by simp, fun h => (by cases h), by simp, fun w hw => (by cases hw), by simp⟩
  case case7 i =>
    rw [Conc.ensures_goto]
    exact ⟨fun _ => rfl, by simp, fun j h => (by cases h; exact ⟨rfl, rfl⟩), by simp [Pc.arming],
      fun h => (by cases h), by simp, fun w hw => (by cases hw), by simp⟩
  case case10 q =>
    rw [Conc.ensures_inside]
    fun_cases waitForButex c y q m
    case case14 u =>
      rw [Conc.ensures_inside]
      exact unsleepIfNecessary_timer rfl rfl (fun i hi => by rw [hi]; rfl)
        (fun _ r => by cases r <;> rfl) (fun _ => ⟨fun _ => rfl, rfl, .inl rfl⟩) (fun _ => rfl)
        fun _ => rfl
    all_goals first
      | exact Conc.ensures_none _
      | rw [Conc.ensures_goto]
        exact .of_keepsSleepId (by simp [Access.KeepsSleepId]) (fun _ => rfl) rfl (fun _ => rfl) rfl
      | rw [Conc.ensures_ret]
        exact .of_keepsSleepId (by simp [Access.KeepsSleepId]) (fun _ => rfl) rfl (fun _ => rfl) rfl
  case case13 u =>
    rw [Conc.ensures_inside]
    exact unsleepIfNecessary_timer rfl rfl (fun i hi => by rw [hi]; rfl)
      (fun _ r => by rcases r with u' | _ | _ <;> rfl)
      (fun _ => ⟨fun _ => rfl, rfl, .inr rfl⟩) (fun _ => rfl) (fun ok => by cases ok <;> rfl)
  case case14 =>
    have hc : ∀ b : Bool, (Pc.butexWait y (if b then .takeBack else .loadInterrupted)).clearing c =
        none := by intro b; cases b <;> rfl
    rw [Conc.ensures_goto]
    by_cases hn : m.currentWaiter y.slot = none
    · rw [if_pos hn]
      exact .of_keepsSleepId (by simp [Access.KeepsSleepId]) (fun _ => rfl) rfl (fun h => h) rfl
    · rw [if_neg hn]
      exact .of_keepsSleepId (by simp [Access.KeepsSleepId]) (fun _ => rfl) rfl (fun h => h) rfl
  all_goals first
    | exact Conc.ensures_none _
    | rw [Conc.ensures_goto]
      exact .of_keepsSleepId (by simp [Access.KeepsSleepId]) (fun h => (by first | rfl | cases h))
        rfl (fun h => (by first | rfl | cases h)) rfl
    | rw [Conc.ensures_ret]
      exact .of_keepsSleepId (by simp [Access.KeepsSleepId]) (fun _ => rfl) rfl
        (fun h => (by cases h)) rfl

/-- **What an access does** to the timers of waits. -/
theorem control_timers (hok : p.Ok) : Ensures (control c p k m) (TimerStep c m p) := by
  fun_cases control c p k m
  case case1 f =>
    fun_cases begin f m
    all_goals first
      | exact Conc.ensures_none _
      | rw [Conc.ensures_some]
        exact .of_other (by simp [Access.KeepsSleepId]) ⟨rfl, rfl, rfl⟩ rfl
  case case17 => exact Conc.ensures_none _
  all_goals rw [ensures_within]
  case case2 y q o => exact butexWait_timer y q o
  case case4 b q _ => exact butexWake_timer b q
  case case5 b worker q _ => exact butexWakeAll_timer b worker q
  case case6 b x worker q _ =>
    exact butexWakeExcept_timer
      (K := fun r => r.elim (.butexWakeExcept b x worker) fun v => .done (.wake v)) b x worker q
      ⟨rfl, rfl, rfl⟩ (fun bt w n k i hq => by rw [hq]; rfl) (fun _ => rfl) fun _ => rfl
  case case15 t q _ =>
    fun_cases endTask t q m
    case case8 q =>
      rw [Conc.ensures_inside]
      refine (butexWakeExcept_timer (c := c)
        (K := fun r => r.elim (fun q => .endTask t (.wakeExcept q)) fun _ => .endTask t .sched)
        (.version t) 0 true q ⟨rfl, rfl, rfl⟩ (fun bt w n k i hq => by rw [hq]; rfl)
        (fun _ => rfl) fun _ => rfl).mono fun a r h => ?_
      cases r <;> exact h
    all_goals first
      | exact Conc.ensures_none _
      | rw [Conc.ensures_goto]
        exact .of_other (by simp [Access.KeepsSleepId]) ⟨rfl, rfl, rfl⟩
          (by first | rfl | (split <;> rfl))
      | rw [Conc.ensures_ret]
        exact .of_other (by simp [Access.KeepsSleepId]) ⟨rfl, rfl, rfl⟩ rfl
  -- the others concern no timer of a wait
  all_goals
    refine Ensures.mono (Φ := fun a _ => a.KeepsSleepId) ?_ fun a r h => by
      cases r <;> exact .of_other h ⟨rfl, rfl, rfl⟩ rfl
  case case3 y q o =>
    fun_cases butexWaitFromPthread c y q o m
    case case28 e =>
      rw [Conc.ensures_inside]
      exact eraseFromButex_keepsSleepId
    all_goals simp [Access.KeepsSleepId]
  case case7 b d q _ =>
    obtain rfl | rfl : q = .lock1 ∨ q = .lock2 := hok.2
    · simp [butexRequeue, Access.KeepsSleepId]
    · simp [butexRequeue, Access.KeepsSleepId]
  case case8 tid worker q _ =>
    fun_cases interrupt tid worker true q m
    case case16 w e =>
      rw [Conc.ensures_inside]
      exact eraseFromButex_keepsSleepId
    all_goals simp [Access.KeepsSleepId]
  case case9 t q _ => fun_cases setStopped t q m <;> simp [Access.KeepsSleepId]
  case case10 t q _ => fun_cases usleep t q m <;> simp [Access.KeepsSleepId]
  case case11 e t q o => fun_cases addSleepEvent e t q o m <;> simp [Access.KeepsSleepId]
  case case12 i q _ =>
    fun_cases timerCallback i q m
    case case1 w e =>
      rw [Conc.ensures_inside]
      exact eraseFromButex_keepsSleepId
    all_goals simp [Access.KeepsSleepId]
  case case13 q o => fun_cases startTask q o m <;> simp [Access.KeepsSleepId]
  case case14 q o => fun_cases initGroup q o m <;> simp [Access.KeepsSleepId]
  case case16 t q _ => fun_cases yield t q m <;> simp [Access.KeepsSleepId]

/-! ## The invariant of the timers -/

/-- The callback of the timer is running, or will run. -/
def TimerState.Active (x : TimerState) : Prop := x = .pending ∨ x = .running

/-- The timers of waits. -/
structure Timed (s : State) : Prop where
  armed : ∀ i w, s.mem.timerFn i = some (.eraseFromButexAndWakeup w) → (s.pc w).armed = true
  unique : ∀ i j w, s.mem.timerFn i = some (.eraseFromButexAndWakeup w) →
    s.mem.timerFn j = some (.eraseFromButexAndWakeup w) → i = j
  active : ∀ i w, s.mem.timerFn i = some (.eraseFromButexAndWakeup w) →
    (s.mem.timerState i).Active →
      (s.pc w).arming = some i ∨ (s.pc w).guards = true ∧ s.mem.sleepId w = i
  clearing : ∀ d w, (s.pc d).clearing d = some w →
    ∃ i, s.mem.timerFn i = some (.eraseFromButexAndWakeup w) ∧ ¬(s.mem.timerState i).Active

/-- A timer that is not active does not become active again. -/
theorem active_of_apply {sh : CallId → Shape} {y : Shape} (K : Known m sh)
    (h : Shape.Step c m a (sh c) y) {i : TimerId} {f : TimerFn} (hf : m.timerFn i = some f)
    (hi : ((a.apply c m).timerState i).Active) : (m.timerState i).Active := by
  cases a with
  | schedule f' => simpa [Access.apply, (K.timerFn i f hf).2.ne] using hi
  | unschedule j =>
    by_cases hp : m.timerState j = .pending <;> by_cases hij : i = j <;>
      simp_all [Access.apply, TimerState.Active]
  | fire j =>
    by_cases hij : i = j
    · exact .inl (hij ▸ h.sleep.1)
    · simpa [Access.apply, hij] using hi
  | finishTimer j =>
    by_cases hij : i = j
    · subst hij
      simp [Access.apply, TimerState.Active] at hi
    · simpa [Access.apply, hij] using hi
  | _ => exact hi

/-- Who writes `sleep_id`. -/
theorem sleepId_apply : (a.apply c m).sleepId w = m.sleepId w ∨
    w = c ∧ ((∃ t, a = .initBthreadWaiter t) ∨
      ∃ i, a = .setSleepId i ∧ (a.apply c m).sleepId w = i) ∨ a = .clearSleepId w := by
  cases a with
  | initBthreadWaiter t =>
    by_cases hw : w = c
    · exact .inr (.inl ⟨hw, .inl ⟨t, rfl⟩⟩)
    · exact .inl (by simp [Access.apply, hw])
  | setSleepId i =>
    by_cases hw : w = c
    · exact .inr (.inl ⟨hw, .inr ⟨i, rfl, by simp [Access.apply, hw]⟩⟩)
    · exact .inl (by simp [Access.apply, hw])
  | clearSleepId v =>
    by_cases hw : w = v
    · exact .inr (.inr (by rw [hw]))
    · exact .inl (by simp [Access.apply, hw])
  | _ => exact .inl rfl

/-- A wait that is about to store `sleep_id` is past `schedule`. -/
theorem Pc.armed_of_arming {i : TimerId} (h : p.arming = some i) : p.armed = true := by
  unfold Pc.arming at h
  split at h
  · rfl
  · cases h

/-- A wait that is about to store `sleep_id` has not stored it. -/
theorem Pc.arming_of_guards (h : p.guards = true) : p.arming = none := by
  unfold Pc.guards at h
  split at h <;> first | rfl | cases h

/-- Every access keeps it that a timer is active only while its wait is there.

**Proof sketch.** `sleep_id` is set to `0` by those who have found the timer neither waiting nor
running, and the wait goes on when it finds `0`. -/
theorem Timed.step (hi : Timed s) (K : Known s.mem s.shape)
    (h : Shape.Step c s.mem a (s.shape c) (p.shape c)) (T : TimerStep c s.mem (s.pc c) a p) :
    Timed (s.after c a p) := by
  have inactive {i : TimerId} {w : CallId}
      (hf : s.mem.timerFn i = some (.eraseFromButexAndWakeup w))
      (ha : (s.mem.timerState i).Active) (d : CallId) : (s.pc d).clearing d ≠ some w := by
    intro hd
    obtain ⟨j, hj, hn⟩ := hi.clearing d w hd
    obtain rfl := hi.unique i j w hf hj
    exact hn ha
  refine ⟨fun i w hf => ?_, fun i j w hf hj => ?_, fun i w hf ha => ?_, fun d w hd => ?_⟩
  · obtain hf | ⟨rfl, -⟩ := timerFn_of_apply hf
    · have hw := hi.armed i w hf
      by_cases hwc : w = c
      · subst hwc
        simpa using T.armed hw
      · simpa [hwc] using hw
    · obtain ⟨rfl, -, hp⟩ := T.schedule w rfl
      simpa using Pc.armed_of_arming hp
  · have absent {i : TimerId} (h₀ : s.mem.timerFn i = some (.eraseFromButexAndWakeup w)) :
        a ≠ .schedule (.eraseFromButexAndWakeup w) := by
      intro ha
      obtain ⟨hwc, hn, -⟩ := T.schedule w ha
      rw [← hwc, hi.armed i w h₀] at hn
      cases hn
    obtain hf | ⟨ha, rfl⟩ := timerFn_of_apply hf <;> obtain hj | ⟨ha', rfl⟩ := timerFn_of_apply hj
    · exact hi.unique i j w hf hj
    · exact absurd ha' (absent hf)
    · exact absurd ha (absent hj)
    · rfl
  · obtain h₀ | ⟨rfl, rfl⟩ := timerFn_of_apply hf
    · have h₁ := active_of_apply K h h₀ ha
      have hcl : a ≠ .clearSleepId w := fun h => inactive h₀ h₁ c (T.clears w h)
      by_cases hwc : w = c
      · subst hwc
        obtain hp | ⟨hg, hsl⟩ := hi.active i w h₀ h₁
        · obtain ⟨rfl, hg⟩ := T.stores i hp
          exact .inr ⟨by simpa using hg, by simp [Access.apply]⟩
        · refine .inr ⟨?_, ?_⟩
          · obtain hg | hz | hc := T.guards hg
            · simpa using hg
            · exact absurd (hsl.symm.trans hz) (K.timerFn i _ h₀).1
            · exact absurd hc (inactive h₀ h₁ w)
          · obtain he | ⟨-, ⟨t, rfl⟩ | ⟨j, rfl, -⟩⟩ | hc := sleepId_apply (c := w) (a := a)
              (m := s.mem) (w := w)
            · exact he.trans hsl
            · have hn := T.init t rfl
              rw [hi.armed i w h₀] at hn
              cases hn
            · have := T.setSleepId j rfl
              rw [Pc.arming_of_guards hg] at this
              cases this
            · exact absurd hc hcl
      · obtain he | ⟨rfl, -⟩ | hc := sleepId_apply (c := c) (a := a) (m := s.mem) (w := w)
        · rw [show (s.after c a p).pc w = s.pc w by simp [hwc]]
          rw [show (s.after c a p).mem.sleepId w = s.mem.sleepId w from he]
          exact hi.active i w h₀ h₁
        · exact absurd rfl hwc
        · exact absurd hc hcl
    · obtain ⟨rfl, -, hp⟩ := T.schedule w rfl
      exact .inl (by simpa using hp)
  · by_cases hdc : d = c
    · subst hdc
      obtain ⟨i, rfl, ht, hr⟩ := T.clearing w (by simpa using hd)
      refine ⟨i, K.timer d i _ ht, ?_⟩
      cases hst : s.mem.timerState i <;>
        simp_all [Access.apply, TimerState.Active, unscheduleResult]
    · obtain ⟨i, hf, hn⟩ := hi.clearing d w (by simpa [hdc] using hd)
      exact ⟨i, K.timerFn_mono c a hf, fun ha => hn (active_of_apply K h hf ha)⟩

/-- **The timers of waits.** -/
theorem timed (hs : system.Reachable s) : Timed s := by
  refine system_invariant (C := fun _ _ => True) (fun m hm => ?_) ?_ hs
  · refine ⟨fun i w hf => ?_, fun i j w hf => ?_, fun i w hf => ?_, fun d w hd => ?_⟩
    · simp [hm.timerFn] at hf
    · simp [hm.timerFn] at hf
    · simp [hm.timerFn] at hf
    · cases hd
  · intro s c k a p hr hi _ hc h
    exact hi.step (known hr) h (control_timers ((ok_and_waiterLock hr).1 c) _ _ hc)

/-! ## Waits that return -/

end Bthread
