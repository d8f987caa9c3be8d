import Bthread.Shape

set_option relaxedAutoImplicit false
set_option autoImplicit false

/-!
# The functions change shapes as told

For every function, the accesses it makes at its control points and the shapes before and after
are related by `Bthread.Shape.Step`. The functions that are parts of others are treated first and
relative to the shape around them.

## Main results

* `Bthread.control_step` — every access of a call is a `Bthread.Shape.Step`.
-/

namespace Bthread

open Conc (Ensures)

variable {c : CallId} {m : Mem} {a : Access} {x y : Shape}

attribute [local simp] Shape.step_iff learns_iff ages_iff LockChange VlockChange PhaseChange
  QueueChange SleepChange PushChange

/-! ## Forgetting -/

/-- An access may forget another call's object. -/
theorem Shape.Step.forgetTarget (h : Shape.Step c m a x y) :
    Shape.Step c m a x { y with target := none } where
  lock := h.lock
  vlock := h.vlock
  phase := h.phase
  push := h.push
  queue := h.queue
  sleep := h.sleep
  learns := { h.learns with target := keeps_none _ _ }
  ages := { h.ages with }

/-- An access may forget a timer. -/
theorem Shape.Step.forgetTimer (h : Shape.Step c m a x y) :
    Shape.Step c m a x { y with timer := none } where
  lock := h.lock
  vlock := h.vlock
  phase := h.phase
  push := h.push
  queue := h.queue
  sleep := h.sleep
  learns := { h.learns with timer := keeps_none _ _ }
  ages := { h.ages with }

/-- An access may be the last one of a call. -/
theorem Shape.Step.finish (h : Shape.Step c m a x {}) : Shape.Step c m a x .finished where
  lock := h.lock
  vlock := h.vlock
  phase := h.phase
  push := h.push
  queue := by
    have hq := h.queue
    clear h
    cases a <;> simp_all [Shape.finished]
  sleep := h.sleep
  learns := { h.learns with }
  ages :=
    { built := fun _ => rfl
      unqueued := nofun
      fresh := nofun
      self := nofun
      builds := fun _ => .inr (.inl rfl)
      init := fun s hs => nomatch (h.ages.init s hs).2.1
      initPthread := fun o ho => nomatch (h.ages.initPthread o ho).2.1
      waits := fun s hs => nomatch (h.ages.waits s hs).2.2.1
      yields := fun s hs => nomatch (h.ages.yields s hs).2
      suspended := nofun
      publishes := h.ages.publishes }

/-! ## Parts of other functions -/

/-- `unsleep_if_necessary` only learns the timer of its waiter. -/
theorem unsleepIfNecessary_step (base : Shape) (w : CallId) (p : UnsleepPc)
    (hb : base.timer = none) :
    Ensures (unsleepIfNecessary w p m) fun a r => Shape.Step c m a (p.shape base w)
      (r.elim (UnsleepPc.shape base w) fun _ => base) := by
  fun_cases unsleepIfNecessary w p m <;> rintro _ _ ⟨⟩ <;> constructor <;>
    simp_all [UnsleepPc.shape]

/-- `erase_from_butex` as part of a call that is not switched out. -/
theorem eraseFromButex_step {φ : Option (SlotId × Phase)} (hφ : ∀ s, φ ≠ some (s, .suspended))
    (unqueued fresh : Bool) (timer : Option (TimerId × TimerFn)) (running : Option TimerId)
    (bw : CallId) (wakeup worker : Bool) (state : WaiterState) (p : ErasePc)
    (hc : wakeup = false → bw = c) (base : Shape)
    (hb : base = { phase := φ, built := !wakeup, unqueued := unqueued, timer := timer
                   running := running, fresh := fresh }) :
    Ensures (eraseFromButex bw wakeup worker state p m) fun a r =>
      Shape.Step c m a (p.shape base bw wakeup)
        (r.elim (ErasePc.shape base bw wakeup) fun _ => { base with target := some bw }) := by
  subst hb
  fun_cases eraseFromButex bw wakeup worker state p m <;> rintro _ _ ⟨⟩ <;> constructor <;>
    simp [ErasePc.shape, *]
  all_goals cases wakeup <;> simp_all

/-- The end of `butex_wake`. -/
theorem wakeFront_step (w : CallId) (p : FrontPc) :
    Ensures (wakeFront w p m) fun a r => Shape.Step c m a (p.shape w)
      (r.elim (FrontPc.shape w) fun _ => {}) := by
  cases p with
  | dispatch => simp [wakeFront, FrontPc.shape, UnsleepPc.shape]
  | unsleep u =>
    simp only [wakeFront, Conc.ensures_inside]
    exact (unsleepIfNecessary_step { hand := [w], bts := [w] } w u rfl).mono
      fun a r h => by rcases r with q | v <;> exact h
  | exchange => simp [wakeFront, FrontPc.shape]

/-! ## The functions of `butex.cpp` -/

/-- `butex_wake`. -/
theorem butexWake_step (b : ButexId) (p : WakePc) :
    Ensures (butexWake b p m) fun a r => Shape.Step c m a (p.shape b)
      (r.elim (WakePc.shape b) fun _ => {}) := by
  fun_cases butexWake b p m
  case case9 w p =>
    simp only [Conc.ensures_inside]
    exact (wakeFront_step w p).mono fun a r h => by rcases r with q | v <;> exact h
  all_goals rintro _ _ ⟨⟩
  all_goals constructor <;> simp [WakePc.shape, FrontPc.shape, *]

/-- `butex_wake_all`. -/
theorem butexWakeAll_step (b : ButexId) (worker : Bool) (p : WakeAllPc) :
    Ensures (butexWakeAll b worker p m) fun a r => Shape.Step c m a (p.shape b)
      (r.elim (WakeAllPc.shape b) fun _ => {}) := by
  fun_cases butexWakeAll b worker p m
  case case6 bt pt w h =>
    have hp : (bt ++ (pt ++ [w])).Perm (w :: (bt ++ pt)) := by
      rw [← List.append_assoc]; exact List.perm_append_singleton w _
    simp [WakeAllPc.shape, h, hp]
  case case12 next bt n u =>
    simp only [Conc.ensures_inside]
    exact (unsleepIfNecessary_step { hand := next :: bt, bts := next :: bt } next u rfl).mono
      fun a r h => by rcases r with q | v <;> exact h
  case case13 next bt n saved h =>
    simp [WakeAllPc.shape, List.getLast?_eq_none_iff.mp h]
  case case14 next bt n saved w h =>
    simp [WakeAllPc.shape, UnsleepPc.shape, List.dropLast_append_getLast? w h]
  case case15 next bt w n saved u =>
    simp only [Conc.ensures_inside]
    exact (unsleepIfNecessary_step
      { hand := next :: (bt ++ [w]), bts := next :: (bt ++ [w]) } w u rfl).mono
        fun a r h => by rcases r with q | v <;> exact h
  case case16 next bt w n saved =>
    have hp : (next :: (bt ++ [w])).Perm (w :: next :: bt) :=
      List.perm_append_singleton w (next :: bt)
    have hk : ∀ new, KeepsAll (next :: (bt ++ [w])) bt new :=
      keepsAll_of_subset (by simp +contextual [List.subset_def])
    cases worker <;> simp [WakeAllPc.shape, hp, hk]
  case case17 next n saved => by_cases hn : saved = n <;> simp [WakeAllPc.shape, hn]
  all_goals rintro _ _ ⟨⟩
  all_goals constructor <;> simp [WakeAllPc.shape, UnsleepPc.shape, *]

/-- `butex_wake_except`, alone or at the end of a bthread. -/
theorem butexWakeExcept_step {φ : Option (SlotId × Phase)} (hφ : ∀ s, φ ≠ some (s, .callback))
    (b : ButexId) (excluded : Tid) (worker : Bool) (p : WakeExceptPc) :
    Ensures (butexWakeExcept b excluded worker p m) fun a r =>
      Shape.Step c m a (p.shape { phase := φ } b excluded)
        (r.elim (WakeExceptPc.shape { phase := φ } b excluded) fun _ => { phase := φ }) := by
  fun_cases butexWakeExcept b excluded worker p m
  case case6 bt pt ex w h =>
    have hp : (bt ++ (pt ++ [w])).Perm (w :: (bt ++ pt)) := by
      rw [← List.append_assoc]; exact List.perm_append_singleton w _
    simp [WakeExceptPc.shape, h, hp]
  case case7 bt pt ex w h h' =>
    have he : excluded ≠ 0 := h' ▸ h
    cases ex <;> simp [WakeExceptPc.shape, h', he]
  case case15 bt n saved h =>
    simp [WakeExceptPc.shape, List.getLast?_eq_none_iff.mp h]
  case case16 bt n saved w h =>
    simp [WakeExceptPc.shape, UnsleepPc.shape, List.dropLast_append_getLast? w h]
  case case17 bt w n saved u =>
    simp only [Conc.ensures_inside]
    exact (unsleepIfNecessary_step
      { phase := φ, hand := bt ++ [w], bts := bt ++ [w] } w u rfl).mono
        fun a r h => by rcases r with q | v <;> exact h
  case case18 bt w n saved =>
    have hp : (bt ++ [w]).Perm (w :: bt) := List.perm_append_singleton w bt
    cases worker <;> simp [WakeExceptPc.shape, hp]
  case case19 n saved => by_cases hn : saved = n <;> simp [WakeExceptPc.shape, hn]
  all_goals rintro _ _ ⟨⟩
  all_goals constructor <;> simp [WakeExceptPc.shape, *]

/-- `butex_requeue`, which stops at the second lock. -/
theorem butexRequeue_step (b : ButexId) (p : RequeuePc) (hp : p = .lock1 ∨ p = .lock2)
    (hl : p = .lock2 → m.waiterLock b ≠ none) :
    Ensures (butexRequeue b b p m) fun a r => Shape.Step c m a (p.shape b)
      (r.elim (RequeuePc.shape b) fun _ => {}) := by
  obtain rfl | rfl := hp
  · simp +contextual [butexRequeue, RequeuePc.shape]
  · simp [butexRequeue, hl rfl]

/-- `wait_for_butex`. -/
theorem waitForButex_step (a : WaitArgs) (p : CallbackPc) :
    Ensures (waitForButex c a p m) fun x r => Shape.Step c m x (p.shape c a)
      (r.elim (CallbackPc.shape c a) fun _ => (WaitPc.suspended).shape c a) := by
  fun_cases waitForButex c a p m
  case case14 u =>
    simp only [Conc.ensures_inside]
    exact (unsleepIfNecessary_step
      { phase := some (a.slot, .callback), self := some a.slot, built := true, fresh := false }
        c u rfl).mono fun a r h => by rcases r with q | v <;> exact h
  all_goals rintro _ _ ⟨⟩
  all_goals constructor <;> simp [CallbackPc.shape, WaitPc.shape, UnsleepPc.shape, *]

/-- `butex_wait`. -/
theorem butexWait_step (a : WaitArgs) (p : WaitPc) (o : Outcome) :
    Ensures (butexWait c a p o m) fun x r => Shape.Step c m x (p.shape c a)
      (r.elim (WaitPc.shape c a) fun _ => .finished) := by
  fun_cases butexWait c a p o m
  case case3 => cases ha : a.abstime <;> simp [WaitPc.shape]
  case case10 p =>
    simp only [Conc.ensures_inside]
    exact (waitForButex_step a p).mono fun x r h => by rcases r with q | v <;> exact h
  case case13 u =>
    simp only [Conc.ensures_inside]
    exact (unsleepIfNecessary_step
      { phase := some (a.slot, .active), built := true, unqueued := false, fresh := false }
        c u rfl).mono fun x r h => by rcases r with q | (_ | _) <;> exact h
  case case14 => by_cases h : m.currentWaiter a.slot = none <;> simp [WaitPc.shape, h]
  all_goals rintro _ _ ⟨⟩
  all_goals constructor <;>
    simp [WaitPc.shape, CallbackPc.shape, UnsleepPc.shape, Shape.finished, *]

/-- After `wait_pthread` nothing is in the hands of the wait. -/
theorem afterWait_shape (a : PthreadWaitArgs) (rc : WaitResult) :
    (afterWait a.task rc).shape c a =
      { phase := a.task.map (·, .pthread), built := true, unqueued := false, fresh := false } := by
  unfold afterWait; split <;> rfl

/-- `butex_wait_from_pthread`. -/
theorem butexWaitFromPthread_step (a : PthreadWaitArgs) (p : PthreadWaitPc) (o : Outcome) :
    Ensures (butexWaitFromPthread c a p o m) fun x r => Shape.Step c m x (p.shape c a)
      (r.elim (PthreadWaitPc.shape c a) fun _ => .finished) := by
  fun_cases butexWaitFromPthread c a p o m
  case case4 => cases ha : a.task <;> simp [PthreadWaitPc.shape]
  case case28 p =>
    simp only [Conc.ensures_inside]
    refine (eraseFromButex_step (φ := a.task.map (·, .pthread)) (by simp) false false none none c
      false true .timeout p (fun _ => rfl) _ rfl).mono fun x r h => ?_
    rcases r with q | (_ | _)
    · exact h
    · exact h.forgetTarget
    · show Shape.Step c m x _ ((afterWait a.task .etimedout).shape c a)
      rw [afterWait_shape]
      exact h.forgetTarget
  case case31 s _ => by_cases h : m.currentWaiter s = none <;> simp [PthreadWaitPc.shape, *]
  all_goals
    simp only [Conc.ensures_goto, Conc.ensures_ret, Conc.ensures_none, Sum.elim_inl, Sum.elim_inr,
      afterWait_shape]
  all_goals constructor <;> simp [PthreadWaitPc.shape, ErasePc.shape, Shape.finished, *]

/-! ## The functions of `task_group.cpp` -/

/-- `TaskGroup::interrupt`. -/
theorem interrupt_step (t : Tid) (worker : Bool) (p : InterruptPc) :
    Ensures (interrupt t worker true p m) fun x r => Shape.Step c m x (p.shape t)
      (r.elim (InterruptPc.shape t) fun _ => {}) := by
  fun_cases interrupt t worker true p m
  case case7 =>
    simp [InterruptPc.shape]
    exact fun w hw => .inr (.inl ⟨_, hw⟩)
  case case16 w p =>
    simp only [Conc.ensures_inside]
    exact (eraseFromButex_step (φ := none) (by simp) true true none none w true worker
      .interrupted p (by simp) _ rfl).mono fun x r h => by rcases r with q | v <;> exact h
  case case24 sl h => simp [InterruptPc.shape, unscheduleResult_eq_zero.mp h]
  case case25 sl h => simp [InterruptPc.shape, mt unscheduleResult_eq_zero.mpr h]
  case case27 h => simp at h
  all_goals rintro _ _ ⟨⟩
  all_goals constructor <;> simp [InterruptPc.shape, ErasePc.shape, *]

/-- `TaskGroup::set_stopped`. -/
theorem setStopped_step (t : Tid) (p : SetStoppedPc) :
    Ensures (setStopped t p m) fun x r => Shape.Step c m x (p.shape t)
      (r.elim (SetStoppedPc.shape t) fun _ => {}) := by
  fun_cases setStopped t p m <;> rintro _ _ ⟨⟩ <;> constructor <;> simp [SetStoppedPc.shape, *]

/-- `TaskGroup::usleep`. -/
theorem usleep_step (s : SlotId) (p : UsleepPc) :
    Ensures (usleep s p m) fun x r => Shape.Step c m x (p.shape s)
      (r.elim (UsleepPc.shape s) fun _ => .finished) := by
  fun_cases usleep s p m <;> rintro _ _ ⟨⟩ <;> constructor <;>
    simp [UsleepPc.shape, Shape.finished, *]

/-- `_add_sleep_event`. -/
theorem addSleepEvent_step (e : CallId) (t : Tid) (p : AddSleepPc) (o : Outcome) :
    Ensures (addSleepEvent e t p o m) fun x r => Shape.Step c m x (p.shape e t)
      (r.elim (AddSleepPc.shape e t) fun _ => {}) := by
  fun_cases addSleepEvent e t p o m
  case case13 i h => simp [AddSleepPc.shape, unscheduleResult_eq_zero.mp h]
  case case14 i h => simp [AddSleepPc.shape, mt unscheduleResult_eq_zero.mpr h]
  all_goals rintro _ _ ⟨⟩
  all_goals constructor <;> simp [AddSleepPc.shape, *]

/-- The timer callbacks. -/
theorem timerCallback_step (i : TimerId) (p : TimerPc) :
    Ensures (timerCallback i p m) fun x r => Shape.Step c m x (p.shape i)
      (r.elim (TimerPc.shape i) fun _ => {}) := by
  fun_cases timerCallback i p m
  case case1 bw p =>
    simp only [Conc.ensures_inside]
    have he := eraseFromButex_step (c := c) (m := m) (φ := none) (by simp) true true
      (some (i, .eraseFromButexAndWakeup bw)) (some i) bw true false .interrupted p (by simp) _ rfl
    exact he.mono fun x r h => by
      rcases r with q | v
      · exact h
      · exact h.forgetTarget.forgetTimer
  all_goals simp [TimerPc.shape, *]

/-- `start_foreground` and `start_background`. -/
theorem startTask_step (p : StartPc) (o : Outcome) :
    Ensures (startTask p o m) fun x r => Shape.Step c m x p.shape
      (r.elim StartPc.shape fun _ => {}) := by
  cases p with
  | getResource =>
    cases o with
    | slot s => by_cases h : m.run s = .free <;> simp [startTask, StartPc.shape, h]
    | _ => simp [startTask, StartPc.shape]
  | _ => simp [startTask, StartPc.shape]

/-- `TaskGroup::init`. -/
theorem initGroup_step (p : InitPc) (o : Outcome) :
    Ensures (initGroup p o m) fun x r => Shape.Step c m x p.shape
      (r.elim InitPc.shape fun _ => {}) := by
  cases p with
  | getResource =>
    cases o with
    | slot s => by_cases h : m.run s = .free <;> simp [initGroup, InitPc.shape, h]
    | _ => simp [initGroup, InitPc.shape]
  | _ => simp [initGroup, InitPc.shape]

/-- The end of `task_runner`. -/
theorem endTask_step (s : SlotId) (p : EndPc) :
    Ensures (endTask s p m) fun x r => Shape.Step c m x (p.shape s)
      (r.elim (EndPc.shape s) fun _ => {}) := by
  fun_cases endTask s p m
  case case5 => by_cases h : m.value (.version s) + 1 = 0 <;> simp [EndPc.shape, h]
  case case7 => simp [EndPc.shape, WakeExceptPc.shape]
  case case8 p =>
    simp only [Conc.ensures_inside]
    exact (butexWakeExcept_step (φ := some (s, .ending)) (by simp) (.version s) 0 true p).mono
      fun x r h => by rcases r with q | v <;> exact h
  all_goals rintro _ _ ⟨⟩
  all_goals constructor <;> simp [EndPc.shape, *]

/-- `TaskGroup::yield`. -/
theorem yield_step (s : SlotId) (p : YieldPc) :
    Ensures (yield s p m) fun x r => Shape.Step c m x (p.shape s)
      (r.elim (YieldPc.shape s) fun _ => .finished) := by
  fun_cases yield s p m <;> rintro _ _ ⟨⟩ <;> constructor <;>
    simp [YieldPc.shape, Shape.finished, *]

/-! ## The system -/

/-- A worker runs the remained callback of a sleep. -/
theorem begin_runRemained_step (e : CallId) :
    Ensures (begin (.runRemained e) m) fun a p => Shape.Step c m a {} (p.shape c) := by
  by_cases h : m.remained e = true <;> simp [begin, Pc.shape, AddSleepPc.shape, h]

/-- The timer thread runs the callback of a timer. -/
theorem begin_fire_step (i : TimerId) :
    Ensures (begin (.fire i) m) fun a p => Shape.Step c m a {} (p.shape c) := by
  rcases hf : m.timerFn i with _ | f
  · simp [begin, hf]
  · have hf' : ∃ i, m.timerFn i = some f := ⟨i, hf⟩
    by_cases hp : m.timerState i = .pending
    · cases f with
      | eraseFromButexAndWakeup bw =>
        simp [begin, Pc.shape, TimerPc.shape, TimerFn.entry, ErasePc.shape, hf, hf', hp]
      | readyToRunFromTimerThread e =>
        simp [begin, Pc.shape, TimerPc.shape, TimerFn.entry, hf, hf', hp]
    · simp [begin, hf, hp]

/-- A task enters a blocking call. -/
theorem enter_step {s : SlotId} {p : Pc} {φ : Phase} (hc : m.call s = none)
    (hr : m.run s = .running ∧ φ = .active ∨
      (m.run s = .running ∨ m.run s = .main) ∧ φ = .pthread)
    (hp : p.shape c = { phase := some (s, φ) }) :
    Shape.Step c m (.enter s) {} (p.shape c) := by
  rw [hp]
  simp [hc]
  exact hr.imp (And.imp_right fun h => by rw [h]) (And.imp_right fun h => by rw [h])

/-- Making a call. -/
theorem begin_step (f : Call) :
    Ensures (begin f m) fun a p => Shape.Step c m a {} (p.shape c) := by
  cases f with
  | butexWait a =>
    simp only [begin, Conc.ensures_ite, Conc.ensures_some, Conc.ensures_none]
    exact ⟨fun h => enter_step h.2 (.inl ⟨h.1, rfl⟩) rfl, fun _ => trivial⟩
  | butexWaitFromPthread a =>
    rcases a with ⟨b, v, _ | s, t⟩
    · simp [begin, Pc.shape, PthreadWaitPc.shape]
    · simp only [begin, Conc.ensures_ite, Conc.ensures_some, Conc.ensures_none]
      exact ⟨fun h => enter_step h.2 (.inr ⟨h.1, rfl⟩) rfl, fun _ => trivial⟩
  | usleep s | yield s | endTask s =>
    simp only [begin, Conc.ensures_ite, Conc.ensures_some, Conc.ensures_none]
    exact ⟨fun h => enter_step h.2 (.inl ⟨h.1, rfl⟩) rfl, fun _ => trivial⟩
  | fire i => exact begin_fire_step i
  | runRemained e => exact begin_runRemained_step e
  | setKeytable s | schedTo t =>
    simp only [begin, Conc.ensures_ite, Conc.ensures_some, Conc.ensures_none]
    exact ⟨fun h => by simp [Pc.shape, Shape.finished, h], fun _ => trivial⟩
  | _ => simp [begin, Pc.shape, WakePc.shape, WakeAllPc.shape, WakeExceptPc.shape, RequeuePc.shape,
      InterruptPc.shape, SetStoppedPc.shape, StartPc.shape, InitPc.shape, Shape.finished]

/-- The steps of a function that returns inside the system. -/
theorem ensures_call {P R : Type} {k : P → Pc} {f : R → Result} {sh : P → Shape} {r : Res P R}
    (hk : ∀ p, (k p).shape c = sh p)
    (h : Ensures r fun a y => Shape.Step c m a x (y.elim sh fun _ => {})) :
    Ensures (within k f r) fun a q => Shape.Step c m a x (q.shape c) := by
  rw [ensures_within]
  refine h.mono fun a y hy => ?_
  rcases y with p | v
  · rw [Sum.elim_inl, hk]; exact hy
  · exact hy.finish

/-- The steps of a function that leaves its task inside the system. -/
theorem ensures_call' {P R : Type} {k : P → Pc} {f : R → Result} {sh : P → Shape} {r : Res P R}
    (hk : ∀ p, (k p).shape c = sh p)
    (h : Ensures r fun a y => Shape.Step c m a x (y.elim sh fun _ => .finished)) :
    Ensures (within k f r) fun a q => Shape.Step c m a x (q.shape c) := by
  rw [ensures_within]
  refine h.mono fun a y hy => ?_
  rcases y with p | v
  · rw [Sum.elim_inl, hk]; exact hy
  · exact hy

/-- The control points that can be reached: `butex_requeue` never gets its second lock, and
`wait_pthread` never wakes the waiter it erases. -/
def Pc.Ok : Pc → Prop
  | .butexRequeue b d p => b = d ∧ (p = .lock1 ∨ p = .lock2)
  | .butexWaitFromPthread _ (.erase .wakeup) => False
  | _ => True

/-- Every access of a call is a step of its shape, if the locks it holds are taken. -/
theorem control_step {p : Pc} (k : Move) (hok : p.Ok)
    (hown : ∀ b, (p.shape c).lock = some b → m.waiterLock b ≠ none) :
    Ensures (control c p k m) fun a q => Shape.Step c m a (p.shape c) (q.shape c) := by
  fun_cases control c p k m
  case case1 f => exact begin_step f
  case case2 a p o => exact ensures_call' (fun _ => rfl) (butexWait_step a p o)
  case case3 a p o => exact ensures_call' (fun _ => rfl) (butexWaitFromPthread_step a p o)
  case case4 b p _ => exact ensures_call (fun _ => rfl) (butexWake_step b p)
  case case5 b w p _ => exact ensures_call (fun _ => rfl) (butexWakeAll_step b w p)
  case case6 b t w p _ =>
    exact ensures_call (fun _ => rfl) (butexWakeExcept_step (φ := none) (by simp) b t w p)
  case case7 b d p _ =>
    obtain ⟨rfl, hp⟩ := hok
    exact ensures_call (fun _ => rfl)
      (butexRequeue_step b p hp fun h => hown b (by rw [h]; rfl))
  case case8 t w p _ => exact ensures_call (fun _ => rfl) (interrupt_step t w p)
  case case9 t p _ => exact ensures_call (fun _ => rfl) (setStopped_step t p)
  case case10 s p _ => exact ensures_call' (fun _ => rfl) (usleep_step s p)
  case case11 e t p o => exact ensures_call (fun _ => rfl) (addSleepEvent_step e t p o)
  case case12 i p _ => exact ensures_call (fun _ => rfl) (timerCallback_step i p)
  case case13 p o => exact ensures_call (fun _ => rfl) (startTask_step p o)
  case case14 p o => exact ensures_call (fun _ => rfl) (initGroup_step p o)
  case case15 s p _ => exact ensures_call (fun _ => rfl) (endTask_step s p)
  case case16 s p _ => exact ensures_call' (fun _ => rfl) (yield_step s p)
  case case17 => exact Conc.ensures_none _

/-- `wait_pthread` does not wake the waiter it erases. -/
theorem butexWaitFromPthread_ok (a : PthreadWaitArgs) (p : PthreadWaitPc) (o : Outcome) :
    Ensures (butexWaitFromPthread c a p o m) fun _ r => r ≠ .inl (.erase .wakeup) := by
  have ha : ∀ rc, afterWait a.task rc ≠ .erase .wakeup := fun rc => by
    unfold afterWait; split <;> simp
  fun_cases butexWaitFromPthread c a p o m
  case case4 => cases a.task <;> simp
  case case28 p =>
    fun_cases eraseFromButex c false true .timeout p m <;> simp_all
  case case31 s _ => by_cases h : m.currentWaiter s = none <;> simp [h]
  all_goals simp [ha]

/-- The control points reached stay such. -/
theorem control_ok {p : Pc} (k : Move) (hok : p.Ok)
    (hown : ∀ b, (p.shape c).lock = some b → m.waiterLock b ≠ none) :
    Ensures (control c p k m) fun _ q => q.Ok := by
  fun_cases control c p k m
  case case1 f => fun_cases begin f m <;> simp [Pc.Ok, requeueButexes]
  case case3 a p o =>
    rw [ensures_within]
    refine (butexWaitFromPthread_ok a p o).mono fun x r h => ?_
    rcases r with q | v
    · cases q with
      | erase q => cases q <;> trivial
      | _ => trivial
    · trivial
  case case7 b d p _ =>
    obtain ⟨rfl, hp⟩ := hok
    rw [ensures_within]
    obtain rfl | rfl := hp
    · simp [butexRequeue, Pc.Ok]
    · simp [butexRequeue, hown b rfl]
  case case17 => exact Conc.ensures_none _
  all_goals
    rw [ensures_within]
    intro a r _
    cases r <;> trivial

end Bthread
