import Mathlib.Logic.Function.Basic
import Bthread.Lib.Step
import Bthread.Tid

set_option relaxedAutoImplicit false
set_option autoImplicit false

/-!
# The shared memory

The data that `butex.cpp` and `task_group.cpp` share between threads: butexes, the waiters on the
stacks of waiting calls, `TaskMeta`, the timers of the `TimerThread`, and the bthreads that were
made runnable.

An object on the stack of a call is named by the call: `ButexBthreadWaiter bbw`,
`ButexPthreadWaiter pw` and `SleepArgs e` of call `c` are all named `c`. Every call has its own
name, so a use of an object whose call has returned is visible as such.

## Main definitions

* `Bthread.Mem` — the memory.
* `Bthread.Access`, `Bthread.Access.apply` — the accesses the code makes, and their effect.
* `Bthread.unscheduleResult` — what `TimerThread::unschedule` returns.
-/

namespace Bthread

/-- A call of a library function; also the name of the objects on its stack. -/
abbrev CallId := ℕ

/-- `TimerThread::TaskId`; `0` is no timer. -/
abbrev TimerId := ℕ

/-- A butex: one made by `butex_create`, or the `version_butex` of a `TaskMeta`. -/
inductive ButexId
  | user (n : ℕ)
  | version (slot : SlotId)
  deriving DecidableEq

/-- `WaiterState`. -/
inductive WaiterState
  | none
  | ready
  | timeout
  | unmatchedValue
  | interrupted
  deriving DecidableEq

/-- The callbacks the library gives to `TimerThread::schedule`, with their argument. -/
inductive TimerFn
  | eraseFromButexAndWakeup (bw : CallId)
  | readyToRunFromTimerThread (e : CallId)
  deriving DecidableEq

/-- The life of a timer: never made, waiting, its callback running, its callback completed, or
removed by `unschedule`. -/
inductive TimerState
  | absent
  | pending
  | running
  | finished
  | removed
  deriving DecidableEq

/-- Where the task of a slot is: nowhere (the slot is in the resource pool), in the hands of the
call that starts it, the main task of a group (never in a run queue), runnable, executing, switched
out by a call that requeues it, switched out by a blocking call, or ended and waiting for
`_release_last_context`. -/
inductive RunState
  | free
  | starting
  | main
  | ready
  | running
  | switched
  | blocked
  | ended
  deriving DecidableEq

/-- Who has to make a suspended call, or a queued waiter, go on: nobody (it is not suspended), its
own remained callback, the butex queue it is linked in, the call that unlinked it, the call that
removed it; for a sleep its pending `_add_sleep_event`, its timer, or the call that is about to push
it. At the end its bthread was pushed to a run queue, its pthread was signalled, or the call that
handed it off pushed nothing. -/
inductive Custody
  | none
  | callback
  | linked (b : ButexId)
  | unlinked (a : CallId)
  | held (a : CallId)
  | remained
  | timer (i : TimerId)
  | waking (a : CallId)
  | pushed
  | signalled
  | lost
  deriving DecidableEq

/-- The shared memory.

The fields from `custody` on are history: no access of the code depends on them. -/
structure Mem where
  /-- `Butex::value`. -/
  value : ButexId → UInt32
  /-- `Butex::waiters`. -/
  waiters : ButexId → List CallId
  /-- `Butex::waiter_lock`: the call that holds it. -/
  waiterLock : ButexId → Option CallId
  /-- `ButexWaiter::tid` (`0` for a pthread), or `SleepArgs::tid`. -/
  tid : CallId → Tid
  /-- `ButexWaiter::container`. -/
  container : CallId → Option ButexId
  /-- `ButexBthreadWaiter::sleep_id`. -/
  sleepId : CallId → TimerId
  /-- `ButexBthreadWaiter::waiter_state`. -/
  waiterState : CallId → WaiterState
  /-- `ButexPthreadWaiter::sig` is `PTHREAD_SIGNALLED`. -/
  sig : CallId → Bool
  /-- `TaskMeta::tid`. -/
  metaTid : SlotId → Tid
  /-- `TaskMeta::current_waiter`. -/
  currentWaiter : SlotId → Option CallId
  /-- `TaskMeta::current_sleep`. -/
  currentSleep : SlotId → TimerId
  /-- `TaskMeta::interrupted`. -/
  interrupted : SlotId → Bool
  /-- `TaskMeta::stop`. -/
  stop : SlotId → Bool
  /-- `TaskMeta::version_lock`: the call that holds it. -/
  versionLock : SlotId → Option CallId
  /-- The slot was handed out by the resource pool at least once (`address_resource` finds it). -/
  allocated : SlotId → Bool
  /-- Where the bthread of the slot is. -/
  run : SlotId → RunState
  /-- The blocking call the bthread of the slot is inside. -/
  call : SlotId → Option CallId
  /-- The identifiers in run queues. -/
  ready : List Tid
  /-- The sleeps whose `_add_sleep_event` is registered with `set_remained` and has not run. -/
  remained : CallId → Bool
  /-- The callback of each timer. -/
  timerFn : TimerId → Option TimerFn
  /-- The state of each timer. -/
  timerState : TimerId → TimerState
  /-- The next timer id. -/
  nextTimer : TimerId
  /-- The bthread of this identifier holds a keytable. -/
  keytable : Tid → Bool
  /-- Who has to make a suspended call or a queued waiter go on. -/
  custody : CallId → Custody
  /-- How often a waiter was enqueued, that is, stored the butex as its `container`. -/
  enqueues : CallId → ℕ
  /-- The calls that took a waiter out of a butex queue for good. -/
  removedBy : CallId → List CallId
  /-- The calls that handed a waiter off. -/
  handedBy : CallId → List CallId
  /-- `erase_from_butex` took what a `container` held before the waiter stored it for a butex. -/
  tainted : CallId → Bool
  /-- How often the identifier of the task inside this call was pushed to a run queue. -/
  pushes : CallId → ℕ
  /-- The call that ran the `_add_sleep_event` of a sleep. -/
  callbackBy : CallId → Option CallId
  /-- The call whose `unschedule` removed a timer. -/
  unscheduledBy : TimerId → Option CallId
  /-- The `fn` of the bthread of this identifier has finished. -/
  fnFinished : Tid → Bool
  /-- This identifier was made by `start_foreground` or `start_background`. -/
  handedOut : Tid → Bool
  /-- How many bthreads of the slot have advanced its version. -/
  terminations : SlotId → ℕ

/-- The initial memory: no butex has waiters, all locks are free, every version word is `1`, no
timer exists, no object is on any stack and every slot is in the resource pool. -/
structure Mem.Initial (m : Mem) : Prop where
  waiters : ∀ b, m.waiters b = []
  waiterLock : ∀ b, m.waiterLock b = none
  container : ∀ w, m.container w = none
  sleepId : ∀ w, m.sleepId w = 0
  version : ∀ s, m.value (.version s) = 1
  currentWaiter : ∀ s, m.currentWaiter s = none
  currentSleep : ∀ s, m.currentSleep s = 0
  versionLock : ∀ s, m.versionLock s = none
  run : ∀ s, m.run s = .free
  call : ∀ s, m.call s = none
  ready : m.ready = []
  remained : ∀ c, m.remained c = false
  timerState : ∀ i, m.timerState i = .absent
  timerFn : ∀ i, m.timerFn i = none
  nextTimer : m.nextTimer = 1
  custody : ∀ w, m.custody w = .none
  enqueues : ∀ w, m.enqueues w = 0
  removedBy : ∀ w, m.removedBy w = []
  handedBy : ∀ w, m.handedBy w = []
  tainted : ∀ w, m.tainted w = false
  pushes : ∀ c, m.pushes c = 0
  callbackBy : ∀ c, m.callbackBy c = none
  unscheduledBy : ∀ i, m.unscheduledBy i = none
  handedOut : ∀ t, m.handedOut t = false
  terminations : ∀ s, m.terminations s = 0

/-! ## The timer thread -/

/-- The result of `TimerThread::unschedule`: `0` when the timer has not run yet and is removed,
`1` when its callback is running, `-1` when it does not exist any more. -/
def unscheduleResult (i : TimerId) (m : Mem) : ℤ :=
  match m.timerState i with
  | .pending => 0
  | .running => 1
  | _ => -1

/-- `unschedule` returns `0` exactly for a timer that has not run yet. -/
theorem unscheduleResult_eq_zero {i : TimerId} {m : Mem} :
    unscheduleResult i m = 0 ↔ m.timerState i = .pending := by
  cases h : m.timerState i <;> simp [unscheduleResult, h]

/-! ## Making a bthread runnable -/

/-- Where a bthread is once its identifier was pushed to a run queue. -/
def RunState.pushed : RunState → RunState
  | .starting | .switched | .blocked => .ready
  | r => r

/-- The identifier `t` enters a run queue. -/
def Mem.push (m : Mem) (t : Tid) : Mem :=
  { m with
    ready := t :: m.ready
    run := Function.update m.run (getSlot t) (m.run (getSlot t)).pushed
    pushes := match m.call (getSlot t) with
      | some c => Function.update m.pushes c (m.pushes c + 1)
      | none => m.pushes
    custody := match m.call (getSlot t) with
      | some c => Function.update m.custody c .pushed
      | none => m.custody }

/-- The custodies after call `c` has taken over the sleep that timer `i` would have ended. -/
def Mem.takeTimer (m : Mem) (i : TimerId) (c : CallId) : CallId → Custody :=
  match m.timerFn i with
  | some (.readyToRunFromTimerThread e) => Function.update m.custody e (.waking c)
  | _ => m.custody

/-! ## Accesses -/

/-- The accesses the code makes to the memory; loads are `nop`. An access of an on-stack object of
the calling call itself does not name the object. -/
inductive Access
  /-- A load, or no access at all. -/
  | nop
  /-- `b->waiter_lock.lock()`, when it is free. -/
  | lockButex (b : ButexId)
  /-- `b->waiter_lock.unlock()`. -/
  | unlockButex (b : ButexId)
  /-- `version_lock.lock()`, when it is free. -/
  | lockVersion (s : SlotId)
  /-- `version_lock.unlock()`. -/
  | unlockVersion (s : SlotId)
  /-- `b->waiters.Append(w)`. -/
  | append (b : ButexId) (w : CallId)
  /-- `w->RemoveFromList()`: unlink `w` from the butex queue it is linked in, if any. -/
  | removeFromList (w : CallId)
  /-- The re-check of `w->container` in `erase_from_butex`, when it finds the locked butex. -/
  | matchContainer (w : CallId)
  /-- `container.store(b)` by the wait that has just appended its own waiter to `b`. -/
  | setContainer (b : ButexId)
  /-- `w->container.store(d)` when `w` was moved to `d`. -/
  | moveContainer (w : CallId) (d : ButexId)
  /-- `w->container.store(NULL)`, which completes a removal. -/
  | clearContainer (w : CallId)
  /-- The construction of a `ButexBthreadWaiter` by the task of slot `s`. -/
  | initBthreadWaiter (s : SlotId)
  /-- The construction of a `ButexPthreadWaiter`; its `container` holds whatever the stack held. -/
  | initPthreadWaiter (garbage : Option ButexId)
  /-- `bbw.sleep_id = i`. -/
  | setSleepId (i : TimerId)
  /-- `w->sleep_id = 0`. -/
  | clearSleepId (w : CallId)
  /-- `w->waiter_state = st`. -/
  | setState (w : CallId) (st : WaiterState)
  /-- `TimerThread::schedule`, when it succeeds. -/
  | schedule (fn : TimerFn)
  /-- `TimerThread::unschedule`. -/
  | unschedule (i : TimerId)
  /-- `current_waiter.store` or `exchange`. -/
  | setCurrentWaiter (s : SlotId) (o : Option CallId)
  /-- `current_sleep = i`. -/
  | setCurrentSleep (s : SlotId) (i : TimerId)
  /-- `interrupted = v`. -/
  | setInterrupted (s : SlotId) (v : Bool)
  /-- `stop = true`. -/
  | setStop (s : SlotId)
  /-- `ready_to_run`, `ready_to_run_remote` or `exchange` of a task that is no butex waiter. -/
  | push (t : Tid)
  /-- Waiter `w` is handed off with `ready_to_run`, `ready_to_run_remote` or `exchange`. -/
  | handOff (w : CallId)
  /-- Waiter `w` is handed off with a call that pushes nothing. -/
  | handOffLost (w : CallId)
  /-- `wakeup_pthread`: `w->sig.store(PTHREAD_SIGNALLED)`. -/
  | wakeupPthread (w : CallId)
  /-- `flush_nosignal_tasks_general()`, which moves no waiter. -/
  | flush
  /-- The task of `s` enters a blocking call. -/
  | enter (s : SlotId)
  /-- The task of `s` leaves its blocking call. -/
  | leave (s : SlotId)
  /-- The task of `s` is switched out with `wait_for_butex` remaining. -/
  | suspendWait (s : SlotId)
  /-- The construction of a `SleepArgs` by the task of slot `s`. -/
  | initSleepArgs (s : SlotId)
  /-- The task of `s` is switched out with `_add_sleep_event` remaining. -/
  | suspendSleep (s : SlotId)
  /-- The task of `s` is switched out with `ready_to_run_in_worker` remaining. -/
  | suspendYield (s : SlotId)
  /-- The task of `s` is switched out with `_release_last_context` remaining. -/
  | suspendEnd (s : SlotId)
  /-- A worker starts the `_add_sleep_event` of sleep `e`. -/
  | runRemained (e : CallId)
  /-- The timer thread starts the callback of timer `i`. -/
  | fire (i : TimerId)
  /-- The timer thread has completed the callback of timer `i`. -/
  | finishTimer (i : TimerId)
  /-- A worker takes `t` from a run queue and switches to it. -/
  | schedTo (t : Tid)
  /-- `get_resource` gives slot `s`. -/
  | getResource (s : SlotId)
  /-- `stop = false; interrupted = false`. -/
  | initTask (s : SlotId)
  /-- `tid = make_tid(*version_butex, slot)`. -/
  | setTid (s : SlotId)
  /-- The same for the main task of a new group. -/
  | setMainTid (s : SlotId)
  /-- The `fn` of the task of `s` returns. -/
  | finishFn (s : SlotId)
  /-- `return_keytable; tls_bls.keytable = NULL`. -/
  | returnKeytable (s : SlotId)
  /-- `++*version_butex`, with which the bthread of `s` ends. -/
  | bumpVersion (s : SlotId)
  /-- The second `++*version_butex`, which skips `0`. -/
  | skipVersion (s : SlotId)
  /-- `return_resource`. -/
  | returnResource (s : SlotId)
  /-- The user stores `v` to a butex. -/
  | store (n : ℕ) (v : UInt32)
  /-- The user code of the task of `s` makes a keytable. -/
  | setKeytable (s : SlotId)
  deriving DecidableEq

/-- The effect of an access by call `c`. -/
def Access.apply (c : CallId) : Access → Mem → Mem
  | .nop, m => m
  | .lockButex b, m => { m with waiterLock := Function.update m.waiterLock b (some c) }
  | .unlockButex b, m => { m with waiterLock := Function.update m.waiterLock b none }
  | .lockVersion s, m => { m with versionLock := Function.update m.versionLock s (some c) }
  | .unlockVersion s, m => { m with versionLock := Function.update m.versionLock s none }
  | .append b w, m =>
    { m with
      waiters := Function.update m.waiters b (m.waiters b ++ [w])
      custody := Function.update m.custody w (.linked b) }
  | .removeFromList w, m =>
    { m with
      waiters := fun b => (m.waiters b).erase w
      custody := Function.update m.custody w (.unlinked c) }
  | .matchContainer w, m =>
    { m with tainted := Function.update m.tainted w (m.tainted w || decide (m.enqueues w = 0)) }
  | .setContainer b, m =>
    { m with
      container := Function.update m.container c (some b)
      enqueues := Function.update m.enqueues c (m.enqueues c + 1) }
  | .moveContainer w d, m => { m with container := Function.update m.container w (some d) }
  | .clearContainer w, m =>
    { m with
      container := Function.update m.container w none
      custody := Function.update m.custody w (.held c)
      removedBy := Function.update m.removedBy w (c :: m.removedBy w) }
  | .initBthreadWaiter s, m =>
    { m with
      tid := Function.update m.tid c (m.metaTid s)
      container := Function.update m.container c none
      sleepId := Function.update m.sleepId c 0
      waiterState := Function.update m.waiterState c .ready }
  | .initPthreadWaiter garbage, m =>
    { m with
      tid := Function.update m.tid c 0
      container := Function.update m.container c garbage
      sig := Function.update m.sig c false }
  | .setSleepId i, m => { m with sleepId := Function.update m.sleepId c i }
  | .clearSleepId w, m => { m with sleepId := Function.update m.sleepId w 0 }
  | .setState w st, m => { m with waiterState := Function.update m.waiterState w st }
  | .schedule fn, m =>
    { m with
      timerFn := Function.update m.timerFn m.nextTimer (some fn)
      timerState := Function.update m.timerState m.nextTimer .pending
      nextTimer := m.nextTimer + 1
      custody := match fn with
        | .readyToRunFromTimerThread e => Function.update m.custody e (.timer m.nextTimer)
        | .eraseFromButexAndWakeup _ => m.custody }
  | .unschedule i, m =>
    { m with
      custody := if m.timerState i = .pending then m.takeTimer i c else m.custody
      timerState :=
        if m.timerState i = .pending then Function.update m.timerState i .removed else m.timerState
      unscheduledBy :=
        if m.timerState i = .pending then Function.update m.unscheduledBy i (some c)
        else m.unscheduledBy }
  | .setCurrentWaiter s o, m => { m with currentWaiter := Function.update m.currentWaiter s o }
  | .setCurrentSleep s i, m => { m with currentSleep := Function.update m.currentSleep s i }
  | .setInterrupted s v, m => { m with interrupted := Function.update m.interrupted s v }
  | .setStop s, m => { m with stop := Function.update m.stop s true }
  | .push t, m => m.push t
  | .handOff w, m =>
    { m.push (m.tid w) with handedBy := Function.update m.handedBy w (c :: m.handedBy w) }
  | .handOffLost w, m =>
    { m with
      custody := Function.update m.custody w .lost
      handedBy := Function.update m.handedBy w (c :: m.handedBy w) }
  | .wakeupPthread w, m =>
    { m with
      sig := Function.update m.sig w true
      custody := Function.update m.custody w .signalled
      handedBy := Function.update m.handedBy w (c :: m.handedBy w) }
  | .flush, m => m
  | .enter s, m => { m with call := Function.update m.call s (some c) }
  | .leave s, m => { m with call := Function.update m.call s none }
  | .suspendWait s, m =>
    { m with
      run := Function.update m.run s .blocked
      custody := Function.update m.custody c .callback }
  | .initSleepArgs s, m => { m with tid := Function.update m.tid c (m.metaTid s) }
  | .suspendSleep s, m =>
    { m with
      run := Function.update m.run s .blocked
      remained := Function.update m.remained c true
      custody := Function.update m.custody c .remained }
  | .suspendYield s, m =>
    { m with
      run := Function.update m.run s .switched
      custody := Function.update m.custody c .callback }
  | .suspendEnd s, m => { m with run := Function.update m.run s .ended }
  | .runRemained e, m =>
    { m with
      remained := Function.update m.remained e false
      custody := Function.update m.custody e (.waking c)
      callbackBy := Function.update m.callbackBy e (some c) }
  | .fire i, m =>
    { m with
      custody := m.takeTimer i c
      timerState := Function.update m.timerState i .running }
  | .finishTimer i, m => { m with timerState := Function.update m.timerState i .finished }
  | .schedTo t, m =>
    { m with
      ready := m.ready.erase t
      run := Function.update m.run (getSlot t) .running }
  | .getResource s, m =>
    { m with
      run := Function.update m.run s .starting
      allocated := Function.update m.allocated s true }
  | .initTask s, m =>
    { m with
      stop := Function.update m.stop s false
      interrupted := Function.update m.interrupted s false }
  | .setTid s, m =>
    { m with
      metaTid := Function.update m.metaTid s (makeTid (m.value (.version s)) s)
      keytable := Function.update m.keytable (makeTid (m.value (.version s)) s) false
      fnFinished := Function.update m.fnFinished (makeTid (m.value (.version s)) s) false
      handedOut := Function.update m.handedOut (makeTid (m.value (.version s)) s) true }
  | .setMainTid s, m =>
    { m with
      metaTid := Function.update m.metaTid s (makeTid (m.value (.version s)) s)
      run := Function.update m.run s .main }
  | .finishFn s, m => { m with fnFinished := Function.update m.fnFinished (m.metaTid s) true }
  | .returnKeytable s, m =>
    { m with keytable := Function.update m.keytable (m.metaTid s) false }
  | .bumpVersion s, m =>
    { m with
      value := Function.update m.value (.version s) (m.value (.version s) + 1)
      terminations := Function.update m.terminations s (m.terminations s + 1) }
  | .skipVersion s, m =>
    { m with value := Function.update m.value (.version s) (m.value (.version s) + 1) }
  | .returnResource s, m => { m with run := Function.update m.run s .free }
  | .store n v, m => { m with value := Function.update m.value (.user n) v }
  | .setKeytable s, m => { m with keytable := Function.update m.keytable (m.metaTid s) true }

/-- One step of a function: its next access, and the control point or the result it leads to. -/
abbrev Res (P R : Type) := Conc.Res Access P R

end Bthread
