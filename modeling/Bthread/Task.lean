import Bthread.Butex

set_option relaxedAutoImplicit false
set_option autoImplicit false

/-!
# The functions of `task_group.cpp` on one task

Starting and ending a bthread, sleeping, and interrupting: the functions that read and write
`TaskMeta`. Which worker runs them, and the queues behind `ready_to_run`, are not decided here.

## Main definitions

* `Bthread.interrupt`, `Bthread.setStopped`.
* `Bthread.usleep`, `Bthread.addSleepEvent`, `Bthread.timerCallback`.
* `Bthread.startTask`, `Bthread.initGroup`, `Bthread.endTask`, `Bthread.yield`.
-/

namespace Bthread

open Conc (goto ret inside)

/-! ## `TaskGroup::interrupt` -/

/-- Control points of `TaskGroup::interrupt`, with `interrupt_and_consume_waiters` and
`set_butex_waiter` inlined; `w` and `sleep_id` are its local variables. -/
inductive InterruptPc
  | addressMeta
  | lock
  | version
  | exchange
  | loadSleep (w : Option CallId)
  | clearSleep (w : Option CallId) (sleepId : TimerId)
  | setInterrupted (w : Option CallId) (sleepId : TimerId)
  | unlock (w : Option CallId) (sleepId : TimerId)
  | unlockInvalid
  | check (w : Option CallId) (sleepId : TimerId)
  | erase (w : CallId) (p : ErasePc)
  | lockAgain (w : CallId)
  | versionAgain (w : CallId)
  | setWaiter (w : CallId)
  | unlockSet
  | unlockUnset
  | unschedule (sleepId : TimerId)
  | ready (sleepId : TimerId)
  deriving DecidableEq

/-- What `TaskGroup::interrupt` returns. -/
inductive InterruptResult
  | ok
  | einval
  deriving DecidableEq

/-- `TaskGroup::interrupt(tid, c)`; `control` says whether `c != NULL`. -/
def interrupt (tid : Tid) (worker control : Bool) :
    InterruptPc → Mem → Res InterruptPc InterruptResult
  -- `interrupt_and_consume_waiters`
  | .addressMeta, m => if m.allocated (getSlot tid) then goto .nop .lock else ret .nop .einval
  | .lock, m =>
    if m.versionLock (getSlot tid) = none then goto (.lockVersion (getSlot tid)) .version
    else none
  | .version, m =>
    if m.value (.version (getSlot tid)) = getVersion tid then goto .nop .exchange
    else goto .nop .unlockInvalid
  | .exchange, m =>
    goto (.setCurrentWaiter (getSlot tid) none) (.loadSleep (m.currentWaiter (getSlot tid)))
  | .loadSleep w, m => goto .nop (.clearSleep w (m.currentSleep (getSlot tid)))
  | .clearSleep w sl, _ => goto (.setCurrentSleep (getSlot tid) 0) (.setInterrupted w sl)
  | .setInterrupted w sl, _ => goto (.setInterrupted (getSlot tid) true) (.unlock w sl)
  | .unlock w sl, _ => goto (.unlockVersion (getSlot tid)) (.check w sl)
  | .unlockInvalid, _ => ret (.unlockVersion (getSlot tid)) .einval
  -- `CHECK(!sleep_id || !w)` only logs
  | .check (some w) _, _ => goto .nop (.erase w .load)
  | .check none sl, _ => if sl = 0 then ret .nop .ok else goto .nop (.unschedule sl)
  | .erase w p, m =>
    inside (.erase w) (fun _ => .inl (.lockAgain w)) (eraseFromButex w true worker .interrupted p m)
  -- `set_butex_waiter`
  | .lockAgain w, m =>
    if m.versionLock (getSlot tid) = none then goto (.lockVersion (getSlot tid)) (.versionAgain w)
    else none
  | .versionAgain w, m =>
    if m.value (.version (getSlot tid)) = getVersion tid then goto .nop (.setWaiter w)
    else goto .nop .unlockUnset
  | .setWaiter w, _ => goto (.setCurrentWaiter (getSlot tid) (some w)) .unlockSet
  | .unlockSet, _ => ret (.unlockVersion (getSlot tid)) .ok
  -- `LOG(FATAL) << "butex_wait should spin until setting back waiter"`
  | .unlockUnset, _ => ret (.unlockVersion (getSlot tid)) .einval
  | .unschedule sl, m =>
    if unscheduleResult sl m = 0 then goto (.unschedule sl) (.ready sl)
    else ret (.unschedule sl) .ok
  | .ready _, _ => if worker || control then ret (.push tid) .ok else ret .nop .einval

/-! ## `TaskGroup::set_stopped` -/

/-- Control points of `TaskGroup::set_stopped`. -/
inductive SetStoppedPc
  | addressMeta
  | lock
  | version
  | setStop
  | unlock
  deriving DecidableEq

/-- `TaskGroup::set_stopped(tid)`. -/
def setStopped (tid : Tid) : SetStoppedPc → Mem → Res SetStoppedPc Unit
  | .addressMeta, m => if m.allocated (getSlot tid) then goto .nop .lock else ret .nop ()
  | .lock, m =>
    if m.versionLock (getSlot tid) = none then goto (.lockVersion (getSlot tid)) .version
    else none
  | .version, m =>
    if m.value (.version (getSlot tid)) = getVersion tid then goto .nop .setStop
    else goto .nop .unlock
  | .setStop, _ => goto (.setStop (getSlot tid)) .unlock
  | .unlock, _ => ret (.unlockVersion (getSlot tid)) ()

/-! ## `TaskGroup::usleep` -/

/-- Control points of `TaskGroup::usleep` with a nonzero timeout. -/
inductive UsleepPc
  | init
  | sched
  | suspended
  | clearSleep
  | loadInterrupted
  | clearInterrupted
  | loadStop
  | ret (r : Option Bool)
  deriving DecidableEq

/-- What `TaskGroup::usleep` returns: `0`, or `-1` with this `errno`. -/
inductive SleepResult
  | ok
  | eintr
  | estop
  deriving DecidableEq

/-- The result of `usleep`, given `stop` when the sleep was interrupted. -/
def sleepResult : Option Bool → SleepResult
  | none => .ok
  | some stop => if stop then .estop else .eintr

/-- `TaskGroup::usleep(pg, timeout_us)` of the task of `slot`, for a nonzero timeout. -/
def usleep (slot : SlotId) : UsleepPc → Mem → Res UsleepPc SleepResult
  | .init, _ => goto (.initSleepArgs slot) .sched
  -- `set_remained(_add_sleep_event, &e); sched(pg)`
  | .sched, _ => goto (.suspendSleep slot) .suspended
  | .suspended, m => if m.run slot = .running then goto .nop .clearSleep else none
  | .clearSleep, _ => goto (.setCurrentSleep slot 0) .loadInterrupted
  | .loadInterrupted, m =>
    if m.interrupted slot then goto .nop .clearInterrupted else goto .nop (.ret none)
  | .clearInterrupted, _ => goto (.setInterrupted slot false) .loadStop
  | .loadStop, m => goto .nop (.ret (some (m.stop slot)))
  | .ret r, _ => ret (.leave slot) (sleepResult r)

/-- Control points of `TaskGroup::_add_sleep_event`. -/
inductive AddSleepPc
  | schedule
  | readyFailed
  | lock (sleepId : TimerId)
  | version (sleepId : TimerId)
  | interrupted (sleepId : TimerId)
  | setSleep (sleepId : TimerId)
  | unlockSet
  | unlockUnset (sleepId : TimerId)
  | unschedule (sleepId : TimerId)
  | readyRemoved
  deriving DecidableEq

/-- `TaskGroup::_add_sleep_event(e)`; `tid` is the `e.tid` it copied, and `e.meta` is the
`TaskMeta` of the slot of `tid`. -/
def addSleepEvent (e : CallId) (tid : Tid) : AddSleepPc → Outcome → Mem → Res AddSleepPc Unit
  | .schedule, .fail, _ => goto .nop .readyFailed
  | .schedule, _, m => goto (.schedule (.readyToRunFromTimerThread e)) (.lock m.nextTimer)
  | .readyFailed, _, _ => ret (.push tid) ()
  | .lock i, _, m =>
    if m.versionLock (getSlot tid) = none then goto (.lockVersion (getSlot tid)) (.version i)
    else none
  | .version i, _, m =>
    if m.value (.version (getSlot tid)) = getVersion tid then goto .nop (.interrupted i)
    else goto .nop (.unlockUnset i)
  | .interrupted i, _, m =>
    if m.interrupted (getSlot tid) then goto .nop (.unlockUnset i) else goto .nop (.setSleep i)
  | .setSleep i, _, _ => goto (.setCurrentSleep (getSlot tid) i) .unlockSet
  | .unlockSet, _, _ => ret (.unlockVersion (getSlot tid)) ()
  | .unlockUnset i, _, _ => goto (.unlockVersion (getSlot tid)) (.unschedule i)
  | .unschedule i, _, m =>
    if unscheduleResult i m = 0 then goto (.unschedule i) .readyRemoved else ret (.unschedule i) ()
  | .readyRemoved, _, _ => ret (.push tid) ()

/-! ## Timer callbacks -/

/-- Control points of a timer callback. -/
inductive TimerPc
  | erase (bw : CallId) (p : ErasePc)
  | ready (e : CallId)
  | finish
  deriving DecidableEq

/-- The entry of a timer callback. -/
def TimerFn.entry : TimerFn → TimerPc
  | .eraseFromButexAndWakeup bw => .erase bw .load
  | .readyToRunFromTimerThread e => .ready e

/-- The callback of timer `i`, run by the timer thread: `erase_from_butex_and_wakeup(bw)` or
`ready_to_run_from_timer_thread(e)`. -/
def timerCallback (i : TimerId) : TimerPc → Mem → Res TimerPc Unit
  | .erase bw p, m =>
    inside (.erase bw) (fun _ => .inl .finish) (eraseFromButex bw true false .interrupted p m)
  | .ready e, m => goto (.push (m.tid e)) .finish
  | .finish, _ => ret (.finishTimer i) ()

/-! ## Starting a bthread -/

/-- Control points of `start_foreground` and `start_background`. -/
inductive StartPc
  | getResource
  | checkWaiter (slot : SlotId)
  | init (slot : SlotId)
  | setTid (slot : SlotId)
  | ready (slot : SlotId)
  deriving DecidableEq

/-- `start_foreground` and `start_background`: the new identifier, or `0` for `ENOMEM`. The first
hands the new bthread to the caller's worker, the second pushes it to a queue. -/
def startTask : StartPc → Outcome → Mem → Res StartPc Tid
  | .getResource, .slot s, m =>
    if m.run s = .free then goto (.getResource s) (.checkWaiter s) else none
  | .getResource, .fail, _ => ret .nop 0
  | .getResource, .go, _ | .getResource, .expired, _ | .getResource, .garbage _, _
  | .getResource, .futex _, _ => none
  -- `CHECK(m->current_waiter.load() == NULL)` only logs
  | .checkWaiter s, _, _ => goto .nop (.init s)
  | .init s, _, _ => goto (.initTask s) (.setTid s)
  | .setTid s, _, _ => goto (.setTid s) (.ready s)
  | .ready s, _, m => ret (.push (m.metaTid s)) (m.metaTid s)

/-- Control points of `TaskGroup::init`. -/
inductive InitPc
  | getResource
  | init (slot : SlotId)
  | setTid (slot : SlotId)
  deriving DecidableEq

/-- `TaskGroup::init`: make the main task of a group. -/
def initGroup : InitPc → Outcome → Mem → Res InitPc Tid
  | .getResource, .slot s, m =>
    if m.run s = .free then goto (.getResource s) (.init s) else none
  | .getResource, .fail, _ => ret .nop 0
  | .getResource, .go, _ | .getResource, .expired, _ | .getResource, .garbage _, _
  | .getResource, .futex _, _ => none
  | .init s, _, _ => goto (.initTask s) (.setTid s)
  | .setTid s, _, m => ret (.setMainTid s) (makeTid (m.value (.version s)) s)

/-! ## Ending a bthread -/

/-- Control points of the end of `task_runner`. -/
inductive EndPc
  | finishFn
  | returnKeytable
  | lock
  | bump
  | bumpAgain
  | unlock
  | wakeExcept (p : WakeExceptPc)
  | sched
  | leave
  | release
  deriving DecidableEq

/-- `task_runner` for the task of `slot` from the return of its `fn` on, and its callback
`_release_last_context`. -/
def endTask (slot : SlotId) : EndPc → Mem → Res EndPc Unit
  | .finishFn, _ => goto (.finishFn slot) .returnKeytable
  | .returnKeytable, _ => goto (.returnKeytable slot) .lock
  | .lock, m => if m.versionLock slot = none then goto (.lockVersion slot) .bump else none
  | .bump, m =>
    goto (.bumpVersion slot) (if m.value (.version slot) + 1 = 0 then .bumpAgain else .unlock)
  | .bumpAgain, _ => goto (.skipVersion slot) .unlock
  | .unlock, _ => goto (.unlockVersion slot) (.wakeExcept .lock)
  | .wakeExcept p, m =>
    inside .wakeExcept (fun _ => .inl .sched) (butexWakeExcept (.version slot) 0 true p m)
  -- `set_remained(_release_last_context, m); ending_sched(&g)`
  | .sched, _ => goto (.suspendEnd slot) .leave
  -- nothing of the task runs any more
  | .leave, _ => goto (.leave slot) .release
  | .release, _ => ret (.returnResource slot) ()

/-! ## Yielding -/

/-- Control points of a call that requeues its own bthread. -/
inductive YieldPc
  | sched
  | ready
  | suspended
  | ret
  deriving DecidableEq

/-- `TaskGroup::yield` of the task of `slot`, with the callback `ready_to_run_in_worker` it
registers. `exchange` and `start_foreground` requeue the calling bthread in the same way. -/
def yield (slot : SlotId) : YieldPc → Mem → Res YieldPc Unit
  | .sched, _ => goto (.suspendYield slot) .ready
  | .ready, m => goto (.push (m.metaTid slot)) .suspended
  | .suspended, m => if m.run slot = .running then goto .nop .ret else none
  | .ret, _ => ret (.leave slot) ()

end Bthread
