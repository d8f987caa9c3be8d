import Bthread.Memory

set_option relaxedAutoImplicit false
set_option autoImplicit false

/-!
# The functions of `butex.cpp`

Every function is split at each access of the memory that other threads can see. The control
points of a function are the constructors of its `…Pc` type, in the order of the source; its
equations give the access made at each of them.

`butex_wait` itself is not in `butex.cpp`; its body is the one quoted in `docs/butex.md`.

## Main definitions

* `Bthread.unsleepIfNecessary`, `Bthread.eraseFromButex`.
* `Bthread.butexWake`, `Bthread.butexWakeAll`, `Bthread.butexWakeExcept`, `Bthread.butexRequeue`.
* `Bthread.waitForButex`, `Bthread.butexWait`, `Bthread.butexWaitFromPthread`.
-/

namespace Bthread

open Conc (goto ret inside)

/-- What a butex wait returns: `0`, or `-1` with this `errno`. -/
inductive WaitResult
  | ok
  | ewouldblock
  | eintr
  | etimedout
  | estop
  deriving DecidableEq

/-- The outcomes that the memory does not decide: the ordinary one, a failing `schedule` or
`get_resource`, an `abstime` that has passed, the value an uninitialised `container` happens to
hold, what `futex_wait_private` returns, and the slot `get_resource` picks. -/
inductive Outcome
  | go
  | fail
  | expired
  | garbage (o : Option ButexId)
  | futex (r : WaitResult)
  | slot (s : SlotId)
  deriving DecidableEq

/-! ## `unsleep_if_necessary` -/

/-- Control points of `unsleep_if_necessary`. -/
inductive UnsleepPc
  | load
  | unschedule (i : TimerId)
  | clear
  deriving DecidableEq

/-- `unsleep_if_necessary(w)`: `true` for the result `0`, `false` for `-1` (the callback of the
timer is running). -/
def unsleepIfNecessary (w : CallId) : UnsleepPc → Mem → Res UnsleepPc Bool
  | .load, m => if m.sleepId w = 0 then ret .nop true else goto .nop (.unschedule (m.sleepId w))
  | .unschedule i, m =>
    if 0 < unscheduleResult i m then ret (.unschedule i) false else goto (.unschedule i) .clear
  | .clear, _ => ret (.clearSleepId w) true

/-! ## `erase_from_butex` -/

/-- Control points of `erase_from_butex`. -/
inductive ErasePc
  | load
  | lock (b : ButexId)
  | recheck (b : ButexId)
  | unlockRetry (b : ButexId)
  | remove (b : ButexId)
  | clear (b : ButexId)
  | setState (b : ButexId)
  | unlock (b : ButexId)
  | wakeup
  deriving DecidableEq

/-- `erase_from_butex(bw, wakeup, state)`, on a worker or not. Off the workers
`ready_to_run_general` calls `ready_nosignal_tasks_remote()`, which is given no task to push. -/
def eraseFromButex (bw : CallId) (wakeup worker : Bool) (state : WaiterState) :
    ErasePc → Mem → Res ErasePc Bool
  | .load, m =>
    match m.container bw with
    | none => ret .nop false
    | some b => goto .nop (.lock b)
  | .lock b, m => if m.waiterLock b = none then goto (.lockButex b) (.recheck b) else none
  | .recheck b, m =>
    if m.container bw = some b then goto (.matchContainer bw) (.remove b)
    else goto .nop (.unlockRetry b)
  | .unlockRetry b, _ => goto (.unlockButex b) .load
  | .remove b, _ => goto (.removeFromList bw) (.clear b)
  | .clear b, _ => goto (.clearContainer bw) (.setState b)
  | .setState b, m =>
    if m.tid bw = 0 then goto .nop (.unlock b) else goto (.setState bw state) (.unlock b)
  | .unlock b, _ =>
    if wakeup then goto (.unlockButex b) .wakeup else ret (.unlockButex b) true
  | .wakeup, m =>
    if m.tid bw = 0 then ret (.wakeupPthread bw) true
    else if worker then ret (.handOff bw) true
    else ret (.handOffLost bw) true

/-! ## `butex_wake` -/

/-- Control points of the end of `butex_wake` and `butex_requeue`, which hands `front` off. -/
inductive FrontPc
  | dispatch
  | unsleep (u : UnsleepPc)
  | exchange
  deriving DecidableEq

/-- The end of `butex_wake` and `butex_requeue`: hand the removed waiter `front` off, with
`exchange` on a worker and with `ready_to_run_remote` elsewhere. -/
def wakeFront (front : CallId) : FrontPc → Mem → Res FrontPc ℕ
  | .dispatch, m =>
    if m.tid front = 0 then ret (.wakeupPthread front) 1 else goto .nop (.unsleep .load)
  | .unsleep u, m => inside .unsleep (fun _ => .inl .exchange) (unsleepIfNecessary front u m)
  | .exchange, _ => ret (.handOff front) 1

/-- Control points of `butex_wake`. -/
inductive WakePc
  | lock
  | head
  | remove (front : CallId)
  | clear (front : CallId)
  | unlockEmpty
  | unlock (front : CallId)
  | front (front : CallId) (p : FrontPc)
  deriving DecidableEq

/-- `butex_wake(b)`. -/
def butexWake (b : ButexId) : WakePc → Mem → Res WakePc ℕ
  | .lock, m => if m.waiterLock b = none then goto (.lockButex b) .head else none
  | .head, m =>
    match m.waiters b with
    | [] => goto .nop .unlockEmpty
    | w :: _ => goto .nop (.remove w)
  | .remove w, _ => goto (.removeFromList w) (.clear w)
  | .clear w, _ => goto (.clearContainer w) (.unlock w)
  | .unlockEmpty, _ => ret (.unlockButex b) 0
  | .unlock w, _ => goto (.unlockButex b) (.front w .dispatch)
  | .front w p, m => inside (.front w) .inr (wakeFront w p m)

/-! ## `butex_wake_all` -/

/-- Control points of `butex_wake_all`; `bt` and `pt` are the local lists `bthread_waiters` and
`pthread_waiters`, `n` is `nwakeup` and `saved` is `saved_nwakeup`. -/
inductive WakeAllPc
  | lock
  | drain (bt pt : List CallId)
  | remove (bt pt : List CallId) (w : CallId)
  | clear (bt pt : List CallId) (w : CallId)
  | unlock (bt pt : List CallId)
  | pthreads (bt pt : List CallId) (n : ℕ)
  | unsleepNext (next : CallId) (bt : List CallId) (n : ℕ) (u : UnsleepPc)
  | bthreads (next : CallId) (bt : List CallId) (n saved : ℕ)
  | unsleep (next : CallId) (bt : List CallId) (w : CallId) (n saved : ℕ) (u : UnsleepPc)
  | ready (next : CallId) (bt : List CallId) (w : CallId) (n saved : ℕ)
  | flush (next : CallId) (n saved : ℕ)
  | exchange (next : CallId) (n : ℕ)
  deriving DecidableEq

/-- `butex_wake_all(b)`. Off the workers the last waiter is handed to `ready_to_run_remote`, the
others to `ready_to_run_general`. -/
def butexWakeAll (b : ButexId) (worker : Bool) : WakeAllPc → Mem → Res WakeAllPc ℕ
  | .lock, m => if m.waiterLock b = none then goto (.lockButex b) (.drain [] []) else none
  | .drain bt pt, m =>
    match m.waiters b with
    | [] => goto .nop (.unlock bt pt)
    | w :: _ => goto .nop (.remove bt pt w)
  | .remove bt pt w, _ => goto (.removeFromList w) (.clear bt pt w)
  | .clear bt pt w, m =>
    if m.tid w = 0 then goto (.clearContainer w) (.drain bt (pt ++ [w]))
    else goto (.clearContainer w) (.drain (bt ++ [w]) pt)
  | .unlock bt pt, _ => goto (.unlockButex b) (.pthreads bt pt 0)
  | .pthreads bt (w :: pt) n, _ => goto (.wakeupPthread w) (.pthreads bt pt (n + 1))
  | .pthreads [] [] n, _ => ret .nop n
  | .pthreads (next :: bt) [] n, _ => goto .nop (.unsleepNext next bt n .load)
  | .unsleepNext next bt n u, m =>
    inside (.unsleepNext next bt n) (fun _ => .inl (.bthreads next bt (n + 1) (n + 1)))
      (unsleepIfNecessary next u m)
  -- pop reversely
  | .bthreads next bt n saved, _ =>
    match bt.getLast? with
    | none => goto .nop (.flush next n saved)
    | some w => goto .nop (.unsleep next bt.dropLast w n saved .load)
  | .unsleep next bt w n saved u, m =>
    inside (.unsleep next bt w n saved) (fun _ => .inl (.ready next bt w n saved))
      (unsleepIfNecessary w u m)
  | .ready next bt w n saved, _ =>
    goto (if worker then .handOff w else .handOffLost w) (.bthreads next bt (n + 1) saved)
  | .flush next n saved, _ => goto (if saved ≠ n then .flush else .nop) (.exchange next n)
  | .exchange next n, _ => ret (.handOff next) n

/-! ## `butex_wake_except` -/

/-- Control points of `butex_wake_except`; `ex` is `excluded_waiter`. -/
inductive WakeExceptPc
  | lock
  | drain (bt pt : List CallId) (ex : Option CallId)
  | remove (bt pt : List CallId) (ex : Option CallId) (w : CallId)
  | clear (bt pt : List CallId) (ex : Option CallId) (w : CallId)
  | reappend (bt pt : List CallId) (ex : Option CallId)
  | unlock (bt pt : List CallId)
  | pthreads (bt pt : List CallId) (n : ℕ)
  | bthreads (bt : List CallId) (n saved : ℕ)
  | unsleep (bt : List CallId) (w : CallId) (n saved : ℕ) (u : UnsleepPc)
  | ready (bt : List CallId) (w : CallId) (n saved : ℕ)
  | flush (n saved : ℕ)
  deriving DecidableEq

/-- `butex_wake_except(b, excluded)`. -/
def butexWakeExcept (b : ButexId) (excluded : Tid) (worker : Bool) :
    WakeExceptPc → Mem → Res WakeExceptPc ℕ
  | .lock, m => if m.waiterLock b = none then goto (.lockButex b) (.drain [] [] none) else none
  | .drain bt pt ex, m =>
    match m.waiters b with
    | [] => goto .nop (.reappend bt pt ex)
    | w :: _ => goto .nop (.remove bt pt ex w)
  | .remove bt pt ex w, _ => goto (.removeFromList w) (.clear bt pt ex w)
  | .clear bt pt ex w, m =>
    if m.tid w = 0 then goto (.clearContainer w) (.drain bt (pt ++ [w]) ex)
    else if m.tid w = excluded then goto .nop (.drain bt pt (some w))
    else goto (.clearContainer w) (.drain (bt ++ [w]) pt ex)
  | .reappend bt pt none, _ => goto .nop (.unlock bt pt)
  | .reappend bt pt (some w), _ => goto (.append b w) (.unlock bt pt)
  | .unlock bt pt, _ => goto (.unlockButex b) (.pthreads bt pt 0)
  | .pthreads bt (w :: pt) n, _ => goto (.wakeupPthread w) (.pthreads bt pt (n + 1))
  | .pthreads [] [] n, _ => ret .nop n
  | .pthreads (w :: bt) [] n, _ => goto .nop (.bthreads (w :: bt) n n)
  -- pop reversely
  | .bthreads bt n saved, _ =>
    match bt.getLast? with
    | none => goto .nop (.flush n saved)
    | some w => goto .nop (.unsleep bt.dropLast w n saved .load)
  | .unsleep bt w n saved u, m =>
    inside (.unsleep bt w n saved) (fun _ => .inl (.ready bt w n saved))
      (unsleepIfNecessary w u m)
  | .ready bt w n saved, _ =>
    goto (if worker then .handOff w else .handOffLost w) (.bthreads bt (n + 1) saved)
  | .flush n saved, _ => ret (if saved ≠ n then .flush else .nop) n

/-! ## `butex_requeue` -/

/-- Control points of `butex_requeue`. -/
inductive RequeuePc
  | lock1
  | lock2
  | head
  | remove (front : CallId)
  | clear (front : CallId)
  | drain (front : CallId)
  | removeNext (front w : CallId)
  | append (front w : CallId)
  | setContainer (front w : CallId)
  | unlock2 (front : Option CallId)
  | unlock1 (front : Option CallId)
  | front (front : CallId) (p : FrontPc)
  deriving DecidableEq

/-- The two local pointers `b` and `m` of `butex_requeue(arg, arg2)`: both are computed from
`arg`. -/
def requeueButexes (arg _arg2 : ButexId) : ButexId × ButexId := (arg, arg)

/-- The body of `butex_requeue` for its local pointers `b` and `m`, here `b` and `d`.
`butil::double_lock` takes the two locks one after the other. -/
def butexRequeue (b d : ButexId) : RequeuePc → Mem → Res RequeuePc ℕ
  | .lock1, m => if m.waiterLock b = none then goto (.lockButex b) .lock2 else none
  | .lock2, m => if m.waiterLock d = none then goto (.lockButex d) .head else none
  | .head, m =>
    match m.waiters b with
    | [] => goto .nop (.unlock2 none)
    | w :: _ => goto .nop (.remove w)
  | .remove w, _ => goto (.removeFromList w) (.clear w)
  | .clear w, _ => goto (.clearContainer w) (.drain w)
  | .drain f, m =>
    match m.waiters b with
    | [] => goto .nop (.unlock2 (some f))
    | w :: _ => goto .nop (.removeNext f w)
  | .removeNext f w, _ => goto (.removeFromList w) (.append f w)
  | .append f w, _ => goto (.append d w) (.setContainer f w)
  | .setContainer f w, _ => goto (.moveContainer w d) (.drain f)
  | .unlock2 f, _ => goto (.unlockButex d) (.unlock1 f)
  | .unlock1 none, _ => ret (.unlockButex b) 0
  | .unlock1 (some f), _ => goto (.unlockButex b) (.front f .dispatch)
  | .front f p, m => inside (.front f) .inr (wakeFront f p m)

/-! ## `wait_for_butex` -/

/-- The arguments of `butex_wait` on a bthread: the task is the caller's `TaskMeta`, and
`abstime` says whether a deadline is given. -/
structure WaitArgs where
  /-- `b`, later `bbw.initial_butex`. -/
  butex : ButexId
  /-- `expected_value`. -/
  expectedValue : UInt32
  /-- `g->current_task()`. -/
  slot : SlotId
  /-- `abstime != NULL`. -/
  abstime : Bool
  deriving DecidableEq

/-- Control points of `wait_for_butex`. -/
inductive CallbackPc
  | lock
  | value
  | setUnmatched
  | state
  | interrupted
  | append
  | setContainer
  | unlockQueued
  | unlockRefused
  | unsleep (u : UnsleepPc)
  | ready
  deriving DecidableEq

/-- `wait_for_butex(bw)`, the remained callback of the wait `c`, with `bw` the waiter of `c`. -/
def waitForButex (c : CallId) (a : WaitArgs) : CallbackPc → Mem → Res CallbackPc Unit
  | .lock, m => if m.waiterLock a.butex = none then goto (.lockButex a.butex) .value else none
  | .value, m =>
    if m.value a.butex = a.expectedValue then goto .nop .state else goto .nop .setUnmatched
  | .setUnmatched, _ => goto (.setState c .unmatchedValue) .unlockRefused
  | .state, m =>
    if m.waiterState c = .ready then goto .nop .interrupted else goto .nop .unlockRefused
  | .interrupted, m =>
    if m.interrupted a.slot then goto .nop .unlockRefused else goto .nop .append
  | .append, _ => goto (.append a.butex c) .setContainer
  | .setContainer, _ => goto (.setContainer a.butex) .unlockQueued
  | .unlockQueued, _ => ret (.unlockButex a.butex) ()
  | .unlockRefused, _ => goto (.unlockButex a.butex) (.unsleep .load)
  | .unsleep u, m => inside .unsleep (fun _ => .inl .ready) (unsleepIfNecessary c u m)
  | .ready, m => ret (.push (m.tid c)) ()

/-! ## `butex_wait` -/

/-- Control points of `butex_wait` on a bthread. -/
inductive WaitPc
  | check
  | init
  | schedule
  | setSleepId (i : TimerId)
  | publish
  | sched
  | callback (p : CallbackPc)
  | suspended
  | unsleep (u : UnsleepPc)
  | takeBack
  | loadInterrupted
  | clearInterrupted
  | result (isInterrupted : Bool)
  | ret (r : WaitResult)
  deriving DecidableEq

/-- What `butex_wait` returns for a final `waiter_state` and `is_interrupted`. -/
def waitResult : WaiterState → Bool → WaitResult
  | .timeout, _ => .etimedout
  | .unmatchedValue, _ => .ewouldblock
  | _, true => .eintr
  | _, false => .ok

/-- `butex_wait` on a bthread, with the callback it registers. -/
def butexWait (c : CallId) (a : WaitArgs) : WaitPc → Outcome → Mem → Res WaitPc WaitResult
  | .check, _, m =>
    if m.value a.butex = a.expectedValue then goto .nop .init else goto .nop (.ret .ewouldblock)
  | .init, _, _ =>
    goto (.initBthreadWaiter a.slot) (if a.abstime then .schedule else .publish)
  | .schedule, .expired, _ => goto .nop (.ret .etimedout)
  | .schedule, .fail, _ => goto .nop (.ret .estop)
  | .schedule, _, m => goto (.schedule (.eraseFromButexAndWakeup c)) (.setSleepId m.nextTimer)
  | .setSleepId i, _, _ => goto (.setSleepId i) .publish
  | .publish, _, _ => goto (.setCurrentWaiter a.slot (some c)) .sched
  -- `set_remained(wait_for_butex, &bbw); TaskGroup::sched(&g)`
  | .sched, _, _ => goto (.suspendWait a.slot) (.callback .lock)
  | .callback p, _, m => inside .callback (fun _ => .inl .suspended) (waitForButex c a p m)
  -- switched back to
  | .suspended, _, m => if m.run a.slot = .running then goto .nop (.unsleep .load) else none
  | .unsleep u, _, m =>
    inside .unsleep (fun ok => .inl (if ok then .takeBack else .unsleep .load))
      (unsleepIfNecessary c u m)
  | .takeBack, _, m =>
    goto (.setCurrentWaiter a.slot none)
      (if m.currentWaiter a.slot = none then .takeBack else .loadInterrupted)
  | .loadInterrupted, _, m =>
    if m.interrupted a.slot then goto .nop .clearInterrupted else goto .nop (.result false)
  | .clearInterrupted, _, _ => goto (.setInterrupted a.slot false) (.result true)
  | .result i, _, m => goto .nop (.ret (waitResult (m.waiterState c) i))
  | .ret r, _, _ => ret (.leave a.slot) r

/-! ## `butex_wait_from_pthread` -/

/-- The arguments of `butex_wait_from_pthread`: `task` is the task of the group `g`, if any. -/
structure PthreadWaitArgs where
  /-- `b`. -/
  butex : ButexId
  /-- `expected_value`. -/
  expectedValue : UInt32
  /-- `g ? g->current_task() : NULL`. -/
  task : Option SlotId
  /-- `abstime != NULL`. -/
  abstime : Bool
  deriving DecidableEq

/-- Control points of `butex_wait_from_pthread` and of the `wait_pthread` in it; `timed` says
whether `ptimeout` is still set. -/
inductive PthreadWaitPc
  | start
  | init
  | publish
  | lock
  | value
  | unlockUnmatched
  | interrupted
  | unlockInterrupted
  | clearInterrupted
  | append
  | setContainer
  | unlockQueued
  | futexWait (timed : Bool)
  | sig (timed : Bool) (rc : WaitResult)
  | erase (p : ErasePc)
  | sigAgain
  | takeBack (rc : WaitResult)
  | loadInterrupted (rc : WaitResult)
  | clearAfter (rc : WaitResult)
  | ret (rc : WaitResult)
  deriving DecidableEq

/-- What `futex_wait_private(&pw.sig, PTHREAD_NOT_SIGNALLED, ptimeout)` may return: `0` or `EINTR`
at any time, `EAGAIN` when `sig` has changed, `ETIMEDOUT` when there is a timeout. -/
def futexReturns (signalled timed : Bool) : WaitResult → Bool
  | .ok | .eintr => true
  | .ewouldblock => signalled
  | .etimedout => timed
  | .estop => false

/-- Where `butex_wait_from_pthread` goes after `wait_pthread` or a refused wait. -/
def afterWait (task : Option SlotId) (rc : WaitResult) : PthreadWaitPc :=
  if task.isSome then .takeBack rc else .ret rc

/-- `butex_wait_from_pthread`. -/
def butexWaitFromPthread (c : CallId) (a : PthreadWaitArgs) :
    PthreadWaitPc → Outcome → Mem → Res PthreadWaitPc WaitResult
  | .start, .expired, _ => if a.abstime then goto .nop (.ret .etimedout) else none
  | .start, _, _ => goto .nop .init
  -- `pw.container` keeps whatever the stack held
  | .init, .garbage o, _ =>
    goto (.initPthreadWaiter o) (if a.task.isSome then .publish else .lock)
  | .init, _, _ => none
  | .publish, _, _ =>
    match a.task with
    | some s => goto (.setCurrentWaiter s (some c)) .lock
    | none => none
  | .lock, _, m => if m.waiterLock a.butex = none then goto (.lockButex a.butex) .value else none
  | .value, _, m =>
    if m.value a.butex = a.expectedValue then goto .nop .interrupted else goto .nop .unlockUnmatched
  | .unlockUnmatched, _, _ => goto (.unlockButex a.butex) (afterWait a.task .ewouldblock)
  | .interrupted, _, m =>
    match a.task with
    | some s => if m.interrupted s then goto .nop .unlockInterrupted else goto .nop .append
    | none => goto .nop .append
  | .unlockInterrupted, _, _ => goto (.unlockButex a.butex) .clearInterrupted
  | .clearInterrupted, _, _ =>
    match a.task with
    | some s => goto (.setInterrupted s false) (afterWait a.task .eintr)
    | none => none
  | .append, _, _ => goto (.append a.butex c) .setContainer
  | .setContainer, _, _ => goto (.setContainer a.butex) .unlockQueued
  | .unlockQueued, _, _ => goto (.unlockButex a.butex) (.futexWait a.abstime)
  -- `wait_pthread`
  | .futexWait timed, .futex rc, m =>
    if futexReturns (m.sig c) timed rc then goto .nop (.sig timed rc) else none
  | .futexWait _, _, _ => none
  | .sig timed rc, _, m =>
    if m.sig c then goto .nop (afterWait a.task rc)
    else if rc = .etimedout then goto .nop (.erase .load)
    else goto .nop (.futexWait timed)
  | .erase p, _, m =>
    inside .erase (fun erased => .inl (if erased then afterWait a.task .etimedout else .sigAgain))
      (eraseFromButex c false true .timeout p m)
  | .sigAgain, _, m =>
    if m.sig c then goto .nop (afterWait a.task .etimedout) else goto .nop (.futexWait false)
  -- the end of `butex_wait_from_pthread`, only when there is a task
  | .takeBack rc, _, m =>
    match a.task with
    | some s =>
      goto (.setCurrentWaiter s none)
        (if m.currentWaiter s = none then .takeBack rc else .loadInterrupted rc)
    | none => none
  | .loadInterrupted rc, _, m =>
    match a.task with
    | some s => if m.interrupted s then goto .nop (.clearAfter rc) else goto .nop (.ret rc)
    | none => none
  | .clearAfter rc, _, _ =>
    match a.task with
    | some s => goto (.setInterrupted s false) (.ret (if rc = .ok then .eintr else rc))
    | none => none
  | .ret rc, _, _ =>
    match a.task with
    | some s => Conc.ret (.leave s) rc
    | none => Conc.ret .nop rc

end Bthread
