import Mathlib.Data.List.Basic
import Mathlib.Tactic.MkIffOfInductiveProp
import Bthread.System

set_option relaxedAutoImplicit false
set_option autoImplicit false

/-!
# Shapes of control points

What the invariants of the system see of a control point: the locks the call holds, the task it
belongs to, the waiters it has in its hands, the timers it knows. Every access changes the shape of
its call in one of a few ways (`Bthread.Shape.Step`); the invariants are proved from these.

## Main definitions

* `Bthread.Phase`, `Bthread.Shape`, `Bthread.Pc.shape` — shapes.
* `Bthread.Shape.Step` — what one access can do to the shape of its call.
-/

namespace Bthread

/-- How far a call that belongs to the task of a slot has come: the slot was taken from the pool;
its `TaskMeta` has its identifier; the bthread executes; the task waits as a pthread; the bthread
is switched out and waits for the callback that requeues it; its `wait_for_butex` is running; it is
switched out until somebody pushes it; its version was advanced to `0` and has to be advanced once
more; its version is advanced; it is switched out for the last time; nothing of it is left but
`_release_last_context`. -/
inductive Phase
  | starting
  | named
  | active
  | pthread
  | switched
  | callback
  | suspended
  | wrapping
  | ending
  | ended
  | released
  deriving DecidableEq

/-- The shape of a control point. -/
structure Shape where
  /-- The butex whose `waiter_lock` the call holds. -/
  lock : Option ButexId := none
  /-- The slot whose `version_lock` the call holds. -/
  vlock : Option SlotId := none
  /-- The identifier found to be current under `version_lock`. -/
  matched : Option Tid := none
  /-- The task the call belongs to. -/
  phase : Option (SlotId × Phase) := none
  /-- The slot of the task whose identifier is in the object on the stack. -/
  self : Option SlotId := none
  /-- The object on the stack is constructed. -/
  built : Bool := false
  /-- A wait that has not stored its `container` yet, or no wait. -/
  unqueued : Bool := true
  /-- A wait that has appended its waiter to this butex and is about to store the `container`. -/
  queueing : Option ButexId := none
  /-- The waiter about to be unlinked from this butex. -/
  sel : Option (ButexId × CallId) := none
  /-- The waiters unlinked whose `container` still has to be cleared. -/
  unl : List CallId := []
  /-- The waiters removed that still have to be handed off. -/
  hand : List CallId := []
  /-- Waiters known to be bthreads. -/
  bts : List CallId := []
  /-- Waiters known to be pthreads. -/
  pts : List CallId := []
  /-- The waiter excluded by `butex_wake_except` and its identifier. -/
  ex : Option (CallId × Tid) := none
  /-- Another call whose object on the stack the call refers to. -/
  target : Option CallId := none
  /-- A timer the call knows, with its callback. -/
  timer : Option (TimerId × TimerFn) := none
  /-- The sleep whose `SleepArgs` was copied, with the identifier in it. -/
  copied : Option (CallId × Tid) := none
  /-- The identifier to interrupt and the `sleep_id` found in its `TaskMeta`. -/
  sleepId : Option (Tid × TimerId) := none
  /-- The timer whose callback the call is. -/
  running : Option TimerId := none
  /-- The sleeping call that the call has to push. -/
  wake : Option CallId := none
  /-- The timer of the sleeping call that an interrupter has to push. -/
  rescue : Option TimerId := none
  /-- The call has neither been switched out nor enqueued, and has not returned. -/
  fresh : Bool := true

/-- The shape of a call that has returned. -/
def Shape.finished : Shape := { built := true, unqueued := false, fresh := false }

/-! ## The shapes of the control points

A function that is a part of others has its shapes relative to a `base`, the shape of what is
around it. -/

/-- Inside `unsleep_if_necessary(w)`. -/
def UnsleepPc.shape (base : Shape) (w : CallId) : UnsleepPc → Shape
  | .unschedule i => { base with timer := some (i, .eraseFromButexAndWakeup w) }
  | _ => base

/-- Inside `erase_from_butex(bw, wakeup, …)`. -/
def ErasePc.shape (base : Shape) (bw : CallId) (wakeup : Bool) : ErasePc → Shape
  | .load | .lock _ => { base with target := some bw }
  | .recheck b | .unlockRetry b => { base with lock := some b, target := some bw }
  | .remove b => { base with lock := some b, sel := some (b, bw), target := some bw }
  | .clear b => { base with lock := some b, unl := [bw], target := some bw }
  | .setState b | .unlock b =>
    { base with lock := some b, hand := if wakeup then [bw] else [], target := some bw }
  | .wakeup => { base with hand := [bw], target := some bw }

/-- Inside the end of `butex_wake`. -/
def FrontPc.shape (front : CallId) : FrontPc → Shape
  | .dispatch => { hand := [front] }
  | .unsleep u => u.shape { hand := [front], bts := [front] } front
  | .exchange => { hand := [front], bts := [front] }

/-- Inside `butex_wake(b)`. -/
def WakePc.shape (b : ButexId) : WakePc → Shape
  | .lock => {}
  | .head | .unlockEmpty => { lock := some b }
  | .remove w => { lock := some b, sel := some (b, w) }
  | .clear w => { lock := some b, unl := [w] }
  | .unlock w => { lock := some b, hand := [w] }
  | .front w p => p.shape w

/-- Inside `butex_wake_all(b)`. -/
def WakeAllPc.shape (b : ButexId) : WakeAllPc → Shape
  | .lock => {}
  | .drain bt pt | .unlock bt pt => { lock := some b, hand := bt ++ pt, bts := bt, pts := pt }
  | .remove bt pt w =>
    { lock := some b, sel := some (b, w), hand := bt ++ pt, bts := bt, pts := pt }
  | .clear bt pt w => { lock := some b, unl := [w], hand := bt ++ pt, bts := bt, pts := pt }
  | .pthreads bt pt _ => { hand := bt ++ pt, bts := bt, pts := pt }
  | .unsleepNext next bt _ u => u.shape { hand := next :: bt, bts := next :: bt } next
  | .bthreads next bt _ _ => { hand := next :: bt, bts := next :: bt }
  | .unsleep next bt w _ _ u =>
    u.shape { hand := next :: (bt ++ [w]), bts := next :: (bt ++ [w]) } w
  | .ready next bt w _ _ => { hand := next :: (bt ++ [w]), bts := next :: (bt ++ [w]) }
  | .flush next _ _ | .exchange next _ => { hand := [next], bts := [next] }

/-- Inside `butex_wake_except(b, excluded)`. -/
def WakeExceptPc.shape (base : Shape) (b : ButexId) (excluded : Tid) : WakeExceptPc → Shape
  | .lock => base
  | .drain bt pt ex | .reappend bt pt ex =>
    { base with
      lock := some b, unl := ex.toList, hand := bt ++ pt, bts := bt, pts := pt
      ex := ex.map (·, excluded) }
  | .remove bt pt ex w =>
    { base with
      lock := some b, sel := some (b, w), unl := ex.toList, hand := bt ++ pt, bts := bt, pts := pt
      ex := ex.map (·, excluded) }
  | .clear bt pt ex w =>
    { base with
      lock := some b, unl := w :: ex.toList, hand := bt ++ pt, bts := bt, pts := pt
      ex := ex.map (·, excluded) }
  | .unlock bt pt => { base with lock := some b, hand := bt ++ pt, bts := bt, pts := pt }
  | .pthreads bt pt _ => { base with hand := bt ++ pt, bts := bt, pts := pt }
  | .bthreads bt _ _ => { base with hand := bt, bts := bt }
  | .unsleep bt w _ _ u => u.shape { base with hand := bt ++ [w], bts := bt ++ [w] } w
  | .ready bt w _ _ => { base with hand := bt ++ [w], bts := bt ++ [w] }
  | .flush _ _ => base

/-- Inside `butex_requeue`, up to the second lock. -/
def RequeuePc.shape (b : ButexId) : RequeuePc → Shape
  | .lock1 => {}
  | _ => { lock := some b }

/-- Inside `wait_for_butex` of wait `c`. -/
def CallbackPc.shape (c : CallId) (a : WaitArgs) : CallbackPc → Shape
  | .lock | .ready =>
    { phase := some (a.slot, .callback), self := some a.slot, built := true, fresh := false }
  | .value | .setUnmatched | .state | .interrupted | .append | .unlockRefused =>
    { lock := some a.butex, phase := some (a.slot, .callback), self := some a.slot, built := true
      fresh := false }
  | .setContainer =>
    { lock := some a.butex, phase := some (a.slot, .suspended), self := some a.slot, built := true
      queueing := some a.butex, fresh := false }
  | .unlockQueued =>
    { lock := some a.butex, phase := some (a.slot, .suspended), self := some a.slot, built := true
      unqueued := false, fresh := false }
  | .unsleep u =>
    u.shape { phase := some (a.slot, .callback), self := some a.slot, built := true
              fresh := false } c

/-- Inside `butex_wait`, call `c`. -/
def WaitPc.shape (c : CallId) (a : WaitArgs) : WaitPc → Shape
  | .check | .init => { phase := some (a.slot, .active) }
  | .schedule | .publish | .sched =>
    { phase := some (a.slot, .active), self := some a.slot, built := true }
  | .setSleepId i =>
    { phase := some (a.slot, .active), self := some a.slot, built := true
      timer := some (i, .eraseFromButexAndWakeup c) }
  | .callback p => p.shape c a
  | .suspended =>
    { phase := some (a.slot, .suspended), self := some a.slot, built := true, unqueued := false
      fresh := false }
  | .unsleep u =>
    u.shape { phase := some (a.slot, .active), built := true, unqueued := false, fresh := false } c
  | .takeBack | .loadInterrupted | .clearInterrupted | .result _ | .ret _ =>
    { phase := some (a.slot, .active), built := true, unqueued := false, fresh := false }

/-- Inside `butex_wait_from_pthread`, call `c`. -/
def PthreadWaitPc.shape (c : CallId) (a : PthreadWaitArgs) : PthreadWaitPc → Shape
  | .start | .init => { phase := a.task.map (·, .pthread) }
  | .publish | .lock => { phase := a.task.map (·, .pthread), built := true }
  | .value | .unlockUnmatched | .interrupted | .unlockInterrupted | .append =>
    { lock := some a.butex, phase := a.task.map (·, .pthread), built := true }
  | .setContainer =>
    { lock := some a.butex, phase := a.task.map (·, .pthread), built := true
      queueing := some a.butex, fresh := false }
  | .unlockQueued =>
    { lock := some a.butex, phase := a.task.map (·, .pthread), built := true, unqueued := false
      fresh := false }
  | .erase p =>
    p.shape { phase := a.task.map (·, .pthread), built := true, unqueued := false
              fresh := false } c false
  | _ => { phase := a.task.map (·, .pthread), built := true, unqueued := false, fresh := false }

/-- Inside `TaskGroup::interrupt(tid)`. -/
def InterruptPc.shape (tid : Tid) : InterruptPc → Shape
  | .addressMeta | .lock => {}
  | .version | .unlockInvalid | .unlockSet | .unlockUnset => { vlock := some (getSlot tid) }
  | .exchange => { vlock := some (getSlot tid), matched := some tid }
  | .loadSleep w => { vlock := some (getSlot tid), matched := some tid, target := w }
  | .clearSleep w sl | .setInterrupted w sl | .unlock w sl =>
    { vlock := some (getSlot tid), matched := some tid, target := w, sleepId := some (tid, sl) }
  | .check w sl => { target := w, sleepId := some (tid, sl) }
  | .erase w p => p.shape {} w true
  | .lockAgain w => { target := some w }
  | .versionAgain w => { vlock := some (getSlot tid), target := some w }
  | .setWaiter w => { vlock := some (getSlot tid), matched := some tid, target := some w }
  | .unschedule sl => { sleepId := some (tid, sl) }
  | .ready sl => { sleepId := some (tid, sl), rescue := some sl }

/-- Inside `TaskGroup::set_stopped(tid)`. -/
def SetStoppedPc.shape (tid : Tid) : SetStoppedPc → Shape
  | .addressMeta | .lock => {}
  | .version | .unlock => { vlock := some (getSlot tid) }
  | .setStop => { vlock := some (getSlot tid), matched := some tid }

/-- Inside `TaskGroup::usleep`. -/
def UsleepPc.shape (slot : SlotId) : UsleepPc → Shape
  | .init => { phase := some (slot, .active) }
  | .sched => { phase := some (slot, .active), self := some slot, built := true }
  | .suspended =>
    { phase := some (slot, .suspended), self := some slot, built := true, fresh := false }
  | _ => { phase := some (slot, .active), built := true, fresh := false }

/-- Inside `_add_sleep_event(e)`, which copied `tid`. -/
def AddSleepPc.shape (e : CallId) (tid : Tid) : AddSleepPc → Shape
  | .schedule | .readyFailed | .readyRemoved =>
    { target := some e, copied := some (e, tid), wake := some e }
  | .lock i | .unschedule i =>
    { target := some e, copied := some (e, tid), timer := some (i, .readyToRunFromTimerThread e) }
  | .version i | .unlockUnset i =>
    { vlock := some (getSlot tid), target := some e, copied := some (e, tid)
      timer := some (i, .readyToRunFromTimerThread e) }
  | .interrupted i | .setSleep i =>
    { vlock := some (getSlot tid), matched := some tid, target := some e, copied := some (e, tid)
      timer := some (i, .readyToRunFromTimerThread e) }
  | .unlockSet => { vlock := some (getSlot tid), target := some e, copied := some (e, tid) }

/-- Inside the callback of timer `i`. -/
def TimerPc.shape (i : TimerId) : TimerPc → Shape
  | .erase bw p =>
    p.shape { timer := some (i, .eraseFromButexAndWakeup bw), running := some i } bw true
  | .ready e =>
    { target := some e, timer := some (i, .readyToRunFromTimerThread e), running := some i
      wake := some e }
  | .finish => { running := some i }

/-- Inside `start_foreground` and `start_background`. -/
def StartPc.shape : StartPc → Shape
  | .getResource => {}
  | .checkWaiter s | .init s | .setTid s => { phase := some (s, .starting) }
  | .ready s => { phase := some (s, .named) }

/-- Inside `TaskGroup::init`. -/
def InitPc.shape : InitPc → Shape
  | .getResource => {}
  | .init s | .setTid s => { phase := some (s, .starting) }

/-- Inside the end of `task_runner`. -/
def EndPc.shape (slot : SlotId) : EndPc → Shape
  | .finishFn | .returnKeytable | .lock => { phase := some (slot, .active) }
  | .bump => { vlock := some slot, phase := some (slot, .active) }
  | .bumpAgain => { vlock := some slot, phase := some (slot, .wrapping) }
  | .unlock => { vlock := some slot, phase := some (slot, .ending) }
  | .wakeExcept p => p.shape { phase := some (slot, .ending) } (.version slot) 0
  | .sched => { phase := some (slot, .ending) }
  | .leave => { phase := some (slot, .ended) }
  | .release => { phase := some (slot, .released) }

/-- Inside a call that requeues its own bthread. -/
def YieldPc.shape (slot : SlotId) : YieldPc → Shape
  | .sched => { phase := some (slot, .active) }
  | .ready => { phase := some (slot, .switched), fresh := false }
  | .suspended => { phase := some (slot, .suspended), fresh := false }
  | .ret => { phase := some (slot, .active), fresh := false }

/-- The shape of the control point of call `c`. -/
def Pc.shape (c : CallId) : Pc → Shape
  | .idle => {}
  | .done _ => .finished
  | .butexWait a p => p.shape c a
  | .butexWaitFromPthread a p => p.shape c a
  | .butexWake b p => p.shape b
  | .butexWakeAll b _ p => p.shape b
  | .butexWakeExcept b t _ p => p.shape {} b t
  | .butexRequeue b _ p => p.shape b
  | .interrupt t _ p => p.shape t
  | .setStopped t p => p.shape t
  | .usleep s p => p.shape s
  | .addSleepEvent e t p => p.shape e t
  | .timer i p => p.shape i
  | .startTask p => p.shape
  | .initGroup p => p.shape
  | .endTask s p => p.shape s
  | .yield s p => p.shape s

/-! ## What one access does to a shape -/

/-- The `waiter_lock` held, before and after. -/
def LockChange (m : Mem) (x y : Option ButexId) : Access → Prop
  | .lockButex b => m.waiterLock b = none ∧ x = none ∧ y = some b
  | .unlockButex b => x = some b ∧ y = none
  | _ => y = x

/-- The `version_lock` held, before and after. -/
def VlockChange (m : Mem) (x y : Option SlotId) : Access → Prop
  | .lockVersion s => m.versionLock s = none ∧ x = none ∧ y = some s
  | .unlockVersion s => x = some s ∧ y = none
  | .bumpVersion s | .skipVersion s => x = some s ∧ y = some s
  | _ => y = x

/-- The phase, before and after; `PushChange` tells what happens when a task is pushed. -/
def PhaseChange (c : CallId) (m : Mem) (x y : Option (SlotId × Phase)) : Access → Prop
  | .nop => y = x ∨ ∃ s, x = some (s, .suspended) ∧ m.run s = .running ∧ y = some (s, .active)
  | .enter s =>
    x = none ∧ m.call s = none ∧ (m.run s = .running ∧ y = some (s, .active) ∨
      (m.run s = .running ∨ m.run s = .main) ∧ y = some (s, .pthread))
  | .leave s =>
    (x = some (s, .active) ∨ x = some (s, .pthread)) ∧ y = none ∨
      x = some (s, .ended) ∧ y = some (s, .released)
  | .initBthreadWaiter s | .initSleepArgs s => x = some (s, .active) ∧ y = x
  | .append _ w =>
    w = c ∧ (∃ s, x = some (s, .callback) ∧ y = some (s, .suspended)) ∨
      (∀ s, x ≠ some (s, .callback)) ∧ y = x
  | .suspendWait s => x = some (s, .active) ∧ y = some (s, .callback)
  | .suspendSleep s => x = some (s, .active) ∧ y = some (s, .suspended)
  | .suspendYield s => x = some (s, .active) ∧ y = some (s, .switched)
  | .suspendEnd s => x = some (s, .ending) ∧ y = some (s, .ended)
  | .getResource s => x = none ∧ m.run s = .free ∧ y = some (s, .starting)
  | .initTask s => x = some (s, .starting) ∧ y = x
  | .setTid s => x = some (s, .starting) ∧ y = some (s, .named)
  | .setMainTid s => x = some (s, .starting) ∧ y = none
  | .bumpVersion s =>
    x = some (s, .active) ∧
      y = some (s, if m.value (.version s) + 1 = 0 then .wrapping else .ending)
  | .skipVersion s => x = some (s, .wrapping) ∧ y = some (s, .ending)
  | .returnResource s => x = some (s, .released) ∧ y = none
  | .schedTo t => t ∈ m.ready ∧ y = x
  | .push _ => True
  | _ => y = x

/-- Pushing `t`: a new bthread, a bthread that requeues itself, a bthread that is not queued, a
sleeping bthread by its callback, timer or interrupter. -/
def PushChange (c : CallId) (m : Mem) (x y : Shape) (t : Tid) : Prop :=
  (y.wake = x.wake ∧ y.rescue = x.rescue ∧ ∃ s,
    x.phase = some (s, .named) ∧ t = m.metaTid s ∧ y.phase = none ∨
    x.phase = some (s, .switched) ∧ t = m.metaTid s ∧ y.phase = some (s, .suspended) ∨
    x.phase = some (s, .callback) ∧ t = m.tid c ∧ y.phase = some (s, .suspended)) ∨
  (y.phase = x.phase ∧ y.rescue = x.rescue ∧ ∃ e, x.wake = some e ∧ y.wake = none ∧
    (t = m.tid e ∨ x.copied = some (e, t))) ∨
  (y.phase = x.phase ∧ y.wake = x.wake ∧ ∃ i, x.rescue = some i ∧ y.rescue = none ∧
    x.sleepId = some (t, i))

/-- The waiters in the hands of a call, before and after. -/
def QueueChange (c : CallId) (m : Mem) (x y : Shape) : Access → Prop
  | .nop =>
    y.queueing = x.queueing ∧ y.hand.Perm x.hand ∧
      (y.unl.Perm x.unl ∨ ∃ w w₀ t, x.unl = [w, w₀] ∧ y.unl = [w] ∧ x.ex = some (w₀, t) ∧
        m.tid w = t ∧ t ≠ 0) ∧
      (y.sel = x.sel ∨ ∃ b w, x.lock = some b ∧ w ∈ m.waiters b ∧ y.sel = some (b, w))
  | .unlockButex _ =>
    x.queueing = none ∧ x.sel = none ∧ x.unl = [] ∧
      y.queueing = none ∧ y.sel = none ∧ y.unl = [] ∧ y.hand = x.hand
  | .append b w =>
    x.lock = some b ∧ x.sel = none ∧ y.sel = none ∧ y.unl = [] ∧ y.hand = x.hand ∧
      (w = c ∧ x.unl = [] ∧ x.built = true ∧ x.unqueued = true ∧ x.queueing = none ∧
        y.queueing = some b ∧ y.fresh = false ∧
        (x.fresh = true ∧ x.self = none ∨ ∃ s, x.phase = some (s, .callback)) ∨
      x.unl = [w] ∧ x.queueing = none ∧ y.queueing = none)
  | .removeFromList w =>
    y.queueing = x.queueing ∧ y.sel = none ∧ y.unl = w :: x.unl ∧ y.hand = x.hand ∧
      ∃ b, x.sel = some (b, w)
  | .matchContainer w =>
    y.queueing = x.queueing ∧ x.unl = [] ∧ y.unl = [] ∧ y.hand = x.hand ∧ x.target = some w ∧
      ∃ b, x.lock = some b ∧ m.container w = some b ∧ y.sel = some (b, w)
  | .setContainer b =>
    x.queueing = some b ∧ x.unqueued = true ∧ y.unqueued = false ∧ y.queueing = none ∧
      y.sel = x.sel ∧ y.unl = x.unl ∧ y.hand = x.hand
  | .moveContainer _ _ => False
  | .clearContainer w =>
    y.queueing = x.queueing ∧ y.sel = x.sel ∧ x.unl = w :: y.unl ∧
      (y.hand.Perm (w :: x.hand) ∨ w = c ∧ x.built = true ∧ x.hand = [] ∧ y.hand = [])
  | .handOff w | .handOffLost w =>
    y.queueing = x.queueing ∧ y.sel = x.sel ∧ y.unl = x.unl ∧ x.hand.Perm (w :: y.hand) ∧
      (m.tid w ≠ 0 ∨ w ∈ x.bts)
  | .wakeupPthread w =>
    y.queueing = x.queueing ∧ y.sel = x.sel ∧ y.unl = x.unl ∧ x.hand.Perm (w :: y.hand) ∧
      (m.tid w = 0 ∨ w ∈ x.pts)
  | _ => y.queueing = x.queueing ∧ y.sel = x.sel ∧ y.unl = x.unl ∧ y.hand = x.hand

/-- The sleeping call a call has to push, and the timer callback it is, before and after. -/
def SleepChange (c : CallId) (m : Mem) (x y : Shape) : Access → Prop
  | .schedule fn =>
    y.running = x.running ∧ y.rescue = x.rescue ∧
      (fn = .eraseFromButexAndWakeup c ∧ (x.built = true ∧ x.self ≠ none) ∧ y.wake = x.wake ∨
        ∃ e, fn = .readyToRunFromTimerThread e ∧ x.wake = some e ∧ y.wake = none)
  | .unschedule i =>
    y.running = x.running ∧
      ((∃ w, x.timer = some (i, .eraseFromButexAndWakeup w)) ∧
          y.wake = x.wake ∧ y.rescue = x.rescue ∨
        (∃ e, x.timer = some (i, .readyToRunFromTimerThread e) ∧ x.wake = none ∧
          y.wake = if m.timerState i = .pending then some e else none) ∧ y.rescue = x.rescue ∨
        (∃ t, x.sleepId = some (t, i)) ∧ x.rescue = none ∧ y.wake = x.wake ∧
          y.rescue = if m.timerState i = .pending then some i else none)
  | .runRemained e =>
    m.remained e = true ∧ x.wake = none ∧ y.wake = some e ∧ y.rescue = x.rescue ∧
      y.running = x.running
  | .fire i =>
    m.timerState i = .pending ∧ x.running = none ∧ y.running = some i ∧ y.rescue = x.rescue ∧
      x.wake = none ∧
      ((∃ w, m.timerFn i = some (.eraseFromButexAndWakeup w)) ∧ y.wake = none ∨
        ∃ e, m.timerFn i = some (.readyToRunFromTimerThread e) ∧ y.wake = some e)
  | .finishTimer i =>
    x.running = some i ∧ y.running = none ∧ y.wake = x.wake ∧ y.rescue = x.rescue
  | .push _ => y.running = x.running
  | .setSleepId i =>
    x.timer = some (i, .eraseFromButexAndWakeup c) ∧
      y.running = x.running ∧ y.wake = x.wake ∧ y.rescue = x.rescue
  | .setCurrentSleep s i =>
    (i = 0 ∨ ∃ e t, x.copied = some (e, t) ∧ s = getSlot t ∧
      x.timer = some (i, .readyToRunFromTimerThread e)) ∧
      y.running = x.running ∧ y.wake = x.wake ∧ y.rescue = x.rescue
  | _ => y.running = x.running ∧ y.wake = x.wake ∧ y.rescue = x.rescue

/-- What is known after an access was known before, or is `new`. -/
def Keeps {α : Type} (x y : Option α) (new : α → Prop) : Prop :=
  ∀ v, y = some v → x = some v ∨ new v

/-- Nothing has changed. -/
@[simp]
theorem keeps_self {α : Type} (x : Option α) (new : α → Prop) : Keeps x x new := fun _ => .inl

/-- Nothing is known any more. -/
@[simp]
theorem keeps_none {α : Type} (x : Option α) (new : α → Prop) : Keeps x none new :=
  fun _ h => nomatch h

/-- Something new is known. -/
@[simp]
theorem keeps_some {α : Type} (x : Option α) (v : α) (new : α → Prop) :
    Keeps x (some v) new ↔ x = some v ∨ new v := by
  simp [Keeps]

/-- What is known of each of `ys` was known before, or is `new`. -/
def KeepsAll {α : Type} (xs ys : List α) (new : α → Prop) : Prop := ∀ v ∈ ys, v ∈ xs ∨ new v

/-- Nothing has changed. -/
@[simp]
theorem keepsAll_self {α : Type} (xs : List α) (new : α → Prop) : KeepsAll xs xs new :=
  fun _ => .inl

/-- Nothing is known any more. -/
@[simp]
theorem keepsAll_nil {α : Type} (xs : List α) (new : α → Prop) : KeepsAll xs [] new :=
  fun _ h => nomatch h

/-- Some are dropped. -/
theorem keepsAll_of_subset {α : Type} {xs ys : List α} (h : ys ⊆ xs) (new : α → Prop) :
    KeepsAll xs ys new :=
  fun _ hv => .inl (h hv)

/-- The first one is dropped. -/
@[simp]
theorem keepsAll_tail {α : Type} (x : α) (xs : List α) (new : α → Prop) :
    KeepsAll (x :: xs) xs new :=
  keepsAll_of_subset (List.subset_cons_self x xs) new

/-- The last one is dropped. -/
@[simp]
theorem keepsAll_init {α : Type} (x : α) (xs : List α) (new : α → Prop) :
    KeepsAll (xs ++ [x]) xs new :=
  keepsAll_of_subset (List.subset_append_left xs [x]) new

/-- One is added. -/
@[simp]
theorem keepsAll_snoc {α : Type} (x : α) (xs : List α) (new : α → Prop) :
    KeepsAll xs (xs ++ [x]) new ↔ x ∈ xs ∨ new x := by
  simp only [KeepsAll, List.mem_append, List.mem_singleton]
  grind

/-- The first one. -/
@[simp]
theorem keepsAll_cons {α : Type} (x : α) (xs ys : List α) (new : α → Prop) :
    KeepsAll xs (x :: ys) new ↔ (x ∈ xs ∨ new x) ∧ KeepsAll xs ys new := by
  simp [KeepsAll]

/-- What a call knows after an access, it knew before or has just learned. -/
@[mk_iff]
structure Learns (c : CallId) (m : Mem) (a : Access) (x y : Shape) : Prop where
  matched : Keeps x.matched y.matched fun t =>
    x.vlock = some (getSlot t) ∧ m.value (.version (getSlot t)) = getVersion t ∧ a = .nop
  self : Keeps x.self y.self fun s => a = .initBthreadWaiter s ∨ a = .initSleepArgs s
  bts : KeepsAll x.bts y.bts fun w => m.tid w ≠ 0
  pts : KeepsAll x.pts y.pts fun w => m.tid w = 0
  ex : Keeps x.ex y.ex fun w => m.tid w.1 = w.2 ∧ w.2 ≠ 0
  target : Keeps x.target y.target fun w => w = c ∧ x.built = true ∨
    (∃ s, m.currentWaiter s = some w) ∨ (∃ i, m.timerFn i = some (.eraseFromButexAndWakeup w)) ∨
    (∃ i, m.timerFn i = some (.readyToRunFromTimerThread w)) ∨ m.remained w = true
  timer : Keeps x.timer y.timer fun v => a = .schedule v.2 ∧ v.1 = m.nextTimer ∨
    m.timerFn v.1 = some v.2 ∧ a = .fire v.1 ∨
    ∃ w, v.2 = .eraseFromButexAndWakeup w ∧ v.1 = m.sleepId w ∧ v.1 ≠ 0
  copied : Keeps x.copied y.copied fun v => m.remained v.1 = true ∧ v.2 = m.tid v.1
  sleepId : Keeps x.sleepId y.sleepId fun v =>
    x.matched = some v.1 ∧ v.2 = m.currentSleep (getSlot v.1)

/-- What becomes of an object on the stack, and of a call that is switched out. -/
@[mk_iff]
structure Ages (c : CallId) (a : Access) (x y : Shape) : Prop where
  built : x.built = true → y.built = true
  unqueued : y.unqueued = true → x.unqueued = true
  fresh : y.fresh = true → x.fresh = true
  self : y.fresh = true → x.built = true → y.self = x.self
  builds : y.built = true → x.built = true ∨ y.fresh = false ∨
    (∃ s, a = .initBthreadWaiter s ∨ a = .initSleepArgs s) ∨ ∃ o, a = .initPthreadWaiter o
  init : ∀ s, a = .initBthreadWaiter s ∨ a = .initSleepArgs s →
    x.built = false ∧ y.built = true ∧ y.self = some s ∧ x.fresh = true
  initPthread : ∀ o, a = .initPthreadWaiter o →
    x.built = false ∧ y.built = true ∧ y.self = none ∧ x.fresh = true
  waits : ∀ s, a = .suspendWait s ∨ a = .suspendSleep s →
    x.built = true ∧ x.fresh = true ∧ y.fresh = false ∧ x.self = some s ∧ y.self = some s
  yields : ∀ s, a = .suspendYield s → x.fresh = true ∧ y.fresh = false
  suspended : ∀ s, y.phase = some (s, .suspended) → y.self = x.self
  publishes : ∀ s w, a = .setCurrentWaiter s (some w) →
    w = c ∧ x.built = true ∨ x.target = some w

/-- What one access can do to the shape of its call. -/
@[mk_iff]
structure Shape.Step (c : CallId) (m : Mem) (a : Access) (x y : Shape) : Prop where
  lock : LockChange m x.lock y.lock a
  vlock : VlockChange m x.vlock y.vlock a
  phase : PhaseChange c m x.phase y.phase a
  push : ∀ t, a = .push t → PushChange c m x y t
  queue : QueueChange c m x y a
  sleep : SleepChange c m x y a
  learns : Learns c m a x y
  ages : Ages c a x y

end Bthread
