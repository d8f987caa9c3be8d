import Bthread.Slots
import Bthread.Switches

set_option relaxedAutoImplicit false
set_option autoImplicit false

/-!
# Scheduling

The calls of the library and the workers that run bthreads, together: what an access makes runnable
goes into a run queue, a worker takes its next task out of one, the accesses that switch a bthread
out are made on the worker whose current task it is, and a callback begins on the worker that runs
it. Which queue a bthread goes to and which one a worker takes from is left open; so is how far a
worker has got with a task it has taken. `exchange` and `start_foreground` are `yield` on a worker
that holds the bthread to switch to.

A `Phase` of the workers' model is history; here the queues say which bthreads can be run, and
`force` sets the phases accordingly, so that no step is ruled out by one.

## Main definitions

* `Bthread.Scheduling.Place` — run queues, and the hands of a worker.
* `Bthread.Scheduling.Bearing` — what an access means to the workers.
* `Bthread.Scheduling.machine` — the machine; `Bthread.Scheduling.State` — its states.
* `Bthread.Scheduling.OneOwner` — no bthread is in two places.
-/

namespace Bthread.Scheduling

open Function (update)
open Context (TaskRef Suspend Remained)

/-- Where the identifier of a bthread to be run is. -/
inductive Place
  /-- `_rq` of a group. -/
  | rq (g : GroupId)
  /-- `_remote_rq` of a group. -/
  | remoteRq (g : GroupId)
  /-- `next_tid` in `sched`, `ending_sched`, `exchange`, `start_foreground` or `run_main_task` on a
  worker. -/
  | next (w : GroupId)
  deriving DecidableEq, Repr

/-- Calls, workers and run queues. -/
structure State where
  /-- The calls of the library, and the memory they share. -/
  calls : Bthread.State
  /-- The workers. -/
  switch : Context.State
  /-- The identifiers in each place. -/
  place : Place → List Tid

/-! ## What accesses mean to the workers -/

/-- What an access means to the workers. -/
inductive Bearing
  /-- Nothing. -/
  | nothing
  /-- A new bthread is made runnable. -/
  | start (t : Tid)
  /-- A bthread that was switched out before is made runnable. -/
  | push (t : Tid)
  /-- The task of slot `n` is switched out. -/
  | suspend (n : SlotId) (how : Suspend)
  /-- The task of slot `n` is switched out for good. -/
  | ending (n : SlotId)
  /-- The callback about the task of slot `n` begins; `none` is `_release_last_context`. -/
  | callback (n : SlotId) (how : Option Suspend)
  /-- A worker switches to a bthread. -/
  | schedTo (t : Tid)
  deriving DecidableEq

/-- What an access at a control point means to the workers. -/
def bearing (m : Mem) : Pc → Access → Bearing
  | .startTask _, .push t => .start t
  -- `ready_to_run_in_worker`
  | .yield n _, .push _ => .callback n (some .yield)
  | _, .push t => .push t
  | _, .handOff w => .push (m.tid w)
  | _, .suspendWait n => .suspend n .wait
  | _, .suspendSleep n => .suspend n .sleep
  | _, .suspendYield n => .suspend n .yield
  | _, .suspendEnd n => .ending n
  -- the first access of `wait_for_butex`
  | .butexWait a (.callback .lock), .lockButex _ => .callback a.slot (some .wait)
  | _, .runRemained e => .callback (getSlot (m.tid e)) (some .sleep)
  | _, .returnResource n => .callback n none
  | _, .schedTo t => .schedTo t
  | _, _ => .nothing

/-- What the next access of a call means to the workers. -/
def State.bearing (s : State) (c : CallId) (k : Bthread.Move) : Option Bearing :=
  (control c (s.calls.pc c) k s.calls.mem).map fun r =>
    Scheduling.bearing s.calls.mem (s.calls.pc c) r.1

/-- How the callback was registered; `none` is `_release_last_context`. -/
def how : Remained → Option Suspend
  | .readyToRunInWorker _ => some .yield
  | .waitForButex _ => some .wait
  | .addSleepEvent _ _ => some .sleep
  | .releaseLastContext _ => none

/-! ## The workers -/

/-- The state in which slot `n` is in phase `p`. -/
def inPhase (n : ℕ) (p : Context.Phase) (x : Context.State) : Context.State :=
  x.setTask (.slot n) fun m => { m with phase := p }

/-- The state in which no phase rules a step out. -/
def force : Context.Move → Context.State → Context.State
  | .start _ n _ => inPhase n .free
  | .wake _ n => inPhase n .away
  | .runTask _ n _ | .suspend _ _ (.slot n) _ | .endTask _ (.slot n) _ => inPhase n .ready
  | _ => id

/-- A step of the workers, whatever the phases. -/
def step (s : Context.State) (x : Context.Move) : Option Context.State :=
  Context.next (force x s) x

/-- The callback that worker `w` is about to run. -/
def pending (w : GroupId) (x : Context.State) : Option Remained :=
  (x.thread w).cont.loopGroup.bind fun g => (x.group g).lastContextRemained

/-- Steps a worker takes alone. -/
def alone : Context.Move → Bool
  | .write _ _ _ | .writeBls _ _ | .call _ | .return _ | .leave _ => true
  | _ => false

/-- The task of a slot. -/
def slot (n : SlotId) : TaskRef := .slot n.toNat

/-- The task to run next in group `g`: the one taken, or the main task. -/
def taskOf (g : GroupId) : Option Tid → TaskRef
  | some t => slot (getSlot t)
  | none => .main g

/-! ## The machine -/

/-- The next access of a call. -/
def State.access (s : State) (c : CallId) (k : Bthread.Move) : Option State :=
  (system.next s.calls (c, k)).map fun z => { s with calls := z }

/-- A step of the workers. -/
def State.turn (s : State) (x : Context.Move) : Option State :=
  (step s.switch x).map fun y => { s with switch := y }

/-- Put an identifier somewhere. A worker holds one at a time. -/
def State.put (s : State) (p : Place) (t : Tid) : Option State :=
  match p with
  | .next w =>
    if s.place (.next w) = [] then some { s with place := update s.place (.next w) [t] } else none
  | p => some { s with place := update s.place p (t :: s.place p) }

/-- Worker `w` switches by step `x`: to the bthread it has taken, in a call `d` of its own, or to
the main task when it has taken none. -/
def State.goTo (s : State) (w : GroupId) (d : CallId) (x : Context.Move) :
    Option Tid → Option State
  | none => if s.place (.next w) = [] then s.turn x else none
  | some t =>
    if t ∈ s.place (.next w) then
      (s.turn x).bind fun s => (s.access d (.call (.schedTo t))).map fun s =>
        { s with place := update s.place (.next w) ((s.place (.next w)).erase t) }
    else none

/-- A step. -/
inductive Move
  /-- A worker goes on without a library call. -/
  | alone (x : Context.Move)
  /-- Worker `w` takes `t` from a run queue. -/
  | take (w : GroupId) (p : Place) (t : Tid)
  /-- `run_main_task` of worker `w` switches to the bthread taken. -/
  | runTask (w : GroupId) (d : CallId) (t : Tid) (o : Option ℕ)
  /-- An access that means nothing to the workers. -/
  | access (c : CallId) (k : Bthread.Move)
  /-- An access that makes a bthread runnable, which goes to `p`. -/
  | push (c : CallId) (k : Bthread.Move) (p : Place) (ty : Context.StackType)
  /-- The current task of worker `w` is switched out, and the one taken is run. -/
  | suspend (c : CallId) (k : Bthread.Move) (w : GroupId) (d : CallId) (t : Option Tid)
    (o : Option ℕ)
  /-- The current task of worker `w` ends, and the one taken is run. -/
  | endTask (c : CallId) (k : Bthread.Move) (w : GroupId) (d : CallId) (t : Option Tid)
    (o : Option ℕ)
  /-- Worker `w` begins a callback. A bthread that it makes runnable goes to `p`. -/
  | callback (c : CallId) (k : Bthread.Move) (w : GroupId) (p : Place)

/-- The place is a run queue. -/
def Place.queue? : Place → Bool
  | .next _ => false
  | _ => true

/-- One step. -/
def next (s : State) : Move → Option State
  | .alone x => if alone x then s.turn x else none
  | .take w p t =>
    if p.queue? ∧ t ∈ s.place p then
      State.put { s with place := update s.place p ((s.place p).erase t) } (.next w) t
    else none
  | .runTask w d t o => s.goTo w d (.runTask w (getSlot t).toNat o) (some t)
  | .access c k => if s.bearing c k = some .nothing then s.access c k else none
  | .push c k p ty =>
    match s.bearing c k with
    | some (.start t) =>
      (s.access c k).bind fun s => (s.turn (.start none (getSlot t).toNat ty)).bind (·.put p t)
    | some (.push t) =>
      (s.access c k).bind fun s => (s.turn (.wake none (getSlot t).toNat)).bind (·.put p t)
    | _ => none
  | .suspend c k w d t o =>
    match s.bearing c k with
    | some (.suspend n h) =>
      if s.switch.cur w = slot n then
        (s.access c k).bind (·.goTo w d (.suspend w h (taskOf w t) o) t)
      else none
    | _ => none
  | .endTask c k w d t o =>
    match s.bearing c k, (s.switch.thread w).cont with
    | some (.ending n), .code (.returnKeytable _ m g) =>
      if m = slot n then (s.access c k).bind (·.goTo w d (.endTask w (taskOf g t) o) t) else none
    | _, _ => none
  | .callback c k w p =>
    match s.bearing c k, pending w s.switch with
    | some (.callback n h), some r =>
      if r.task = slot n ∧ how r = h then
        (s.access c k).bind fun s' => (s'.turn (.remained w false)).bind fun s' =>
          if h = some .yield then s'.put p (s.calls.mem.metaTid n) else some s'
      else none
    | _, _ => none

/-- **The machine** of calls, workers and run queues. -/
def machine : Conc.Machine State Move where
  init s := system.init s.calls ∧ s.switch.Initial ∧ ∀ p, s.place p = []
  next := next

/-- When `task_runner` goes on after `return_keytable`, its `g` is the group of its worker. -/
def InOwnGroup (s : State) (x : Move) : Prop :=
  ∀ c k w d t o, x = .endTask c k w d t o → ∀ b m g,
    (s.switch.thread w).cont = .code (.returnKeytable b m g) → g = w

/-! ## Owners of bthreads -/

/-- `t` is the identifier of `_cur_meta` of group `g`. -/
def State.IsCur (s : State) (g : GroupId) (t : Tid) : Prop :=
  ∃ n, s.switch.cur g = slot n ∧ s.calls.mem.metaTid n = t

/-- The callback that runs at a control point has neither queued the bthread `t`, nor made a timer
for it, nor made it runnable. -/
def Deciding (m : Mem) (t : Tid) : Pc → Prop
  -- `wait_for_butex`
  | .butexWait b (.callback q) => q ≠ .setContainer ∧ q ≠ .unlockQueued ∧ m.metaTid b.slot = t
  -- `_add_sleep_event`
  | .addSleepEvent _ u q => (q = .schedule ∨ q = .readyFailed ∨ q = .readyRemoved) ∧ u = t
  | _ => False

/-- The bthread `t` is captured by a callback that has not begun, or has not got as far as to let
anybody else run it. -/
def State.Captured (s : State) (t : Tid) : Prop :=
  (∃ g r n, (s.switch.group g).lastContextRemained = some r ∧ r.task = slot n ∧
    s.calls.mem.metaTid n = t) ∨ ∃ c, Deciding s.calls.mem t (s.calls.pc c)

/-- **One owner**: a live bthread is in one place. -/
structure OneOwner (s : State) : Prop where
  /-- It is the current task of one group. -/
  current : ∀ t g h, s.calls.mem.exists t → s.IsCur g t → s.IsCur h t → g = h
  /-- It is in a run queue, or with the worker that has taken it, once. -/
  once : ∀ t p, s.calls.mem.exists t → (s.place p).count t ≤ 1
  /-- It is in one run queue, or with one worker that has taken it. -/
  one : ∀ t p q, s.calls.mem.exists t → t ∈ s.place p → t ∈ s.place q → p = q
  /-- While it is there, it is not the current task of a group. -/
  notCurrent : ∀ t p g, s.calls.mem.exists t → t ∈ s.place p → ¬s.IsCur g t
  /-- While it is there, no callback has captured it. -/
  notCaptured : ∀ t p, s.calls.mem.exists t → t ∈ s.place p → ¬s.Captured t

end Bthread.Scheduling
