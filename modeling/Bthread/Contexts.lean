import Mathlib
import Bthread.Lib.Machine
import Bthread.Groups

set_option relaxedAutoImplicit false
set_option autoImplicit false

/-!
# Contexts

The part of a `TaskGroup` that switches contexts: `task_runner`, `sched`, `ending_sched`, `sched_to`
and the callbacks registered with `set_remained`, over the stacks, the `TaskMeta`s and the
thread-local variables that they move around. Worker `w` is the thread whose `tls_task_group` is
group `w`. A context is what is left to do on a stack: `jump_stack` saves the context of the stack
it leaves and goes on with the one saved last on the stack it enters.

Which task `steal_task` finds, whether `get_stack` succeeds, what user code writes to thread-local
variables and when it blocks are left open: a `Move` says how they turn out. A task that is on a run
queue is `ready`; that run queues hold a bthread at most once, and only while it is away from all
workers, is proved of the queues themselves.

## Main definitions

* `Bthread.Context.Cont` — contexts.
* `Bthread.Context.State` — groups, workers, tasks and stacks.
* `Bthread.Context.schedTo`, `Bthread.Context.next` — the steps.
* `Bthread.Context.machine` — the machine.
-/

namespace Bthread.Context

open Function (update)

/-- `StackType`. -/
inductive StackType
  | main
  | pthread
  | small
  | normal
  | large
  deriving DecidableEq, Repr

/-- A `TaskMeta`: the main task of a group, or the one in a slot of the resource pool. -/
inductive TaskRef
  | main (g : GroupId)
  | slot (n : ℕ)
  deriving DecidableEq, Repr

/-- A `ContextualStack`: the `_main_stack` of a group, or one allocated by `get_stack`. -/
inductive StackRef
  | main (g : GroupId)
  | alloc (k : ℕ)
  deriving DecidableEq, Repr

/-- What a word of thread-local storage holds; `LOCAL_STORAGE_INIT` is `0`. -/
abbrev Value := ℕ

/-- A callback given to `set_remained`, with what it has captured. -/
inductive Remained
  /-- `ready_to_run_in_worker`, or `ready_to_run_in_worker_ignoresignal`. -/
  | readyToRunInWorker (t : TaskRef)
  /-- `wait_for_butex`. -/
  | waitForButex (t : TaskRef)
  /-- `_add_sleep_event`, with `SleepArgs::group`. -/
  | addSleepEvent (t : TaskRef) (g : GroupId)
  /-- `_release_last_context`. -/
  | releaseLastContext (t : TaskRef)
  deriving DecidableEq, Repr

/-- The task a callback is about. -/
def Remained.task : Remained → TaskRef
  | .readyToRunInWorker t | .waitForButex t | .addSleepEvent t _ | .releaseLastContext t => t

/-- The callback ends the task. -/
def Remained.Ends : Remained → Prop
  | .releaseLastContext _ => True
  | _ => False

/-- The locals of `sched_to`; `bls` is `tls_bls` when `sched_to` was called. -/
structure Locals where
  /-- `saved_errno`. -/
  savedErrno : Value
  /-- `saved_unique_user_ptr`. -/
  savedUniqueUserPtr : Value
  /-- `tls_bls` at the call. -/
  bls : Value
  deriving DecidableEq, Repr

/-- A call of `run_main_task`, with its locals. -/
structure MainTask where
  /-- `this`. -/
  this : GroupId
  /-- `dummy`. -/
  dummy : GroupId
  deriving DecidableEq, Repr

/-- Code that calls `sched_to`, or that goes on when `sched_to` returns. `base` is the call of
`run_main_task` that has called `task_runner`, if that is not the entry of a stack. -/
inductive Frame
  /-- The loop of `run_main_task`. -/
  | runMainTask (r : MainTask)
  /-- The function of bthread `m`, in the loop of `task_runner`. -/
  | fn (base : Option MainTask) (m : TaskRef)
  /-- `return_keytable` for bthread `m`, in the loop of `task_runner`, whose local `g` is `g`. -/
  | returnKeytable (base : Option MainTask) (m : TaskRef) (g : GroupId)
  /-- `ending_sched`, in the loop of `task_runner`. -/
  | endingSched (base : Option MainTask)
  deriving DecidableEq, Repr

/-- A context. -/
inductive Cont
  /-- The entry of a new stack, `task_runner(0)`. -/
  | taskRunner
  /-- In `jump_stack`, called by `sched_to`. -/
  | jumpStack (f : Frame) (v : Locals)
  /-- In the loop of `sched_to` that runs callbacks, with its local `g`. -/
  | remainedLoop (f : Frame) (g : GroupId) (v : Locals)
  /-- In the loop of `task_runner` that runs callbacks, with its local `g`. -/
  | entered (g : GroupId)
  /-- At the top of the `do` loop of `task_runner`, with its local `g`. -/
  | top (base : Option MainTask) (g : GroupId)
  /-- In code that may call `sched_to`. -/
  | code (f : Frame)
  /-- `task_runner` has returned from the entry of a stack. -/
  | returned
  deriving DecidableEq, Repr

/-- Where a task is. -/
inductive Phase
  /-- In the resource pool. -/
  | free
  /-- On a run queue. -/
  | ready
  /-- Neither on a run queue nor on a worker. -/
  | away
  /-- The current task of a group. -/
  | running (g : GroupId)
  /-- Switched out, with a callback of a group about to run. -/
  | leaving (g : GroupId)
  /-- Ended, with `_release_last_context` of a group about to run. -/
  | ended (g : GroupId)
  deriving DecidableEq, Repr

/-- A `TaskMeta`. -/
structure TaskMeta where
  /-- `stack`. -/
  stack : Option StackRef
  /-- `attr.stack_type`. -/
  stackType : StackType
  /-- `local_storage`. -/
  localStorage : Value
  /-- Whether `fn` has been called since the task was started. -/
  called : Bool
  /-- Where the task is. -/
  phase : Phase
  /-- How often the slot was given out by `get_resource`. -/
  gets : ℕ
  /-- How often the slot was given to `return_resource`. -/
  returns : ℕ
  deriving DecidableEq, Repr

/-- The fields of a `TaskGroup` that its worker uses to switch contexts. -/
structure Group where
  /-- `_cur_meta`. -/
  curMeta : TaskRef
  /-- `_last_context_remained`, with its argument. -/
  lastContextRemained : Option Remained
  /-- `_sched_recursive_guard`. -/
  schedRecursiveGuard : ℤ
  /-- How many callbacks were registered. -/
  registered : ℕ
  /-- How many callbacks were run. -/
  ran : ℕ
  deriving DecidableEq, Repr

/-- The thread-local variables of a worker, and the context it executes. -/
structure Thread where
  /-- `errno`. -/
  errno : Value
  /-- `tls_unique_user_ptr`. -/
  uniqueUserPtr : Value
  /-- `tls_bls`. -/
  bls : Value
  /-- What the worker executes. -/
  cont : Cont
  deriving DecidableEq, Repr

/-- Where an allocated stack is. -/
inductive StackPlace
  /-- Not allocated yet. -/
  | unallocated
  /-- In the pool for a type. -/
  | pooled (ty : StackType)
  /-- Given to a task. -/
  | held (ty : StackType) (t : TaskRef)
  deriving DecidableEq, Repr

/-- A state of all workers. -/
structure State where
  /-- The groups. -/
  group : GroupId → Group
  /-- The workers. -/
  thread : GroupId → Thread
  /-- The tasks. -/
  task : TaskRef → TaskMeta
  /-- The context saved last on each stack. -/
  saved : StackRef → Cont
  /-- The allocated stacks. -/
  place : ℕ → StackPlace
  /-- Whether a `_main_stack` was given to `return_stack`. -/
  mainReturned : GroupId → Bool

/-! ## Tasks and stacks -/

/-- Change a group. -/
def State.setGroup (s : State) (g : GroupId) (f : Group → Group) : State :=
  { s with group := update s.group g (f (s.group g)) }

/-- Change a worker. -/
def State.setThread (s : State) (w : GroupId) (f : Thread → Thread) : State :=
  { s with thread := update s.thread w (f (s.thread w)) }

/-- Change a task. -/
def State.setTask (s : State) (t : TaskRef) (f : TaskMeta → TaskMeta) : State :=
  { s with task := update s.task t (f (s.task t)) }

/-- The current task of a group. -/
def State.cur (s : State) (g : GroupId) : TaskRef := (s.group g).curMeta

/-- `get_stack(ty, task_runner)` for task `t`, when it gives stack `k`. There is no stack for a
pthread-mode task. -/
def getStack (ty : StackType) (t : TaskRef) (k : ℕ) (s : State) : Option State :=
  if ty = .main ∨ ty = .pthread then none
  else match s.place k with
    | .unallocated => some { s with
        place := update s.place k (.held ty t)
        saved := update s.saved (.alloc k) .taskRunner }
    | .pooled ty' =>
      if ty' = ty then some { s with place := update s.place k (.held ty t) } else none
    | .held _ _ => none

/-- `return_stack`. -/
def returnStack (r : Option StackRef) (s : State) : State :=
  match r with
  | none => s
  | some (.main g) => { s with mainReturned := update s.mainReturned g true }
  | some (.alloc k) =>
    match s.place k with
    | .held ty _ => { s with place := update s.place k (.pooled ty) }
    | _ => s

/-- Give task `t` a stack, as `sched_to` and `ending_sched` in group `g` do: one from `get_stack`,
if it gives stack `o`, or else the `_main_stack`. -/
def allocateStack (g : GroupId) (t : TaskRef) (o : Option ℕ) (s : State) : Option State :=
  match o with
  | some k => (getStack (s.task t).stackType t k s).map fun s =>
      s.setTask t fun m => { m with stack := some (.alloc k) }
  | none =>
    -- "if we can't allocate stack, run the task in pthread directly"
    some (s.setTask t fun m => { m with stackType := .pthread, stack := some (.main g) })

/-- `next_meta->set_stack(cur_meta->release_stack())`. -/
def handOver (c t : TaskRef) (s : State) : State :=
  let r := (s.task c).stack
  let s := (s.setTask c fun m => { m with stack := none }).setTask t fun m => { m with stack := r }
  match r with
  | some (.alloc k) =>
    match s.place k with
    | .held ty _ => { s with place := update s.place k (.held ty t) }
    | _ => s
  | _ => s

/-- What `sched_to(pg, tid)` does before it calls `sched_to(pg, next_meta)`. -/
def needStack (g : GroupId) (t : TaskRef) (o : Option ℕ) (s : State) : Option State :=
  if (s.task t).stack = none then allocateStack g t o s else some s

/-- What `ending_sched` does before it calls `sched_to(pg, next_meta)`. -/
def needStackEnding (g : GroupId) (t : TaskRef) (o : Option ℕ) (s : State) : Option State :=
  if (s.task t).stack = none then
    if (s.task t).stackType = (s.task (s.cur g)).stackType then some (handOver (s.cur g) t s)
    else allocateStack g t o s
  else some s

/-! ## Switching -/

/-- `set_remained`. -/
def setRemained (g : GroupId) (r : Remained) (p : Phase) (s : State) : State :=
  (s.setGroup g fun x =>
    { x with lastContextRemained := some r, registered := x.registered + 1 }).setTask r.task
      fun m => { m with phase := p }

/-- A context goes on, on worker `w`: `g` is read from `tls_task_group`. -/
def Cont.resume (w : GroupId) : Cont → Cont
  | .taskRunner => .entered w
  | .jumpStack f v => .remainedLoop f w v
  | k => k

/-- What a context does after it has left the callback loop of group `g` on worker `w`. -/
def Cont.leave (s : State) (w : GroupId) : Cont → Cont
  | .remainedLoop (.runMainTask r) g _ =>
    -- `if (_cur_meta->tid != _main_tid) TaskGroup::task_runner(1)`
    if s.cur r.this = .main r.this then .code (.runMainTask ⟨r.this, g⟩)
    else .top (some ⟨r.this, g⟩) w
  | .remainedLoop (.endingSched base) g _ =>
    -- `while (g->_cur_meta->tid != g->_main_tid)`
    if s.cur g = .main g then
      match base with
      | some r => .code (.runMainTask r)
      | none => .returned
    else .top base g
  | .remainedLoop f _ _ => .code f
  | .entered g => .top none g
  | k => k

/-- `sched_to(&g, t)` on worker `w`, called from `f`, up to the loop that runs callbacks. -/
def schedTo (w g : GroupId) (t : TaskRef) (f : Frame) (s : State) : State :=
  let c := s.cur g
  let v : Locals := ⟨(s.thread w).errno, (s.thread w).uniqueUserPtr, (s.thread w).bls⟩
  let s := s.setGroup g fun x => { x with schedRecursiveGuard := x.schedRecursiveGuard + 1 }
  if t = c then s.setThread w fun x => { x with cont := (Cont.remainedLoop f g v).leave s w }
  else
    let s := s.setGroup g fun x => { x with curMeta := t }
    let s := s.setTask c fun m => { m with localStorage := (s.thread w).bls }
    let s := s.setThread w fun x => { x with bls := (s.task t).localStorage }
    let s := s.setTask t fun m => { m with phase := .running g }
    match (s.task c).stack, (s.task t).stack with
    | some x, some y =>
      if y = x then s.setThread w fun z => { z with cont := .remainedLoop f g v }
      else
        let s := { s with saved := update s.saved x (.jumpStack f v) }
        s.setThread w fun z => { z with cont := (s.saved y).resume w }
    -- there is nothing to jump to
    | some _, none => s.setThread w fun z => { z with cont := .returned }
    -- `LOG(FATAL)`
    | none, _ => s.setThread w fun z => { z with cont := .remainedLoop f g v }

/-- The effect of a callback; `back` says whether `wait_for_butex` or `_add_sleep_event` gives the
bthread back to a run queue itself. -/
def runRemained (back : Bool) (r : Remained) (s : State) : State :=
  match r with
  | .readyToRunInWorker t => s.setTask t fun m => { m with phase := .ready }
  | .waitForButex t | .addSleepEvent t _ =>
    s.setTask t fun m => { m with phase := if back then .ready else .away }
  | .releaseLastContext t =>
    let s := if (s.task t).stackType = .pthread then s else returnStack (s.task t).stack s
    s.setTask t fun m => { m with stack := none, phase := .free, returns := m.returns + 1 }

/-- The local `g` of a context that is about to run a callback or has run them all. -/
def Cont.loopGroup : Cont → Option GroupId
  | .remainedLoop _ g _ => some g
  | .entered g => some g
  | _ => none

/-- A context in the callback loop reads `tls_task_group` again. -/
def Cont.reload (w : GroupId) : Cont → Cont
  | .remainedLoop f _ v => .remainedLoop f w v
  | .entered _ => .entered w
  | k => k

/-! ## The machine -/

/-- How a user function suspends its bthread. -/
inductive Suspend
  /-- `yield`, `exchange` or `start_foreground`. -/
  | yield
  /-- `butex_wait`. -/
  | wait
  /-- `usleep`. -/
  | sleep
  deriving DecidableEq, Repr

/-- The callback registered. -/
def Suspend.remained (g : GroupId) (t : TaskRef) : Suspend → Remained
  | .yield => .readyToRunInWorker t
  | .wait => .waitForButex t
  | .sleep => .addSleepEvent t g

/-- A step, with how it turns out. -/
inductive Move
  /-- A bthread is started in slot `n`, by user code on a worker or by another thread. -/
  | start (p : Option GroupId) (n : ℕ) (ty : StackType)
  /-- A bthread that is away is put on a run queue, by user code on a worker or by another
  thread. -/
  | wake (p : Option GroupId) (n : ℕ)
  /-- Code on worker `w` writes `errno` and `tls_unique_user_ptr`. -/
  | write (w : GroupId) (errno uniqueUserPtr : Value)
  /-- User code on worker `w` writes `tls_bls`. -/
  | writeBls (w : GroupId) (bls : Value)
  /-- `run_main_task` has found task `n`. -/
  | runTask (w : GroupId) (n : ℕ) (o : Option ℕ)
  /-- `task_runner` calls `fn`. -/
  | call (w : GroupId)
  /-- The bthread on worker `w` suspends itself, and `t` is run next. -/
  | suspend (w : GroupId) (how : Suspend) (t : TaskRef) (o : Option ℕ)
  /-- `fn` returns. -/
  | return (w : GroupId)
  /-- The rest of the loop of `task_runner`, up to `sched_to`; `t` is run next. -/
  | endTask (w : GroupId) (t : TaskRef) (o : Option ℕ)
  /-- A callback is run. -/
  | remained (w : GroupId) (back : Bool)
  /-- The callback loop ends. -/
  | leave (w : GroupId)
  deriving DecidableEq, Repr

/-- The task can be run next in group `g`: it was on a run queue, or is the main task. -/
def State.Runnable (s : State) (g : GroupId) (t : TaskRef) : Prop :=
  t = .main g ∨ ∃ n, t = .slot n ∧ (s.task t).phase = .ready

instance (s : State) (g : GroupId) (t : TaskRef) : Decidable (s.Runnable g t) :=
  match t with
  | .main h => decidable_of_iff (h = g) (by simp [State.Runnable])
  | .slot n => decidable_of_iff ((s.task (.slot n)).phase = .ready) (by simp [State.Runnable])

/-- User code: it may block. -/
def Frame.user? : Frame → Bool
  | .fn _ _ | .returnKeytable _ _ _ => true
  | _ => false

/-- Who starts or wakes bthreads: user code of a worker, or another thread. -/
def State.CanPush (s : State) : Option GroupId → Bool
  | some w =>
    match (s.thread w).cont with
    | .code f => f.user?
    | _ => false
  | none => true

/-- One step. -/
def next (s : State) : Move → Option State
  | .start p n ty =>
    if s.CanPush p ∧ (s.task (.slot n)).phase = .free ∧ ty ≠ .main then
      -- `stack` is left alone: it is checked to be `NULL`
      some (s.setTask (.slot n) fun m =>
        { m with
          stackType := ty, localStorage := 0, called := false, phase := .ready
          gets := m.gets + 1 })
    else none
  | .wake p n =>
    if s.CanPush p ∧ (s.task (.slot n)).phase = .away then
      some (s.setTask (.slot n) fun m => { m with phase := .ready })
    else none
  | .write w e u => some (s.setThread w fun x => { x with errno := e, uniqueUserPtr := u })
  | .writeBls w b =>
    match (s.thread w).cont with
    | .code f => if f.user? then some (s.setThread w fun x => { x with bls := b }) else none
    | _ => none
  | .runTask w n o =>
    match (s.thread w).cont with
    | .code (.runMainTask r) =>
      if (s.task (.slot n)).phase = .ready then
        (needStack r.dummy (.slot n) o s).map (schedTo w r.dummy (.slot n) (.runMainTask r))
      else none
    | _ => none
  | .call w =>
    match (s.thread w).cont with
    | .top base g =>
      let m := s.cur g
      some ((s.setTask m fun x => { x with called := true }).setThread w
        fun x => { x with cont := .code (.fn base m) })
    | _ => none
  | .suspend w how t o =>
    match (s.thread w).cont with
    | .code f =>
      -- `g` is `tls_task_group`, and a pthread-mode task does not call `sched`
      if f.user? ∧ (s.task (s.cur w)).stack ≠ some (.main w) ∧ s.Runnable w t then
        (needStack w t o (setRemained w (how.remained w (s.cur w)) (.leaving w) s)).map
          (schedTo w w t f)
      else none
    | _ => none
  | .return w =>
    match (s.thread w).cont with
    | .code (.fn base m) =>
      -- "Group is probably changed"
      some (s.setThread w fun x => { x with cont := .code (.returnKeytable base m w) })
    | _ => none
  | .endTask w t o =>
    match (s.thread w).cont with
    | .code (.returnKeytable base m g) =>
      if s.Runnable g t then
        (needStackEnding g t o (setRemained g (.releaseLastContext m) (.ended g) s)).map
          (schedTo w g t (.endingSched base))
      else none
    | _ => none
  | .remained w back =>
    (s.thread w).cont.loopGroup.bind fun g =>
      (s.group g).lastContextRemained.map fun r =>
        let s := s.setGroup g fun x => { x with lastContextRemained := none, ran := x.ran + 1 }
        (runRemained back r s).setThread w fun x => { x with cont := x.cont.reload w }
  | .leave w =>
    (s.thread w).cont.loopGroup.bind fun g =>
      if (s.group g).lastContextRemained = none then
        let s := s.setGroup g fun x => { x with schedRecursiveGuard := x.schedRecursiveGuard - 1 }
        some (s.setThread w fun x =>
          { x with
            errno := match x.cont with
              | .remainedLoop _ _ v => v.savedErrno
              | _ => x.errno
            uniqueUserPtr := match x.cont with
              | .remainedLoop _ _ v => v.savedUniqueUserPtr
              | _ => x.uniqueUserPtr
            cont := x.cont.leave s w })
      else none

/-- The worker that takes a step, if one does. -/
def Move.worker : Move → Option GroupId
  | .start p _ _ | .wake p _ => p
  | .write w _ _ | .writeBls w _ | .runTask w _ _ | .call w | .suspend w _ _ _ | .return w
  | .endTask w _ _ | .remained w _ | .leave w => some w

/-- The groups whose `_rq`, `_num_nosignal`, `_nsignaled`, `_cur_meta` or `_last_context_remained`
a step uses. -/
def accesses (s : State) : Move → List GroupId
  -- `tls_task_group->ready_to_run`; other threads use `ready_to_run_remote`
  | .start p _ _ | .wake p _ => p.toList
  | .write _ _ _ | .writeBls _ _ | .return _ => []
  -- `sched_to(&dummy, tid)`
  | .runTask w _ _ =>
    match (s.thread w).cont with
    | .code (.runMainTask r) => [r.dummy]
    | _ => []
  -- `g->_cur_meta`
  | .call w =>
    match (s.thread w).cont with
    | .top _ g => [g]
    | _ => []
  -- `set_remained`, `sched` and `sched_to`, with `g` read from `tls_task_group`
  | .suspend w _ _ _ => [w]
  -- `g->set_remained` and `ending_sched(&g)`
  | .endTask w _ _ =>
    match (s.thread w).cont with
    | .code (.returnKeytable _ _ g) => [g]
    | _ => []
  -- `g->_last_context_remained`, and `ready_to_run` in the callback
  | .remained w back =>
    match (s.thread w).cont.loopGroup with
    | some g => g :: match (s.group g).lastContextRemained with
      | some (.readyToRunInWorker _) => [w]
      | some (.waitForButex _) => if back then [w] else []
      | some (.addSleepEvent _ g') => if back then [g'] else []
      | _ => []
    | none => []
  -- `g->_last_context_remained`, and `_cur_meta` after `sched_to` has returned
  | .leave w =>
    match (s.thread w).cont with
    | .remainedLoop (.runMainTask r) g _ => [g, r.this]
    | .remainedLoop _ g _ | .entered g => [g]
    | _ => []

/-- `TaskGroup::init` of every group, before anything was started. -/
structure State.Initial (s : State) : Prop where
  group : ∀ g, (s.group g).curMeta = .main g ∧ (s.group g).lastContextRemained = none ∧
    (s.group g).schedRecursiveGuard = 0 ∧ (s.group g).registered = (s.group g).ran
  thread : ∀ w, (s.thread w).cont = .code (.runMainTask ⟨w, w⟩)
  main : ∀ g, (s.task (.main g)).stack = some (.main g) ∧ (s.task (.main g)).stackType = .main
  slot : ∀ n, (s.task (.slot n)).stack = none ∧ (s.task (.slot n)).phase = .free ∧
    (s.task (.slot n)).gets = (s.task (.slot n)).returns
  place : ∀ k, s.place k = .unallocated
  mainReturned : ∀ g, s.mainReturned g = false

/-- The machine of all workers. -/
def machine : Conc.Machine State Move where
  init := State.Initial
  next := next

end Bthread.Context
