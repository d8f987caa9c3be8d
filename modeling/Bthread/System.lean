import Bthread.Lib.Machine
import Bthread.Task

set_option relaxedAutoImplicit false
set_option autoImplicit false

/-!
# The system

Any number of calls of the functions of `Butex.lean` and `Task.lean`, by any number of bthreads,
pthreads and timer callbacks, interleaved access by access. A task makes one blocking call at a
time and makes it while it is executing; the main task of a group only blocks as a pthread. Every
other call may be made at any moment. A worker switches to any bthread whose identifier is in a
run queue.

## Main definitions

* `Bthread.Call` — what a call can be.
* `Bthread.Pc` — the control point of a call.
* `Bthread.begin`, `Bthread.control` — the accesses of the calls.
* `Bthread.system` — the machine; `Bthread.State` — its states.
-/

namespace Bthread

/-- What a call can be: a function of the library with its arguments; a store of the user to a
butex or of a keytable; the timer thread running the callback of a timer; a worker running a
remained callback or switching to a bthread taken from a run queue. `worker` says whether the
calling thread is a worker. -/
inductive Call
  | butexWait (a : WaitArgs)
  | butexWaitFromPthread (a : PthreadWaitArgs)
  | butexWake (b : ButexId)
  | butexWakeAll (b : ButexId) (worker : Bool)
  | butexWakeExcept (b : ButexId) (excluded : Tid) (worker : Bool)
  | butexRequeue (arg arg2 : ButexId)
  | interrupt (tid : Tid) (worker : Bool)
  | setStopped (tid : Tid)
  | usleep (slot : SlotId)
  | yield (slot : SlotId)
  | startTask
  | initGroup
  | endTask (slot : SlotId)
  | store (n : ℕ) (v : UInt32)
  | setKeytable (slot : SlotId)
  | fire (i : TimerId)
  | runRemained (e : CallId)
  | schedTo (t : Tid)
  deriving DecidableEq

/-- The result of a call. -/
inductive Result
  | wait (r : WaitResult)
  | wake (n : ℕ)
  | interrupt (r : InterruptResult)
  | sleep (r : SleepResult)
  | start (t : Tid)
  | void
  deriving DecidableEq

/-- The control point of a call: not made, inside a function, or returned. -/
inductive Pc
  | idle
  | done (r : Result)
  | butexWait (a : WaitArgs) (p : WaitPc)
  | butexWaitFromPthread (a : PthreadWaitArgs) (p : PthreadWaitPc)
  | butexWake (b : ButexId) (p : WakePc)
  | butexWakeAll (b : ButexId) (worker : Bool) (p : WakeAllPc)
  | butexWakeExcept (b : ButexId) (excluded : Tid) (worker : Bool) (p : WakeExceptPc)
  | butexRequeue (b d : ButexId) (p : RequeuePc)
  | interrupt (tid : Tid) (worker : Bool) (p : InterruptPc)
  | setStopped (tid : Tid) (p : SetStoppedPc)
  | usleep (slot : SlotId) (p : UsleepPc)
  | addSleepEvent (e : CallId) (tid : Tid) (p : AddSleepPc)
  | timer (i : TimerId) (p : TimerPc)
  | startTask (p : StartPc)
  | initGroup (p : InitPc)
  | endTask (slot : SlotId) (p : EndPc)
  | yield (slot : SlotId) (p : YieldPc)
  deriving DecidableEq

/-- How a call moves: it is made, or it takes its next access with some outcome. -/
inductive Move
  | call (f : Call)
  | next (o : Outcome)
  deriving DecidableEq

/-- The bthread of `slot` is executing and inside no blocking call. -/
def Mem.CanBlock (m : Mem) (slot : SlotId) : Prop := m.run slot = .running ∧ m.call slot = none

/-- The task of `slot`, a bthread or a main task, is inside no blocking call and can execute. -/
def Mem.CanWait (m : Mem) (slot : SlotId) : Prop :=
  (m.run slot = .running ∨ m.run slot = .main) ∧ m.call slot = none

instance (m : Mem) (slot : SlotId) : Decidable (m.CanBlock slot) := by
  unfold Mem.CanBlock; infer_instance

instance (m : Mem) (slot : SlotId) : Decidable (m.CanWait slot) := by
  unfold Mem.CanWait; infer_instance

/-- Making a call: its first access and control point. -/
def begin : Call → Mem → Option (Access × Pc)
  | .butexWait a, m =>
    if m.CanBlock a.slot then some (.enter a.slot, .butexWait a .check) else none
  | .butexWaitFromPthread a, m =>
    match a.task with
    | none => some (.nop, .butexWaitFromPthread a .start)
    | some s => if m.CanWait s then some (.enter s, .butexWaitFromPthread a .start) else none
  | .butexWake b, _ => some (.nop, .butexWake b .lock)
  | .butexWakeAll b w, _ => some (.nop, .butexWakeAll b w .lock)
  | .butexWakeExcept b t w, _ => some (.nop, .butexWakeExcept b t w .lock)
  | .butexRequeue arg arg2, _ =>
    some (.nop, .butexRequeue (requeueButexes arg arg2).1 (requeueButexes arg arg2).2 .lock1)
  | .interrupt t w, _ => some (.nop, .interrupt t w .addressMeta)
  | .setStopped t, _ => some (.nop, .setStopped t .addressMeta)
  | .usleep s, m => if m.CanBlock s then some (.enter s, .usleep s .init) else none
  | .yield s, m => if m.CanBlock s then some (.enter s, .yield s .sched) else none
  | .startTask, _ => some (.nop, .startTask .getResource)
  | .initGroup, _ => some (.nop, .initGroup .getResource)
  | .endTask s, m => if m.CanBlock s then some (.enter s, .endTask s .finishFn) else none
  | .store n v, _ => some (.store n v, .done .void)
  | .setKeytable s, m => if m.CanBlock s then some (.setKeytable s, .done .void) else none
  | .fire i, m =>
    match m.timerFn i with
    | some fn => if m.timerState i = .pending then some (.fire i, .timer i fn.entry) else none
    | none => none
  | .runRemained e, m =>
    if m.remained e then some (.runRemained e, .addSleepEvent e (m.tid e) .schedule) else none
  | .schedTo t, m => if t ∈ m.ready then some (.schedTo t, .done .void) else none

/-- A step of a function, as a step of the call: stay in the function at `k p`, or return
`f r`. -/
def within {P R : Type} (k : P → Pc) (f : R → Result) : Res P R → Option (Access × Pc)
  | none => none
  | some (a, r) => some (a, r.elim k fun v => .done (f v))

/-- The rule for a step of a function. -/
@[simp]
theorem ensures_within {P R : Type} (k : P → Pc) (f : R → Result) (r : Res P R)
    (Φ : Access → Pc → Prop) :
    Conc.Ensures (within k f r) Φ ↔
      Conc.Ensures r fun a x => Φ a (x.elim k fun v => .done (f v)) := by
  rcases r with _ | ⟨a, p | v⟩ <;> simp [within]

/-- The next access of call `c` and the control point after it. -/
def control (c : CallId) : Pc → Move → Mem → Option (Access × Pc)
  | .idle, .call f, m => begin f m
  | .butexWait a p, .next o, m => within (.butexWait a) .wait (butexWait c a p o m)
  | .butexWaitFromPthread a p, .next o, m =>
    within (.butexWaitFromPthread a) .wait (butexWaitFromPthread c a p o m)
  | .butexWake b p, .next _, m => within (.butexWake b) .wake (butexWake b p m)
  | .butexWakeAll b w p, .next _, m => within (.butexWakeAll b w) .wake (butexWakeAll b w p m)
  | .butexWakeExcept b t w p, .next _, m =>
    within (.butexWakeExcept b t w) .wake (butexWakeExcept b t w p m)
  | .butexRequeue b d p, .next _, m => within (.butexRequeue b d) .wake (butexRequeue b d p m)
  -- `bthread_interrupt` passes the `TaskControl`, which exists as soon as a bthread does
  | .interrupt t w p, .next _, m => within (.interrupt t w) .interrupt (interrupt t w true p m)
  | .setStopped t p, .next _, m => within (.setStopped t) (fun _ => .void) (setStopped t p m)
  | .usleep s p, .next _, m => within (.usleep s) .sleep (usleep s p m)
  | .addSleepEvent e t p, .next o, m =>
    within (.addSleepEvent e t) (fun _ => .void) (addSleepEvent e t p o m)
  | .timer i p, .next _, m => within (.timer i) (fun _ => .void) (timerCallback i p m)
  | .startTask p, .next o, m => within .startTask .start (startTask p o m)
  | .initGroup p, .next o, m => within .initGroup .start (initGroup p o m)
  | .endTask s p, .next _, m => within (.endTask s) (fun _ => .void) (endTask s p m)
  | .yield s p, .next _, m => within (.yield s) (fun _ => .void) (yield s p m)
  | _, _, _ => none

/-- The states of the system. -/
abbrev State := Conc.Config CallId Mem Pc

/-- The calls as a program: the next access, and its effect. -/
def program : Conc.Program CallId Mem Pc Move where
  code c p k m := (control c p k m).map fun r => (r.1.apply c m, r.2)

/-- **The system.** -/
def system : Conc.Machine State (CallId × Move) := program.machine Mem.Initial .idle

/-- A step of the system is an access of one call. -/
theorem system_next {s s' : State} {c : CallId} {k : Move}
    (h : system.next s (c, k) = some s') :
    ∃ a p, control c (s.pc c) k s.mem = some (a, p) ∧
      s' = ⟨a.apply c s.mem, Function.update s.pc c p⟩ := by
  obtain ⟨m, p, hc, rfl⟩ := Conc.Program.next_eq_some.mp h
  obtain ⟨⟨a, q⟩, ha, hm⟩ := Option.map_eq_some_iff.mp hc
  simp only [Prod.mk.injEq] at hm
  obtain ⟨rfl, rfl⟩ := hm
  exact ⟨a, q, ha, rfl⟩

end Bthread
