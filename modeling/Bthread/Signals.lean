import Mathlib.Data.Int.Cast.Lemmas
import Mathlib.Algebra.BigOperators.Group.List.Basic
import Bthread.Lib.Section
import Bthread.Tid

set_option relaxedAutoImplicit false
set_option autoImplicit false

/-!
# Signals

The run queues of the groups as far as signalling goes: every push is announced by a call of
`signal_task`, at once or, with `nosignal`, in a batch that a later push or flush announces. The
counters have values in `ι`, so that they may be integers or machine words. The memory also records
what the counters stand for: the pushes are numbered, and the pushes of a batch and those that a
call of `signal_task` announces are listed.

## Main definitions

* `Bthread.Signals.Mem`, `Bthread.Signals.Pc`, `Bthread.Signals.code` — `ready_to_run`,
  `ready_to_run_remote`, the flushes, `start_from_non_worker` and `bthread_flush`, statement by
  statement.
* `Bthread.Signals.machine` — any number of threads, any interleaving.
* `Bthread.Signals.Tally.Sound` — the counters of a queue are what the record says.

## Main results

* `Bthread.Signals.exclusive` — at most one thread is in the section of a queue.
* `Bthread.Signals.guarded`, `Bthread.Signals.sound` — the counters of every queue are what the
  record says.
-/

namespace Bthread.Signals

open Conc (Config Program LockStep Guarded)

variable {G ι : Type*}

/-- The queue of a group that its own worker pushes into, or the one all others push into. -/
inductive Side
  | own
  | remote
  deriving DecidableEq

/-- A queue: `_rq` or `_remote_rq` of a group. -/
abbrev Queue (G : Type*) := G × Side

/-- A thread: the worker of a group, whose `tls_task_group` is that group, or one without a
group. -/
inductive Thread (G : Type*)
  | worker (g : G)
  | other (n : ℕ)
  deriving DecidableEq

/-- The calls of the threads. -/
inductive Call (G : Type*)
  | readyToRun (tid : Tid) (nosignal : Bool)
  | flushNosignalTasks
  | readyToRunRemote (g : G) (tid : Tid) (nosignal : Bool)
  | flushNosignalTasksRemote (g : G)
  -- `chosen` is what `choose_one_group` returns
  | startFromNonWorker (chosen : G) (tid : Tid) (nosignal : Bool)
  | bthreadFlush
  -- `pop` and `steal` of the entry at index `i`
  | take (b : Queue G) (i : ℕ)
  deriving DecidableEq

/-- A call of `signal_task(amount)` that `thread` has to make, and the pushes it announces. -/
structure Claim (G ι : Type*) where
  /-- The thread. -/
  thread : Thread G
  /-- The argument. -/
  amount : ι
  /-- The pushes. -/
  covers : List ℕ

/-- The counters of a queue and their record. -/
structure Tally (G ι : Type*) where
  /-- `_num_nosignal` or `_remote_num_nosignal`. -/
  numNosignal : ι
  /-- `_nsignaled` or `_remote_nsignaled`. -/
  nsignaled : ι
  /-- The pushes, in order. -/
  pushed : List ℕ := []
  /-- The pushes that `numNosignal` counts. -/
  pending : List ℕ := []
  /-- The calls of `signal_task` that `nsignaled` counts. -/
  claims : List (Claim G ι) := []

/-- What a thread does to a mutex. -/
inductive MutexEvent (G : Type*)
  | lock (g : G)
  | unlock (g : G)
  deriving DecidableEq

/-- The memory. -/
structure Mem (G ι : Type*) where
  /-- The contents of the queues. -/
  rq : Queue G → List Tid
  /-- How many entries were taken from each queue. -/
  taken : Queue G → ℕ
  /-- The counters of the queues. -/
  tally : Queue G → Tally G ι
  /-- `_remote_rq._mutex`: the thread that holds it. -/
  mutex : G → Option (Thread G)
  /-- `tls_task_group_nosignal`. -/
  tlsNosignal : Thread G → Option G
  /-- The number of the next push. -/
  serial : ℕ
  /-- The calls of `signal_task` made by each thread for each queue. -/
  made : Thread G → Queue G → List (Claim G ι)
  /-- The last call of each thread. -/
  call : Thread G → Option (Call G)
  /-- What its last call did to mutexes. -/
  trail : Thread G → List (MutexEvent G)
  /-- The tasks each thread created by `start_from_non_worker` with `BTHREAD_NOSIGNAL`: the group
  and the push. -/
  created : Thread G → List (G × ℕ)

/-- What follows a flush: it returns, or it was made by a push that found the queue full. -/
inductive Cont
  | ret
  | push (tid : Tid) (nosignal : Bool)
  deriving DecidableEq

/-- Control points; `n` is the push just made, `c` what the local variable stands for. -/
inductive Pc (G ι : Type*)
  | idle
  -- `_remote_rq._mutex.lock()`, in order to push or to flush
  | lock (g : G) (k : Cont)
  | push (b : Queue G) (tid : Tid) (nosignal : Bool)
  -- `++_num_nosignal`
  | countNosignal (b : Queue G) (n : ℕ)
  -- `const int additional_signal = _num_nosignal`
  | readAdditional (b : Queue G) (n : ℕ)
  -- `const int val = _num_nosignal`
  | readVal (b : Queue G) (k : Cont)
  -- `_num_nosignal = 0`
  | clearNosignal (b : Queue G) (c : Claim G ι) (fresh : List ℕ) (k : Cont)
  -- `_nsignaled += ...`
  | addNsignaled (b : Queue G) (c : Claim G ι) (k : Cont)
  -- `_remote_rq._mutex.unlock()`
  | unlock (g : G) (c : Option (Claim G ι)) (k : Cont)
  | signalTask (b : Queue G) (c : Claim G ι) (k : Cont)
  -- `usleep(1000)`
  | sleep (b : Queue G) (tid : Tid) (nosignal : Bool)
  -- `if(_remote_num_nosignal)`
  | testRemote (g : G)

namespace Pc

/-- After a flush. -/
def resume (b : Queue G) : Cont → Pc G ι
  | .ret => .idle
  | .push tid nosignal => .sleep b tid nosignal

/-- After the counters are written and the mutex is released. -/
def finish (b : Queue G) (k : Cont) : Option (Claim G ι) → Pc G ι
  | some c => .signalTask b c k
  | none => resume b k

/-- After the counters are written. -/
def leave : (b : Queue G) → Cont → Option (Claim G ι) → Pc G ι
  | (g, .remote), k, c => .unlock g c k
  | (g, .own), k, c => finish (g, .own) k c

end Pc

namespace Mem

variable [DecidableEq G]

/-- Writing the counters of `b`. -/
def setTally (b : Queue G) (y : Tally G ι) (m : Mem G ι) : Mem G ι :=
  { m with tally := Function.update m.tally b y }

/-- A successful `push` of thread `t`. A NOSIGNAL task of `start_from_non_worker` is recorded. -/
def push (t : Thread G) (b : Queue G) (tid : Tid) (m : Mem G ι) : Mem G ι :=
  { m with
    rq := Function.update m.rq b (m.rq b ++ [tid])
    tally := Function.update m.tally b
      { m.tally b with pushed := (m.tally b).pushed ++ [m.serial] }
    serial := m.serial + 1
    created := match m.call t with
      | some (.startFromNonWorker _ _ true) =>
        Function.update m.created t (m.created t ++ [(b.1, m.serial)])
      | _ => m.created }

/-- `_remote_rq._mutex.lock()`, when the mutex is free. -/
def lock (t : Thread G) (g : G) (m : Mem G ι) : Mem G ι :=
  { m with
    mutex := Function.update m.mutex g (some t)
    trail := Function.update m.trail t (m.trail t ++ [.lock g]) }

/-- `_remote_rq._mutex.unlock()`. -/
def unlock (t : Thread G) (g : G) (m : Mem G ι) : Mem G ι :=
  { m with
    mutex := Function.update m.mutex g none
    trail := Function.update m.trail t (m.trail t ++ [.unlock g]) }

/-- `signal_task`. -/
def signalTask (t : Thread G) (b : Queue G) (c : Claim G ι) (m : Mem G ι) : Mem G ι :=
  let made := Function.update (m.made t) b (m.made t b ++ [c])
  { m with made := Function.update m.made t made }

end Mem

section Code

variable [DecidableEq G]

/-- A call begins. Only the worker of a group pushes into `_rq`. -/
def enter (t : Thread G) : Call G → Mem G ι → Option (Mem G ι × Pc G ι)
  | .readyToRun tid nosignal, m =>
    match t with
    | .worker g => some (m, .push (g, .own) tid nosignal)
    | .other _ => none
  | .flushNosignalTasks, m =>
    match t with
    | .worker g => some (m, .readVal (g, .own) .ret)
    | .other _ => none
  | .readyToRunRemote g tid nosignal, m => some (m, .lock g (.push tid nosignal))
  | .flushNosignalTasksRemote g, m => some (m, .testRemote g)
  | .startFromNonWorker chosen tid nosignal, m =>
    match t with
    | .worker _ => none
    | .other _ =>
      if nosignal then
        let g := (m.tlsNosignal t).getD chosen
        some ({ m with tlsNosignal := Function.update m.tlsNosignal t (some g) },
          .lock g (.push tid true))
      else some (m, .lock chosen (.push tid false))
  | .bthreadFlush, m =>
    match t with
    | .worker g => some (m, .readVal (g, .own) .ret)
    | .other _ =>
      match m.tlsNosignal t with
      | none => some (m, .idle)
      | some g =>
        some ({ m with tlsNosignal := Function.update m.tlsNosignal t none }, .testRemote g)
  | .take b i, m =>
    if i < (m.rq b).length ∧ (b.2 = .remote → m.mutex b.1 = none) then
      some ({ m with
        rq := Function.update m.rq b ((m.rq b).eraseIdx i)
        taken := Function.update m.taken b (m.taken b + 1) }, .idle)
    else none

variable [AddCommGroupWithOne ι] [DecidableEq ι] (capacity : Queue G → ℕ)

/-- One statement of thread `t`. -/
def code (t : Thread G) : Pc G ι → Call G → Mem G ι → Option (Mem G ι × Pc G ι)
  | .idle, call, m =>
    enter t call { m with
      call := Function.update m.call t (some call), trail := Function.update m.trail t [] }
  | .lock g k, _, m =>
    if m.mutex g = none then
      some (m.lock t g, match k with
        | .push tid nosignal => .push (g, .remote) tid nosignal
        | .ret => .readVal (g, .remote) .ret)
    else none
  | .push b tid nosignal, _, m =>
    if (m.rq b).length < capacity b then
      some (m.push t b tid,
        if nosignal then .countNosignal b m.serial else .readAdditional b m.serial)
    else some (m, .readVal b (.push tid nosignal))
  | .countNosignal b n, _, m =>
    some (m.setTally b { m.tally b with
      numNosignal := (m.tally b).numNosignal + 1, pending := (m.tally b).pending ++ [n] },
      .leave b .ret none)
  | .readAdditional b n, _, m =>
    some (m, .clearNosignal b
      ⟨t, 1 + (m.tally b).numNosignal, (m.tally b).pending ++ [n]⟩ [n] .ret)
  | .readVal b k, _, m =>
    if (m.tally b).numNosignal = 0 then some (m, .leave b k none)
    else some (m, .clearNosignal b ⟨t, (m.tally b).numNosignal, (m.tally b).pending⟩ [] k)
  | .clearNosignal b c _ k, _, m =>
    some (m.setTally b { m.tally b with numNosignal := 0, pending := [] }, .addNsignaled b c k)
  | .addNsignaled b c k, _, m =>
    some (m.setTally b { m.tally b with
      nsignaled := (m.tally b).nsignaled + c.amount, claims := (m.tally b).claims ++ [c] },
      .leave b k (some c))
  | .unlock g c k, _, m => some (m.unlock t g, .finish (g, .remote) k c)
  | .signalTask b c k, _, m => some (m.signalTask t b c, .resume b k)
  | .sleep (g, .own) tid nosignal, _, m => some (m, .push (g, .own) tid nosignal)
  | .sleep (g, .remote) tid nosignal, _, m => some (m, .lock g (.push tid nosignal))
  | .testRemote g, _, m =>
    if (m.tally (g, .remote)).numNosignal = 0 then some (m, .idle) else some (m, .lock g .ret)

/-- The program of the threads. -/
def program : Program (Thread G) (Mem G ι) (Pc G ι) (Call G) := ⟨code capacity⟩

/-- The queues are empty and nothing has been counted. -/
def Mem.initial : Mem G ι where
  rq _ := []
  taken _ := 0
  tally _ := ⟨0, 0, [], [], []⟩
  mutex _ := none
  tlsNosignal _ := none
  serial := 0
  made _ _ := []
  call _ := none
  trail _ := []
  created _ := []

/-- Any number of threads, any interleaving. -/
def machine : Conc.Machine (Config (Thread G) (Mem G ι) (Pc G ι)) (Thread G × Call G) :=
  (program capacity).machine (fun m => m = Mem.initial) .idle

end Code

/-! ## What a thread works on -/

/-- The `nosignal` argument of the push that is going to be repeated. -/
def Cont.arg : Cont → Option Bool
  | .ret => none
  | .push _ nosignal => some nosignal

namespace Pc

/-- The queue a call works on. -/
def queue : Pc G ι → Option (Queue G)
  | .idle => none
  | .lock g _ | .unlock g _ _ | .testRemote g => some (g, .remote)
  | .push b _ _ | .countNosignal b _ | .readAdditional b _ | .readVal b _
  | .clearNosignal b _ _ _ | .addNsignaled b _ _ | .signalTask b _ _ | .sleep b _ _ => some b

/-- The queue whose section a call is in. -/
def sec : Pc G ι → Option (Queue G)
  | .push b _ _ | .countNosignal b _ | .readAdditional b _ | .readVal b _
  | .clearNosignal b _ _ _ | .addNsignaled b _ _ => some b
  | .unlock g _ _ => some (g, .remote)
  | .idle | .lock _ _ | .signalTask _ _ _ | .sleep _ _ _ | .testRemote _ => none

/-- The pushes that a call has in hand: they are neither pending nor announced. -/
def hand : Pc G ι → List ℕ
  | .countNosignal _ n | .readAdditional _ n => [n]
  | .clearNosignal _ _ fresh _ => fresh
  | .addNsignaled _ c _ => c.covers
  | _ => []

/-- A call is at a statement between a push and the counters, or between reading a counter and
writing the other one. -/
def Updates (b : Queue G) : Pc G ι → Prop
  | .countNosignal b' _ | .readAdditional b' _ | .clearNosignal b' _ _ _
  | .addNsignaled b' _ _ => b' = b
  | _ => False

/-- What the local variable of a call stands for. -/
def Fits [AddMonoidWithOne ι] : Pc G ι → Tally G ι → Prop
  | .clearNosignal _ c fresh _, y => c.covers = y.pending ++ fresh ∧ c.amount = c.covers.length
  | .addNsignaled _ c _, y => y.pending = [] ∧ c.amount = c.covers.length
  | _, _ => True

/-- The calls of `signal_task` for `b` that are counted and not made. -/
def owed [DecidableEq G] (b : Queue G) : Pc G ι → List (Claim G ι)
  | .unlock g (some c) _ => if b = (g, .remote) then [c] else []
  | .signalTask b' c _ => if b = b' then [c] else []
  | _ => []

/-- The `nosignal` argument of the push that a call is going to make. -/
def arg : Pc G ι → Option Bool
  | .lock _ k | .readVal _ k | .clearNosignal _ _ _ k | .addNsignaled _ _ k | .unlock _ _ k
  | .signalTask _ _ k => k.arg
  | .push _ _ nosignal | .sleep _ _ nosignal => some nosignal
  | .idle | .countNosignal _ _ | .readAdditional _ _ | .testRemote _ => none

/-- The announcement that a call has begun and not counted. -/
def taken : Pc G ι → Option (Queue G × Claim G ι)
  | .clearNosignal b c _ _ | .addNsignaled b c _ => some (b, c)
  | _ => none

/-- Only the worker of a group works on its `_rq`. -/
def Local (t : Thread G) (p : Pc G ι) : Prop :=
  ∀ g, p.queue = some (g, .own) → t = .worker g

/-- A call in a section works on that queue. -/
theorem queue_of_sec {p : Pc G ι} {b : Queue G} (h : p.sec = some b) : p.queue = some b := by
  cases p <;> first | exact h | cases h

@[simp] theorem resume_sec (b : Queue G) (k : Cont) : (resume b k : Pc G ι).sec = none := by
  cases k <;> rfl

@[simp] theorem resume_hand (b : Queue G) (k : Cont) : (resume b k : Pc G ι).hand = [] := by
  cases k <;> rfl

@[simp] theorem resume_owed [DecidableEq G] (b b' : Queue G) (k : Cont) :
    (resume b k : Pc G ι).owed b' = [] := by
  cases k <;> rfl

@[simp] theorem finish_sec (b : Queue G) (k : Cont) (c : Option (Claim G ι)) :
    (finish b k c).sec = none := by
  cases c
  · exact resume_sec b k
  · rfl

@[simp] theorem finish_hand (b : Queue G) (k : Cont) (c : Option (Claim G ι)) :
    (finish b k c).hand = [] := by
  cases c
  · exact resume_hand b k
  · rfl

@[simp] theorem finish_owed [DecidableEq G] (b b' : Queue G) (k : Cont)
    (c : Option (Claim G ι)) : (finish b k c).owed b' = if b' = b then c.toList else [] := by
  cases c with
  | none => simp [finish]
  | some c => rfl

@[simp] theorem resume_taken (b : Queue G) (k : Cont) : (resume b k : Pc G ι).taken = none := by
  cases k <;> rfl

@[simp] theorem finish_taken (b : Queue G) (k : Cont) (c : Option (Claim G ι)) :
    (finish b k c).taken = none := by
  cases c
  · exact resume_taken b k
  · rfl

@[simp] theorem leave_taken (b : Queue G) (k : Cont) (c : Option (Claim G ι)) :
    (leave b k c).taken = none := by
  obtain ⟨g, _ | _⟩ := b
  · exact finish_taken _ k c
  · rfl

/-- The mutex is still held when the counters are written. -/
theorem leave_sec_iff {b : Queue G} {k : Cont} {c : Option (Claim G ι)} {g : G} :
    (leave b k c).sec = some (g, .remote) ↔ some b = some (g, .remote) := by
  obtain ⟨g', _ | _⟩ := b
  · rw [leave, finish_sec]
    simp
  · rfl

@[simp] theorem leave_hand (b : Queue G) (k : Cont) (c : Option (Claim G ι)) :
    (leave b k c).hand = [] := by
  obtain ⟨g, _ | _⟩ := b
  · exact finish_hand _ k c
  · rfl

@[simp] theorem leave_owed [DecidableEq G] (b b' : Queue G) (k : Cont)
    (c : Option (Claim G ι)) : (leave b k c).owed b' = if b' = b then c.toList else [] := by
  obtain ⟨g, _ | _⟩ := b
  · exact finish_owed _ b' k c
  · cases c
    · simp [leave, owed]
    · rfl

/-- After the counters are written. -/
theorem leave_fits [AddMonoidWithOne ι] (b : Queue G) (k : Cont) (c : Option (Claim G ι))
    (y : Tally G ι) :
    (leave b k c).Fits y := by
  obtain ⟨g, _ | _⟩ := b
  · cases c
    · cases k <;> trivial
    · trivial
  · trivial

/-- After the counters are written nobody else's section is entered. -/
theorem leave_sec_ne {b b' : Queue G} (h : b ≠ b') (k : Cont) (c : Option (Claim G ι)) :
    (leave b' k c).sec ≠ some b := by
  obtain ⟨g, _ | _⟩ := b'
  · rw [leave, finish_sec]
    simp
  · exact fun e => h (Option.some.inj e).symm

/-- What follows a flush works on the same queue, with the same arguments. -/
theorem resume_queue {b b' : Queue G} {k : Cont} (h : (resume b k : Pc G ι).queue = some b') :
    b = b' := by
  cases k with
  | ret => cases h
  | push tid ns => exact Option.some.inj h

theorem resume_arg {b : Queue G} {k : Cont} (ns : Bool)
    (h : (resume b k : Pc G ι).arg = some ns) : k.arg = some ns := by
  cases k with
  | ret => cases h
  | push tid ns => exact h

/-- What follows the unlock works on the same queue, with the same arguments. -/
theorem finish_queue {b b' : Queue G} {k : Cont} {c : Option (Claim G ι)}
    (h : (finish b k c).queue = some b') : b = b' := by
  cases c with
  | none => exact resume_queue h
  | some c => exact Option.some.inj h

theorem finish_arg {b : Queue G} {k : Cont} {c : Option (Claim G ι)} (ns : Bool)
    (h : (finish b k c).arg = some ns) : k.arg = some ns := by
  cases c with
  | none => exact resume_arg ns h
  | some c => exact h

/-- What follows the counters works on the same queue, with the same arguments. -/
theorem leave_queue {b b' : Queue G} {k : Cont} {c : Option (Claim G ι)}
    (h : (leave b k c).queue = some b') : b = b' := by
  obtain ⟨g, _ | _⟩ := b
  · exact finish_queue h
  · exact Option.some.inj h

theorem leave_arg {b : Queue G} {k : Cont} {c : Option (Claim G ι)} (ns : Bool)
    (h : (leave b k c).arg = some ns) : k.arg = some ns := by
  obtain ⟨g, _ | _⟩ := b
  · exact finish_arg ns h
  · exact h

end Pc

/-! ## One step -/

section Step

variable {t : Thread G} {call : Call G} {m m' : Mem G ι} {p p' : Pc G ι}

/-- What the beginning of a call does: it picks its first statement and nothing that the counters
are about changes. -/
structure Entered (t : Thread G) (m m' : Mem G ι) (p : Pc G ι) : Prop where
  tally : m'.tally = m.tally
  mutex : m'.mutex = m.mutex
  made : m'.made = m.made
  trail : m'.trail = m.trail
  created : m'.created = m.created
  call : m'.call = m.call
  stock : ∀ b, (m'.rq b).length + m'.taken b = (m.rq b).length + m.taken b
  pc : p = .idle ∨ (∃ g k, p = .lock g k) ∨ (∃ g, p = .testRemote g) ∨
    ∃ g, t = .worker g ∧
      (p = .readVal (g, .own) .ret ∨ ∃ tid ns, p = .push (g, .own) tid ns)

/-- The beginning of a call. -/
theorem enter_entered [DecidableEq G] (h : enter t call m = some (m', p')) :
    Entered t m m' p' := by
  cases call with
  | readyToRun | flushNosignalTasks =>
    cases t with
    | worker g =>
      obtain ⟨rfl, rfl⟩ := by simpa [enter] using h
      constructor <;> simp
    | other n => cases h
  | readyToRunRemote | flushNosignalTasksRemote =>
    obtain ⟨rfl, rfl⟩ := by simpa [enter] using h
    constructor <;> simp
  | startFromNonWorker chosen tid ns =>
    cases t with
    | worker g => cases h
    | other n =>
      cases ns <;> obtain ⟨rfl, rfl⟩ := by simpa [enter] using h
      · constructor <;> simp
      · constructor <;> simp
  | bthreadFlush =>
    cases t with
    | worker g =>
      obtain ⟨rfl, rfl⟩ := by simpa [enter] using h
      constructor <;> simp
    | other n =>
      simp only [enter] at h
      split at h <;> obtain ⟨rfl, rfl⟩ := by simpa using h
      · constructor <;> simp
      · constructor <;> simp
  | take b i =>
    simp only [enter] at h
    split at h
    · next hi =>
      obtain ⟨rfl, rfl⟩ := by simpa using h
      refine ⟨rfl, rfl, rfl, rfl, rfl, rfl, fun b' => ?_, .inl rfl⟩
      by_cases hb : b' = b
      · subst hb
        have := hi.1
        simp [List.length_eraseIdx_of_lt hi.1]
        omega
      · simp [hb]
    · cases h

namespace Entered

variable (h : Entered t m m' p')
include h

/-- A call that begins is in no section but that of the thread's own group. -/
theorem isLocal : p'.Local t := by
  obtain rfl | ⟨g, k, rfl⟩ | ⟨g, rfl⟩ | ⟨g, rfl, rfl | ⟨tid, ns, rfl⟩⟩ := h.pc <;>
    intro g' hg <;> simp_all [Pc.queue]

/-- A call that begins holds no mutex. -/
theorem not_sec (g : G) : p'.sec ≠ some (g, .remote) := by
  obtain rfl | ⟨g, k, rfl⟩ | ⟨g, rfl⟩ | ⟨g, rfl, rfl | ⟨tid, ns, rfl⟩⟩ := h.pc <;> simp [Pc.sec]

/-- A call that begins has no push in hand. -/
theorem hand : p'.hand = [] := by
  obtain rfl | ⟨g, k, rfl⟩ | ⟨g, rfl⟩ | ⟨g, rfl, rfl | ⟨tid, ns, rfl⟩⟩ := h.pc <;> rfl

/-- A call that begins has read no counter. -/
theorem fits [AddMonoidWithOne ι] (y : Tally G ι) : p'.Fits y := by
  obtain rfl | ⟨g, k, rfl⟩ | ⟨g, rfl⟩ | ⟨g, rfl, rfl | ⟨tid, ns, rfl⟩⟩ := h.pc <;> trivial

/-- A call that begins owes no signal. -/
theorem owed [DecidableEq G] (b : Queue G) : p'.owed b = [] := by
  obtain rfl | ⟨g, k, rfl⟩ | ⟨g, rfl⟩ | ⟨g, rfl, rfl | ⟨tid, ns, rfl⟩⟩ := h.pc <;> rfl

end Entered

end Step

/-! ## Mutual exclusion -/

section Exclusion

variable [DecidableEq G] [AddCommGroupWithOne ι] [DecidableEq ι] {capacity : Queue G → ℕ}
  {t : Thread G} {call : Call G} {m m' : Mem G ι} {p p' : Pc G ι}

/-- A call goes on with the queue and the argument it has; only its beginning writes
`tls_task_group_nosignal`. -/
theorem code_follow (h : code capacity t p call m = some (m', p')) (hp : p ≠ .idle) :
    (∀ b, p'.queue = some b → p.queue = some b) ∧ (∀ ns, p'.arg = some ns → p.arg = some ns) ∧
      m'.call = m.call ∧ m'.tlsNosignal = m.tlsNosignal := by
  cases p with
  | idle => exact absurd rfl hp
  | lock g k =>
    simp only [code] at h
    split at h
    · obtain ⟨rfl, rfl⟩ := by simpa using h
      cases k <;> exact ⟨fun b hb => hb, fun ns hn => hn, rfl, rfl⟩
    · cases h
  | push b tid ns =>
    simp only [code] at h
    split at h <;> obtain ⟨rfl, rfl⟩ := by simpa using h
    · refine ⟨fun b hb => ?_, fun ns hn => ?_, rfl, rfl⟩
      · split at hb <;> exact hb
      · split at hn <;> cases hn
    · exact ⟨fun b hb => hb, fun ns hn => hn, rfl, rfl⟩
  | countNosignal b n =>
    obtain ⟨rfl, rfl⟩ := by simpa [code] using h
    exact ⟨fun b hb => congrArg some (Pc.leave_queue hb), fun ns hn => Pc.leave_arg ns hn, rfl, rfl⟩
  | readAdditional b n =>
    obtain ⟨rfl, rfl⟩ := by simpa [code] using h
    exact ⟨fun b hb => hb, fun ns hn => hn, rfl, rfl⟩
  | readVal b k =>
    simp only [code] at h
    split at h <;> obtain ⟨rfl, rfl⟩ := by simpa using h
    · exact ⟨fun b hb => congrArg some (Pc.leave_queue hb), Pc.leave_arg, rfl, rfl⟩
    · exact ⟨fun b hb => hb, fun ns hn => hn, rfl, rfl⟩
  | clearNosignal b c f k =>
    obtain ⟨rfl, rfl⟩ := by simpa [code] using h
    exact ⟨fun b hb => hb, fun ns hn => hn, rfl, rfl⟩
  | addNsignaled b c k =>
    obtain ⟨rfl, rfl⟩ := by simpa [code] using h
    exact ⟨fun b hb => congrArg some (Pc.leave_queue hb), Pc.leave_arg, rfl, rfl⟩
  | unlock g c k =>
    obtain ⟨rfl, rfl⟩ := by simpa [code] using h
    exact ⟨fun b hb => congrArg some (Pc.finish_queue hb), Pc.finish_arg, rfl, rfl⟩
  | signalTask b c k =>
    obtain ⟨rfl, rfl⟩ := by simpa [code] using h
    exact ⟨fun b hb => congrArg some (Pc.resume_queue hb), Pc.resume_arg, rfl, rfl⟩
  | sleep b tid ns =>
    obtain ⟨g, _ | _⟩ := b <;> obtain ⟨rfl, rfl⟩ := by simpa [code] using h
    · exact ⟨fun b hb => hb, fun ns hn => hn, rfl, rfl⟩
    · exact ⟨fun b hb => hb, fun ns hn => hn, rfl, rfl⟩
  | testRemote g =>
    simp only [code] at h
    split at h <;> obtain ⟨rfl, rfl⟩ := by simpa using h
    · exact ⟨fun b hb => (by cases hb), fun ns hn => (by cases hn), rfl, rfl⟩
    · exact ⟨fun b hb => hb, fun ns hn => hn, rfl, rfl⟩

/-- Only the worker of a group works on its `_rq`, at every statement. -/
theorem code_isLocal (h : code capacity t p call m = some (m', p')) (hp : p.Local t) :
    p'.Local t := by
  by_cases hi : p = .idle
  · subst hi
    exact (enter_entered h).isLocal
  · intro g hg
    exact hp g ((code_follow h hi).1 _ hg)

/-- A statement keeps, takes or releases the mutex of `_remote_rq`. -/
theorem code_lockStep (h : code capacity t p call m = some (m', p')) (g : G) :
    LockStep t (m.mutex g) (m'.mutex g) (p.sec = some (g, .remote))
      (p'.sec = some (g, .remote)) := by
  cases p with
  | idle =>
    have he := enter_entered h
    exact .keep (by rw [he.mutex]) (iff_of_false (he.not_sec g) (by simp [Pc.sec]))
  | lock g' k =>
    simp only [code] at h
    split at h
    case isTrue hm =>
      obtain ⟨rfl, rfl⟩ := by simpa using h
      by_cases hg : g' = g
      · subst hg
        refine .acquire hm (by simp [Mem.lock]) ?_
        cases k <;> rfl
      · refine .keep (by simp [Mem.lock, Ne.symm hg]) ?_
        cases k <;> simp [Pc.sec, hg]
    case isFalse => cases h
  | push b tid ns =>
    simp only [code] at h
    split at h
    · obtain ⟨rfl, rfl⟩ := by simpa using h
      exact .keep rfl (by split <;> rfl)
    · obtain ⟨rfl, rfl⟩ := by simpa using h
      exact .keep rfl Iff.rfl
  | countNosignal b n =>
    obtain ⟨rfl, rfl⟩ := by simpa [code] using h
    exact .keep rfl Pc.leave_sec_iff
  | readAdditional b n =>
    obtain ⟨rfl, rfl⟩ := by simpa [code] using h
    exact .keep rfl Iff.rfl
  | readVal b k =>
    simp only [code] at h
    split at h
    · obtain ⟨rfl, rfl⟩ := by simpa using h
      exact .keep rfl Pc.leave_sec_iff
    · obtain ⟨rfl, rfl⟩ := by simpa using h
      exact .keep rfl Iff.rfl
  | clearNosignal b c f k =>
    obtain ⟨rfl, rfl⟩ := by simpa [code] using h
    exact .keep rfl Iff.rfl
  | addNsignaled b c k =>
    obtain ⟨rfl, rfl⟩ := by simpa [code] using h
    exact .keep rfl Pc.leave_sec_iff
  | unlock g' c k =>
    obtain ⟨rfl, rfl⟩ := by simpa [code] using h
    by_cases hg : g' = g
    · subst hg
      exact .release rfl (by simp [Mem.unlock]) (by simp)
    · exact .keep (by simp [Mem.unlock, Ne.symm hg]) (by rw [Pc.finish_sec]; simp [Pc.sec, hg])
  | signalTask b c k =>
    obtain ⟨rfl, rfl⟩ := by simpa [code] using h
    exact .keep rfl (by rw [Pc.resume_sec]; simp [Pc.sec])
  | sleep b tid ns =>
    obtain ⟨g', _ | _⟩ := b <;> obtain ⟨rfl, rfl⟩ := by simpa [code] using h
    · exact .keep rfl (by simp [Pc.sec])
    · exact .keep rfl (by simp [Pc.sec])
  | testRemote g' =>
    simp only [code] at h
    split at h <;> obtain ⟨rfl, rfl⟩ := by simpa using h
    · exact .keep rfl (by simp [Pc.sec])
    · exact .keep rfl (by simp [Pc.sec])

variable {s : Config (Thread G) (Mem G ι) (Pc G ι)}

/-- A thread holds the mutex of `_remote_rq` exactly while it is in the section, and only the
worker of a group works on its `_rq`. -/
theorem mutex_iff (h : (machine capacity).Reachable s) :
    (∀ t, (s.pc t).Local t) ∧
      ∀ g t, s.mem.mutex g = some t ↔ (s.pc t).sec = some (g, .remote) := by
  refine Program.mutex (P := program capacity) Mem.mutex
    (fun _ p g => p.sec = some (g, .remote)) (fun s => ∀ t, (s.pc t).Local t) ?_ ?_ ?_ h
  · rintro m rfl
    exact ⟨fun t g hg => (by cases hg), fun _ => rfl⟩
  · intro t g hg
    cases hg
  · intro s t call m p _ hJ _ hc
    refine ⟨fun u => ?_, fun g => code_lockStep hc g⟩
    by_cases hu : u = t
    · subst hu
      simpa using code_isLocal hc (hJ u)
    · simpa [Function.update_of_ne hu] using hJ u

/-- At most one thread is in the section of a queue. -/
theorem exclusive (h : (machine capacity).Reachable s) (b : Queue G) (t u : Thread G)
    (ht : (s.pc t).sec = some b) (hu : (s.pc u).sec = some b) : t = u := by
  obtain ⟨hl, hm⟩ := mutex_iff h
  obtain ⟨g, _ | _⟩ := b
  · rw [hl t g (Pc.queue_of_sec ht), hl u g (Pc.queue_of_sec hu)]
  · have ht' := (hm g t).mpr ht
    rw [(hm g u).mpr hu] at ht'
    exact (Option.some.inj ht').symm

end Exclusion

/-! ## The counters and their record -/

section Counters

variable [AddCommGroupWithOne ι]

/-- The counters of a queue are what the record says, `hand` being the pushes in the hand of a
call. -/
structure Tally.Sound (y : Tally G ι) (hand : List ℕ) : Prop where
  num : y.numNosignal = y.pending.length
  sum : y.nsignaled = (y.claims.map Claim.amount).sum
  amount : ∀ c ∈ y.claims, c.amount = c.covers.length
  ledger : y.pushed = y.claims.flatMap Claim.covers ++ y.pending ++ hand

/-- A push is in hand. -/
theorem Tally.Sound.push {y : Tally G ι} (h : y.Sound []) (n : ℕ) :
    Tally.Sound { y with pushed := y.pushed ++ [n] } [n] where
  num := h.num
  sum := h.sum
  amount := h.amount
  ledger := by simp [h.ledger]

/-- A push becomes pending. -/
theorem Tally.Sound.count {y : Tally G ι} {n : ℕ} (h : y.Sound [n]) :
    Tally.Sound { y with numNosignal := y.numNosignal + 1, pending := y.pending ++ [n] } [] where
  num := by simp [h.num]
  sum := h.sum
  amount := h.amount
  ledger := by simp [h.ledger]

/-- The pending pushes are taken in hand. -/
theorem Tally.Sound.clear {y : Tally G ι} {hand : List ℕ} (h : y.Sound hand) :
    Tally.Sound { y with numNosignal := 0, pending := [] } (y.pending ++ hand) where
  num := by simp
  sum := h.sum
  amount := h.amount
  ledger := by simp [h.ledger]

/-- The pushes in hand are announced. -/
theorem Tally.Sound.add {y : Tally G ι} {c : Claim G ι} (h : y.Sound c.covers)
    (hp : y.pending = []) (hc : c.amount = c.covers.length) :
    Tally.Sound { y with nsignaled := y.nsignaled + c.amount, claims := y.claims ++ [c] } [] where
  num := h.num
  sum := by simp [h.sum]
  amount d hd := by
    obtain hd | rfl := by simpa using hd
    · exact h.amount d hd
    · exact hc
  ledger := by simp [h.ledger, hp]

/-- The arguments of calls that announce what they say add up to the number of pushes announced. -/
theorem sum_amount {cs : List (Claim G ι)} (h : ∀ c ∈ cs, c.amount = c.covers.length) :
    (cs.map Claim.amount).sum = ((cs.flatMap Claim.covers).length : ι) := by
  induction cs with
  | nil => simp
  | cons c cs ih =>
    have hcs := ih fun d hd => h d (List.mem_cons_of_mem c hd)
    rw [List.map_cons, List.sum_cons, h c List.mem_cons_self, hcs, List.flatMap_cons,
      List.length_append, Nat.cast_add]

/-- The pushes through a queue are signalled, pending, or in hand. -/
theorem Tally.Sound.pushed_length {y : Tally G ι} {hand : List ℕ} (h : y.Sound hand) :
    (y.pushed.length : ι) = y.nsignaled + y.numNosignal + hand.length := by
  have hc := sum_amount h.amount
  rw [h.ledger, List.length_append, List.length_append, Nat.cast_add, Nat.cast_add, ← hc, ← h.sum,
    ← h.num]

/-- What a call keeps about the counters of `b`. -/
def Pc.Keeps [DecidableEq G] (b : Queue G) (p : Pc G ι) (m : Mem G ι) : Prop :=
  if p.sec = some b then (m.tally b).Sound p.hand ∧ p.Fits (m.tally b) else (m.tally b).Sound []

section Code

variable [DecidableEq G] {m m' : Mem G ι} {p p' : Pc G ι} {b : Queue G}

/-- Outside a section the counters are in order. -/
theorem Pc.keeps_of_sound (hh : p.hand = []) (hf : p.Fits (m.tally b))
    (h : (m.tally b).Sound []) : p.Keeps b m := by
  unfold Pc.Keeps
  split
  · exact ⟨hh ▸ h, hf⟩
  · exact h

/-- With nothing in hand the counters are in order. -/
theorem Pc.Keeps.sound (h : p.Keeps b m) (hh : p.hand = []) : (m.tally b).Sound [] := by
  unfold Pc.Keeps at h
  split at h
  · exact hh ▸ h.1
  · exact h

/-- A statement on another queue does not matter. -/
theorem Pc.Keeps.congr {q : Pc G ι} (h : q.Keeps b m) (ht : m'.tally b = m.tally b) :
    q.Keeps b m' := by
  unfold Pc.Keeps at h ⊢
  rwa [ht]

/-- The statements that write no counter and have nothing in hand. -/
theorem Pc.Keeps.idle (h : p.Keeps b m) (hp : p.hand = []) (ht : m'.tally b = m.tally b)
    (hp' : p'.hand = []) (hf : ∀ y, p'.Fits y) : p'.Keeps b m' :=
  Pc.keeps_of_sound hp' (hf _) (ht ▸ h.sound hp)

/-- A statement of `p` on `b'` that writes the counters of `b'`. -/
theorem Pc.Keeps.write {c : Queue G} {y : Tally G ι} (h : p.Keeps b m) (hs : p.sec = some c)
    (hs' : ∀ b, b ≠ c → p'.sec ≠ some b)
    (ht : m'.tally = Function.update m.tally c y)
    (hy : (m.tally c).Sound p.hand → p.Fits (m.tally c) →
      if p'.sec = some c then y.Sound p'.hand ∧ p'.Fits y else y.Sound []) : p'.Keeps b m' := by
  unfold Pc.Keeps at h ⊢
  by_cases hb : b = c
  · subst hb
    rw [if_pos hs] at h
    rw [ht, Function.update_self]
    exact hy h.1 h.2
  · rw [if_neg (by rw [hs]; exact fun e => hb (Option.some.inj e).symm)] at h
    rw [if_neg (hs' b hb), ht, Function.update_of_ne hb]
    exact h

variable [DecidableEq ι] {capacity : Queue G → ℕ} {t : Thread G} {call : Call G}

/-- Every statement keeps the counters in order. -/
theorem code_keeps (h : code capacity t p call m = some (m', p')) (hk : p.Keeps b m) :
    p'.Keeps b m' := by
  have leave {b' : Queue G} {k : Cont} {c : Option (Claim G ι)} {y : Tally G ι}
      (hy : y.Sound []) : if (Pc.leave b' k c).sec = some b'
        then y.Sound (Pc.leave b' k c).hand ∧ (Pc.leave b' k c).Fits y else y.Sound [] := by
    split
    · exact ⟨(Pc.leave_hand b' k c).symm ▸ hy, Pc.leave_fits b' k c y⟩
    · exact hy
  have inside {b' : Queue G} {q : Pc G ι} {y : Tally G ι} (hq : q.sec = some b')
      (hy : y.Sound q.hand ∧ q.Fits y) :
      if q.sec = some b' then y.Sound q.hand ∧ q.Fits y else y.Sound [] := by
    rw [if_pos hq]
    exact hy
  cases p with
  | idle =>
    have he := enter_entered h
    exact hk.idle rfl (by rw [he.tally]) he.hand he.fits
  | lock g k =>
    simp only [code] at h
    split at h
    · obtain ⟨rfl, rfl⟩ := by simpa using h
      exact hk.idle rfl rfl (by cases k <;> rfl) fun y => by cases k <;> trivial
    · cases h
  | push b' tid ns =>
    simp only [code] at h
    split at h
    · obtain ⟨rfl, rfl⟩ := by simpa using h
      refine hk.write (c := b') rfl (fun d hd => ?_) rfl fun hy _ => ?_
      · split <;> exact fun e => hd (Option.some.inj e).symm
      · split <;> simpa [Pc.sec, Pc.hand, Pc.Fits] using hy.push m.serial
    · obtain ⟨rfl, rfl⟩ := by simpa using h
      exact hk.idle rfl rfl rfl fun y => trivial
  | countNosignal b' n =>
    obtain ⟨rfl, rfl⟩ := by simpa [code] using h
    exact hk.write rfl (fun d hd => Pc.leave_sec_ne hd _ _) rfl fun hy _ => leave hy.count
  | readAdditional b' n =>
    obtain ⟨rfl, rfl⟩ := by simpa [code] using h
    refine hk.write (c := b') (y := m.tally b') rfl
      (fun d hd => fun e => hd (Option.some.inj e).symm) (by simp) fun hy _ => ?_
    exact inside rfl ⟨hy, rfl, by simp [hy.num, add_comm]⟩
  | readVal b' k =>
    simp only [code] at h
    split at h
    · obtain ⟨rfl, rfl⟩ := by simpa using h
      exact hk.idle rfl rfl (Pc.leave_hand _ _ _) (Pc.leave_fits _ _ _)
    · obtain ⟨rfl, rfl⟩ := by simpa using h
      refine hk.write (c := b') (y := m.tally b') rfl
        (fun d hd => fun e => hd (Option.some.inj e).symm) (by simp) fun hy _ => ?_
      exact inside rfl ⟨hy, by simp, by simp [hy.num]⟩
  | clearNosignal b' c f k =>
    obtain ⟨rfl, rfl⟩ := by simpa [code] using h
    refine hk.write (c := b') rfl (fun d hd => fun e => hd (Option.some.inj e).symm) rfl
      fun hy hf => ?_
    exact inside rfl ⟨by simpa [Pc.hand, hf.1] using hy.clear, rfl, hf.2⟩
  | addNsignaled b' c k =>
    obtain ⟨rfl, rfl⟩ := by simpa [code] using h
    exact hk.write rfl (fun d hd => Pc.leave_sec_ne hd _ _) rfl
      fun hy hf => leave (hy.add hf.1 hf.2)
  | unlock g c k =>
    obtain ⟨rfl, rfl⟩ := by simpa [code] using h
    refine hk.idle rfl rfl (Pc.finish_hand _ _ _) fun y => ?_
    cases c
    · cases k <;> trivial
    · trivial
  | signalTask b' c k =>
    obtain ⟨rfl, rfl⟩ := by simpa [code] using h
    exact hk.idle rfl rfl (Pc.resume_hand _ _) fun y => by cases k <;> trivial
  | sleep b' tid ns =>
    obtain ⟨g', _ | _⟩ := b' <;> obtain ⟨rfl, rfl⟩ := by simpa [code] using h
    · exact hk.idle rfl rfl rfl fun y => trivial
    · exact hk.idle rfl rfl rfl fun y => trivial
  | testRemote g' =>
    simp only [code] at h
    split at h <;> obtain ⟨rfl, rfl⟩ := by simpa using h
    · exact hk.idle rfl rfl rfl fun y => trivial
    · exact hk.idle rfl rfl rfl fun y => trivial

/-- A statement outside the section of a queue does not write its counters. -/
theorem code_tally (h : code capacity t p call m = some (m', p')) (hs : p.sec ≠ some b) :
    m'.tally b = m.tally b := by
  have upd {b' : Queue G} (hb : some b' ≠ some b) (y : Tally G ι) :
      Function.update m.tally b' y b = m.tally b :=
    Function.update_of_ne (fun e => hb (congrArg some e.symm)) _ _
  cases p with
  | idle => rw [(enter_entered h).tally]
  | lock g k =>
    simp only [code] at h
    split at h
    · obtain ⟨rfl, -⟩ := by simpa using h
      rfl
    · cases h
  | push b' tid ns =>
    simp only [code] at h
    split at h <;> obtain ⟨rfl, -⟩ := by simpa using h
    · exact upd hs _
    · rfl
  | countNosignal b' n =>
    obtain ⟨rfl, -⟩ := by simpa [code] using h
    exact upd hs _
  | clearNosignal b' c f k =>
    obtain ⟨rfl, -⟩ := by simpa [code] using h
    exact upd hs _
  | addNsignaled b' c k =>
    obtain ⟨rfl, -⟩ := by simpa [code] using h
    exact upd hs _
  | readAdditional b' n | unlock g c k | signalTask b' c k =>
    obtain ⟨rfl, -⟩ := by simpa [code] using h
    rfl
  | readVal b' k | testRemote g' =>
    simp only [code] at h
    split at h <;> obtain ⟨rfl, -⟩ := by simpa using h
    · rfl
    · rfl
  | sleep b' tid ns =>
    obtain ⟨g', _ | _⟩ := b' <;> obtain ⟨rfl, -⟩ := by simpa [code] using h
    · rfl
    · rfl

variable {s : Config (Thread G) (Mem G ι) (Pc G ι)}

/-- The counters of every queue are what the record says. -/
theorem guarded (h : (machine capacity).Reachable s) : Guarded Pc.sec Pc.Keeps s := by
  refine Program.invariant (P := program capacity) (C := fun _ _ => True)
    (I := Guarded Pc.sec Pc.Keeps) ?_ ?_ h
  · rintro m rfl b t _
    exact Pc.keeps_of_sound rfl trivial ⟨by simp [Mem.initial], rfl, by simp [Mem.initial], rfl⟩
  · intro s t call m p hr hg _ hc
    refine hg.step (exclusive hr) (fun b p q m hp hq hk => ?_) (fun b hk => code_keeps hc hk)
      fun b q hs _ hk => hk.congr (code_tally hc hs)
    simp only [Pc.Keeps, if_neg hp, if_neg hq] at hk ⊢
    exact hk

/-- The counters are in order with what is in the hand of the call in the section. -/
theorem sound (h : (machine capacity).Reachable s) (b : Queue G) :
    ∃ hand, (s.mem.tally b).Sound hand ∧ (hand ≠ [] → ∃ t, (s.pc t).Updates b) := by
  by_cases hb : ∃ t, (s.pc t).sec = some b
  · obtain ⟨t, ht⟩ := hb
    have hk := (guarded h).inside (exclusive h) ht
    rw [Pc.Keeps, if_pos ht] at hk
    refine ⟨_, hk.1, fun hne => ⟨t, ?_⟩⟩
    revert ht hne
    cases s.pc t with
    | countNosignal | readAdditional | clearNosignal | addNsignaled =>
      exact fun ht _ => Option.some.inj ht
    | _ => exact fun _ hne => absurd rfl hne
  · rw [not_exists] at hb
    have hk := (guarded h).free hb (.other 0)
    rw [Pc.Keeps, if_neg (hb _)] at hk
    exact ⟨[], hk, fun hne => absurd rfl hne⟩

end Code

end Counters

end Bthread.Signals
