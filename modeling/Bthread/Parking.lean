import Mathlib.Data.Fintype.Basic
import Bthread.Groups
import Bthread.Signals

set_option relaxedAutoImplicit false
set_option autoImplicit false

/-!
# Parking lots

Workers without a task wait in one of the parking lots. A producer pushes a task and then signals
lot after lot until it has woken enough workers; a worker remembers the word of its lot, looks into
all queues and goes to sleep only if the word is still the one it remembers. Producers and workers
are interleaved access by access: `signal` and `stop` are two steps each, the word first and the
futex after it.

## Main definitions

* `Bthread.Parking.State` — the word of a parking lot.
* `Bthread.Parking.Mem`, `Bthread.Parking.Pc`, `Bthread.Parking.code` — `wait_task`, `steal_task`,
  `sched`, the pushes and flushes, `signal_task` and the parking lots.
* `Bthread.Parking.machine` — any number of workers and other threads, any interleaving.

## Main results

* `Bthread.Parking.stepped` — the kinds of steps.
* `Bthread.Parking.Stepped.leaves`, `Bthread.Parking.Stepped.word` — what a step leaves of the
  business of a worker, and what it does to the word of a lot.
-/

namespace Bthread.Parking

open Conc (Config Program)
open Signals (Queue Side Thread)

variable {G : Type*}

/-- The index of a parking lot. -/
abbrev Lot := Fin parkingLotNum

/-- `ParkingLot::State`, a value of `_pending_signal`: 31 bits for signalling, and the lowest bit
for stopping. -/
abbrev State := BitVec 32

/-- `State::stopped`. -/
def State.stopped (v : State) : Bool := v &&& 1 != 0

/-- What does not change: the lot of every group and the capacity of the queues. -/
structure Layout (G : Type*) where
  /-- `_pl`. -/
  lot : G → Lot
  /-- The capacity of every queue. -/
  capacity : Queue G → ℕ

/-- The memory. -/
structure Mem (G : Type*) where
  /-- The groups that `_add_group` has counted in `_groups`. -/
  registered : G → Bool
  /-- The contents of the queues. -/
  rq : Queue G → List Tid
  /-- `_num_nosignal` and `_remote_num_nosignal`. -/
  numNosignal : Queue G → ℕ
  /-- `ParkingLot::_pending_signal`. -/
  pendingSignal : Lot → State
  /-- The workers that sleep in the futex of a lot. -/
  sleepers : Lot → List G
  /-- `_last_pl_state`. -/
  lastPlState : G → State
  /-- History: a call of `ParkingLot::stop` has returned. -/
  stopped : Lot → Bool

/-- What follows a flush or a call of `signal_task`: the call returns, or it was made by a push that
found the queue full. -/
inductive After (G : Type*)
  | ret
  | push (b : Queue G) (tid : Tid) (nosignal : Bool)
  deriving DecidableEq

/-- What is left of the call that a thread is in. -/
inductive Op (G : Type*)
  | idle
  -- `ready_to_run` and `ready_to_run_remote`
  | push (b : Queue G) (tid : Tid) (nosignal : Bool)
  -- `ready_to_run` after `push_rq`
  | count (g : G) (nosignal : Bool)
  -- the flushes
  | flush (b : Queue G) (k : After G)
  -- `signal_task` with `num_task` to go, before `fetch_add` and before `futex_wake_private`
  | signal (num : ℕ) (lots : List Lot) (k : After G)
  | wake (num : ℕ) (l : Lot) (lots : List Lot) (k : After G)
  -- `ParkingLot::stop` of these lots, before `fetch_or` and before `futex_wake_private`
  | stop (lots : List Lot)
  | wakeAll (l : Lot) (lots : List Lot)
  deriving DecidableEq

/-- The callers of `TaskGroup::steal_task`: `wait_task`, or `sched` and `ending_sched`, whose
remained callback makes the task `cb` ready, if any. -/
inductive Caller
  | waitTask
  | sched (cb : Option Tid)
  deriving DecidableEq

/-- Where a thread is. A worker runs a bthread (`task`), which is inside a call, or its main task,
which first runs a remained callback (`main`). A thread without a group is `idle` or in `task`. -/
inductive Pc (G : Type*)
  | idle
  | task (op : Op G)
  | main (op : Op G)
  -- `ParkingLot::wait`, before and inside the futex
  | wait
  | asleep
  -- `_rq.pop` of `sched`
  | popLocal (cb : Option Tid)
  -- `TaskGroup::steal_task`
  | popRemote (k : Caller)
  | getState (k : Caller)
  -- the scan of `TaskControl::steal_task`, with the queues to go
  | scan (k : Caller) (rest : List (Queue G))
  -- `wait_task` has returned `false`
  | exited
  deriving DecidableEq

/-- What a step does not get from the memory. -/
structure Env (G : Type*) where
  /-- `start_index`. -/
  start : Lot
  /-- Whom the futex wakes. -/
  index : ℕ
  /-- The groups in the order in which `TaskControl::steal_task` looks at them; it may look at some
  of them twice and at others not at all. -/
  order : List G

/-- A step: a bthread or another thread makes a call, a bthread gives up its worker, the next
access, or a futex wait is interrupted. -/
inductive Move (G : Type*)
  | call (op : Op G)
  | sched (cb : Option Tid)
  | step (e : Env G)
  | interrupt

/-- The lots in the order of `signal_task`. -/
def lotsFrom (start : Lot) : List Lot := (List.finRange parkingLotNum).map (start + ·)

namespace After

/-- What is left of the call. -/
def resume : After G → Op G
  | ret => .idle
  | push b tid nosignal => .push b tid nosignal

end After

/-- `signal_task(num)`. -/
def signalTask (start : Lot) (num : ℕ) (k : After G) : Op G :=
  if num = 0 then k.resume else .signal (min num 2) (lotsFrom start) k

/-- `signal_task` has woken a worker or not. -/
def Op.next (num : ℕ) (lots : List Lot) (k : After G) : Op G :=
  if num = 0 ∨ lots = [] then k.resume else .signal num lots k

namespace Mem

variable [DecidableEq G]

/-- The push of a task. -/
def push (b : Queue G) (tid : Tid) (m : Mem G) : Mem G :=
  { m with rq := Function.update m.rq b (m.rq b ++ [tid]) }

/-- A queue after a task was taken. -/
def take (b : Queue G) (rest : List Tid) (m : Mem G) : Mem G :=
  { m with rq := Function.update m.rq b rest }

/-- Writing `_num_nosignal` or `_remote_num_nosignal`. -/
def setNum (b : Queue G) (n : ℕ) (m : Mem G) : Mem G :=
  { m with numNosignal := Function.update m.numNosignal b n }

/-- Writing the word of a lot. -/
def setWord (l : Lot) (v : State) (m : Mem G) : Mem G :=
  { m with pendingSignal := Function.update m.pendingSignal l v }

/-- The sleepers of a lot. -/
def setSleepers (l : Lot) (gs : List G) (m : Mem G) : Mem G :=
  { m with sleepers := Function.update m.sleepers l gs }

end Mem

variable [DecidableEq G] (lay : Layout G)

/-- One access of a call. -/
def opCode (op : Op G) (e : Env G) (m : Mem G) : Mem G × Op G :=
  match op with
  | .idle => (m, .idle)
  | .push (g, .own) tid nosignal =>
    if (m.rq (g, .own)).length < lay.capacity (g, .own) then
      (m.push (g, .own) tid, .count g nosignal)
    else (m, .flush (g, .own) (.push (g, .own) tid nosignal))
  -- `_remote_rq._mutex` is held while the task is pushed and counted
  | .push (g, .remote) tid nosignal =>
    if (m.rq (g, .remote)).length < lay.capacity (g, .remote) then
      if nosignal then
        ((m.push (g, .remote) tid).setNum (g, .remote) (m.numNosignal (g, .remote) + 1), .idle)
      else
        ((m.push (g, .remote) tid).setNum (g, .remote) 0,
          signalTask e.start (1 + m.numNosignal (g, .remote)) .ret)
    else (m, .flush (g, .remote) (.push (g, .remote) tid nosignal))
  | .count g nosignal =>
    if nosignal then (m.setNum (g, .own) (m.numNosignal (g, .own) + 1), .idle)
    else (m.setNum (g, .own) 0, signalTask e.start (1 + m.numNosignal (g, .own)) .ret)
  | .flush b k => (m.setNum b 0, signalTask e.start (m.numNosignal b) k)
  | .signal num [] k => (m, .next num [] k)
  | .signal num (l :: lots) k => (m.setWord l (m.pendingSignal l + 2), .wake num l lots k)
  | .wake num l lots k =>
    match m.sleepers l with
    | [] => (m, .next num lots k)
    | g :: gs =>
      (m.setSleepers l ((g :: gs).eraseIdx (e.index % (g :: gs).length)), .next (num - 1) lots k)
  | .stop [] => (m, .idle)
  | .stop (l :: lots) =>
    (m.setWord l (m.pendingSignal l ||| 1), .wakeAll l lots)
  | .wakeAll l lots =>
    ({ m.setSleepers l ((m.sleepers l).drop 10000) with
        stopped := Function.update m.stopped l true }, .stop lots)

/-- The calls that a thread can make: only the worker of a group pushes into its `_rq`, and others
know the group once it is in `_groups`. -/
def Op.enters (t : Thread G) (m : Mem G) : Op G → Bool
  | .push (g, .own) _ _ | .flush (g, .own) .ret => t = .worker g
  | .push (g, .remote) _ _ | .flush (g, .remote) .ret => m.registered g
  | .stop lots => lots = List.finRange parkingLotNum
  | _ => false

/-- The remained callback of `sched`: `ready_to_run` of the task that has given up the worker. -/
def callback (g : G) : Option Tid → Op G
  | none => .idle
  | some tid => .push (g, .own) tid false

/-- After a task was found. -/
def Caller.found (g : G) : Caller → Pc G
  | .waitTask => .task .idle
  | .sched cb => .task (callback g cb)

/-- After no task was found: `sched` switches to the main task. -/
def Caller.missed (g : G) : Caller → Pc G
  | .waitTask => .wait
  | .sched cb => .main (callback g cb)

/-- One access of the worker of `g` outside of calls. -/
def workerCode (g : G) (p : Pc G) (k : Move G) (m : Mem G) : Option (Mem G × Pc G) :=
  match p, k with
  -- `_add_group` in `create_group`
  | .idle, .step e =>
    some ({ m with registered := Function.update m.registered g true },
      .main (signalTask e.start 65536 .ret))
  | .task .idle, .sched cb => some (m, .popLocal cb)
  | .wait, .step _ =>
    if State.stopped (m.lastPlState g) then some (m, .exited)
    else if m.pendingSignal (lay.lot g) = m.lastPlState g then
      some (m.setSleepers (lay.lot g) (g :: m.sleepers (lay.lot g)), .asleep)
    else some (m, .popRemote .waitTask)
  | .asleep, .step _ =>
    if g ∈ m.sleepers (lay.lot g) then none else some (m, .popRemote .waitTask)
  | .asleep, .interrupt =>
    some (m.setSleepers (lay.lot g) ((m.sleepers (lay.lot g)).erase g), .popRemote .waitTask)
  | .popLocal cb, .step _ =>
    if m.rq (g, .own) = [] then some (m, .popRemote (.sched cb))
    else some (m.take (g, .own) (m.rq (g, .own)).dropLast, Caller.found g (.sched cb))
  | .popRemote k, .step _ =>
    match m.rq (g, .remote) with
    | [] => some (m, .getState k)
    | _ :: rest => some (m.take (g, .remote) rest, k.found g)
  | .getState k, .step e =>
    some ({ m with lastPlState := Function.update m.lastPlState g (m.pendingSignal (lay.lot g)) },
      .scan k (e.order.flatMap fun h => [(h, .own), (h, .remote)]))
  | .scan k [], .step _ => some (m, k.missed g)
  | .scan k (b :: rest), .step _ =>
    match m.rq b with
    | [] => some (m, .scan k rest)
    | _ :: ts => some (m.take b ts, k.found g)
  | _, _ => none

/-- One access of a thread. -/
def code (t : Thread G) (p : Pc G) (k : Move G) (m : Mem G) :
    Option (Mem G × Pc G) :=
  match p, k with
  | .task op, .step e =>
    if op = .idle then none else some ((opCode lay op e m).1, .task (opCode lay op e m).2)
  | .main op, .step e =>
    if op = .idle then some (m, .wait)
    else some ((opCode lay op e m).1, .main (opCode lay op e m).2)
  | .task .idle, .call op => if op.enters t m then some (m, .task op) else none
  | p, k =>
    match t with
    | .worker g => workerCode lay g p k m
    | .other _ =>
      match p, k with
      | .idle, .call op => if op.enters t m then some (m, .task op) else none
      | _, _ => none

/-- The interleaved threads. -/
def program : Program (Thread G) (Mem G) (Pc G) (Move G) where
  code := code lay

/-- The memory at the start: empty queues, and nobody has signalled. -/
def Mem.initial : Mem G where
  registered _ := false
  rq _ := []
  numNosignal _ := 0
  pendingSignal _ := 0
  sleepers _ := []
  lastPlState _ := 0
  stopped _ := false

/-- Any number of workers and other threads, any interleaving. -/
def machine : Conc.Machine (Config (Thread G) (Mem G) (Pc G)) (Thread G × Move G) :=
  (program lay).machine (· = .initial) .idle

/-- The call that a thread is in. -/
def Pc.op : Pc G → Op G
  | .task op | .main op => op
  | _ => .idle

variable {lay} {m m' : Mem G} {g h : G} {op : Op G} {e : Env G} {t : Thread G} {p p' : Pc G}
  {k : Move G}

/-! ## The word of a lot -/

/-- The lowest bit. -/
theorem State.stopped_iff {v : State} : State.stopped v = true ↔ v.toNat % 2 = 1 := by
  have h : (v &&& 1).toNat = v.toNat % 2 := by simp
  simp only [State.stopped, bne_iff_ne, ne_eq, BitVec.toNat_eq, h]
  simp

/-- A signal leaves the lowest bit alone, also when the word overflows. -/
theorem State.stopped_add_two (v : State) : State.stopped (v + 2) = State.stopped v := by
  rw [Bool.eq_iff_iff, State.stopped_iff, State.stopped_iff, BitVec.toNat_add]
  simp

/-- `ParkingLot::stop` sets the lowest bit. -/
theorem State.stopped_or_one (v : State) : State.stopped (v ||| 1) = true := by
  rw [State.stopped_iff]
  simp

/-- `ParkingLot::stop` leaves a stopped word alone. -/
theorem State.or_one_of_stopped {v : State} (h : State.stopped v = true) : v ||| 1 = v := by
  rw [State.stopped_iff] at h
  have hdiv : (v.toNat ||| 1) / 2 = v.toNat / 2 := by simp [Nat.or_div_two]
  have hmod : (v.toNat ||| 1) % 2 = 1 := Nat.or_mod_two_eq_one.mpr (.inl h)
  refine BitVec.eq_of_toNat_eq ?_
  rw [BitVec.toNat_or]
  show v.toNat ||| 1 = v.toNat
  omega

/-- `ParkingLot::stop` makes no word one that was remembered before. -/
theorem State.or_one_ne {v w : State} (hw : State.stopped w = true → State.stopped v = true)
    (h : w ≠ v) : w ≠ v ||| 1 := by
  intro he
  have hs : State.stopped w = true := by rw [he]; exact State.stopped_or_one v
  rw [State.or_one_of_stopped (hw hs)] at he
  exact h he

/-! ## What a call does -/

/-- What a step leaves of the business of the worker of `h`. -/
structure Mem.Leaves (m m' : Mem G) (h : G) : Prop where
  /-- The remembered word is the worker's own. -/
  last : m'.lastPlState h = m.lastPlState h
  /-- Nobody is put to sleep by others. -/
  sleepers : ∀ l, h ∈ m'.sleepers l → h ∈ m.sleepers l
  /-- Nobody is registered by others. -/
  registered : m'.registered h = m.registered h

omit [DecidableEq G] in
/-- A step that writes no lot leaves everybody alone. -/
theorem Mem.Leaves.of_eq (hl : m'.lastPlState = m.lastPlState) (hs : m'.sleepers = m.sleepers)
    (hr : m'.registered = m.registered) : m.Leaves m' h :=
  ⟨by rw [hl], fun l => by rw [hs]; exact id, by rw [hr]⟩

omit [DecidableEq G] in
/-- Waking sleepers. -/
theorem Mem.leaves_setSleepers {l : Lot} {gs : List G} (hs : h ∈ gs → h ∈ m.sleepers l) :
    m.Leaves (m.setSleepers l gs) h := by
  refine ⟨rfl, fun l' => ?_, rfl⟩
  rcases eq_or_ne l' l with rfl | hl
  · simpa [Mem.setSleepers] using hs
  · simp [Mem.setSleepers, hl]

/-- A call leaves every worker alone. -/
theorem opCode_leaves : m.Leaves (opCode lay op e m).1 h := by
  unfold opCode
  split
  · exact .of_eq rfl rfl rfl
  · split <;> exact .of_eq rfl rfl rfl
  · split
    · split <;> exact .of_eq rfl rfl rfl
    · exact .of_eq rfl rfl rfl
  · split <;> exact .of_eq rfl rfl rfl
  · exact .of_eq rfl rfl rfl
  · exact .of_eq rfl rfl rfl
  · exact .of_eq rfl rfl rfl
  · split
    · exact .of_eq rfl rfl rfl
    · next hs =>
      exact Mem.leaves_setSleepers fun hm => by rw [hs]; exact List.mem_of_mem_eraseIdx hm
  · exact .of_eq rfl rfl rfl
  · exact .of_eq rfl rfl rfl
  · next l lots =>
    have hl : m.Leaves (m.setSleepers l ((m.sleepers l).drop 10000)) h :=
      Mem.leaves_setSleepers List.mem_of_mem_drop
    exact ⟨hl.last, hl.sleepers, hl.registered⟩

/-- What one step does to the word of a lot; `op` is what is left of the call before it. -/
inductive Worded (op : Op G) (l : Lot) (v v' : State) : Prop
  | same (h : v' = v)
  | stop (h : v' = v ||| 1)
  | signal (num : ℕ) (lots : List Lot) (k : After G) (hop : op = .signal num (l :: lots) k)
    (h : v' = v + 2)

omit [DecidableEq G] in
/-- A stopped word stays stopped. -/
theorem Worded.stopped {l : Lot} {v v' : State} (h : Worded op l v v')
    (hv : State.stopped v = true) : State.stopped v' = true := by
  cases h with
  | same he => rw [he]; exact hv
  | stop he => rw [he]; exact State.stopped_or_one v
  | signal num lots k hop he => rw [he, State.stopped_add_two]; exact hv

/-- `signal` adds to a word and `stop` sets its lowest bit. -/
theorem opCode_word (l : Lot) :
    Worded op l (m.pendingSignal l) ((opCode lay op e m).1.pendingSignal l) := by
  have hset : ∀ l' v, (l = l' → Worded op l (m.pendingSignal l) v) →
      Worded op l (m.pendingSignal l) ((m.setWord l' v).pendingSignal l) := by
    intro l' v hv
    rcases eq_or_ne l l' with rfl | hl
    · simpa [Mem.setWord] using hv rfl
    · exact .same (by simp [Mem.setWord, hl])
  unfold opCode
  split
  · exact .same rfl
  · split <;> exact .same rfl
  · split
    · split <;> exact .same rfl
    · exact .same rfl
  · split <;> exact .same rfl
  · exact .same rfl
  · exact .same rfl
  · next num l' lots k => exact hset _ _ fun hl => hl ▸ .signal num lots k rfl rfl
  · split <;> exact .same rfl
  · exact .same rfl
  · exact hset _ _ fun hl => hl ▸ .stop rfl
  · exact .same rfl

/-! ## What a step does -/

/-- A worker leaves the others alone. -/
theorem workerCode_leaves (hc : workerCode lay g p k m = some (m', p')) (hh : h ≠ g) :
    m.Leaves m' h := by
  unfold workerCode at hc
  split at hc
  · cases hc; exact ⟨rfl, fun _ => id, by simp [hh]⟩
  · cases hc; exact .of_eq rfl rfl rfl
  · split at hc
    · cases hc; exact .of_eq rfl rfl rfl
    · split at hc
      · cases hc
        exact Mem.leaves_setSleepers fun hm => (List.mem_cons.mp hm).resolve_left hh
      · cases hc; exact .of_eq rfl rfl rfl
  · split at hc
    · cases hc
    · cases hc; exact .of_eq rfl rfl rfl
  · cases hc; exact Mem.leaves_setSleepers List.mem_of_mem_erase
  · split at hc
    · cases hc; exact .of_eq rfl rfl rfl
    · cases hc; exact .of_eq rfl rfl rfl
  · split at hc
    · cases hc; exact .of_eq rfl rfl rfl
    · cases hc; exact .of_eq rfl rfl rfl
  · cases hc; exact ⟨by simp [hh], fun _ => id, rfl⟩
  · cases hc; exact .of_eq rfl rfl rfl
  · split at hc
    · cases hc; exact .of_eq rfl rfl rfl
    · cases hc; exact .of_eq rfl rfl rfl
  · cases hc

/-- A worker writes no word. -/
theorem workerCode_word (hc : workerCode lay g p k m = some (m', p')) :
    m'.pendingSignal = m.pendingSignal := by
  unfold workerCode at hc
  split at hc
  · cases hc; rfl
  · cases hc; rfl
  · split at hc
    · cases hc; rfl
    · split at hc <;> · cases hc; rfl
  · split at hc <;> cases hc; rfl
  · cases hc; rfl
  · split at hc <;> · cases hc; rfl
  · split at hc <;> · cases hc; rfl
  · cases hc; rfl
  · cases hc; rfl
  · split at hc <;> · cases hc; rfl
  · cases hc

/-- A worker remembers what it has remembered, or the word of its lot. -/
theorem workerCode_last (hc : workerCode lay g p k m = some (m', p')) :
    m'.lastPlState g = m.lastPlState g ∨ m'.lastPlState g = m.pendingSignal (lay.lot g) := by
  unfold workerCode at hc
  split at hc
  · cases hc; exact .inl rfl
  · cases hc; exact .inl rfl
  · split at hc
    · cases hc; exact .inl rfl
    · split at hc <;> · cases hc; exact .inl rfl
  · split at hc <;> cases hc; exact .inl rfl
  · cases hc; exact .inl rfl
  · split at hc <;> · cases hc; exact .inl rfl
  · split at hc <;> · cases hc; exact .inl rfl
  · cases hc; exact .inr (by simp)
  · cases hc; exact .inl rfl
  · split at hc <;> · cases hc; exact .inl rfl
  · cases hc

/-- A worker that acts outside of calls is outside of calls. -/
theorem workerCode_op (hc : workerCode lay g p k m = some (m', p')) : p.op = .idle := by
  unfold workerCode at hc
  split at hc <;> first | rfl | cases hc

/-- A step is made inside a call, or by a worker outside of calls. -/
inductive Stepped (lay : Layout G) (t : Thread G) (k : Move G) (m : Mem G) (p : Pc G) (m' : Mem G)
    (p' : Pc G) : Prop
  /-- A call begins. -/
  | enter (op : Op G) (hp : p = .idle ∧ (∃ n, t = .other n) ∨ p = .task .idle)
    (ho : op.enters t m = true) (hm : m' = m) (hp' : p' = .task op)
  /-- The next access of a call, which a bthread or a thread without a group is in. -/
  | task (op : Op G) (e : Env G) (hp : p = .task op) (hm : m' = (opCode lay op e m).1)
    (hp' : p' = .task (opCode lay op e m).2)
  /-- The next access of a remained callback. -/
  | main (op : Op G) (e : Env G) (hp : p = .main op) (hm : m' = (opCode lay op e m).1)
    (hp' : p' = .main (opCode lay op e m).2)
  /-- The remained callback has returned. -/
  | back (hp : p = .main .idle) (hm : m' = m) (hp' : p' = .wait)
  /-- The next access of a worker. -/
  | worker (g : G) (ht : t = .worker g) (hc : workerCode lay g p k m = some (m', p'))

/-- The kinds of steps. -/
theorem stepped (hc : code lay t p k m = some (m', p')) : Stepped lay t k m p m' p' := by
  unfold code at hc
  split at hc
  · next op e =>
    split at hc
    · cases hc
    · cases hc; exact .task op e rfl rfl rfl
  · next op e =>
    split at hc
    · next ho => cases hc; subst ho; exact .back rfl rfl rfl
    · cases hc; exact .main op e rfl rfl rfl
  · next op =>
    split at hc
    · next ho => cases hc; exact .enter op (.inr rfl) ho rfl rfl
    · cases hc
  · split at hc
    · next g => exact .worker g rfl hc
    · next n =>
      split at hc
      · next op _ _ _ =>
        split at hc
        · next ho => cases hc; exact .enter op (.inl ⟨rfl, n, rfl⟩) ho rfl rfl
        · cases hc
      · cases hc

/-- A step leaves the other workers alone. -/
theorem Stepped.leaves (hs : Stepped lay t k m p m' p') (ht : t ≠ .worker h) : m.Leaves m' h := by
  cases hs with
  | enter op hp ho hm hp' => subst hm; exact .of_eq rfl rfl rfl
  | task op e hp hm hp' => subst hm; exact opCode_leaves
  | main op e hp hm hp' => subst hm; exact opCode_leaves
  | back hp hm hp' => subst hm; exact .of_eq rfl rfl rfl
  | worker g ht' hc =>
    subst ht'
    exact workerCode_leaves hc fun he => ht (by rw [he])

/-- What a step does to the word of a lot. -/
theorem Stepped.word (hs : Stepped lay t k m p m' p') (l : Lot) :
    Worded p.op l (m.pendingSignal l) (m'.pendingSignal l) := by
  cases hs with
  | enter op hp ho hm hp' => exact .same (by rw [hm])
  | task op e hp hm hp' => subst hm hp; exact opCode_word l
  | main op e hp hm hp' => subst hm hp; exact opCode_word l
  | back hp hm hp' => exact .same (by rw [hm])
  | worker g ht hc => exact .same (by rw [workerCode_word hc])

/-- What a step does to the word that a worker remembers. -/
theorem Stepped.last (hs : Stepped lay t k m p m' p') (g : G) :
    m'.lastPlState g = m.lastPlState g ∨ m'.lastPlState g = m.pendingSignal (lay.lot g) := by
  by_cases ht : t = .worker g
  · cases hs with
    | enter op hp ho hm hp' => exact .inl (by rw [hm])
    | task op e hp hm hp' => exact .inl (by rw [hm]; exact opCode_leaves.last)
    | main op e hp hm hp' => exact .inl (by rw [hm]; exact opCode_leaves.last)
    | back hp hm hp' => exact .inl (by rw [hm])
    | worker g' ht' hc =>
      obtain rfl : g' = g := by rw [ht] at ht'; cases ht'; rfl
      exact workerCode_last hc
  · exact .inl (hs.leaves ht).last

end Bthread.Parking
