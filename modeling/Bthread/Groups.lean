import Mathlib.Data.Nat.Notation
import Mathlib.Tactic.MkIffOfInductiveProp
import Bthread.Lib.Machine

set_option relaxedAutoImplicit false
set_option autoImplicit false

/-!
# The life of a `TaskGroup`

Worker threads register their groups in `_groups` and remove them when they leave
`run_main_task`, while `stop_and_join` empties the registry and stops the parking lots.

## Main definitions

* `Bthread.GroupPc`, `Bthread.groupCode` — `create_group`, `destroy_self` and `stop_and_join`,
  access by access.
* `Bthread.groups` — the machine.

## Main results

* `Bthread.groups_not_deleted` — no group is ever handed to the delayed deleter.
-/

namespace Bthread

/-- A thread: a worker, and also the `TaskGroup` it creates, or a caller of `stop_and_join`. -/
abbrev GroupId := ℕ

/-- The group registry of a `TaskControl`. -/
structure Registry where
  /-- `_modify_group_mutex`: the thread that holds it. -/
  mutex : Option GroupId
  /-- `_groups`. -/
  groups : ℕ → Option GroupId
  /-- `_ngroup`. -/
  ngroup : ℕ
  /-- `_stop`. -/
  stop : Bool
  /-- The parking lots that are stopped. -/
  lotStopped : ℕ → Bool
  /-- The groups handed to `delete_task_group` through the timer thread, in order. -/
  deleter : List GroupId

/-- `TaskControl::PARKING_LOT_NUM`. -/
def parkingLotNum : ℕ := 4

/-- Control points of `worker_thread` and of `stop_and_join`; `lot` is the index of the parking lot
of the group. -/
inductive GroupPc
  | idle
  -- `_add_group`
  | addLock (lot : ℕ)
  | addCheck (lot : ℕ)
  | addStore (lot : ℕ)
  | addCount (lot n : ℕ)
  | addUnlock (lot : ℕ)
  | refusedUnlock
  | refused
  -- `run_main_task`
  | running (lot : ℕ)
  -- `_destroy_group`
  | destroyLock
  | destroyLoad
  | scan (i n : ℕ)
  | swap (i n : ℕ)
  | destroyCount (n : ℕ)
  | destroyUnlock (erased : Bool)
  | schedule
  | destroyed
  -- `stop_and_join`
  | stopLock
  | setStop
  | exchange
  | stopUnlock
  | stopLots (i : ℕ)
  | stopped
  deriving DecidableEq

/-- What a thread does next: it starts as a worker or as a caller of `stop_and_join`, or goes on. -/
inductive GroupMove
  | worker (lot : ℕ)
  | stopAndJoin
  | next
  deriving DecidableEq

/-- One access of thread `g`; `maxConcurrency` is `BTHREAD_MAX_CONCURRENCY`. -/
def groupCode (maxConcurrency : ℕ) (g : GroupId) : GroupPc → GroupMove → Registry →
    Option (Registry × GroupPc)
  | .idle, .worker lot, m => some (m, .addLock lot)
  | .idle, .stopAndJoin, m => some (m, .stopLock)
  | .addLock lot, .next, m =>
    if m.mutex = none then some ({ m with mutex := some g }, .addCheck lot) else none
  | .addCheck lot, .next, m =>
    if m.stop then some (m, .refusedUnlock)
    else if m.ngroup < maxConcurrency then some (m, .addStore lot) else some (m, .addUnlock lot)
  | .addStore lot, .next, m =>
    some ({ m with groups := Function.update m.groups m.ngroup (some g) }, .addCount lot m.ngroup)
  | .addCount lot n, .next, m => some ({ m with ngroup := n + 1 }, .addUnlock lot)
  | .addUnlock lot, .next, m => some ({ m with mutex := none }, .running lot)
  -- `create_group` deletes the group itself
  | .refusedUnlock, .next, m => some ({ m with mutex := none }, .refused)
  -- `wait_task` returns `false` once the state of the lot is stopped
  | .running lot, .next, m => if m.lotStopped lot then some (m, .destroyLock) else none
  | .destroyLock, .next, m =>
    if m.mutex = none then some ({ m with mutex := some g }, .destroyLoad) else none
  | .destroyLoad, .next, m => some (m, .scan 0 m.ngroup)
  | .scan i n, .next, m =>
    if i < n then
      if m.groups i = some g then some (m, .swap i n) else some (m, .scan (i + 1) n)
    else some (m, .destroyUnlock false)
  | .swap i n, .next, m =>
    some ({ m with groups := Function.update m.groups i (m.groups (n - 1)) }, .destroyCount n)
  | .destroyCount n, .next, m => some ({ m with ngroup := n - 1 }, .destroyUnlock true)
  | .destroyUnlock erased, .next, m =>
    some ({ m with mutex := none }, if erased then .schedule else .destroyed)
  | .schedule, .next, m => some ({ m with deleter := m.deleter ++ [g] }, .destroyed)
  | .stopLock, .next, m =>
    if m.mutex = none then some ({ m with mutex := some g }, .setStop) else none
  | .setStop, .next, m => some ({ m with stop := true }, .exchange)
  | .exchange, .next, m => some ({ m with ngroup := 0 }, .stopUnlock)
  | .stopUnlock, .next, m => some ({ m with mutex := none }, .stopLots 0)
  | .stopLots i, .next, m =>
    if i < parkingLotNum then
      some ({ m with lotStopped := Function.update m.lotStopped i true }, .stopLots (i + 1))
    else some (m, .stopped)
  | _, _, _ => none

/-- The initial registry. -/
structure Registry.Initial (m : Registry) : Prop where
  mutex : m.mutex = none
  groups : ∀ i, m.groups i = none
  ngroup : m.ngroup = 0
  stop : m.stop = false
  lotStopped : ∀ i, m.lotStopped i = false
  deleter : m.deleter = []

/-- The threads as a program. -/
def groupProgram (maxConcurrency : ℕ) : Conc.Program GroupId Registry GroupPc GroupMove where
  code := groupCode maxConcurrency

/-- **The machine of worker start-up, `stop_and_join` and worker exit.** -/
def groups (maxConcurrency : ℕ) : Conc.Machine (Conc.Config GroupId Registry GroupPc)
    (GroupId × GroupMove) :=
  (groupProgram maxConcurrency).machine Registry.Initial .idle

/-- The thread holds `_modify_group_mutex`. -/
def GroupPc.Locks : GroupPc → Bool
  | .addCheck _ | .addStore _ | .addCount _ _ | .addUnlock _ | .refusedUnlock | .destroyLoad
  | .scan _ _ | .swap _ _ | .destroyCount _ | .destroyUnlock _ | .setStop | .exchange
  | .stopUnlock => true
  | _ => false

variable {N : ℕ} {s : Conc.Config GroupId Registry GroupPc}

/-- The effect of an access on `_modify_group_mutex`. -/
theorem groupCode_lockStep {g : GroupId} {p q : GroupPc} {k : GroupMove} {m m' : Registry}
    (h : groupCode N g p k m = some (m', q)) :
    Conc.LockStep g m.mutex m'.mutex (p.Locks = true) (q.Locks = true) := by
  revert h
  fun_cases groupCode N g p k m
  all_goals
    intro h
    simp only [Option.some.injEq, Prod.mk.injEq, reduceCtorEq] at h
  all_goals obtain ⟨rfl, rfl⟩ := h
  case case3 | case14 | case24 => exact .acquire (by assumption) rfl rfl
  case case10 | case11 | case28 => exact .release rfl rfl (by simp [GroupPc.Locks])
  case case22 erased => exact .release rfl rfl (by cases erased <;> simp [GroupPc.Locks])
  all_goals exact .keep rfl (by simp [GroupPc.Locks])

/-- **Mutual exclusion of `_modify_group_mutex`.** -/
theorem groups_mutex (hs : (groups N).Reachable s) (g : GroupId) :
    s.mem.mutex = some g ↔ (s.pc g).Locks = true :=
  (Conc.Program.mutex (P := groupProgram N) (fun m (_ : Unit) => m.mutex)
    (fun _ p _ => p.Locks = true) (fun _ => True) (fun _ hm => ⟨trivial, fun _ => hm.mutex⟩)
    (fun _ _ => by simp [GroupPc.Locks])
    (fun _ _ _ _ _ _ _ _ hc => ⟨trivial, fun _ => groupCode_lockStep hc⟩) hs).2 () g

/-! ## What `stop_and_join` leaves behind -/

/-- The registry is stopped and empty. -/
def Registry.Stopped (m : Registry) : Prop := m.stop = true ∧ m.ngroup = 0

/-- Threads that are about to register a group. -/
def GroupPc.Adds : GroupPc → Prop
  | .addStore _ | .addCount _ _ => True
  | _ => False

/-- Threads that are there only after the registry was stopped and emptied. -/
def GroupPc.Late : GroupPc → Prop
  | .stopUnlock | .stopLots _ | .stopped | .destroyLock | .destroyLoad => True
  | _ => False

/-- Threads that have found a group to remove. -/
def GroupPc.Erases : GroupPc → Prop
  | .swap _ _ | .destroyCount _ | .destroyUnlock true | .schedule => True
  | _ => False

/-- What a control point tells about the registry. -/
@[mk_iff]
structure GroupPc.Ok (m : Registry) (p : GroupPc) : Prop where
  adds : p.Adds → m.stop = false
  exchange : p = .exchange → m.stop = true
  late : p.Late → m.Stopped
  scanning : ∀ i n, p = .scan i n → n = 0
  erases : ¬p.Erases

/-- The invariant: a thread that registers a group has found `_stop` unset; a lot is stopped only
after `_stop` was set and the registry was emptied, and a worker leaves `run_main_task` only after
that; so `_destroy_group` finds nothing. -/
structure Forgotten (s : Conc.Config GroupId Registry GroupPc) : Prop where
  ok : ∀ g, (s.pc g).Ok s.mem
  lots : ∀ i, s.mem.lotStopped i = true → s.mem.Stopped
  deleter : s.mem.deleter = []

/-- The rule for one access: it leaves the registry stopped, it sets `_stop` only when no other
thread is registering a group, and it keeps the invariant for its own thread. -/
theorem Forgotten.of_step {g : GroupId} {m : Registry} {p : GroupPc} (ih : Forgotten s)
    (hp : p.Ok m) (hst : s.mem.Stopped → m.Stopped) (hstop : s.mem.stop = true → m.stop = true)
    (hnew : m.stop = true → s.mem.stop = true ∨ ∀ h, h ≠ g → (s.pc h).Locks = false)
    (hlots : ∀ i, m.lotStopped i = true → m.Stopped) (hdel : m.deleter = []) :
    Forgotten ⟨m, Function.update s.pc g p⟩ := by
  refine ⟨fun h => ?_, hlots, hdel⟩
  by_cases hg : h = g
  · subst hg; simpa using hp
  · simp only [Function.update_of_ne hg]
    have ho := ih.ok h
    refine ⟨fun ha => ?_, fun he => hstop (ho.exchange he), fun hl => hst (ho.late hl),
      ho.scanning, ho.erases⟩
    by_contra hm
    obtain hs | hl := hnew (by simpa using hm)
    · simp [ho.adds ha] at hs
    · have hl' := hl h hg
      generalize s.pc h = q at ha hl'
      cases q <;> simp_all [GroupPc.Adds, GroupPc.Locks]

attribute [local simp] GroupPc.ok_iff GroupPc.Adds GroupPc.Late GroupPc.Erases

/-- The invariant holds in reachable states.

**Proof sketch.** `_stop` is set under the mutex, so not while a group is being registered; after
that no group is registered any more, and `_ngroup` stays `0` once it was exchanged. -/
theorem forgotten (hs : (groups N).Reachable s) : Forgotten s := by
  refine Conc.Program.invariant (P := groupProgram N) (C := fun _ _ => True) (I := Forgotten)
    (fun m hm => ⟨by simp, by simp [hm.lotStopped], hm.deleter⟩) ?_ hs
  rintro ⟨mem, pc⟩ g k m p hr ih - hc
  have hmx : ∀ h, mem.mutex = some h ↔ (pc h).Locks = true := groups_mutex hr.reachable
  have ho : (pc g).Ok mem := ih.ok g
  change groupCode N g (pc g) k mem = some (m, p) at hc
  generalize hq : pc g = q at hc ho
  -- the registry is as before, or only the mutex or an entry of `_groups` has changed
  have stay : ∀ (x : Option GroupId) (y : ℕ → Option GroupId) (p : GroupPc),
      p.Ok { mem with mutex := x, groups := y } →
      Forgotten ⟨{ mem with mutex := x, groups := y }, Function.update pc g p⟩ :=
    fun _ _ _ hp => ih.of_step hp id id .inl ih.lots ih.deleter
  revert hc
  fun_cases groupCode N g q k mem
  all_goals
    intro hc
    simp only [Option.some.injEq, Prod.mk.injEq, reduceCtorEq] at hc
  all_goals obtain ⟨rfl, rfl⟩ := hc
  case case9 lot n =>
    have hf : ¬mem.stop = true := by simp [ho.adds trivial]
    exact ih.of_step (by simp) (fun h => absurd h.1 hf) id .inl
      (fun i hi => absurd (ih.lots i hi).1 hf) ih.deleter
  case case12 lot h => exact stay _ _ _ (by simpa using ih.lots lot h)
  case case16 => exact stay _ _ _ (by simpa using (ho.late trivial).2)
  case case17 i n h _ => have := ho.scanning i n rfl; omega
  case case18 i n h _ => have := ho.scanning i n rfl; omega
  case case20 | case21 | case23 => exact absurd trivial ho.erases
  case case22 erased =>
    cases erased with
    | false => exact stay _ _ _ (by simp)
    | true => exact absurd trivial ho.erases
  case case26 =>
    refine ih.of_step (by simp) (fun h => ⟨rfl, h.2⟩) (fun _ => rfl) (fun _ => .inr ?_)
      (fun i hi => ⟨rfl, (ih.lots i hi).2⟩) ih.deleter
    intro h hh
    by_contra hl
    have hg := (hmx g).mpr (by rw [hq]; rfl)
    rw [(hmx h).mpr (by simpa using hl)] at hg
    exact hh (Option.some.inj hg)
  case case27 =>
    have he := ho.exchange rfl
    exact ih.of_step (by simpa [Registry.Stopped] using he) (fun h => ⟨h.1, rfl⟩) id .inl
      (fun i hi => ⟨(ih.lots i hi).1, rfl⟩) ih.deleter
  case case29 i hi =>
    have hl := ho.late trivial
    exact ih.of_step (by simpa [Registry.Stopped] using hl) id id .inl (fun j _ => hl) ih.deleter
  case case6 lot h _ => exact stay _ _ _ (by simpa using h)
  case case8 lot => exact stay _ _ _ (by simpa using ho.adds trivial)
  case case14 => exact stay _ _ _ (by simpa [Registry.Stopped] using ho.late trivial)
  case case28 => exact stay _ _ _ (by simpa [Registry.Stopped] using ho.late trivial)
  case case30 => exact stay _ _ _ (by simpa [Registry.Stopped] using ho.late trivial)
  all_goals exact stay _ _ _ (by simp)

/-- A group was removed from the registry and handed to the delayed deleter once. -/
def Registry.Deleted (m : Registry) (g : GroupId) : Prop :=
  (∀ i < m.ngroup, m.groups i ≠ some g) ∧ m.deleter.count g = 1

/-- **No group is ever deleted**: a worker destroys its group after `stop_and_join` has emptied the
registry, so that it is not found there and not handed to the deleter. -/
theorem groups_not_deleted {g : GroupId} (hs : (groups N).Reachable s)
    (_hg : s.pc g = .destroyed) : ¬s.mem.Deleted g := by
  rintro ⟨-, h⟩
  simp [(forgotten hs).deleter] at h

/-- The registry of a new `TaskControl`. -/
def newRegistry : Registry where
  mutex := none
  groups _ := none
  ngroup := 0
  stop := false
  lotStopped _ := false
  deleter := []

/-- A worker starts, the `TaskControl` is stopped, and the worker leaves. -/
def stopRun : List (GroupId × GroupMove) :=
  (0, .worker 0) :: List.replicate 5 (0, .next) ++
    (1, .stopAndJoin) :: List.replicate 5 (1, .next) ++ List.replicate 5 (0, .next)

/-- The worker of `stopRun` gets to the end of `destroy_self`. -/
theorem stopRun_destroyed : ∃ s, (groups 1024).Reachable s ∧ s.pc 0 = .destroyed := by
  have h : ((groups 1024).exec ⟨newRegistry, fun _ => .idle⟩ stopRun).isSome = true := by decide
  refine ⟨_, .exec (.of_init ⟨⟨rfl, fun _ => rfl, rfl, rfl, fun _ => rfl, rfl⟩, rfl⟩)
    (Option.some_get h).symm, rfl⟩

/-- There the group is left undeleted. -/
theorem stopRun_not_deleted : ∃ s, (groups 1024).Reachable s ∧ s.pc 0 = .destroyed ∧
    ¬s.mem.Deleted 0 := by
  obtain ⟨s, hs, hg⟩ := stopRun_destroyed
  exact ⟨s, hs, hg, groups_not_deleted hs hg⟩

/-- So not every group of a worker that has left is deleted. -/
theorem not_groups_deleted :
    ¬∀ s, (groups 1024).Reachable s → ∀ g, s.pc g = .destroyed → s.mem.Deleted g := by
  intro hall
  obtain ⟨s, hs, hg⟩ := stopRun_destroyed
  obtain ⟨-, h⟩ := hall s hs 0 hg
  simp [(forgotten hs).deleter] at h

end Bthread
