import Mathlib
import Bthread.Lib.Machine
import Bthread.Concurrency
import Bthread.Memory

set_option relaxedAutoImplicit false
set_option autoImplicit false

/-!
# How many workers there are

The functions that set the number of workers, interleaved: `get_or_new_task_control`,
`bthread_setconcurrency`, `validate_bthread_min_concurrency`, `signal_task`, `add_workers` and the
start of a worker, one access of the flags, of `_concurrency` or of `g_task_control_mutex` at a
time.

## Main definitions

* `Bthread.Sizing.Store`, `Bthread.Sizing.Pc`, `Bthread.Sizing.code` — the program.
* `Bthread.Sizing.Sized` — the bounds of the counters and of the flag.
* `Bthread.Sizing.Serial` — the flag and the minimum are not changed under the feet of others.

## Main results

* `Bthread.Sizing.sized` — the bounds hold in runs whose steps are serial.
* `Bthread.Sizing.not_sized` — they do not hold in all runs.
-/

namespace Bthread.Sizing

open Function (update update_self update_of_ne)

/-- What the functions share. -/
structure Store where
  /-- `g_task_control_mutex`. -/
  lock : Option CallId
  /-- `FLAGS_bthread_concurrency`. -/
  flag : ℤ
  /-- `FLAGS_bthread_min_concurrency`. -/
  minFlag : ℤ
  /-- `never_set_bthread_concurrency`. -/
  neverSet : Bool
  /-- A `TaskControl` exists. -/
  alive : Bool
  /-- `g_task_control` points to it. -/
  published : Bool
  /-- `_concurrency`. -/
  concurrency : ℤ
  /-- The number of workers that were created. -/
  created : ℕ
  /-- The number of workers that have started to run. -/
  started : ℕ
  /-- `_ngroup`. -/
  ngroup : ℕ
  /-- Some `_add_group` has returned `0` without storing the group. -/
  dropped : Bool
  /-- `FLAGS_bthread_min_concurrency` was positive at some time. -/
  minEver : Bool
  deriving DecidableEq

/-- Who has called `add_workers`. -/
inductive Caller
  /-- `bthread_setconcurrency(num)`. -/
  | set (num : ℤ)
  /-- `validate_bthread_min_concurrency(val)`, for `d` workers. -/
  | validate (val d : ℤ)
  /-- `signal_task`. -/
  | signal
  deriving DecidableEq

/-- Where a call is. -/
inductive Pc
  | idle
  -- `bthread_setconcurrency`
  | setRange (num : ℤ)
  | setMin (num : ℤ)
  | setCompareMin (num : ℤ)
  | setNever (num : ℤ)
  | setStore (num : ℤ)
  | setControl (num : ℤ)
  | setLess (num : ℤ)
  | setEqual (num : ℤ)
  | setLock (num : ℤ)
  | setLocked (num : ℤ)
  | setFirst (num : ℤ)
  | setGreater (num : ℤ)
  | setFirstStore (num : ℤ)
  | setCheck (num : ℤ)
  | setRepair (num : ℤ)
  | setCompare (num : ℤ)
  | setDiff (num : ℤ)
  | setFlag (added : ℤ)
  | setFlagStore (v : ℤ)
  -- `add_workers(num)`, in its loop with `old_concurrency` and `i`
  | add (k : Caller) (num : ℤ)
  | addInc (k : Caller) (old i num : ℤ)
  | addCreate (k : Caller) (old i num : ℤ)
  -- `get_or_new_task_control`, with the `concurrency` given to `init`
  | newTest
  | newLock
  | newLocked
  | newAlloc
  | newMin
  | newReadMin
  | newReadFlag
  | newInit (n : ℤ)
  | newCreate (n : ℤ)
  | newPublish
  | newDelete
  -- `validate_bthread_min_concurrency`, and gflags, which sets the flag if the value is valid
  | valRange (val : ℤ)
  | valCompare (val : ℤ)
  | valControl (val : ℤ)
  | valLock (val : ℤ)
  | valLocked (val : ℤ)
  | valUnlock (val : ℤ) (ok : Bool)
  | valSet (val : ℤ)
  -- `signal_task`, with the `_concurrency` it has read
  | sigMin
  | sigConcurrency
  | sigFlag (n : ℤ)
  | sigLock
  | sigLocked
  | sigLockedFlag (n : ℤ)
  -- the end of a section of `g_task_control_mutex`
  | unlock
  deriving DecidableEq

/-- The functions that are called. -/
inductive Call
  | setconcurrency (num : ℤ)
  | getOrNewTaskControl
  | setMinConcurrency (val : ℤ)
  | signalTask
  /-- A new worker calls `create_group`, which may fail, and `_add_group`. -/
  | worker (ok : Bool)
  deriving DecidableEq

/-- A step: a call, or the next access, which fails or not where the memory does not decide. -/
inductive Move
  | call (f : Call)
  | next (ok : Bool)
  deriving DecidableEq

/-- `add_workers` returns `added`. -/
def Caller.return (added : ℤ) : Caller → Pc
  | .set _ => .setFlag added
  | .validate val d => .valUnlock val (added = d)
  | .signal => .unlock

/-- One access of a call. -/
def code (l : Limits) (c : CallId) (p : Pc) (k : Move) (m : Store) : Option (Store × Pc) :=
  match k, p with
  | .call (.setconcurrency num), .idle => some (m, .setRange num)
  | .call .getOrNewTaskControl, .idle => some (m, .newTest)
  | .call (.setMinConcurrency val), .idle => some (m, .valRange val)
  | .call .signalTask, .idle => if m.alive then some (m, .sigMin) else none
  | .call (.worker ok), .idle =>
    if m.alive ∧ m.started < m.created then
      if ok = false then some ({ m with started := m.started + 1 }, .idle)
      else if (m.ngroup : ℤ) < l.max then
        some ({ m with started := m.started + 1, ngroup := m.ngroup + 1 }, .sigMin)
      else some ({ m with started := m.started + 1, dropped := true }, .sigMin)
    else none
  | .next _, .setRange num =>
    some (m, if num < l.min ∨ l.max < num then .idle else .setMin num)
  | .next _, .setMin num =>
    some (m, if 0 < m.minFlag then .setCompareMin num else .setControl num)
  | .next _, .setCompareMin num => some (m, if num < m.minFlag then .idle else .setNever num)
  | .next _, .setNever num => some ({ m with neverSet := false }, .setStore num)
  | .next _, .setStore num => some ({ m with flag := num }, .idle)
  | .next _, .setControl num => some (m, if m.published then .setLess num else .setLock num)
  | .next _, .setLess num => some (m, if num < m.concurrency then .idle else .setEqual num)
  | .next _, .setEqual num => some (m, if num = m.concurrency then .idle else .setLock num)
  | .next _, .setLock num =>
    if m.lock = none then some ({ m with lock := some c }, .setLocked num) else none
  | .next _, .setLocked num => some (m, if m.published then .setCheck num else .setFirst num)
  | .next _, .setFirst num =>
    if m.neverSet then some ({ m with neverSet := false }, .setFirstStore num)
    else some (m, .setGreater num)
  | .next _, .setGreater num => some (m, if m.flag < num then .setFirstStore num else .unlock)
  | .next _, .setFirstStore num => some ({ m with flag := num }, .unlock)
  | .next _, .setCheck num =>
    some (m, if m.flag ≠ m.concurrency then .setRepair num else .setCompare num)
  | .next _, .setRepair num => some ({ m with flag := m.concurrency }, .setCompare num)
  | .next _, .setCompare num => some (m, if m.flag < num then .setDiff num else .unlock)
  | .next _, .setDiff num => some (m, .add (.set num) (num - m.flag))
  | .next _, .setFlag added => some (m, .setFlagStore (m.flag + added))
  | .next _, .setFlagStore v => some ({ m with flag := v }, .unlock)
  | .next ok, .add k num =>
    -- `_workers.resize` can fail
    some (m, if num ≤ 0 ∨ ok = false then k.return 0 else .addInc k m.concurrency 0 num)
  | .next _, .addInc k old i num =>
    if i < num then some ({ m with concurrency := m.concurrency + 1 }, .addCreate k old i num)
    else some (m, k.return (m.concurrency - old))
  | .next ok, .addCreate k old i num =>
    if ok then some ({ m with created := m.created + 1 }, .addInc k old (i + 1) num)
    else some ({ m with concurrency := m.concurrency - 1 }, k.return (m.concurrency - 1 - old))
  | .next _, .newTest => some (m, if m.published then .idle else .newLock)
  | .next _, .newLock =>
    if m.lock = none then some ({ m with lock := some c }, .newLocked) else none
  | .next _, .newLocked => some (m, if m.published then .unlock else .newAlloc)
  | .next ok, .newAlloc =>
    if ok then
      some ({ m with alive := true, concurrency := 0, created := 0, started := 0, ngroup := 0 },
        .newMin)
    else some (m, .unlock)
  | .next _, .newMin => some (m, if 0 < m.minFlag then .newReadMin else .newReadFlag)
  | .next _, .newReadMin => some (m, .newInit m.minFlag)
  | .next _, .newReadFlag => some (m, .newInit m.flag)
  | .next ok, .newInit n =>
    -- the timer thread may be missing
    if n ≤ 0 then some (m, .newDelete)
    else some ({ m with concurrency := n }, if ok then .newCreate n else .newDelete)
  | .next ok, .newCreate n =>
    if (m.created : ℤ) < n then
      if ok then some ({ m with created := m.created + 1 }, .newCreate n) else some (m, .newDelete)
    else if m.ngroup = 0 then none
    else some (m, .newPublish)
  | .next _, .newPublish => some ({ m with published := true }, .unlock)
  | .next _, .newDelete => some ({ m with alive := false }, .unlock)
  | .next _, .valRange val => some (m, if val ≤ 0 then .valSet val else .valCompare val)
  | .next _, .valCompare val =>
    some (m, if val < l.min ∨ m.flag < val then .idle else .valControl val)
  | .next _, .valControl val => some (m, if m.published then .valLock val else .valSet val)
  | .next _, .valLock val =>
    if m.lock = none then some ({ m with lock := some c }, .valLocked val) else none
  | .next _, .valLocked val =>
    some (m, if m.concurrency < val then
      .add (.validate val (val - m.concurrency)) (val - m.concurrency) else .valUnlock val true)
  | .next _, .valUnlock val ok => some ({ m with lock := none }, if ok then .valSet val else .idle)
  | .next _, .valSet val =>
    some ({ m with minFlag := val, minEver := m.minEver || decide (0 < val) }, .idle)
  | .next _, .sigMin => some (m, if 0 < m.minFlag then .sigConcurrency else .idle)
  | .next _, .sigConcurrency => some (m, .sigFlag m.concurrency)
  | .next _, .sigFlag n => some (m, if n < m.flag then .sigLock else .idle)
  | .next _, .sigLock =>
    if m.lock = none ∧ m.alive then some ({ m with lock := some c }, .sigLocked) else none
  | .next _, .sigLocked => some (m, .sigLockedFlag m.concurrency)
  | .next _, .sigLockedFlag n => some (m, if n < m.flag then .add .signal 1 else .unlock)
  | .next _, .unlock => some ({ m with lock := none }, .idle)
  | _, _ => none

/-- The functions, interleaved. -/
def program (l : Limits) : Conc.Program CallId Store Pc Move where
  code := code l

/-- Nothing was started; the flags have passed their checks. -/
structure Store.Initial (l : Limits) (m : Store) : Prop where
  limit : 0 ≤ l.max
  lock : m.lock = none
  flag : m.flag ≤ l.max
  minFlag : m.minFlag ≤ l.max
  minEver : m.minEver = decide (0 < m.minFlag)
  alive : m.alive = false
  published : m.published = false
  dropped : m.dropped = false

/-- The machine of all calls. -/
def machine (l : Limits) : Conc.Machine (Conc.Config CallId Store Pc) (CallId × Move) :=
  (program l).machine (Store.Initial l) .idle

/-! ## The bounds -/

/-- The bounds of the counters and of the flag. -/
structure Sized (l : Limits) (s : Conc.Config CallId Store Pc) : Prop where
  /-- `_ngroup` and `_concurrency`. -/
  counters : s.mem.alive = true →
    (s.mem.ngroup : ℤ) ≤ s.mem.concurrency ∧ s.mem.concurrency ≤ l.max
  /-- `FLAGS_bthread_concurrency`. -/
  flag : s.mem.flag ≤ l.max
  /-- `_add_group` has stored every group. -/
  stored : s.mem.dropped = false
  /-- As long as the minimum was never positive, the flag is the number of workers. -/
  synced : s.mem.minEver = false → s.mem.lock = none → s.mem.published = true →
    s.mem.flag = s.mem.concurrency
  /-- As long as the minimum was never positive, the flag is not repaired. -/
  unrepaired : s.mem.minEver = false → ∀ c num, s.pc c ≠ .setRepair num

/-- The call relies on the flag being the number of workers: it is past the check in
`bthread_setconcurrency` and has not stored the sum yet. -/
def Pc.Adjusting : Pc → Prop
  | .setCompare _ | .setDiff _ | .setFlag _ | .setFlagStore _ => True
  | .add (.set _) _ | .addInc (.set _) _ _ _ | .addCreate (.set _) _ _ _ => True
  | _ => False

/-- A step is serial: `bthread_setconcurrency` does not store the flag without the mutex while
another call relies on it, and when `validate_bthread_min_concurrency` has the mutex the minimum is
positive already or the value is still not above the flag. -/
def Serial (s : Conc.Config CallId Store Pc) (x : CallId × Move) : Prop :=
  (∀ num, s.pc x.1 = .setStore num → ∀ d, ¬(s.pc d).Adjusting) ∧
    ∀ val, s.pc x.1 = .valLocked val → 0 < s.mem.minFlag ∨ val ≤ s.mem.flag

/-! ## The invariant -/

/-- The call is in a section of `g_task_control_mutex`. -/
def Pc.Holds : Pc → Prop
  | .setLocked _ | .setFirst _ | .setGreater _ | .setFirstStore _ | .setCheck _ | .setRepair _
  | .setCompare _ | .setDiff _ | .setFlag _ | .setFlagStore _ | .add _ _ | .addInc _ _ _ _
  | .addCreate _ _ _ _ | .newLocked | .newAlloc | .newMin | .newReadMin | .newReadFlag | .newInit _
  | .newCreate _ | .newPublish | .newDelete | .valLocked _ | .valUnlock _ _ | .sigLocked
  | .sigLockedFlag _ | .unlock => True
  | _ => False

/-- The flag is the number of workers, if the minimum was never positive. -/
def Store.Synced (m : Store) : Prop :=
  m.minEver = false → m.published = true → m.flag = m.concurrency

/-- What `add_workers` relies on: for `bthread_setconcurrency` the flag is still the
`old_concurrency`. -/
def Caller.Ok (l : Limits) (m : Store) (old : ℤ) : Caller → Prop
  | .set _ => m.published = true ∧ m.flag = old
  | .validate val _ => m.minEver = true ∧ m.alive = true ∧ val ≤ l.max
  | .signal => m.minEver = true ∧ m.alive = true

/-- What holds of a call. -/
def Pc.Ok (l : Limits) (m : Store) : Pc → Prop
  | .setMin num | .setControl num | .setLess num | .setEqual num | .setLock num => num ≤ l.max
  | .setCompareMin num | .setNever num | .setStore num => num ≤ l.max ∧ m.minEver = true
  | .setLocked num => num ≤ l.max ∧ m.Synced
  | .setFirst num | .setGreater num | .setFirstStore num => num ≤ l.max ∧ m.published = false
  | .setCheck num => num ≤ l.max ∧ m.published = true ∧ m.Synced
  | .setRepair num => num ≤ l.max ∧ m.published = true ∧ m.minEver = true
  | .setCompare num | .setDiff num =>
    num ≤ l.max ∧ m.published = true ∧ m.flag = m.concurrency
  | .setFlag added => m.published = true ∧ m.flag + added = m.concurrency
  | .setFlagStore v => m.published = true ∧ v = m.concurrency
  | .add k num => k.Ok l m m.concurrency ∧ m.concurrency + num ≤ l.max
  | .addInc k old i num => k.Ok l m old ∧ m.concurrency = old + i ∧ 0 ≤ i ∧ i ≤ num ∧
    old + num ≤ l.max
  | .addCreate k old i num => k.Ok l m old ∧ m.concurrency = old + i + 1 ∧ 0 ≤ i ∧ i < num ∧
    old + num ≤ l.max ∧ (m.created : ℤ) + 1 ≤ m.concurrency
  | .newLocked | .unlock => m.Synced
  | .newAlloc | .newDelete => m.published = false
  | .newMin | .newReadFlag => m.published = false ∧ m.alive = true ∧ m.created = 0
  | .newReadMin => m.published = false ∧ m.alive = true ∧ m.created = 0 ∧ m.minEver = true
  | .newInit n => m.published = false ∧ m.alive = true ∧ m.created = 0 ∧ n ≤ l.max ∧
    (m.minEver = false → m.flag = n)
  | .newCreate n => m.published = false ∧ m.alive = true ∧ m.concurrency = n ∧
    (m.minEver = false → m.flag = n)
  | .newPublish => m.published = false ∧ m.alive = true ∧
    (m.minEver = false → m.flag = m.concurrency)
  | .valControl val | .valSet val => val ≤ l.max
  | .valLock val => val ≤ l.max ∧ m.published = true
  | .valLocked val => val ≤ l.max ∧ m.published = true ∧ m.Synced
  | .valUnlock val _ => val ≤ l.max ∧ m.Synced
  | .sigConcurrency | .sigFlag _ | .sigLock => m.minEver = true
  | .sigLocked => m.minEver = true ∧ m.alive = true
  | .sigLockedFlag n => m.minEver = true ∧ m.alive = true ∧ n = m.concurrency
  | _ => True

/-- What holds of the memory. -/
structure Store.Bounds (l : Limits) (m : Store) : Prop where
  flag : m.flag ≤ l.max
  minFlag : m.minFlag ≤ l.max
  minEver : 0 < m.minFlag → m.minEver = true
  counters : m.alive = true → (m.created : ℤ) ≤ m.concurrency ∧ m.concurrency ≤ l.max ∧
    m.ngroup ≤ m.started ∧ m.started ≤ m.created
  published : m.published = true → m.alive = true
  dropped : m.dropped = false
  synced : m.lock = none → m.Synced
  nonneg : 0 ≤ l.max

/-- What a call outside the sections of the mutex can change. -/
structure Outside (c : CallId) (p : Pc) (m m' : Store) : Prop where
  lock : m'.lock = m.lock ∨ (m.lock = none ∧ m'.lock = some c)
  published : m'.published = m.published
  concurrency : m'.concurrency = m.concurrency
  created : m'.created = m.created
  alive : m'.alive = m.alive
  minEver : m.minEver = true → m'.minEver = true
  flag : m'.flag = m.flag ∨ (m'.minEver = true ∧ ∃ num, p = .setStore num)

section

variable {l : Limits} {c : CallId} {p p' : Pc} {k : Move} {m m' : Store}

/-- What one access keeps, and what it can change for the other calls. -/
structure Kept (l : Limits) (c : CallId) (p p' : Pc) (m m' : Store) : Prop where
  bounds : m'.Bounds l
  ok : p'.Ok l m'
  lock : m'.lock = some c ↔ p'.Holds
  inside : p.Holds → (m'.lock = m.lock ∨ m'.lock = none) ∧
    (m.published = true → m'.published = true) ∧ (m.minEver = true → m'.minEver = true)
  outside : ¬p.Holds → Outside c p m m'

/-- An access that changes nothing. -/
theorem Kept.refl (hm : m.Bounds l) (hl : m.lock = some c ↔ p.Holds) (hp : p'.Ok l m)
    (hh : p'.Holds ↔ p.Holds) : Kept l c p p' m m :=
  ⟨hm, hp, hl.trans hh.symm, fun _ => ⟨.inl rfl, id, id⟩, fun _ =>
    ⟨.inl rfl, rfl, rfl, rfl, rfl, id, .inl rfl⟩⟩

/-- An access that takes the mutex. -/
theorem Kept.acquire (hm : m.Bounds l) (hlock : m.lock = none) (hp : p'.Ok l m)
    (hh : ¬p.Holds) (hh' : p'.Holds) (hcongr : p'.Ok l m → p'.Ok l { m with lock := some c }) :
    Kept l c p p' m { m with lock := some c } :=
  ⟨⟨hm.flag, hm.minFlag, hm.minEver, hm.counters, hm.published, hm.dropped, by simp, hm.nonneg⟩,
    hcongr hp,
    ⟨fun _ => hh', fun _ => rfl⟩, fun h => absurd h hh, fun _ =>
      ⟨.inr ⟨hlock, rfl⟩, rfl, rfl, rfl, rfl, id, .inl rfl⟩⟩

/-- An access in a section of the mutex. -/
theorem Kept.section (hh : p.Holds) (hl : m.lock = some c ↔ p.Holds) (hlock : m'.lock = m.lock)
    (hpub : m.published = true → m'.published = true) (hmin : m'.minEver = m.minEver)
    (hflag : m'.flag ≤ l.max) (hmf : m'.minFlag = m.minFlag) (hm : m.Bounds l)
    (hcount : m'.alive = true → (m'.created : ℤ) ≤ m'.concurrency ∧ m'.concurrency ≤ l.max ∧
      m'.ngroup ≤ m'.started ∧ m'.started ≤ m'.created)
    (halive : m'.published = true → m'.alive = true) (hd : m'.dropped = m.dropped)
    (hp : p'.Ok l m') (hh' : p'.Holds) : Kept l c p p' m m' := by
  have hc := hl.mpr hh
  refine ⟨⟨hflag, by rw [hmf]; exact hm.minFlag, by rw [hmf, hmin]; exact hm.minEver, hcount,
    halive, by rw [hd]; exact hm.dropped, ?_, hm.nonneg⟩, hp, ?_, fun _ => ⟨.inl hlock, hpub, ?_⟩,
    fun h => absurd hh h⟩
  · simp [hlock, hc]
  · simp [hlock, hc, hh']
  · rw [hmin]
    exact id

/-- An access at the end of a section of the mutex. -/
theorem Kept.release (hm : m.Bounds l) (hh : p.Holds) (hs : m.Synced) (hp : p'.Ok l m)
    (hh' : ¬p'.Holds) (hcongr : p'.Ok l m → p'.Ok l { m with lock := none }) :
    Kept l c p p' m { m with lock := none } :=
  ⟨⟨hm.flag, hm.minFlag, hm.minEver, hm.counters, hm.published, hm.dropped, fun _ => hs,
    hm.nonneg⟩, hcongr hp, ⟨by simp, fun h => absurd h hh'⟩, fun _ => ⟨.inr rfl, id, id⟩,
    fun h => absurd hh h⟩

-- the cases of `code`, one equation each
attribute [local simp] code

/-- A call of one of the functions, and the start of a worker. -/
theorem code_call {f : Call} (hm : m.Bounds l) (hl : m.lock = some c ↔ p.Holds)
    (h : code l c p (.call f) m = some (m', p')) : Kept l c p p' m m' := by
  cases p with
  | idle =>
    have hlock : m.lock ≠ some c := fun h => hl.mp h
    cases f with
    | worker ok =>
      simp only [code] at h
      split at h
      · rename_i hs
        obtain ⟨ha, hs⟩ := hs
        obtain ⟨h₁, h₂, h₃, h₄⟩ := hm.counters ha
        have hroom : (m.ngroup : ℤ) < l.max := by omega
        simp only [hroom, if_true] at h
        -- there is room for the group: this worker has not added one
        have hkept (n : ℕ) (hn : n ≤ m.ngroup + 1) (q : Pc) (hq : q.Ok l m)
            (hcongr : q.Ok l m → q.Ok l { m with started := m.started + 1, ngroup := n })
            (hh : ¬q.Holds) :
            Kept l c .idle q m { m with started := m.started + 1, ngroup := n } :=
          ⟨⟨hm.flag, hm.minFlag, hm.minEver, fun _ => ⟨h₁, h₂, by simp; omega, by simp; omega⟩,
            hm.published, hm.dropped, hm.synced, hm.nonneg⟩, hcongr hq,
            ⟨fun h => absurd h hlock, fun h => absurd h hh⟩, fun h => h.elim,
            fun _ => ⟨.inl rfl, rfl, rfl, rfl, rfl, id, .inl rfl⟩⟩
        split at h
        · obtain ⟨rfl, rfl⟩ : _ ∧ _ := by simpa using h
          exact hkept m.ngroup (by omega) .idle trivial id id
        · obtain ⟨rfl, rfl⟩ : _ ∧ _ := by simpa using h
          exact hkept (m.ngroup + 1) le_rfl .sigMin trivial id id
      · cases h
    | signalTask =>
      simp only [code, Option.ite_none_right_eq_some, Option.some.injEq, Prod.mk.injEq] at h
      obtain ⟨-, rfl, rfl⟩ := h
      exact .refl hm hl trivial Iff.rfl
    | _ =>
      simp only [code, Option.some.injEq, Prod.mk.injEq] at h
      obtain ⟨rfl, rfl⟩ := h
      exact .refl hm hl trivial Iff.rfl
  | _ => simp [code] at h

/-- The next access of `bthread_setconcurrency` before it takes the mutex. -/
theorem set_step {ok : Bool} (num : ℤ) (hm : m.Bounds l) (hp : p.Ok l m)
    (hl : m.lock = some c ↔ p.Holds)
    (hf : p = .setRange num ∨ p = .setMin num ∨ p = .setCompareMin num ∨ p = .setNever num ∨
      p = .setStore num ∨ p = .setControl num ∨ p = .setLess num ∨ p = .setEqual num ∨
      p = .setLock num)
    (h : code l c p (.next ok) m = some (m', p')) : Kept l c p p' m m' := by
  obtain rfl | rfl | rfl | rfl | rfl | rfl | rfl | rfl | rfl := hf
  · simp only [code, Option.some.injEq, Prod.mk.injEq] at h
    obtain ⟨rfl, rfl⟩ := h
    split_ifs with hr
    · exact .refl hm hl trivial Iff.rfl
    · exact .refl hm hl (by simp only [Pc.Ok]; omega) Iff.rfl
  · simp only [code, Option.some.injEq, Prod.mk.injEq] at h
    obtain ⟨rfl, rfl⟩ := h
    split_ifs with hr
    · exact .refl hm hl ⟨hp, hm.minEver hr⟩ Iff.rfl
    · exact .refl hm hl hp Iff.rfl
  · simp only [code, Option.some.injEq, Prod.mk.injEq] at h
    obtain ⟨rfl, rfl⟩ := h
    split_ifs with hr
    · exact .refl hm hl trivial Iff.rfl
    · exact .refl hm hl hp Iff.rfl
  · simp only [code, Option.some.injEq, Prod.mk.injEq] at h
    obtain ⟨rfl, rfl⟩ := h
    exact ⟨⟨hm.1, hm.2, hm.3, hm.4, hm.5, hm.6, hm.7, hm.8⟩, hp, hl, fun h => h.elim,
      fun _ => ⟨.inl rfl, rfl, rfl, rfl, rfl, id, .inl rfl⟩⟩
  · simp only [code, Option.some.injEq, Prod.mk.injEq] at h
    obtain ⟨rfl, rfl⟩ := h
    refine ⟨⟨hp.1, hm.2, hm.3, hm.4, hm.5, hm.6, fun _ hme => ?_, hm.8⟩, trivial, hl,
      fun h => h.elim,
      fun _ => ⟨.inl rfl, rfl, rfl, rfl, rfl, id, .inr ⟨hp.2, num, rfl⟩⟩⟩
    have : m.minEver = false := hme
    simp [hp.2] at this
  · simp only [code, Option.some.injEq, Prod.mk.injEq] at h
    obtain ⟨rfl, rfl⟩ := h
    split_ifs
    · exact .refl hm hl hp Iff.rfl
    · exact .refl hm hl hp Iff.rfl
  · simp only [code, Option.some.injEq, Prod.mk.injEq] at h
    obtain ⟨rfl, rfl⟩ := h
    split_ifs
    · exact .refl hm hl trivial Iff.rfl
    · exact .refl hm hl hp Iff.rfl
  · simp only [code, Option.some.injEq, Prod.mk.injEq] at h
    obtain ⟨rfl, rfl⟩ := h
    split_ifs
    · exact .refl hm hl trivial Iff.rfl
    · exact .refl hm hl hp Iff.rfl
  · simp only [code, Option.ite_none_right_eq_some, Option.some.injEq, Prod.mk.injEq] at h
    obtain ⟨hn, rfl, rfl⟩ := h
    exact .acquire hm hn ⟨hp, hm.synced hn⟩ id trivial id

/-- The next access of `bthread_setconcurrency` with the mutex. -/
theorem setLocked_step {ok : Bool} (num : ℤ) (hm : m.Bounds l) (hp : p.Ok l m)
    (hl : m.lock = some c ↔ p.Holds)
    (hf : p = .setLocked num ∨ p = .setFirst num ∨ p = .setGreater num ∨ p = .setFirstStore num ∨
      p = .setCheck num ∨ p = .setRepair num ∨ p = .setCompare num ∨ p = .setDiff num ∨
      p = .setFlag num ∨ p = .setFlagStore num ∨ p = .unlock)
    (h : code l c p (.next ok) m = some (m', p')) : Kept l c p p' m m' := by
  obtain rfl | rfl | rfl | rfl | rfl | rfl | rfl | rfl | rfl | rfl | rfl := hf
  · simp only [code, Option.some.injEq, Prod.mk.injEq] at h
    obtain ⟨rfl, rfl⟩ := h
    split_ifs with hr
    · exact .refl hm hl ⟨hp.1, hr, hp.2⟩ Iff.rfl
    · exact .refl hm hl ⟨hp.1, by simpa using hr⟩ Iff.rfl
  · simp only [code] at h
    split at h
    · simp only [Option.some.injEq, Prod.mk.injEq] at h
      obtain ⟨rfl, rfl⟩ := h
      exact .section trivial hl rfl id rfl hm.flag rfl hm hm.counters hm.published rfl hp trivial
    · simp only [Option.some.injEq, Prod.mk.injEq] at h
      obtain ⟨rfl, rfl⟩ := h
      exact .refl hm hl hp Iff.rfl
  · simp only [code, Option.some.injEq, Prod.mk.injEq] at h
    obtain ⟨rfl, rfl⟩ := h
    split_ifs with hr
    · exact .refl hm hl hp Iff.rfl
    · exact .refl hm hl (fun _ hpub => by simp [hp.2] at hpub) Iff.rfl
  · simp only [code, Option.some.injEq, Prod.mk.injEq] at h
    obtain ⟨rfl, rfl⟩ := h
    exact .section trivial hl rfl id rfl hp.1 rfl hm hm.counters hm.published rfl
      (fun _ hpub => by simp [hp.2] at hpub) trivial
  · simp only [code, Option.some.injEq, Prod.mk.injEq] at h
    obtain ⟨rfl, rfl⟩ := h
    obtain ⟨hnum, hpub, hs⟩ := hp
    split_ifs with hr
    · refine .refl hm hl ⟨hnum, hpub, ?_⟩ Iff.rfl
      -- a flag that differs means that the minimum was positive
      by_contra hme
      exact hr (hs (by simpa using hme) hpub)
    · exact .refl hm hl ⟨hnum, hpub, not_not.mp hr⟩ Iff.rfl
  · simp only [code, Option.some.injEq, Prod.mk.injEq] at h
    obtain ⟨rfl, rfl⟩ := h
    exact .section trivial hl rfl id rfl (hm.counters (hm.published hp.2.1)).2.1 rfl hm hm.counters
      hm.published rfl ⟨hp.1, hp.2.1, rfl⟩ trivial
  · simp only [code, Option.some.injEq, Prod.mk.injEq] at h
    obtain ⟨rfl, rfl⟩ := h
    split_ifs with hr
    · exact .refl hm hl hp Iff.rfl
    · exact .refl hm hl (fun _ _ => hp.2.2) Iff.rfl
  · simp only [code, Option.some.injEq, Prod.mk.injEq] at h
    obtain ⟨rfl, rfl⟩ := h
    obtain ⟨hnum, hpub, hs⟩ := hp
    exact .refl hm hl ⟨⟨hpub, hs⟩, by omega⟩ Iff.rfl
  · simp only [code, Option.some.injEq, Prod.mk.injEq] at h
    obtain ⟨rfl, rfl⟩ := h
    exact .refl hm hl hp Iff.rfl
  · simp only [code, Option.some.injEq, Prod.mk.injEq] at h
    obtain ⟨rfl, rfl⟩ := h
    obtain ⟨hpub, rfl⟩ := hp
    exact .section trivial hl rfl id rfl (hm.counters (hm.published hpub)).2.1 rfl hm hm.counters
      hm.published rfl (fun _ _ => rfl) trivial
  · simp only [code, Option.some.injEq, Prod.mk.injEq] at h
    obtain ⟨rfl, rfl⟩ := h
    exact .release hm trivial hp trivial id id

/-- The result of `add_workers`. -/
theorem return_ok {q : Caller} {old added : ℤ} (hq : q.Ok l m old)
    (hc : m.concurrency = old + added) : (q.return added).Ok l m ∧ (q.return added).Holds := by
  cases q with
  | set num => exact ⟨⟨hq.1, by rw [hq.2, hc]⟩, trivial⟩
  | validate val d => exact ⟨⟨hq.2.2, fun hme => by simp [hq.1] at hme⟩, trivial⟩
  | signal => exact ⟨fun hme => by simp [hq.1] at hme, trivial⟩

/-- `add_workers` is called for a published or a new `TaskControl`. -/
theorem Caller.Ok.alive {q : Caller} {old : ℤ} (hq : q.Ok l m old) (hm : m.Bounds l) :
    m.alive = true := by
  cases q with
  | set num => exact hm.published hq.1
  | validate val d => exact hq.2.1
  | signal => exact hq.2

/-- The next access of `add_workers`. -/
theorem add_step {ok : Bool} (q : Caller) (old i num : ℤ) (hm : m.Bounds l) (hp : p.Ok l m)
    (hl : m.lock = some c ↔ p.Holds)
    (hf : p = .add q num ∨ p = .addInc q old i num ∨ p = .addCreate q old i num)
    (h : code l c p (.next ok) m = some (m', p')) : Kept l c p p' m m' := by
  obtain rfl | rfl | rfl := hf
  · simp only [code, Option.some.injEq, Prod.mk.injEq] at h
    obtain ⟨rfl, rfl⟩ := h
    obtain ⟨hq, hnum⟩ := hp
    split_ifs with hr
    · obtain ⟨hok, hh⟩ := return_ok hq (show m.concurrency = m.concurrency + 0 by omega)
      exact .refl hm hl hok ⟨fun _ => trivial, fun _ => hh⟩
    · exact .refl hm hl ⟨hq, by omega, le_rfl, by omega, hnum⟩ Iff.rfl
  · simp only [code] at h
    obtain ⟨hq, hc, h₀, hi, hnum⟩ := hp
    obtain ⟨h₁, h₂, h₃⟩ := hm.counters (hq.alive hm)
    split at h
    · simp only [Option.some.injEq, Prod.mk.injEq] at h
      obtain ⟨rfl, rfl⟩ := h
      refine .section trivial hl rfl id rfl hm.flag rfl hm (fun _ => ⟨?_, ?_, h₃⟩) hm.published rfl
        ⟨?_, ?_, h₀, by omega, hnum, ?_⟩ trivial
      · show (m.created : ℤ) ≤ m.concurrency + 1
        omega
      · show m.concurrency + 1 ≤ l.max
        omega
      · cases q <;> exact hq
      · show m.concurrency + 1 = old + i + 1
        omega
      · show (m.created : ℤ) + 1 ≤ m.concurrency + 1
        omega
    · simp only [Option.some.injEq, Prod.mk.injEq] at h
      obtain ⟨rfl, rfl⟩ := h
      obtain ⟨hok, hh⟩ := return_ok hq
        (show m.concurrency = old + (m.concurrency - old) by omega)
      exact .refl hm hl hok ⟨fun _ => trivial, fun _ => hh⟩
  · simp only [code] at h
    obtain ⟨hq, hc, h₀, hi, hnum, hcr⟩ := hp
    obtain ⟨h₁, h₂, h₃, h₄⟩ := hm.counters (hq.alive hm)
    split at h
    · simp only [Option.some.injEq, Prod.mk.injEq] at h
      obtain ⟨rfl, rfl⟩ := h
      refine .section trivial hl rfl id rfl hm.flag rfl hm (fun _ => ⟨?_, h₂, h₃, ?_⟩) hm.published
        rfl ⟨?_, ?_, by omega, by omega, hnum⟩ trivial
      · show ((m.created + 1 : ℕ) : ℤ) ≤ m.concurrency
        push_cast
        exact hcr
      · show m.started ≤ m.created + 1
        omega
      · cases q <;> exact hq
      · show m.concurrency = old + (i + 1)
        omega
    · simp only [Option.some.injEq, Prod.mk.injEq] at h
      obtain ⟨rfl, rfl⟩ := h
      have hq' : q.Ok l { m with concurrency := m.concurrency - 1 } old := by
        cases q <;> exact hq
      obtain ⟨hok, hh⟩ := return_ok hq'
        (show m.concurrency - 1 = old + (m.concurrency - 1 - old) by omega)
      refine .section trivial hl rfl id rfl hm.flag rfl hm (fun _ => ⟨?_, ?_, h₃, h₄⟩) hm.published
        rfl hok hh
      · show (m.created : ℤ) ≤ m.concurrency - 1
        omega
      · show m.concurrency - 1 ≤ l.max
        omega

/-- The next access of `get_or_new_task_control`. -/
theorem new_step {ok : Bool} (n : ℤ) (hm : m.Bounds l) (hp : p.Ok l m)
    (hl : m.lock = some c ↔ p.Holds)
    (hf : p = .newTest ∨ p = .newLock ∨ p = .newLocked ∨ p = .newAlloc ∨ p = .newMin ∨
      p = .newReadMin ∨ p = .newReadFlag ∨ p = .newInit n ∨ p = .newCreate n ∨ p = .newPublish ∨
      p = .newDelete)
    (h : code l c p (.next ok) m = some (m', p')) : Kept l c p p' m m' := by
  obtain rfl | rfl | rfl | rfl | rfl | rfl | rfl | rfl | rfl | rfl | rfl := hf
  · simp only [code, Option.some.injEq, Prod.mk.injEq] at h
    obtain ⟨rfl, rfl⟩ := h
    split_ifs
    · exact .refl hm hl trivial Iff.rfl
    · exact .refl hm hl trivial Iff.rfl
  · simp only [code, Option.ite_none_right_eq_some, Option.some.injEq, Prod.mk.injEq] at h
    obtain ⟨hn, rfl, rfl⟩ := h
    exact .acquire hm hn (hm.synced hn) id trivial id
  · simp only [code, Option.some.injEq, Prod.mk.injEq] at h
    obtain ⟨rfl, rfl⟩ := h
    split_ifs with hr
    · exact .refl hm hl hp Iff.rfl
    · have hpub : m.published = false := by simpa using hr
      exact .refl hm hl hpub Iff.rfl
  · simp only [code] at h
    have hpub : m.published = false := hp
    split at h
    · simp only [Option.some.injEq, Prod.mk.injEq] at h
      obtain ⟨rfl, rfl⟩ := h
      refine .section trivial hl rfl id rfl hm.flag rfl hm (fun _ => ⟨le_rfl, ?_, le_rfl, le_rfl⟩)
        (fun _ => rfl) rfl ⟨hp, rfl, rfl⟩ trivial
      exact hm.nonneg
    · simp only [Option.some.injEq, Prod.mk.injEq] at h
      obtain ⟨rfl, rfl⟩ := h
      exact .refl hm hl (fun _ h => by simp [hpub] at h) Iff.rfl
  · simp only [code, Option.some.injEq, Prod.mk.injEq] at h
    obtain ⟨rfl, rfl⟩ := h
    split_ifs with hr
    · exact .refl hm hl ⟨hp.1, hp.2.1, hp.2.2, hm.minEver hr⟩ Iff.rfl
    · exact .refl hm hl hp Iff.rfl
  · simp only [code, Option.some.injEq, Prod.mk.injEq] at h
    obtain ⟨rfl, rfl⟩ := h
    obtain ⟨h₁, h₂, h₃, h₄⟩ := hp
    exact .refl hm hl ⟨h₁, h₂, h₃, hm.minFlag, fun hme => by simp [h₄] at hme⟩ Iff.rfl
  · simp only [code, Option.some.injEq, Prod.mk.injEq] at h
    obtain ⟨rfl, rfl⟩ := h
    exact .refl hm hl ⟨hp.1, hp.2.1, hp.2.2, hm.flag, fun _ => rfl⟩ Iff.rfl
  · obtain ⟨hpub, halive, hcr, hn, hflag⟩ := hp
    obtain ⟨h₁, h₂, h₃, h₄⟩ := hm.counters halive
    simp only [code] at h
    split at h
    · simp only [Option.some.injEq, Prod.mk.injEq] at h
      obtain ⟨rfl, rfl⟩ := h
      exact .refl hm hl hpub Iff.rfl
    · simp only [Option.some.injEq, Prod.mk.injEq] at h
      obtain ⟨rfl, rfl⟩ := h
      refine .section trivial hl rfl id rfl hm.flag rfl hm (fun _ => ⟨?_, hn, h₃, h₄⟩)
        hm.published rfl ?_ ?_
      · show (m.created : ℤ) ≤ n
        omega
      · cases ok
        · exact hpub
        · exact ⟨hpub, halive, rfl, hflag⟩
      · cases ok <;> trivial
  · obtain ⟨hpub, halive, hn, hflag⟩ := hp
    obtain ⟨h₁, h₂, h₃, h₄⟩ := hm.counters halive
    simp only [code] at h
    split at h
    · split at h
      · simp only [Option.some.injEq, Prod.mk.injEq] at h
        obtain ⟨rfl, rfl⟩ := h
        refine .section trivial hl rfl id rfl hm.flag rfl hm (fun _ => ⟨?_, h₂, h₃, ?_⟩)
          hm.published rfl ⟨hpub, halive, hn, hflag⟩ trivial
        · show ((m.created + 1 : ℕ) : ℤ) ≤ m.concurrency
          push_cast
          omega
        · show m.started ≤ m.created + 1
          omega
      · simp only [Option.some.injEq, Prod.mk.injEq] at h
        obtain ⟨rfl, rfl⟩ := h
        exact .refl hm hl hpub Iff.rfl
    · split at h
      · cases h
      · simp only [Option.some.injEq, Prod.mk.injEq] at h
        obtain ⟨rfl, rfl⟩ := h
        exact .refl hm hl ⟨hpub, halive, fun hme => by rw [hflag hme, hn]⟩ Iff.rfl
  · simp only [code, Option.some.injEq, Prod.mk.injEq] at h
    obtain ⟨rfl, rfl⟩ := h
    obtain ⟨hpub, halive, hflag⟩ := hp
    exact .section trivial hl rfl (fun _ => rfl) rfl hm.flag rfl hm hm.counters (fun _ => halive)
      rfl (fun hme _ => hflag hme) trivial
  · simp only [code, Option.some.injEq, Prod.mk.injEq] at h
    obtain ⟨rfl, rfl⟩ := h
    have hpub : m.published = false := hp
    refine .section trivial hl rfl id rfl hm.flag rfl hm (fun ha => by simp at ha)
      (fun h => ?_) rfl (fun _ h => ?_) trivial
    · have : m.published = true := h
      simp [hpub] at this
    · have : m.published = true := h
      simp [hpub] at this

/-- The next access of `validate_bthread_min_concurrency`. -/
theorem val_step {ok : Bool} (val : ℤ) (ok' : Bool) (hm : m.Bounds l) (hp : p.Ok l m)
    (hl : m.lock = some c ↔ p.Holds)
    (hval : p = .valLocked val → 0 < m.minFlag ∨ val ≤ m.flag)
    (hf : p = .valRange val ∨ p = .valCompare val ∨ p = .valControl val ∨ p = .valLock val ∨
      p = .valLocked val ∨ p = .valUnlock val ok' ∨ p = .valSet val)
    (h : code l c p (.next ok) m = some (m', p')) : Kept l c p p' m m' := by
  have hnn := hm.nonneg
  obtain rfl | rfl | rfl | rfl | rfl | rfl | rfl := hf
  · simp only [code, Option.some.injEq, Prod.mk.injEq] at h
    obtain ⟨rfl, rfl⟩ := h
    split_ifs with hr
    · exact .refl hm hl (by simp only [Pc.Ok]; omega) Iff.rfl
    · exact .refl hm hl trivial Iff.rfl
  · simp only [code, Option.some.injEq, Prod.mk.injEq] at h
    obtain ⟨rfl, rfl⟩ := h
    have hflag := hm.flag
    split_ifs with hr
    · exact .refl hm hl trivial Iff.rfl
    · exact .refl hm hl (by simp only [Pc.Ok]; omega) Iff.rfl
  · simp only [code, Option.some.injEq, Prod.mk.injEq] at h
    obtain ⟨rfl, rfl⟩ := h
    split_ifs with hr
    · exact .refl hm hl ⟨hp, hr⟩ Iff.rfl
    · exact .refl hm hl hp Iff.rfl
  · simp only [code, Option.ite_none_right_eq_some, Option.some.injEq, Prod.mk.injEq] at h
    obtain ⟨hn, rfl, rfl⟩ := h
    exact .acquire hm hn ⟨hp.1, hp.2, hm.synced hn⟩ id trivial id
  · simp only [code, Option.some.injEq, Prod.mk.injEq] at h
    obtain ⟨rfl, rfl⟩ := h
    obtain ⟨hmax, hpub, hs⟩ := hp
    split_ifs with hr
    · have hme : m.minEver = true := by
        by_contra hme
        have hflag := hs (by simpa using hme) hpub
        obtain hv | hv := hval rfl
        · exact hme (hm.minEver hv)
        · omega
      exact .refl hm hl ⟨⟨hme, hm.published hpub, hmax⟩, by omega⟩ Iff.rfl
    · exact .refl hm hl ⟨hmax, hs⟩ Iff.rfl
  · simp only [code, Option.some.injEq, Prod.mk.injEq] at h
    obtain ⟨rfl, rfl⟩ := h
    obtain ⟨hmax, hs⟩ := hp
    cases ok'
    · exact .release hm trivial hs trivial id id
    · exact .release hm trivial hs hmax id id
  · simp only [code, Option.some.injEq, Prod.mk.injEq] at h
    obtain ⟨rfl, rfl⟩ := h
    refine ⟨⟨hm.flag, hp, fun hv => ?_, hm.counters, hm.published, hm.dropped, fun hn hme => ?_,
      hm.nonneg⟩, trivial, hl, fun h => h.elim, fun _ =>
        ⟨.inl rfl, rfl, rfl, rfl, rfl, fun hme => by simp [hme], .inl rfl⟩⟩
    · have : 0 < val := hv
      simp [this]
    · have : m.minEver = false := by
        have : (m.minEver || decide (0 < val)) = false := hme
        simp only [Bool.or_eq_false_iff] at this
        exact this.1
      exact hm.synced hn this

/-- The next access of `signal_task`. -/
theorem sig_step {ok : Bool} (n : ℤ) (hm : m.Bounds l) (hp : p.Ok l m)
    (hl : m.lock = some c ↔ p.Holds)
    (hf : p = .sigMin ∨ p = .sigConcurrency ∨ p = .sigFlag n ∨ p = .sigLock ∨ p = .sigLocked ∨
      p = .sigLockedFlag n)
    (h : code l c p (.next ok) m = some (m', p')) : Kept l c p p' m m' := by
  obtain rfl | rfl | rfl | rfl | rfl | rfl := hf
  · simp only [code, Option.some.injEq, Prod.mk.injEq] at h
    obtain ⟨rfl, rfl⟩ := h
    split_ifs with hr
    · exact .refl hm hl (hm.minEver hr) Iff.rfl
    · exact .refl hm hl trivial Iff.rfl
  · simp only [code, Option.some.injEq, Prod.mk.injEq] at h
    obtain ⟨rfl, rfl⟩ := h
    exact .refl hm hl hp Iff.rfl
  · simp only [code, Option.some.injEq, Prod.mk.injEq] at h
    obtain ⟨rfl, rfl⟩ := h
    split_ifs
    · exact .refl hm hl hp Iff.rfl
    · exact .refl hm hl trivial Iff.rfl
  · simp only [code, Option.ite_none_right_eq_some, Option.some.injEq, Prod.mk.injEq] at h
    obtain ⟨⟨hn, ha⟩, rfl, rfl⟩ := h
    exact .acquire hm hn ⟨hp, ha⟩ id trivial id
  · simp only [code, Option.some.injEq, Prod.mk.injEq] at h
    obtain ⟨rfl, rfl⟩ := h
    exact .refl hm hl ⟨hp.1, hp.2, rfl⟩ Iff.rfl
  · simp only [code, Option.some.injEq, Prod.mk.injEq] at h
    obtain ⟨rfl, rfl⟩ := h
    obtain ⟨hme, ha, rfl⟩ := hp
    have hflag := hm.flag
    split_ifs
    · exact .refl hm hl ⟨⟨hme, ha⟩, by omega⟩ Iff.rfl
    · exact .refl hm hl (fun h => by simp [hme] at h) Iff.rfl

/-- A call outside the sections relies on what only grows. -/
theorem Pc.Ok.of_not_holds (h : p.Ok l m) (hp : ¬p.Holds)
    (hpub : m.published = true → m'.published = true)
    (hmin : m.minEver = true → m'.minEver = true) : p.Ok l m' := by
  cases p <;> first
    | exact absurd trivial hp
    | exact h
    | exact ⟨h.1, hmin h.2⟩
    | exact ⟨h.1, hpub h.2⟩
    | exact hmin h

/-- A call in a section does not notice what calls outside do, unless they store the flag. -/
theorem Pc.Ok.of_outside {q : Pc} (h : p.Ok l m) (ho : Outside c q m m')
    (hq : ∀ num, q = .setStore num → ¬p.Adjusting) : p.Ok l m' := by
  obtain ⟨-, hpub, hconc, hcr, hal, hmin, hflag⟩ := ho
  -- the flag has changed only if the minimum was positive, and nobody is adjusting
  have hfl : p.Adjusting → m'.flag = m.flag := fun ha =>
    hflag.resolve_right fun h => by
      obtain ⟨-, num, hn⟩ := h
      exact hq num hn ha
  have hmf : m'.minEver = false → m.minEver = false ∧ m'.flag = m.flag := fun hme =>
    ⟨by by_contra h; simp [hmin (by simpa using h)] at hme,
      hflag.resolve_right fun h => by simp [hme] at h⟩
  have hsync : m.Synced → m'.Synced := fun hs hme hp => by
    rw [(hmf hme).2, hconc]
    exact hs (hmf hme).1 (hpub ▸ hp)
  have hcaller (k : Caller) (old : ℤ) (hk : k.Ok l m old)
      (ha : ∀ num, k = .set num → m'.flag = m.flag) : k.Ok l m' old := by
    cases k with
    | set num => exact ⟨hpub ▸ hk.1, by rw [ha num rfl]; exact hk.2⟩
    | validate val d => exact ⟨hmin hk.1, hal ▸ hk.2.1, hk.2.2⟩
    | signal => exact ⟨hmin hk.1, hal ▸ hk.2⟩
  have hset (k : Caller) (ha : ∀ num, k = .set num → p.Adjusting) :
      ∀ num, k = .set num → m'.flag = m.flag := fun num hk => hfl (ha num hk)
  cases p with
  | setCompareMin | setNever | setStore => exact ⟨h.1, hmin h.2⟩
  | setLocked => exact ⟨h.1, hsync h.2⟩
  | setFirst | setGreater | setFirstStore => exact ⟨h.1, hpub ▸ h.2⟩
  | setCheck => exact ⟨h.1, hpub ▸ h.2.1, hsync h.2.2⟩
  | setRepair => exact ⟨h.1, hpub ▸ h.2.1, hmin h.2.2⟩
  | setCompare | setDiff => exact ⟨h.1, hpub ▸ h.2.1, by rw [hfl trivial, hconc]; exact h.2.2⟩
  | setFlag => exact ⟨hpub ▸ h.1, by rw [hfl trivial, hconc]; exact h.2⟩
  | setFlagStore => exact ⟨hpub ▸ h.1, by rw [hconc]; exact h.2⟩
  | add k num =>
    refine ⟨?_, by rw [hconc]; exact h.2⟩
    rw [hconc]
    exact hcaller k _ h.1 (hset k fun num hk => by rw [hk]; trivial)
  | addInc k old i num =>
    exact ⟨hcaller k _ h.1 (hset k fun num hk => by rw [hk]; trivial), by rw [hconc]; exact h.2.1,
      h.2.2⟩
  | addCreate k old i num =>
    exact ⟨hcaller k _ h.1 (hset k fun num hk => by rw [hk]; trivial), by rw [hconc]; exact h.2.1,
      h.2.2.1, h.2.2.2.1, h.2.2.2.2.1, by rw [hcr, hconc]; exact h.2.2.2.2.2⟩
  | newLocked | unlock => exact hsync h
  | newAlloc | newDelete => exact hpub.trans h
  | newMin | newReadFlag => exact ⟨hpub.trans h.1, hal.trans h.2.1, hcr.trans h.2.2⟩
  | newReadMin => exact ⟨hpub.trans h.1, hal.trans h.2.1, hcr.trans h.2.2.1, hmin h.2.2.2⟩
  | newInit =>
    exact ⟨hpub.trans h.1, hal.trans h.2.1, hcr.trans h.2.2.1, h.2.2.2.1, fun hme => by
      rw [(hmf hme).2]; exact h.2.2.2.2 (hmf hme).1⟩
  | newCreate =>
    exact ⟨hpub.trans h.1, hal.trans h.2.1, hconc.trans h.2.2.1, fun hme => by
      rw [(hmf hme).2]; exact h.2.2.2 (hmf hme).1⟩
  | newPublish =>
    exact ⟨hpub.trans h.1, hal.trans h.2.1, fun hme => by
      rw [(hmf hme).2, hconc]; exact h.2.2 (hmf hme).1⟩
  | valLock => exact ⟨h.1, hpub.trans h.2⟩
  | valLocked => exact ⟨h.1, hpub.trans h.2.1, hsync h.2.2⟩
  | valUnlock => exact ⟨h.1, hsync h.2⟩
  | sigConcurrency | sigFlag | sigLock => exact hmin h
  | sigLocked => exact ⟨hmin h.1, hal.trans h.2⟩
  | sigLockedFlag => exact ⟨hmin h.1, hal.trans h.2.1, h.2.2.trans hconc.symm⟩
  | _ => exact h

/-- One access. -/
theorem code_step (hm : m.Bounds l) (hp : p.Ok l m) (hl : m.lock = some c ↔ p.Holds)
    (hval : ∀ val, p = .valLocked val → 0 < m.minFlag ∨ val ≤ m.flag)
    (h : code l c p k m = some (m', p')) : Kept l c p p' m m' := by
  cases k with
  | call f => exact code_call hm hl h
  | next ok =>
    cases p with
    | idle => simp [code] at h
    | setRange num | setMin num | setCompareMin num | setNever num | setStore num
    | setControl num | setLess num | setEqual num | setLock num =>
      exact set_step num hm hp hl (by simp) h
    | setLocked num | setFirst num | setGreater num | setFirstStore num | setCheck num
    | setRepair num | setCompare num | setDiff num | setFlag num | setFlagStore num =>
      exact setLocked_step num hm hp hl (by simp) h
    | unlock => exact setLocked_step 0 hm hp hl (by simp) h
    | add q num => exact add_step q 0 0 num hm hp hl (by simp) h
    | addInc q old i num | addCreate q old i num =>
      exact add_step q old i num hm hp hl (by simp) h
    | newTest | newLock | newLocked | newAlloc | newMin | newReadMin | newReadFlag | newPublish
    | newDelete => exact new_step 0 hm hp hl (by simp) h
    | newInit n | newCreate n => exact new_step n hm hp hl (by simp) h
    | valRange val | valCompare val | valControl val | valLock val | valLocked val | valSet val =>
      exact val_step val true hm hp hl (hval val) (by simp) h
    | valUnlock val ok' => exact val_step val ok' hm hp hl (hval val) (by simp) h
    | sigMin | sigConcurrency | sigLock | sigLocked => exact sig_step 0 hm hp hl (by simp) h
    | sigFlag n | sigLockedFlag n => exact sig_step n hm hp hl (by simp) h

end

/-- The invariant. -/
structure Inv (l : Limits) (s : Conc.Config CallId Store Pc) : Prop where
  bounds : s.mem.Bounds l
  ok : ∀ c, (s.pc c).Ok l s.mem
  lock : ∀ c, s.mem.lock = some c ↔ (s.pc c).Holds

/-- **The invariant holds** in every state reached by serial steps.

**Proof sketch.** Induction on the run. An access in a section of the mutex keeps what the calls
outside rely on, which only grows; an access outside keeps what the call inside relies on, as it
does not store the flag while that call is adjusting it. -/
theorem inv {l : Limits} {s : Conc.Config CallId Store Pc}
    (hs : (machine l).ReachableIf Serial s) : Inv l s := by
  refine Conc.Program.invariant (C := Serial) (I := Inv l) (fun m hm => ?_) ?_ hs
  · refine ⟨⟨hm.flag, hm.minFlag, by simp [hm.minEver], by simp [hm.alive], by simp [hm.published],
      hm.dropped,
      fun _ _ hp => by simp [hm.published] at hp, hm.limit⟩, fun c => trivial, fun c => ?_⟩
    simp [hm.lock, Pc.Holds]
  rintro s c k m p - ⟨hb, hok, hl⟩ ⟨hstore, hval⟩ hc
  have hc : code l c (s.pc c) k s.mem = some (m, p) := hc
  obtain ⟨hb', hok', hlc, hin, hout⟩ := code_step hb (hok c) (hl c) hval hc
  refine ⟨hb', fun d => ?_, fun d => ?_⟩
  · by_cases hd : d = c
    · subst hd
      simpa using hok'
    · simp only [update_of_ne hd]
      by_cases hh : (s.pc c).Holds
      · obtain ⟨-, hpub, hmin⟩ := hin hh
        refine (hok d).of_not_holds (fun hhd => ?_) hpub hmin
        have := (hl d).mpr hhd
        rw [(hl c).mpr hh] at this
        exact hd (Option.some.inj this).symm
      · exact (hok d).of_outside (hout hh) fun num hn => hstore num hn d
  · by_cases hd : d = c
    · subst hd
      simpa using hlc
    · simp only [update_of_ne hd, ← hl d]
      by_cases hh : (s.pc c).Holds
      · have hcl := (hl c).mpr hh
        obtain ⟨hlock, -⟩ := hin hh
        have hcd : c ≠ d := fun h => hd h.symm
        obtain hlock | hlock := hlock <;> simp [hlock, hcl, hcd]
      · obtain hlock | ⟨hnone, hlock⟩ := (hout hh).lock
        · rw [hlock]
        · have hcd : c ≠ d := fun h => hd h.symm
          simp [hnone, hlock, hcd]

/-- **The bounds hold** in every state reached by serial steps. -/
theorem sized {l : Limits} {s : Conc.Config CallId Store Pc}
    (hs : (machine l).ReachableIf Serial s) : Sized l s := by
  obtain ⟨hb, hok, -⟩ := inv hs
  refine ⟨fun ha => ?_, hb.flag, hb.dropped, fun hm hl hp => hb.synced hl hm hp,
    fun hm c num hc => ?_⟩
  · obtain ⟨h₁, h₂, h₃, h₄⟩ := hb.counters ha
    exact ⟨by omega, h₂⟩
  · have := (hok c)
    rw [hc] at this
    obtain ⟨-, -, hm'⟩ := this
    simp [hm] at hm'

/-- The flags before the start. -/
def Store.initial : Store where
  lock := none
  flag := 9
  minFlag := 0
  neverSet := true
  alive := false
  published := false
  concurrency := 0
  created := 0
  started := 0
  ngroup := 0
  dropped := false
  minEver := false

/-- The flags are in range. -/
theorem Store.initial_initial : Store.initial.Initial ⟨4, 1024⟩ :=
  ⟨by decide, rfl, by decide, by decide, rfl, rfl, rfl, rfl⟩

/-- Steps of one call that all succeed. -/
def steps (c : CallId) (n : ℕ) : List (CallId × Move) := List.replicate n (c, .next true)

/-- `get_or_new_task_control` starts nine workers, the first of which adds its group. -/
def start : List (CallId × Move) :=
  (0, .call .getOrNewTaskControl) :: steps 0 16 ++
  [(1, .call (.worker true)), (1, .next true)] ++ steps 0 3

/-- `bthread_setconcurrency(10)` creates one worker. -/
def grow : List (CallId × Move) :=
  start ++ (2, .call (.setconcurrency 10)) :: steps 2 17

/-- Then the minimum becomes 4, and `bthread_setconcurrency(12)` is about to store the flag. -/
def growAndStore : List (CallId × Move) :=
  grow ++ (3, .call (.setMinConcurrency 4)) :: steps 3 7 ++
    (4, .call (.setconcurrency 12)) :: steps 4 4

/-- `bthread_setconcurrency(10)` has created a worker when the minimum becomes positive and
`bthread_setconcurrency(1024)` stores the flag. -/
def overtaken : List (CallId × Move) :=
  start ++ [(2, .call (.setconcurrency 10)), (2, .next true), (2, .next true),
    (3, .call (.setMinConcurrency 4))] ++ steps 3 6 ++ steps 2 12 ++
  [(3, .next true), (4, .call (.setconcurrency 1024))] ++ steps 4 5 ++ steps 2 2

/-- A check that a step is serial. -/
def serial (s : Conc.Config CallId Store Pc) (x : CallId × Move) : Bool :=
  match s.pc x.1 with
  | .setStore _ => false
  | .valLocked val => decide (val ≤ s.mem.flag)
  | _ => true

/-- What the check says. -/
theorem serial_spec {s : Conc.Config CallId Store Pc} {x : CallId × Move}
    (h : serial s x = true) : Serial s x := by
  refine ⟨fun num hn => ?_, fun val hv => .inr ?_⟩
  · simp [serial, hn] at h
  · simpa [serial, hv] using h

/-- The bounds after a worker was created on demand and the flag was stored without the mutex. -/
theorem sized_grow : ∃ s : Conc.Config CallId Store Pc, s.mem.concurrency = 10 ∧
    s.mem.minFlag = 4 ∧ s.mem.flag = 12 ∧ s.mem.ngroup = 1 ∧ Sized ⟨4, 1024⟩ s := by
  obtain ⟨s, h, hc, hp, ha, s', h', hcon, hmin, hflag, hn⟩ : ∃ s,
      (machine ⟨4, 1024⟩).exec ⟨.initial, fun _ => .idle⟩ growAndStore = some s ∧
      (machine ⟨4, 1024⟩).checked serial ⟨.initial, fun _ => .idle⟩ growAndStore = true ∧
      s.pc 4 = .setStore 12 ∧ (∀ d, ¬(s.pc d).Adjusting) ∧
      ∃ s', (machine ⟨4, 1024⟩).next s (4, .next true) = some s' ∧
      s'.mem.concurrency = 10 ∧ s'.mem.minFlag = 4 ∧ s'.mem.flag = 12 ∧ s'.mem.ngroup = 1 := by
    refine ⟨_, rfl, rfl, rfl, ?_, _, rfl, rfl, rfl, rfl, rfl⟩
    rintro (_ | _ | _ | _ | _ | d) <;> exact id
  have hs : (machine ⟨4, 1024⟩).ReachableIf Serial s :=
    .of_checked serial (fun _ _ => serial_spec) (.of_init ⟨Store.initial_initial, rfl⟩) h hc
  have hs' : (machine ⟨4, 1024⟩).ReachableIf Serial s' := by
    refine hs.step ⟨fun num _ => ha, fun val hv => ?_⟩ h'
    rw [hp] at hv
    cases hv
  exact ⟨s', hcon, hmin, hflag, hn, sized hs'⟩

/-- **The flag can exceed its bound**: the sum that is stored counts the value stored meanwhile. -/
theorem not_sized : ∃ s, (machine ⟨4, 1024⟩).Reachable s ∧ ¬Sized ⟨4, 1024⟩ s := by
  obtain ⟨s, h, hf⟩ : ∃ s,
      (machine ⟨4, 1024⟩).exec ⟨.initial, fun _ => .idle⟩ overtaken = some s ∧
        s.mem.flag = 1025 := ⟨_, rfl, rfl⟩
  refine ⟨s, Conc.Machine.Reachable.exec (.of_init ⟨Store.initial_initial, rfl⟩) h, fun hS => ?_⟩
  have := hS.flag
  simp [hf] at this

end Bthread.Sizing
