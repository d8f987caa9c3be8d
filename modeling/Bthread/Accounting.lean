import Bthread.Lib.Ledger
import Bthread.Isolation

set_option relaxedAutoImplicit false
set_option autoImplicit false

/-!
# CPU time and switches

The accounts that `sched_to` keeps: `_last_run_ns`, `_cumulated_cputime_ns` and `_nswitch` of a
group, and the `stat` of a `TaskMeta`, laid over the context switches. The books are compared with
two ledgers: what `sched_to` has charged, and what the workers have really executed from one call of
`sched_to` to the next.

## Main definitions

* `Bthread.Accounting.Books`, `Bthread.Accounting.Books.schedTo` — the accounts.
* `Bthread.Accounting.machine` — the machine.
* `Bthread.Accounting.Accounted` — the accounts are conserved, and charge what was executed.

## Main results

* `Bthread.Accounting.accounted` — they do in runs whose steps are in their own group.
* `Bthread.Accounting.not_accounted` — they do not in all runs.
-/

namespace Bthread.Accounting

open Context
open Conc Conc.Ledger Conc.Machine
open Function (update update_self update_of_ne)

variable {ι : Type*}

/-- `TaskStatistics`. -/
structure TaskStatistics (ι : Type*) where
  /-- `cputime_ns`. -/
  cputimeNs : ι
  /-- `nswitch`. -/
  nswitch : ι
  deriving DecidableEq, Repr

/-- `EMPTY_STAT`. -/
def emptyStat [Zero ι] : TaskStatistics ι := ⟨0, 0⟩

/-- The accounts of all groups and tasks. Times and counts are taken from a ring of integers, exact
or modulo a power of two. -/
structure Books (ι : Type*) where
  /-- `_last_run_ns`. -/
  lastRunNs : GroupId → ι
  /-- `_cumulated_cputime_ns`. -/
  cumulatedCputimeNs : GroupId → ι
  /-- `_nswitch`. -/
  nswitch : GroupId → ι
  /-- `stat`. -/
  stat : TaskRef → TaskStatistics ι

/-- What was charged: the group whose `_last_run_ns` says since when, or the worker, is the
clock. -/
abbrev Charges (ι : Type*) := Ledger GroupId TaskRef ι

/-- The main task of a group. -/
def isMain : TaskRef → Bool
  | .main _ => true
  | .slot _ => false

/-- A call of `sched_to`. -/
structure SchedTo where
  /-- The worker that calls it. -/
  worker : GroupId
  /-- `*pg`. -/
  group : GroupId
  /-- The task whose code calls it. -/
  caller : TaskRef
  deriving DecidableEq, Repr

/-- The call of `sched_to` that a step makes. -/
def called (s : State) : Move → Option SchedTo
  | .runTask w _ _ =>
    match (s.thread w).cont with
    | .code (.runMainTask r) => some ⟨w, r.dummy, .main r.this⟩
    | _ => none
  | .suspend w _ _ _ =>
    match (s.thread w).cont with
    -- `g` is `tls_task_group`
    | .code f => f.caller.map fun t => ⟨w, w, t⟩
    | _ => none
  | .endTask w _ _ =>
    match (s.thread w).cont with
    | .code (.returnKeytable _ m g) => some ⟨w, g, m⟩
    | _ => none
  | _ => none

section Machine

variable [AddCommGroupWithOne ι]

/-- What `sched_to` does to the accounts at its start; `c` is `g->_cur_meta`. -/
def Books.schedTo (g : GroupId) (c : TaskRef) (now : ι) (b : Books ι) : Books ι :=
  let elpNs := now - b.lastRunNs g
  { lastRunNs := update b.lastRunNs g now
    stat := update b.stat c ⟨(b.stat c).cputimeNs + elpNs, (b.stat c).nswitch + 1⟩
    -- `if (cur_meta->tid != g->main_tid())`
    cumulatedCputimeNs := if c ≠ .main g then
        update b.cumulatedCputimeNs g (b.cumulatedCputimeNs g + elpNs)
      else b.cumulatedCputimeNs
    nswitch := update b.nswitch g (b.nswitch g + 1) }

/-- `get_cumulated_worker_time` in nanoseconds, when `_groups` lists `groups`. -/
def Books.getCumulatedWorkerTime (b : Books ι) (groups : Finset GroupId) : ι :=
  ∑ g ∈ groups, b.cumulatedCputimeNs g

/-- `get_cumulated_switch_count`, when `_groups` lists `groups`. -/
def Books.getCumulatedSwitchCount (b : Books ι) (groups : Finset GroupId) : ι :=
  ∑ g ∈ groups, b.nswitch g

/-- A state of all workers, with the accounts. -/
structure Account (ι : Type*) where
  /-- The groups, workers, tasks and stacks. -/
  context : State
  /-- The accounts. -/
  books : Books ι
  /-- `_last_run_ns` at the end of `init`. -/
  initRunNs : GroupId → ι
  /-- What was charged to a task before its `stat` was last set to `EMPTY_STAT`. -/
  before : TaskRef → TaskStatistics ι
  /-- What `sched_to` has charged: the time of a group, to its `_cur_meta`. -/
  charges : Charges ι
  /-- When a worker has last called `sched_to`. -/
  since : GroupId → ι
  /-- What the workers have executed: from one call of `sched_to` to the next, the task whose code
  makes the second one. -/
  executions : Charges ι

/-- `m->stat = EMPTY_STAT` for slot `n`. -/
def Account.start (n : ℕ) (x : Account ι) : Account ι :=
  { x with
    books := { x.books with stat := update x.books.stat (.slot n) emptyStat }
    before := update x.before (.slot n)
      ⟨total Entry.amount (·.account = .slot n) x.charges,
        total (fun _ => 1) (·.account = .slot n) x.charges⟩ }

/-- A call of `sched_to`, with the time it reads. -/
def Account.schedTo (c : SchedTo) (now : ι) (x : Account ι) : Account ι :=
  let m := x.context.cur c.group
  { x with
    books := x.books.schedTo c.group m now
    charges := ⟨c.group, m, x.books.lastRunNs c.group, now⟩ :: x.charges
    since := update x.since c.worker now
    executions := ⟨c.worker, c.caller, x.since c.worker, now⟩ :: x.executions }

/-- What a step does to the accounts. -/
def Account.book (x : Account ι) (a : Move) (now : ι) : Account ι :=
  match a with
  | .start _ n _ => x.start n
  | a =>
    match called x.context a with
    | some c => x.schedTo c now
    | none => x

/-- `TaskGroup::init` of every group, before anything was started. -/
structure Account.Initial (x : Account ι) : Prop where
  context : x.context.Initial
  lastRunNs : x.books.lastRunNs = x.initRunNs
  cumulatedCputimeNs : ∀ g, x.books.cumulatedCputimeNs g = 0
  nswitch : ∀ g, x.books.nswitch g = 0
  main : ∀ g, x.books.stat (.main g) = emptyStat
  -- a slot has any `stat` before it is given out
  before : ∀ t, (x.books.stat t).cputimeNs + (x.before t).cputimeNs = 0 ∧
    (x.books.stat t).nswitch + (x.before t).nswitch = 0
  charges : x.charges = []
  since : x.since = x.initRunNs
  executions : x.executions = []

/-- The machine of all workers, with the time that a step reads. -/
def machine : Machine (Account ι) (Move × ι) where
  init := Account.Initial
  next x a := (Context.next x.context a.1).map fun s => { x.book a.1 a.2 with context := s }

/-- The accounts are conserved, and charge what was executed. -/
structure Accounted (x : Account ι) : Prop where
  /-- The time of a group is that of its main task and the time it has cumulated. -/
  split : ∀ g, x.books.cumulatedCputimeNs g + (x.books.stat (.main g)).cputimeNs =
    x.books.lastRunNs g - x.initRunNs g
  /-- All groups together have cumulated what was charged to bthreads. -/
  cumulated : ∀ groups : Finset GroupId, (∀ e ∈ x.charges, e.clock ∈ groups) →
    x.books.getCumulatedWorkerTime groups =
      total Entry.amount (fun e => ¬isMain e.account) x.charges
  /-- All groups together have counted every switch that was charged. -/
  nswitch : ∀ groups : Finset GroupId, (∀ e ∈ x.charges, e.clock ∈ groups) →
    x.books.getCumulatedSwitchCount groups = x.charges.length
  /-- The statistics of a task are what was charged to it since they were `EMPTY_STAT`. -/
  stat : ∀ t, (x.books.stat t).cputimeNs + (x.before t).cputimeNs =
      total Entry.amount (·.account = t) x.charges ∧
    (x.books.stat t).nswitch + (x.before t).nswitch =
      total (fun _ => 1) (·.account = t) x.charges
  /-- A task is charged the intervals in which it was executed, all of them and once. -/
  executed : x.charges = x.executions
  /-- The intervals of a group follow each other. -/
  chained : ∀ g, Chained g (x.initRunNs g) (x.books.lastRunNs g) x.charges

/-! ## The invariant -/

/-- The accounts against the two ledgers. -/
structure Balanced (x : Account ι) : Prop where
  cumulated : ∀ g, x.books.cumulatedCputimeNs g =
    total Entry.amount (fun e => e.clock = g ∧ ¬isMain e.account) x.charges
  nswitch : ∀ g, x.books.nswitch g = total (fun _ => 1) (·.clock = g) x.charges
  stat : ∀ t, (x.books.stat t).cputimeNs + (x.before t).cputimeNs =
      total Entry.amount (·.account = t) x.charges ∧
    (x.books.stat t).nswitch + (x.before t).nswitch =
      total (fun _ => 1) (·.account = t) x.charges
  before : ∀ g, (x.before (.main g)).cputimeNs = 0
  chained : ∀ g, Chained g (x.initRunNs g) (x.books.lastRunNs g) x.charges
  own : ∀ e ∈ x.charges, ∀ g, e.account = .main g → e.clock = g
  since : x.since = x.books.lastRunNs
  executed : x.charges = x.executions

variable {x : Account ι}

/-- The accounts balance initially. -/
theorem Account.Initial.balanced (h : x.Initial) : Balanced x := by
  obtain ⟨-, hl, hc, hn, hm, hb, he, hs, hx⟩ := h
  refine ⟨fun g => ?_, fun g => ?_, fun t => ?_, fun g => ?_, fun g => ?_, ?_, ?_, ?_⟩
  · rw [hc, he, total_nil]
  · rw [hn, he, total_nil]
  · rw [he]
    exact hb t
  · have hb := (hb (.main g)).1
    rw [hm, emptyStat, zero_add] at hb
    exact hb
  · rw [he, hl]
    rfl
  · simp [he]
  · rw [hs, hl]
  · rw [he, hx]

/-- Starting a bthread keeps the balance. -/
theorem Balanced.start (h : Balanced x) (n : ℕ) : Balanced (x.start n) where
  cumulated := h.cumulated
  nswitch := h.nswitch
  stat t := by
    by_cases ht : t = .slot n
    · subst ht
      simp [Account.start, emptyStat]
    · simpa [Account.start, update_of_ne ht] using h.stat t
  before g := by simpa [Account.start] using h.before g
  chained := h.chained
  own := h.own
  since := h.since
  executed := h.executed

/-- A call of `sched_to` keeps the balance, if it goes to the group of its worker and the current
task of the group is the one that calls.

**Proof sketch.** The charge is what was executed, as the worker has called `sched_to` last when
`_last_run_ns` was set; and every sum gains the amount that its entry in the books gains. -/
theorem Balanced.schedTo {c : SchedTo} (h : Balanced x) (hg : c.group = c.worker)
    (hc : x.context.cur c.worker = c.caller)
    (hm : ∀ g, c.caller = .main g → g = c.worker) (now : ι) : Balanced (x.schedTo c now) := by
  obtain ⟨w, g, m⟩ := c
  obtain rfl : g = w := hg
  obtain rfl : x.context.cur g = m := hc
  have hmain : isMain (x.context.cur g) = true ↔ x.context.cur g = .main g := by
    cases hk : x.context.cur g with
    | main g' =>
      obtain rfl : g' = g := hm g' hk
      simp [isMain]
    | slot n => simp [isMain]
  refine ⟨fun g' => ?_, fun g' => ?_, fun t => ?_, h.before, fun g' => ?_, ?_, ?_, ?_⟩
  · simp only [Account.schedTo, Books.schedTo, total_cons, ← h.cumulated, hmain]
    by_cases hk : x.context.cur g = .main g
    · simp [hk]
    · by_cases hg : g' = g
      · subst hg
        simp [hk, Entry.amount, add_comm]
      · simp [hk, update_of_ne hg, Ne.symm hg]
  · simp only [Account.schedTo, Books.schedTo, total_cons, ← h.nswitch]
    by_cases hg : g' = g
    · subst hg
      simp [add_comm]
    · simp [update_of_ne hg, Ne.symm hg]
  · simp only [Account.schedTo, Books.schedTo, total_cons, ← (h.stat t).1, ← (h.stat t).2]
    by_cases ht : t = x.context.cur g
    · subst ht
      simp only [update_self, if_true, Entry.amount]
      constructor <;> abel
    · simp [update_of_ne ht, Ne.symm ht]
  · by_cases hg : g' = g
    · subst hg
      simpa [Account.schedTo, Books.schedTo] using (h.chained g').cons rfl rfl
    · simpa [Account.schedTo, Books.schedTo, update_of_ne hg] using
        (h.chained g').cons_of_ne (Ne.symm hg)
  · intro e he g' hk
    obtain rfl | he := List.mem_cons.mp he
    · exact (hm g' hk).symm
    · exact h.own e he g' hk
  · simp [Account.schedTo, Books.schedTo, h.since]
  · simp [Account.schedTo, h.since, h.executed]

/-! ## Runs -/

/-- The step is in its own group. -/
def Own (x : Account ι) (a : Move × ι) : Prop := InOwnGroup x.context a.1

/-- A check that a step is in its own group. -/
def own (x : Account ι) (a : Move × ι) : Bool := inOwnGroup x.context a.1

/-- The task whose code calls `sched_to` is the current one, in the group of its worker. -/
theorem called_own {s : State} {a : Move} {c : SchedTo} (h : Good s) (ha : InOwnGroup s a)
    (hc : called s a = some c) : c.group = c.worker ∧ s.cur c.worker = c.caller := by
  cases a with
  | runTask w n o =>
    obtain ⟨y, -, hk⟩ := (h.worker w).cont
    simp only [called] at hc
    split at hc
    next r hr =>
      obtain rfl := Option.some.inj hc
      rw [hr] at hk
      obtain ⟨rfl, hcur, -⟩ := hk
      exact ⟨rfl, hcur⟩
    next => cases hc
  | suspend w how t o =>
    obtain ⟨y, -, hk⟩ := (h.worker w).cont
    simp only [called] at hc
    split at hc
    next f hf =>
      obtain ⟨t, ht, rfl⟩ := Option.map_eq_some_iff.mp hc
      rw [hf] at hk
      refine ⟨rfl, ?_⟩
      cases f with
      | runMainTask r =>
        obtain ⟨rfl, hcur, -⟩ := hk
        exact hcur.trans (Option.some.inj ht)
      | fn b m => exact hk.2.1.symm.trans (Option.some.inj ht)
      | returnKeytable b m g => exact hk.2.1.symm.trans (Option.some.inj ht)
      | endingSched b => cases ht
    next => cases hc
  | endTask w t o =>
    obtain ⟨y, -, hk⟩ := (h.worker w).cont
    simp only [called] at hc
    split at hc
    next b m g hf =>
      obtain rfl := Option.some.inj hc
      rw [hf] at hk
      exact ⟨ha w t o rfl b m g hf, hk.2.1.symm⟩
    next => cases hc
  | _ => cases hc

/-- A step of the accounts is a step of the workers. -/
theorem next_context {a : Move × ι} {x' : Account ι} (h : machine.next x a = some x') :
    Context.machine.next x.context a.1 = some x'.context ∧
      x' = { x.book a.1 a.2 with context := x'.context } := by
  obtain ⟨s, hs, rfl⟩ := Option.map_eq_some_iff.mp h
  exact ⟨hs, rfl⟩

/-- The workers run as they do without the accounts. -/
theorem reachableIf_context (h : machine.ReachableIf Own x) :
    Context.machine.ReachableIf InOwnGroup x.context :=
  h.invariant (I := fun x => Context.machine.ReachableIf InOwnGroup x.context)
    (fun x (h₀ : x.Initial) => ReachableIf.of_init (s := x.context) h₀.context)
    fun _ _ _ _ hi hC hn => hi.step hC (next_context hn).1

/-- The accounts do not look at the workers. -/
theorem Balanced.setContext (h : Balanced x) (s : State) : Balanced { x with context := s } :=
  ⟨h.cumulated, h.nswitch, h.stat, h.before, h.chained, h.own, h.since, h.executed⟩

/-- A step in its own group keeps the balance. -/
theorem Balanced.book {a : Move × ι} (h : Balanced x) (hs : Good x.context) (ha : Own x a) :
    Balanced (x.book a.1 a.2) := by
  unfold Account.book
  split
  next p n ty _ => exact h.start n
  next =>
    split
    next c hc =>
      obtain ⟨hg, hm⟩ := called_own hs ha hc
      refine h.schedTo hg hm (fun g hk => ?_) a.2
      obtain hcur | ⟨n, hcur, -⟩ := (hs.worker c.worker).cur
      · rw [hcur] at hm
        exact (TaskRef.main.inj (hm.trans hk)).symm
      · rw [hm, hk] at hcur
        cases hcur
    next => exact h

/-- The accounts balance in every run whose steps are in their own group. -/
theorem balanced (h : machine.ReachableIf Own x) : Balanced x := by
  refine h.invariant (I := Balanced) (fun x (h₀ : x.Initial) => h₀.balanced)
    fun x a x' hx hb ha hn => ?_
  rw [(next_context hn).2]
  exact (hb.book (good (reachableIf_context hx)) ha).setContext _

/-- A main task is charged by its own group. -/
theorem Balanced.main_iff (h : Balanced x) {e : Entry GroupId TaskRef ι} (he : e ∈ x.charges)
    (g : GroupId) : e.account = .main g ↔ e.clock = g ∧ isMain e.account = true := by
  constructor
  · intro hk
    exact ⟨h.own e he g hk, by rw [hk]; rfl⟩
  · rintro ⟨rfl, hk⟩
    cases hm : e.account with
    | main g' => rw [h.own e he g' hm]
    | slot n =>
      rw [hm] at hk
      cases hk

/-- **CPU time and switches are accounted for** in every run whose steps are in their own group.

**Proof sketch.** The time of a group, from the end of `init` to `_last_run_ns`, is the sum of its
charges, which are split between its main task and the others. -/
theorem accounted (h : machine.ReachableIf Own x) : Accounted x := by
  have hb := balanced h
  refine ⟨fun g => ?_, fun gs hgs => ?_, fun gs hgs => ?_, hb.stat, hb.executed, hb.chained⟩
  · have hmain : (x.books.stat (.main g)).cputimeNs =
        total Entry.amount (fun e => e.clock = g ∧ isMain e.account) x.charges := by
      have hs := (hb.stat (.main g)).1
      rw [hb.before, add_zero] at hs
      rw [hs]
      exact total_congr _ fun e he => hb.main_iff he g
    rw [hb.cumulated, hmain, add_comm, ← (hb.chained g).total_eq]
    exact (total_split _ _ _).symm
  · simp only [Books.getCumulatedWorkerTime, hb.cumulated]
    exact sum_total _ _ hgs
  · calc x.books.getCumulatedSwitchCount gs
        = ∑ g ∈ gs, total (fun _ => 1) (fun e => e.clock = g ∧ True) x.charges := by
          simp only [Books.getCumulatedSwitchCount, hb.nswitch, and_true]
      _ = total (fun _ => 1) (fun _ => True) x.charges := sum_total _ _ hgs
      _ = x.charges.length := total_one

end Machine

/-- Steps with the times they read. -/
def timed (as : List Move) : List (Move × ℤ) := as.zipIdx.map fun a => (a.1, a.2)

/-- The first state, at time `0`. -/
def Account.initial : Account ℤ where
  context := .initial
  books := ⟨fun _ => 0, fun _ => 0, fun _ => 0, fun _ => emptyStat⟩
  initRunNs _ := 0
  before _ := emptyStat
  charges := []
  since _ := 0
  executions := []

/-- The first state is initial. -/
theorem Account.initial_initial : Account.initial.Initial :=
  ⟨State.initial_initial, rfl, fun _ => rfl, fun _ => rfl, fun _ => rfl, fun _ => ⟨rfl, rfl⟩, rfl,
    rfl, rfl⟩

/-- A bthread that is switched out and in and ends, and one that begins after it. -/
theorem accounted_lifetime : ∃ x : Account ℤ, x.charges.length = 5 ∧
    x.charges = x.executions ∧ x.books.getCumulatedSwitchCount {0, 1} = 5 := by
  obtain ⟨x, h, hl, hc⟩ : ∃ x, machine.exec Account.initial (timed lifetime) = some x ∧
      x.charges.length = 5 ∧ x.charges.map Entry.clock = [1, 1, 1, 0, 0] := ⟨_, rfl, rfl, rfl⟩
  have hx : machine.ReachableIf Own x :=
    .of_checked own (fun _ _ => inOwnGroup_spec) (.of_init Account.initial_initial) h rfl
  have ha := accounted hx
  refine ⟨x, hl, ha.executed, (ha.nswitch {0, 1} fun e he => ?_).trans (by rw [hl]; rfl)⟩
  have hk : e.clock ∈ [1, 1, 1, 0, 0] := hc ▸ List.mem_map_of_mem he
  have hk' : e.clock = 1 ∨ e.clock = 0 := by simpa using hk
  rcases hk' with hk | hk <;> simp [hk]

/-- **A bthread can be charged that was never entered**: the group that the ended bthread has left
has it as its current task while its worker waits for tasks. -/
theorem not_accounted : ∃ x : Account ℤ, machine.Reachable x ∧
    (x.context.task (.slot 1)).called = false ∧ (∃ e ∈ x.charges, e.account = .slot 1) ∧
      ¬Accounted x := by
  obtain ⟨x, h, hk, hc, he⟩ : ∃ x, machine.exec Account.initial (timed goesOn) = some x ∧
      (x.context.task (.slot 1)).called = false ∧
      (.slot 1) ∈ x.charges.map Entry.account ∧ (.slot 1) ∉ x.executions.map Entry.account :=
    ⟨_, rfl, rfl, by decide, by decide⟩
  refine ⟨x, Reachable.exec (.of_init Account.initial_initial) h, hk,
    List.mem_map.mp hc, fun hA => he ?_⟩
  rw [← hA.executed]
  exact hc

end Bthread.Accounting
