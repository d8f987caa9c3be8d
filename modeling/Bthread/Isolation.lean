import Bthread.Switches

set_option relaxedAutoImplicit false
set_option autoImplicit false

/-!
# Stacks, callbacks and thread-local variables of bthreads

What the invariant of the context switches says of stacks and slots, of the calls of user functions,
of the callbacks given to `set_remained`, of the groups a worker uses and of the thread-local
variables that bthreads see. All of it fails once `task_runner` goes on after `return_keytable` with
a `g` that is not the group of its worker any more.

## Main definitions

* `Bthread.Context.StacksOwned`, `Bthread.Context.EnteredOnce`, `Bthread.Context.CallbacksOnce`,
  `Bthread.Context.Confined`, `Bthread.Context.ContextKept`.

## Main results

* `Bthread.Context.stacksOwned`, `Bthread.Context.enteredOnce`, `Bthread.Context.callbacksOnce`,
  `Bthread.Context.confined`, `Bthread.Context.contextKept` — they hold in runs whose steps are in
  their own group.
* `Bthread.Context.not_stacksOwned`, `Bthread.Context.not_enteredOnce`,
  `Bthread.Context.not_callbacksOnce`, `Bthread.Context.not_confined`,
  `Bthread.Context.not_contextKept` — they do not hold in all runs.
-/

namespace Bthread.Context

open Function (update)

variable {s : State}

/-- A check that a step is in its own group. -/
def inOwnGroup (s : State) : Move → Bool
  | .endTask w _ _ =>
    match (s.thread w).cont with
    | .code (.returnKeytable _ _ g) => g == w
    | _ => true
  | _ => true

/-- What the check says. -/
theorem inOwnGroup_spec {x : Move} (h : inOwnGroup s x = true) : InOwnGroup s x := by
  rintro w t o rfl b m g hk
  simpa [inOwnGroup, hk] using h

/-- The first state. -/
def State.initial : State where
  group g := ⟨.main g, none, 0, 0, 0⟩
  thread w := ⟨0, 0, 0, .code (.runMainTask ⟨w, w⟩)⟩
  task
    | .main g => ⟨some (.main g), .main, 0, true, .running g, 1, 0⟩
    | .slot _ => ⟨none, .normal, 0, false, .free, 0, 0⟩
  saved _ := .taskRunner
  place _ := .unallocated
  mainReturned _ := false

/-- The first state is initial. -/
theorem State.initial_initial : State.initial.Initial :=
  ⟨fun _ => ⟨rfl, rfl, rfl, rfl⟩, fun _ => rfl, fun _ => ⟨rfl, rfl⟩, fun _ => ⟨rfl, rfl, rfl⟩,
    fun _ => rfl, fun _ => rfl⟩

/-- A bthread blocks while its keytable is being returned, and goes on there on another worker. -/
def moved : List Move :=
  [.start none 0 .small, .runTask 0 0 (some 0), .leave 0, .call 0, .return 0,
   .suspend 0 .wait (.main 0) none, .remained 0 false, .leave 0, .wake none 0, .runTask 1 0 none,
   .leave 1, .writeBls 1 5, .start none 1 .pthread]

/-- It then ends in the group it was in before. -/
def endedElsewhere : List Move :=
  moved ++ [.endTask 1 (.slot 1) none, .remained 1 false, .leave 1]

/-- Its group goes on. -/
def goesOn : List Move :=
  endedElsewhere ++ [.start none 2 .small, .runTask 0 2 (some 1), .leave 0, .call 0,
    .suspend 0 .wait (.main 0) none, .remained 0 false]

/-- A bthread is switched out, and in again on another worker. -/
def switchedIn : List Move :=
  [.start none 0 .small, .runTask 0 0 (some 0), .leave 0, .call 0, .writeBls 0 5,
   .suspend 0 .sleep (.main 0) none, .remained 0 false, .leave 0, .wake none 0, .runTask 1 0 none]

/-- Its function returns on the worker it is on then. -/
def atReturn : List Move := switchedIn ++ [.leave 1, .return 1]

/-- It ends there, and its slot and its stack go to the next bthread. -/
def lifetime : List Move :=
  atReturn ++ [.endTask 1 (.main 1) none, .remained 1 false, .leave 1, .start none 0 .small,
    .runTask 1 0 (some 0), .leave 1]

/-- A run whose steps are in their own group. -/
theorem reachableIf_of_exec {as : List Move} {s : State} (h : machine.exec .initial as = some s)
    (hc : machine.checked inOwnGroup .initial as = true) : machine.ReachableIf InOwnGroup s :=
  .of_checked inOwnGroup (fun _ _ => inOwnGroup_spec) (.of_init State.initial_initial) h hc

/-! ## Stacks and slots -/

/-- Stacks and slots have one owner. -/
structure StacksOwned (s : State) : Prop where
  /-- An allocated stack is held by one task at most. -/
  one : ∀ k t t', (s.task t).stack = some (.alloc k) → (s.task t').stack = some (.alloc k) → t = t'
  /-- A stack in the pool is held by no task. -/
  pool : ∀ k ty t, s.place k = .pooled ty → (s.task t).stack ≠ some (.alloc k)
  /-- A `_main_stack` is held by the main task of its group, and by the pthread-mode task that the
  group is running or just ending. -/
  main : ∀ g t, (s.task t).stack = some (.main g) → t = .main g ∨
    ((s.task t).stackType = .pthread ∧ ((s.group g).curMeta = t ∨
      (s.group g).lastContextRemained = some (.releaseLastContext t)))
  /-- A `_main_stack` is not given to `return_stack`. -/
  kept : ∀ g, s.mainReturned g = false
  /-- A slot is given back once for each bthread started in it. -/
  once : ∀ n, (s.task (.slot n)).gets = (s.task (.slot n)).returns +
    if (s.task (.slot n)).phase = .free then 0 else 1
  /-- A slot that was given back has no stack. -/
  free : ∀ n, (s.task (.slot n)).phase = .free → (s.task (.slot n)).stack = none
  /-- A slot is given back when another context has taken over. -/
  takenOver : ∀ n g, ((s.task (.slot n)).phase = .free ∨
    ∃ h, (s.group h).lastContextRemained = some (.releaseLastContext (.slot n))) →
      (s.group g).curMeta ≠ .slot n

/-- **Stacks and slots have one owner** in every run whose steps are in their own group.

**Proof sketch.** Of the invariant: `PlaceOk` names the holder of each stack, `SlotOk` counts the
slots. A task whose callback is pending is in a phase in which it is not the current one. -/
theorem stacksOwned (hs : machine.ReachableIf InOwnGroup s) : StacksOwned s := by
  have h := good hs
  refine ⟨fun k t t' ht ht' => ?_, fun k ty t hk ht => ?_, fun g t ht => ?_,
    fun g => (h.worker g).kept, fun n => ?_, fun n hn => ((h.slot n).free hn).1, fun n g hn => ?_⟩
  · obtain ⟨ty, h₁⟩ := h.place.held t k ht
    obtain ⟨ty', h₂⟩ := h.place.held t' k ht'
    simp only [h₁, StackPlace.held.injEq] at h₂
    exact h₂.2
  · obtain ⟨ty', h₁⟩ := h.place.held t k ht
    simp [hk] at h₁
  · cases t with
    | main g' =>
      have := (h.worker g').main.1
      rw [this] at ht
      left
      simpa using ht
    | slot n =>
      obtain ⟨hty, hp | hp⟩ := h.place.main n g ht
      · exact .inr ⟨hty, .inl ((h.slot n).running g hp)⟩
      · exact .inr ⟨hty, .inr ((h.slot n).ended g hp).2⟩
  · by_cases hp : (s.task (.slot n)).phase = .free
    · simpa [hp] using ((h.slot n).free hp).2
    · simpa [hp] using (h.slot n).live hp
  · refine h.cur_ne ?_
    obtain hp | ⟨g', hr⟩ := hn
    · simp [hp]
    · obtain ⟨m, hm, hp, -⟩ := (h.worker g').remained _ hr
      obtain rfl : n = m := by simpa [Remained.task] using hm
      obtain ⟨hp, -⟩ | ⟨hp, -⟩ := hp <;> simp [hp]

/-- The stack of a bthread that has ended is held by the next one, and its slot was given back
once. -/
theorem stacksOwned_lifetime : ∃ s : State, machine.exec .initial lifetime = some s ∧
    (∀ t, (s.task t).stack = some (.alloc 0) → t = .slot 0) ∧
    (s.task (.slot 0)).gets = 2 ∧ (s.task (.slot 0)).returns = 1 := by
  obtain ⟨s, h, hk, hg, hp⟩ : ∃ s, machine.exec .initial lifetime = some s ∧
      (s.task (.slot 0)).stack = some (.alloc 0) ∧ (s.task (.slot 0)).gets = 2 ∧
      (s.task (.slot 0)).phase = .running 1 := ⟨_, rfl, rfl, rfl, rfl⟩
  have hs := stacksOwned (reachableIf_of_exec h rfl)
  refine ⟨s, h, fun t ht => hs.one 0 t _ ht hk, hg, ?_⟩
  have hn := hs.once 0
  rw [hg, hp] at hn
  simpa using hn.symm

/-- **A slot can be given back while its bthread is the current one** of another group. -/
theorem not_stacksOwned : ∃ s, machine.Reachable s ∧ ¬StacksOwned s := by
  obtain ⟨s, h, hp, hc⟩ : ∃ s, machine.exec .initial endedElsewhere = some s ∧
      (s.task (.slot 0)).phase = .free ∧ (s.group 1).curMeta = .slot 0 := ⟨_, rfl, rfl, rfl⟩
  exact ⟨s, Conc.Machine.Reachable.exec (.of_init State.initial_initial) h,
    fun hS => hS.takenOver 0 1 (.inl hp) hc⟩

/-! ## Calls of user functions -/

/-- Functions of bthreads are entered once. -/
structure EnteredOnce (s : State) : Prop where
  /-- At the top of the loop of `task_runner` the current task is a bthread whose function was not
  called yet. -/
  top : ∀ w b g, (s.thread w).cont = .top b g →
    (∃ n, s.cur g = .slot n) ∧ (s.task (s.cur g)).called = false
  /-- A task whose function was called and that is current goes on in its own code, or inside its
  own call of `sched_to`. -/
  back : ∀ w n, s.cur w = .slot n → (s.task (.slot n)).called = true →
    ∃ b f, f.Of b (.slot n) ∧
      ((s.thread w).cont = .code f ∨ ∃ v, (s.thread w).cont = .remainedLoop f w v)
  /-- A bthread that is switched out has saved its own call of `sched_to` on its stack. -/
  away : ∀ n, (s.task (.slot n)).called = true →
    ((s.task (.slot n)).phase = .ready ∨ (s.task (.slot n)).phase = .away) →
      ∃ x f v, (s.task (.slot n)).stack = some x ∧ s.saved x = .jumpStack f v ∧
        f.Of none (.slot n)

/-- **Functions of bthreads are entered once** in every run whose steps are in their own group.

**Proof sketch.** By the invariant, the context of a worker that is going to enter a function fits a
task that is starting, and the context of one that is not belongs to the current task. -/
theorem enteredOnce (hs : machine.ReachableIf InOwnGroup s) : EnteredOnce s := by
  have h := good hs
  refine ⟨fun w b g hk => ?_, fun w n hn hcalled => ?_, fun n hcalled hp => ?_⟩
  · obtain ⟨x, -, hc⟩ := (h.worker w).cont
    rw [hk] at hc
    obtain ⟨-, rfl, ⟨hne, hcalled, -⟩, -⟩ := hc
    obtain ⟨n, hn, -⟩ := (h.worker g).cur.resolve_left hne
    exact ⟨⟨n, hn⟩, hcalled⟩
  · obtain ⟨x, -, hc⟩ := (h.worker w).cont
    have hns : ¬Starting s w := by
      rintro ⟨-, hf, -⟩
      simp [hn, hcalled] at hf
    have hnm : s.cur w ≠ .main w := by simp [hn]
    cases hk : (s.thread w).cont with
    | code f =>
      rw [hk] at hc
      cases f with
      | runMainTask r => exact absurd hc.2.1 hnm
      | fn b m => exact ⟨b, _, .inl (by rw [hc.2.1, hn]), .inl rfl⟩
      | returnKeytable b m g => exact ⟨b, _, .inr ⟨g, by rw [hc.2.1, hn]⟩, .inl rfl⟩
      | endingSched b => exact hc.elim
    | remainedLoop f g v =>
      rw [hk] at hc
      obtain ⟨rfl, -, hc⟩ := hc
      cases f with
      | runMainTask r =>
        obtain ⟨-, -, ⟨hm, -⟩ | hst⟩ := hc
        · exact absurd hm hnm
        · exact absurd hst hns
      | fn b m => exact ⟨b, _, .inl (by rw [hc.2.2.1, hn]), .inr ⟨v, rfl⟩⟩
      | returnKeytable b m g' => exact ⟨b, _, .inr ⟨g', by rw [hc.2.2.1, hn]⟩, .inr ⟨v, rfl⟩⟩
      | endingSched b =>
        obtain ⟨-, ⟨hm, -⟩ | hst⟩ := hc
        · exact absurd hm hnm
        · exact absurd hst hns
    | entered g =>
      rw [hk] at hc
      exact absurd hc.2.2.1 hns
    | top b g =>
      rw [hk] at hc
      exact absurd hc.2.2.1 hns
    | _ =>
      rw [hk] at hc
      exact hc.elim
  · have hr : Resting s (.slot n) := hp.elim (h.slot n).ready (h.slot n).away
    obtain ⟨hf, -⟩ | ⟨-, -, k, f, v, hk, hv, hf, -⟩ := hr
    · simp [hf.1] at hcalled
    · exact ⟨_, f, v, hk, hv, hf⟩

/-- A bthread that is switched back to goes on inside its own call of `sched_to`; the one that gets
its slot when it has ended is entered anew. -/
theorem enteredOnce_lifetime : ∃ s s' : State,
    machine.exec .initial switchedIn = some s ∧ s.cur 1 = .slot 0 ∧
    (∃ b f, f.Of b (.slot 0) ∧
      ((s.thread 1).cont = .code f ∨ ∃ v, (s.thread 1).cont = .remainedLoop f 1 v)) ∧
    machine.exec .initial lifetime = some s' ∧ (s'.task (s'.cur 1)).called = false := by
  obtain ⟨s, h, hc, hcalled⟩ : ∃ s, machine.exec .initial switchedIn = some s ∧
      s.cur 1 = .slot 0 ∧ (s.task (.slot 0)).called = true := ⟨_, rfl, rfl, rfl⟩
  obtain ⟨s', h', hk⟩ : ∃ s', machine.exec .initial lifetime = some s' ∧
      (s'.thread 1).cont = .top none 1 := ⟨_, rfl, rfl⟩
  exact ⟨s, s', h, hc, (enteredOnce (reachableIf_of_exec h rfl)).back 1 0 hc hcalled, h',
    ((enteredOnce (reachableIf_of_exec h' rfl)).top 1 none 1 hk).2⟩

/-- **A function can be entered twice**: the bthread that has ended is still the current one. -/
theorem not_enteredOnce : ∃ s, machine.Reachable s ∧ ¬EnteredOnce s := by
  obtain ⟨s, h, hk, hc⟩ : ∃ s, machine.exec .initial endedElsewhere = some s ∧
      (s.thread 1).cont = .top none 1 ∧ (s.task (s.cur 1)).called = true := ⟨_, rfl, rfl, rfl⟩
  refine ⟨s, Conc.Machine.Reachable.exec (.of_init State.initial_initial) h, fun hS => ?_⟩
  have := (hS.top 1 _ _ hk).2
  simp [hc] at this

/-! ## Callbacks and the recursion guard -/

/-- Callbacks are run once, between the two contexts, by the worker of their group. -/
structure CallbacksOnce (s : State) : Prop where
  /-- Every callback that was registered was run, but for the one that is pending: none was
  overwritten. -/
  count : ∀ g, (s.group g).registered =
    (s.group g).ran + if (s.group g).lastContextRemained = none then 0 else 1
  /-- A callback is pending only while the worker of its group is about to run callbacks, which is
  before any code of the task switched to. -/
  pending : ∀ g, (s.group g).lastContextRemained ≠ none → (s.thread g).cont.loopGroup = some g
  /-- A worker runs the callbacks of its own group. -/
  own : ∀ w g, (s.thread w).cont.loopGroup = some g → g = w
  /-- The task that has registered the callback was switched out. -/
  out : ∀ g r, (s.group g).lastContextRemained = some r → ∀ w, s.cur w ≠ r.task
  /-- The guard is `1` from the switch to the end of the callbacks, and `0` otherwise. -/
  guard : ∀ w, (s.group w).schedRecursiveGuard =
    if (s.thread w).cont.loopGroup = none then 0 else 1

/-- **Callbacks are run once** in every run whose steps are in their own group.

**Proof sketch.** A worker whose context is not in the callback loop is idle, by the invariant. -/
theorem callbacksOnce (hs : machine.ReachableIf InOwnGroup s) : CallbacksOnce s := by
  have h := good hs
  have hidle : ∀ w, (s.thread w).cont.loopGroup = none → Idle s w := by
    intro w hl
    obtain ⟨x, -, hc⟩ := (h.worker w).cont
    cases hk : (s.thread w).cont with
    | code f =>
      rw [hk] at hc
      cases f with
      | runMainTask r => exact hc.2.2
      | fn b m => exact hc.2.2.2.2
      | returnKeytable b m g => exact hc.2.2.2.2
      | endingSched b => exact hc.elim
    | top b g =>
      rw [hk] at hc
      exact hc.2.2.2
    | remainedLoop f g v => simp [hk, Cont.loopGroup] at hl
    | entered g => simp [hk, Cont.loopGroup] at hl
    | _ =>
      rw [hk] at hc
      exact hc.elim
  have hown : ∀ w g, (s.thread w).cont.loopGroup = some g →
      g = w ∧ (s.group w).schedRecursiveGuard = 1 := by
    intro w g hl
    obtain ⟨x, -, hc⟩ := (h.worker w).cont
    exact hc.loopGroup hl
  refine ⟨fun g => (h.worker g).count, fun g hr => ?_, fun w g hl => (hown w g hl).1,
    fun g r hr w => ?_, fun w => ?_⟩
  · cases hl : (s.thread g).cont.loopGroup with
    | none => exact absurd (hidle g hl).2 hr
    | some g' => rw [(hown g g' hl).1]
  · obtain ⟨n, hn, hp, -⟩ := (h.worker g).remained r hr
    rw [hn]
    refine h.cur_ne ?_
    obtain ⟨hp, -⟩ | ⟨hp, -⟩ := hp <;> simp [hp]
  · cases hl : (s.thread w).cont.loopGroup with
    | none => simpa using (hidle w hl).1
    | some g => simpa using (hown w g hl).2

/-- The guard of a group that has just switched, and its callbacks when the bthread has ended. -/
theorem callbacksOnce_lifetime : ∃ s s' : State,
    machine.exec .initial switchedIn = some s ∧ (s.group 1).schedRecursiveGuard = 1 ∧
    machine.exec .initial lifetime = some s' ∧ (s'.group 1).registered = 1 ∧
    (s'.group 1).ran = 1 ∧ (s'.group 1).schedRecursiveGuard = 0 := by
  obtain ⟨s, h, hl⟩ : ∃ s, machine.exec .initial switchedIn = some s ∧
      (s.thread 1).cont.loopGroup = some 1 := ⟨_, rfl, rfl⟩
  obtain ⟨s', h', hl', hr, hn⟩ : ∃ s', machine.exec .initial lifetime = some s' ∧
      (s'.thread 1).cont.loopGroup = none ∧ (s'.group 1).registered = 1 ∧
      (s'.group 1).lastContextRemained = none := ⟨_, rfl, rfl, rfl, rfl⟩
  have hs := callbacksOnce (reachableIf_of_exec h rfl)
  have hs' := callbacksOnce (reachableIf_of_exec h' rfl)
  refine ⟨s, s', h, by simpa [hl] using hs.guard 1, h', hr, ?_, by simpa [hl'] using hs'.guard 1⟩
  have hc := hs'.count 1
  rw [hr, hn] at hc
  simpa using hc.symm

/-- **The guard can be left raised**: the group that the bthread has left is not switching. -/
theorem not_callbacksOnce : ∃ s, machine.Reachable s ∧ ¬CallbacksOnce s := by
  obtain ⟨s, h, hl, hg⟩ : ∃ s, machine.exec .initial endedElsewhere = some s ∧
      (s.thread 0).cont.loopGroup = none ∧ (s.group 0).schedRecursiveGuard = 1 :=
    ⟨_, rfl, rfl, rfl⟩
  refine ⟨s, Conc.Machine.Reachable.exec (.of_init State.initial_initial) h, fun hS => ?_⟩
  have := hS.guard 0
  simp [hl, hg] at this

/-! ## Groups -/

/-- A step uses the group of the worker that takes it only. -/
def Confined (s : State) (x : Move) : Prop :=
  ∀ g ∈ accesses s x, x.worker = some g

/-- **Workers use their own group**: so does every step in its own group, after a run of such steps.

**Proof sketch.** Every `g` that a context holds is the group of its worker, by the invariant, and
so is the group that `_add_sleep_event` has captured. -/
theorem confined {x : Move} (hs : machine.ReachableIf InOwnGroup s) (hx : InOwnGroup s x) :
    Confined s x := by
  have h := good hs
  intro g hg
  cases x with
  | start p n ty => simpa [accesses, Move.worker] using hg
  | wake p n => simpa [accesses, Move.worker] using hg
  | write w e u => simp [accesses] at hg
  | writeBls w b => simp [accesses] at hg
  | «return» w => simp [accesses] at hg
  | suspend w how t o =>
    obtain rfl : g = w := by simpa [accesses] using hg
    rfl
  | runTask w n o =>
    obtain ⟨x, -, hc⟩ := (h.worker w).cont
    cases hk : (s.thread w).cont with
    | code f =>
      cases f with
      | runMainTask r =>
        rw [hk] at hc
        obtain ⟨rfl, -⟩ := hc
        obtain rfl : g = w := by simpa [accesses, hk] using hg
        rfl
      | _ => simp [accesses, hk] at hg
    | _ => simp [accesses, hk] at hg
  | call w =>
    obtain ⟨x, -, hc⟩ := (h.worker w).cont
    cases hk : (s.thread w).cont with
    | top b g' =>
      rw [hk] at hc
      obtain ⟨-, rfl, -⟩ := hc
      obtain rfl : g = g' := by simpa [accesses, hk] using hg
      rfl
    | _ => simp [accesses, hk] at hg
  | endTask w t o =>
    cases hk : (s.thread w).cont with
    | code f =>
      cases f with
      | returnKeytable b m g' =>
        obtain rfl := hx w t o rfl b m g' hk
        obtain rfl : g = g' := by simpa [accesses, hk] using hg
        rfl
      | _ => simp [accesses, hk] at hg
    | _ => simp [accesses, hk] at hg
  | remained w back =>
    obtain ⟨x, -, hc⟩ := (h.worker w).cont
    cases hl : (s.thread w).cont.loopGroup with
    | none => simp [accesses, hl] at hg
    | some g' =>
      obtain ⟨rfl, -⟩ := hc.loopGroup hl
      simp only [accesses, hl, List.mem_cons] at hg
      obtain rfl | hg := hg
      · rfl
      · cases hr : (s.group g').lastContextRemained with
        | none => simp [hr] at hg
        | some r =>
          obtain ⟨-, -, -, hsleep⟩ := (h.worker g').remained r hr
          cases r with
          | readyToRunInWorker t => simpa [hr, Move.worker, eq_comm] using hg
          | waitForButex t =>
            cases back
            · simp [hr] at hg
            · simpa [hr, Move.worker, eq_comm] using hg
          | addSleepEvent t g'' =>
            obtain rfl := hsleep t g'' rfl
            cases back
            · simp [hr] at hg
            · simpa [hr, Move.worker, eq_comm] using hg
          | releaseLastContext t => simp [hr] at hg
  | leave w =>
    obtain ⟨x, -, hc⟩ := (h.worker w).cont
    cases hk : (s.thread w).cont with
    | remainedLoop f g' v =>
      rw [hk] at hc
      cases f with
      | runMainTask r =>
        obtain ⟨rfl, -, rfl, -⟩ := hc
        obtain rfl : g = g' := by simpa [accesses, hk] using hg
        rfl
      | _ =>
        obtain ⟨rfl, -⟩ := hc
        obtain rfl : g = g' := by simpa [accesses, hk] using hg
        rfl
    | entered g' =>
      rw [hk] at hc
      obtain ⟨-, rfl, -⟩ := hc
      obtain rfl : g = g' := by simpa [accesses, hk] using hg
      rfl
    | _ => simp [accesses, hk] at hg

/-- A bthread that ends in the group of its worker. -/
theorem confined_lifetime : ∃ s : State, machine.exec .initial atReturn = some s ∧
    accesses s (.endTask 1 (.main 1) none) = [1] ∧ Confined s (.endTask 1 (.main 1) none) := by
  obtain ⟨s, h, ha, hown⟩ : ∃ s, machine.exec .initial atReturn = some s ∧
      accesses s (.endTask 1 (.main 1) none) = [1] ∧
      inOwnGroup s (.endTask 1 (.main 1) none) = true := ⟨_, rfl, rfl, rfl⟩
  exact ⟨s, h, ha, confined (reachableIf_of_exec h rfl) (inOwnGroup_spec hown)⟩

/-- **A worker can use another group**: the one its bthread was in when its function returned. -/
theorem not_confined : ∃ s x s', machine.Reachable s ∧ machine.next s x = some s' ∧
    ¬Confined s x := by
  obtain ⟨s, h, s', hn, ha⟩ : ∃ s, machine.exec .initial moved = some s ∧
      ∃ s', machine.next s (.endTask 1 (.slot 1) none) = some s' ∧
        accesses s (.endTask 1 (.slot 1) none) = [0] := ⟨_, rfl, _, rfl, rfl⟩
  refine ⟨s, _, s', Conc.Machine.Reachable.exec (.of_init State.initial_initial) h, hn,
    fun hC => ?_⟩
  have := hC 0 (by simp [ha])
  simp [Move.worker] at this

/-! ## Thread-local variables -/

/-- The task that a call of `sched_to` returns in; that of a bthread that has ended never returns in
it. -/
def Frame.caller : Frame → Option TaskRef
  | .runMainTask r => some (.main r.this)
  | .fn _ m | .returnKeytable _ m _ => some m
  | .endingSched _ => none

/-- Thread-local variables belong to the task. -/
structure ContextKept (s : State) : Prop where
  /-- When `sched_to` returns in the task that has called it, the variables are what they were. -/
  kept : ∀ w f g v s', (s.thread w).cont = .remainedLoop f g v → f.caller = some (s.cur w) →
    next s (.leave w) = some s' → (s'.thread w).errno = v.savedErrno ∧
      (s'.thread w).uniqueUserPtr = v.savedUniqueUserPtr ∧ (s'.thread w).bls = v.bls
  /-- When a function is entered, `tls_bls` is `LOCAL_STORAGE_INIT`. -/
  entered : ∀ w b g, (s.thread w).cont = .top b g → (s.thread w).bls = 0

/-- What a worker restores when the callback loop ends. -/
theorem thread_leave {w g : GroupId} {f : Frame} {v : Locals} {s' : State}
    (hk : (s.thread w).cont = .remainedLoop f g v) (hs : next s (.leave w) = some s') :
    (s'.thread w).errno = v.savedErrno ∧ (s'.thread w).uniqueUserPtr = v.savedUniqueUserPtr ∧
      (s'.thread w).bls = (s.thread w).bls := by
  simp only [next, hk, Cont.loopGroup, Option.bind_some, Option.ite_none_right_eq_some,
    Option.some.injEq] at hs
  obtain ⟨-, rfl⟩ := hs
  simp [State.setThread, State.setGroup, hk]

/-- **Thread-local variables belong to the task** in every run whose steps are in their own group.

**Proof sketch.** `errno` and `tls_unique_user_ptr` are restored from the stack. By the invariant
`local_storage` of a task that is switched out is `tls_bls` at its call of `sched_to`. -/
theorem contextKept (hs : machine.ReachableIf InOwnGroup s) : ContextKept s := by
  have h := good hs
  refine ⟨fun w f g v s' hk hf hn => ?_, fun w b g hk => ?_⟩
  · obtain ⟨he, hu, hb⟩ := thread_leave hk hn
    refine ⟨he, hu, hb.trans ?_⟩
    obtain ⟨x, -, hc⟩ := (h.worker w).cont
    rw [hk] at hc
    obtain ⟨rfl, -, hc⟩ := hc
    cases f with
    | runMainTask r =>
      obtain ⟨rfl, -, ⟨-, hb⟩ | ⟨hne, -⟩⟩ := hc
      · exact hb
      · exact absurd (by simpa [Frame.caller] using hf.symm) hne
    | fn b m => exact hc.2.2.2.2.2
    | returnKeytable b m g' => exact hc.2.2.2.2.2
    | endingSched b => simp [Frame.caller] at hf
  · obtain ⟨x, -, hc⟩ := (h.worker w).cont
    rw [hk] at hc
    exact hc.2.2.1.2.2

/-- A bthread finds its variables on another worker; the one that gets its slot when it has ended
begins with none. -/
theorem contextKept_lifetime : ∃ s s' s'' : State, machine.exec .initial switchedIn = some s ∧
    next s (.leave 1) = some s' ∧ s.cur 1 = .slot 0 ∧ (s'.thread 1).bls = 5 ∧
    machine.exec .initial lifetime = some s'' ∧ s''.cur 1 = .slot 0 ∧ (s''.thread 1).bls = 0 := by
  obtain ⟨s, h, f, v, s', hk, hf, hn, hc, hv⟩ : ∃ s, machine.exec .initial switchedIn = some s ∧
      ∃ f v s', (s.thread 1).cont = .remainedLoop f 1 v ∧ f.caller = some (s.cur 1) ∧
        next s (.leave 1) = some s' ∧ s.cur 1 = .slot 0 ∧ v.bls = 5 :=
    ⟨_, rfl, _, _, _, rfl, rfl, rfl, rfl, rfl⟩
  obtain ⟨s'', h'', hk'', hc''⟩ : ∃ s'', machine.exec .initial lifetime = some s'' ∧
      (s''.thread 1).cont = .top none 1 ∧ s''.cur 1 = .slot 0 := ⟨_, rfl, rfl, rfl⟩
  have hs := contextKept (reachableIf_of_exec h rfl)
  have hs'' := contextKept (reachableIf_of_exec h'' rfl)
  refine ⟨s, s', s'', h, hn, hc, ?_, h'', hc'', hs''.entered 1 none 1 hk''⟩
  rw [(hs.kept 1 f 1 v s' hk hf hn).2.2, hv]

/-- **A task can find the variables of another one**: the main task of the group that the bthread
has left goes on with the `tls_bls` of that bthread. -/
theorem not_contextKept : ∃ s, machine.Reachable s ∧ ¬ContextKept s := by
  obtain ⟨s, h, f, v, s', hk, hf, hn, hv, hb⟩ : ∃ s, machine.exec .initial goesOn = some s ∧
      ∃ f v s', (s.thread 0).cont = .remainedLoop f 0 v ∧ f.caller = some (s.cur 0) ∧
        next s (.leave 0) = some s' ∧ v.bls = 0 ∧ (s'.thread 0).bls = 5 :=
    ⟨_, rfl, _, _, _, rfl, rfl, rfl, rfl, rfl⟩
  refine ⟨s, Conc.Machine.Reachable.exec (.of_init State.initial_initial) h, fun hS => ?_⟩
  have := (hS.kept 0 f 0 v s' hk hf hn).2.2
  simp [hb, hv] at this

end Bthread.Context
