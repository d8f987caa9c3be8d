import Bthread.Contexts

set_option relaxedAutoImplicit false
set_option autoImplicit false

/-!
# The invariant of the context switches

Every saved context belongs to the task that holds its stack: a bthread that was switched out goes
on inside its own call of `sched_to`, and a stack in the pool goes on inside the `ending_sched` of a
bthread that has ended.

## Main definitions

* `Bthread.Context.Suspended`, `Bthread.Context.Resting` — tasks that no worker runs.
* `Bthread.Context.SlotOk`, `Bthread.Context.WorkerOk`, `Bthread.Context.PlaceOk`,
  `Bthread.Context.Good` — the invariant.
* `Bthread.Context.InOwnGroup` — `task_runner` goes on in the group of its worker.

## Main results

* `Bthread.Context.good` — the invariant holds in every run whose steps are in their own group.
-/

namespace Bthread.Context

open Function (update update_self update_of_ne)

/-- The call of `task_runner` at the bottom of a stack. -/
def StackRef.base : StackRef → Option MainTask
  | .main g => some ⟨g, g⟩
  | .alloc _ => none

/-- The frame is user code of bthread `m`, above the entry of a stack. -/
def Frame.Of (f : Frame) (b : Option MainTask) (m : TaskRef) : Prop :=
  f = .fn b m ∨ ∃ g, f = .returnKeytable b m g

/-- The task is switched out inside its own call of `sched_to`. -/
def Suspended (s : State) (t : TaskRef) : Prop :=
  (s.task t).called = true ∧ (s.task t).stackType ≠ .pthread ∧
    ∃ k f v, (s.task t).stack = some (.alloc k) ∧ s.saved (.alloc k) = .jumpStack f v ∧
      f.Of none t ∧ v.bls = (s.task t).localStorage

/-- The task was never run. -/
def Fresh (s : State) (t : TaskRef) : Prop :=
  (s.task t).called = false ∧ (s.task t).localStorage = 0

/-- No worker runs the task. -/
def Resting (s : State) (t : TaskRef) : Prop :=
  (Fresh s t ∧ (s.task t).stack = none) ∨ Suspended s t

/-- The ended task has a stack that its group can release. -/
def Released (s : State) (g : GroupId) (t : TaskRef) : Prop :=
  (s.task t).stack = none ∨
    ((s.task t).stackType = .pthread ∧ (s.task t).stack = some (.main g)) ∨
    ((s.task t).stackType ≠ .pthread ∧ ∃ k v, (s.task t).stack = some (.alloc k) ∧
      s.saved (.alloc k) = .jumpStack (.endingSched none) v)

/-- What holds of slot `n`. -/
structure SlotOk (s : State) (n : ℕ) : Prop where
  free : (s.task (.slot n)).phase = .free →
    (s.task (.slot n)).stack = none ∧ (s.task (.slot n)).gets = (s.task (.slot n)).returns
  live : (s.task (.slot n)).phase ≠ .free →
    (s.task (.slot n)).gets = (s.task (.slot n)).returns + 1
  ready : (s.task (.slot n)).phase = .ready → Resting s (.slot n)
  away : (s.task (.slot n)).phase = .away → Resting s (.slot n)
  leaving : ∀ g, (s.task (.slot n)).phase = .leaving g → Suspended s (.slot n) ∧
    ∃ r, (s.group g).lastContextRemained = some r ∧ r.task = .slot n ∧ ¬r.Ends
  running : ∀ g, (s.task (.slot n)).phase = .running g → (s.group g).curMeta = .slot n
  ended : ∀ g, (s.task (.slot n)).phase = .ended g → Released s g (.slot n) ∧
    (s.group g).lastContextRemained = some (.releaseLastContext (.slot n))

/-- The group has no callback and no switch under way. -/
def Idle (s : State) (w : GroupId) : Prop :=
  (s.group w).schedRecursiveGuard = 0 ∧ (s.group w).lastContextRemained = none

/-- The current task of the group is about to be entered. -/
def Starting (s : State) (w : GroupId) : Prop :=
  s.cur w ≠ .main w ∧ (s.task (s.cur w)).called = false ∧ (s.thread w).bls = 0

/-- The context of worker `w` fits the state of its group, on stack `x`. -/
def ContOk (s : State) (w : GroupId) (x : StackRef) : Cont → Prop
  | .code (.runMainTask r) => r = ⟨w, w⟩ ∧ s.cur w = .main w ∧ Idle s w
  | .code (.fn b m) | .code (.returnKeytable b m _) =>
    b = x.base ∧ m = s.cur w ∧ s.cur w ≠ .main w ∧ (s.task m).called = true ∧ Idle s w
  | .top b g => b = x.base ∧ g = w ∧ Starting s w ∧ Idle s w
  | .entered g => x.base = none ∧ g = w ∧ Starting s w ∧ (s.group w).schedRecursiveGuard = 1
  | .remainedLoop f g v => g = w ∧ (s.group w).schedRecursiveGuard = 1 ∧
    match f with
    | .runMainTask r => r = ⟨w, w⟩ ∧ x = .main w ∧
      ((s.cur w = .main w ∧ (s.thread w).bls = v.bls) ∨ Starting s w)
    | .fn b m | .returnKeytable b m _ => b = none ∧ x.base = none ∧ m = s.cur w ∧
      s.cur w ≠ .main w ∧ (s.task m).called = true ∧ (s.thread w).bls = v.bls
    | .endingSched b => b = x.base ∧ ((s.cur w = .main w ∧ b = some ⟨w, w⟩) ∨ Starting s w)
  | _ => False

/-- The context on the `_main_stack` of a group, while its worker is on another stack. -/
def MainSaved (s : State) (w : GroupId) : Prop :=
  ∃ f v, s.saved (.main w) = .jumpStack f v ∧
    ((f = .runMainTask ⟨w, w⟩ ∧ v.bls = (s.task (.main w)).localStorage) ∨
      f = .endingSched (some ⟨w, w⟩))

/-- The current task of the group is on stack `x`. -/
def OnStack (s : State) (w : GroupId) (x : StackRef) : Prop :=
  (s.task (s.cur w)).stack = some x ∧
    ((x = .main w ∧ (s.cur w ≠ .main w → (s.task (s.cur w)).stackType = .pthread)) ∨
      ((∃ k, x = .alloc k) ∧ (s.task (s.cur w)).stackType ≠ .pthread ∧ s.cur w ≠ .main w ∧
        MainSaved s w))

/-- What holds of worker `w` and its group. -/
structure WorkerOk (s : State) (w : GroupId) : Prop where
  main : (s.task (.main w)).stack = some (.main w) ∧ (s.task (.main w)).stackType = .main
  kept : s.mainReturned w = false
  count : (s.group w).registered =
    (s.group w).ran + if (s.group w).lastContextRemained = none then 0 else 1
  remained : ∀ r, (s.group w).lastContextRemained = some r → ∃ n, r.task = .slot n ∧
    (((s.task (.slot n)).phase = .leaving w ∧ ¬r.Ends) ∨
      ((s.task (.slot n)).phase = .ended w ∧ r.Ends)) ∧ ∀ t g, r = .addSleepEvent t g → g = w
  cur : s.cur w = .main w ∨
    ∃ n, s.cur w = .slot n ∧ (s.task (.slot n)).phase = .running w
  cont : ∃ x, OnStack s w x ∧ ContOk s w x (s.thread w).cont

/-- What holds of the stacks. -/
structure PlaceOk (s : State) : Prop where
  held : ∀ t k, (s.task t).stack = some (.alloc k) → ∃ ty, s.place k = .held ty t
  pooled : ∀ k ty, s.place k = .pooled ty →
    ∃ v, s.saved (.alloc k) = .jumpStack (.endingSched none) v
  main : ∀ n g, (s.task (.slot n)).stack = some (.main g) →
    (s.task (.slot n)).stackType = .pthread ∧
      ((s.task (.slot n)).phase = .running g ∨ (s.task (.slot n)).phase = .ended g)

/-- The invariant. -/
structure Good (s : State) : Prop where
  slot : ∀ n, SlotOk s n
  worker : ∀ w, WorkerOk s w
  place : PlaceOk s

/-- When `task_runner` goes on after `return_keytable`, its `g` is the group of its worker: the
bthread did not move to another worker while its keytable was being returned. -/
def InOwnGroup (s : State) (x : Move) : Prop :=
  ∀ w t o, x = .endTask w t o → ∀ b m g, (s.thread w).cont = .code (.returnKeytable b m g) → g = w

variable {s : State}

/-- The invariant holds initially. -/
theorem State.Initial.good (h : s.Initial) : Good s where
  slot n := by
    obtain ⟨h₁, h₂, h₃⟩ := h.slot n
    constructor <;> simp [h₁, h₂, h₃]
  worker w := by
    obtain ⟨h₁, h₂, h₃, h₄⟩ := h.group w
    refine ⟨h.main w, h.mainReturned w, by simp [h₂, h₄], by simp [h₂], .inl h₁,
      .main w, ⟨?_, .inl ⟨rfl, fun hn => absurd h₁ hn⟩⟩, ?_⟩
    · rw [State.cur, h₁]
      exact (h.main w).1
    · rw [h.thread w]
      exact ⟨rfl, h₁, h₃, h₂⟩
  place := by
    refine ⟨fun t k ht => ?_, by simp [h.place], by simp [h.slot]⟩
    cases t with
    | main g => simp [h.main] at ht
    | slot n => simp [h.slot] at ht

/-! ## What a step leaves alone -/

/-- What holds of a slot depends on the task, its stack and the group it is in. -/
theorem SlotOk.congr {s' : State} {n : ℕ} (h : SlotOk s n)
    (htask : s'.task (.slot n) = s.task (.slot n))
    (hsaved : ∀ k, (s.task (.slot n)).stack = some (.alloc k) →
      s'.saved (.alloc k) = s.saved (.alloc k))
    (hcur : ∀ g, (s.task (.slot n)).phase = .running g →
      (s'.group g).curMeta = (s.group g).curMeta)
    (hrem : ∀ g, (s.task (.slot n)).phase = .leaving g ∨ (s.task (.slot n)).phase = .ended g →
      (s'.group g).lastContextRemained = (s.group g).lastContextRemained) : SlotOk s' n := by
  have hsus : Suspended s (.slot n) → Suspended s' (.slot n) := by
    rintro ⟨h₁, h₂, k, f, v, h₃, h₄, h₅, h₆⟩
    exact ⟨by rwa [htask], by rwa [htask], k, f, v, by rwa [htask], by rwa [hsaved k h₃], h₅,
      by rwa [htask]⟩
  have hrest : Resting s (.slot n) → Resting s' (.slot n) := by
    rintro (⟨h₁, h₂⟩ | h₁)
    · exact .inl ⟨by rwa [Fresh, htask], by rwa [htask]⟩
    · exact .inr (hsus h₁)
  obtain ⟨h₁, h₂, h₃, h₄, h₅, h₆, h₇⟩ := h
  refine ⟨by rwa [htask], by rwa [htask], ?_, ?_, ?_, ?_, ?_⟩
  · rw [htask]
    exact fun hp => hrest (h₃ hp)
  · rw [htask]
    exact fun hp => hrest (h₄ hp)
  · intro g hp
    rw [htask] at hp
    obtain ⟨hs, hr⟩ := h₅ g hp
    exact ⟨hsus hs, by rwa [hrem g (.inl hp)]⟩
  · intro g hp
    rw [htask] at hp
    rw [hcur g hp]
    exact h₆ g hp
  · intro g hp
    rw [htask] at hp
    obtain ⟨hs, hr⟩ := h₇ g hp
    refine ⟨?_, by rwa [hrem g (.inr hp)]⟩
    obtain hs | hs | ⟨hs, k, v, hk, hv⟩ := hs
    · exact .inl (by rwa [htask])
    · exact .inr (.inl (by rwa [htask]))
    · exact .inr (.inr ⟨by rwa [htask], k, v, by rwa [htask], by rwa [hsaved k hk]⟩)

/-- What holds of a context depends on the worker, its group and the current task. -/
theorem ContOk.congr {s' : State} {w : GroupId} {x : StackRef} {k : Cont} (h : ContOk s w x k)
    (hg : s'.group w = s.group w) (ht : (s'.thread w).bls = (s.thread w).bls)
    (hcur : (s'.task (s.cur w)).called = (s.task (s.cur w)).called) : ContOk s' w x k := by
  have hc : s'.cur w = s.cur w := by rw [State.cur, hg, State.cur]
  cases k with
  | code f =>
    cases f <;> simp only [ContOk, Idle, hg, hc] at h ⊢
    · exact h
    · obtain ⟨h₁, rfl, h₃⟩ := h
      exact ⟨h₁, rfl, by rwa [hcur]⟩
    · obtain ⟨h₁, rfl, h₃⟩ := h
      exact ⟨h₁, rfl, by rwa [hcur]⟩
  | remainedLoop f g v =>
    cases f <;> simp only [ContOk, Starting, hg, hc, ht, hcur] at h ⊢
    · exact h
    · obtain ⟨h₁, h₂, h₃, h₄, rfl, h₅⟩ := h
      exact ⟨h₁, h₂, h₃, h₄, rfl, by rwa [hcur]⟩
    · obtain ⟨h₁, h₂, h₃, h₄, rfl, h₅⟩ := h
      exact ⟨h₁, h₂, h₃, h₄, rfl, by rwa [hcur]⟩
    · exact h
  | taskRunner | jumpStack | returned => exact h.elim
  | _ => simpa only [ContOk, Idle, Starting, hg, hc, ht, hcur] using h

/-- What holds of a worker depends on the worker, its group, the current task, the main task and
the tasks that the group has a callback for. -/
theorem WorkerOk.congr {s' : State} {w : GroupId} (h : WorkerOk s w)
    (hg : s'.group w = s.group w) (ht : s'.thread w = s.thread w)
    (hcur : s'.task (s.cur w) = s.task (s.cur w))
    (hmain : s'.task (.main w) = s.task (.main w))
    (hsaved : s'.saved (.main w) = s.saved (.main w)) (hret : s'.mainReturned w = s.mainReturned w)
    (hphase : ∀ n, (s.task (.slot n)).phase = .leaving w ∨ (s.task (.slot n)).phase = .ended w →
      (s'.task (.slot n)).phase = (s.task (.slot n)).phase) : WorkerOk s' w := by
  have hc : s'.cur w = s.cur w := by rw [State.cur, hg, State.cur]
  obtain ⟨h₁, h₂, h₃, h₄, h₅, x, ⟨hx, hx'⟩, hk⟩ := h
  refine ⟨by rwa [hmain], by rwa [hret], by rwa [hg], fun r hr => ?_, ?_, x, ⟨?_, ?_⟩, ?_⟩
  · rw [hg] at hr
    obtain ⟨n, hn, hp, ha⟩ := h₄ r hr
    refine ⟨n, hn, ?_, ha⟩
    rwa [hphase n (hp.imp And.left And.left)]
  · rw [hc]
    obtain h | ⟨n, hn, hp⟩ := h₅
    · exact .inl h
    · exact .inr ⟨n, hn, by rwa [← hn, hcur, hn]⟩
  · rwa [hc, hcur]
  · rw [hc, hcur]
    simpa only [MainSaved, hsaved, hmain] using hx'
  · rw [ht]
    exact hk.congr hg (by rw [ht]) (by rw [hcur])

/-! ## Steps of user code -/

/-- The current task of a worker is running. -/
theorem Good.cur_ne {w : GroupId} {n : ℕ} (h : Good s)
    (hn : (s.task (.slot n)).phase ≠ .running w) : s.cur w ≠ .slot n := by
  rintro hc
  obtain hc' | ⟨m, hm, hm'⟩ := (h.worker w).cur
  · simp [hc] at hc'
  · simp only [hc, TaskRef.slot.injEq] at hm
    subst hm
    exact hn hm'

/-- Starting and waking bthreads. -/
theorem Good.setTask {n : ℕ} {f : TaskMeta → TaskMeta} (h : Good s)
    (hp : (s.task (.slot n)).phase = .free ∨ (s.task (.slot n)).phase = .away)
    (hs : (f (s.task (.slot n))).stack = (s.task (.slot n)).stack)
    (hready : (f (s.task (.slot n))).phase = .ready)
    (hlive : (f (s.task (.slot n))).gets = (f (s.task (.slot n))).returns + 1)
    (hrest : Resting (s.setTask (.slot n) f) (.slot n)) : Good (s.setTask (.slot n) f) where
  slot i := by
    by_cases hi : i = n
    · subst hi
      constructor <;> simp_all [State.setTask]
    · exact (h.slot i).congr (by simp [State.setTask, hi]) (fun _ _ => rfl) (fun _ _ => rfl)
        (fun _ _ => rfl)
  worker w := by
    have hc : s.cur w ≠ .slot n := h.cur_ne (by rintro hr; simp [hr] at hp)
    refine (h.worker w).congr rfl rfl (by simp [State.setTask, update_of_ne hc])
      (by simp [State.setTask]) rfl rfl fun m hm => ?_
    have : m ≠ n := by
      rintro rfl
      obtain hm | hm := hm <;> simp [hm] at hp
    simp [State.setTask, this]
  place := by
    obtain ⟨h₁, h₂, h₃⟩ := h.place
    refine ⟨fun t k hk => h₁ t k ?_, h₂, fun m g hm => ?_⟩
    · by_cases ht : t = .slot n
      · subst ht
        simpa [State.setTask, hs] using hk
      · simpa [State.setTask, update_of_ne ht] using hk
    · by_cases ht : m = n
      · subst ht
        have := (h₃ m g (by simpa [State.setTask, hs] using hm)).2
        obtain hp | hp := hp <;> simp [hp] at this
      · simpa [State.setTask, ht] using h₃ m g (by simpa [State.setTask, ht] using hm)

/-! ## Steps of one worker -/

/-- A step that only changes the context and the thread-local variables of worker `w`, and the guard
of its group. -/
theorem Good.setThread {s' : State} {w : GroupId} (h : Good s) (htask : s'.task = s.task)
    (hsaved : s'.saved = s.saved) (hplace : s'.place = s.place)
    (hret : s'.mainReturned = s.mainReturned)
    (hother : ∀ v, v ≠ w → s'.group v = s.group v ∧ s'.thread v = s.thread v)
    (hcur : (s'.group w).curMeta = (s.group w).curMeta)
    (hrem : (s'.group w).lastContextRemained = (s.group w).lastContextRemained)
    (hreg : (s'.group w).registered = (s.group w).registered)
    (hran : (s'.group w).ran = (s.group w).ran)
    (hk : ∀ x, OnStack s w x → ContOk s w x (s.thread w).cont →
      ContOk s' w x (s'.thread w).cont) : Good s' where
  slot n := by
    refine (h.slot n).congr (by rw [htask]) (fun _ _ => by rw [hsaved]) (fun g _ => ?_)
      fun g _ => ?_
    · by_cases hg : g = w
      · rw [hg, hcur]
      · rw [(hother g hg).1]
    · by_cases hg : g = w
      · rw [hg, hrem]
      · rw [(hother g hg).1]
  worker v := by
    by_cases hv : v = w
    · subst hv
      have hc : s'.cur v = s.cur v := hcur
      obtain ⟨h₁, h₂, h₃, h₄, h₅, x, hx, hx'⟩ := h.worker v
      refine ⟨by rwa [htask], by rwa [hret], by rwa [hreg, hran, hrem], ?_, ?_, x, ?_, hk x hx hx'⟩
      · rwa [hrem, htask]
      · rwa [hc, htask]
      · rwa [OnStack, MainSaved, hc, htask, hsaved]
    · exact (h.worker v).congr (hother v hv).1 (hother v hv).2 (by rw [htask]) (by rw [htask])
        (by rw [hsaved]) (by rw [hret]) fun _ _ => by rw [htask]
  place := by
    obtain ⟨h₁, h₂, h₃⟩ := h.place
    refine ⟨?_, ?_, ?_⟩
    · rwa [htask, hplace]
    · rwa [hplace, hsaved]
    · rwa [htask]

/-- A bthread is entered. -/
theorem Good.call {w : GroupId} {b : Option MainTask} {g : GroupId} (h : Good s)
    (hk : (s.thread w).cont = .top b g) :
    Good ((s.setTask (s.cur g) fun x => { x with called := true }).setThread w
      fun x => { x with cont := .code (.fn b (s.cur g)) }) := by
  obtain ⟨h₁, h₂, h₃, h₄, h₅, x, ⟨hx, hx'⟩, hc⟩ := h.worker w
  rw [hk] at hc
  obtain ⟨rfl, rfl, ⟨hne, hcalled, -⟩, hidle⟩ := hc
  obtain ⟨n, hn, hp⟩ : ∃ n, s.cur g = .slot n ∧ (s.task (.slot n)).phase = .running g := by
    simpa [hne] using h₅
  rw [hn] at hx hx' hne hcalled ⊢
  refine ⟨fun i => ?_, fun v => ?_, ?_⟩
  · by_cases hi : i = n
    · subst hi
      obtain ⟨f₁, f₂, f₃, f₄, f₅, f₆, f₇⟩ := h.slot i
      constructor <;> simp_all [State.setTask, State.setThread]
    · exact (h.slot i).congr (by simp [State.setTask, State.setThread, hi]) (fun _ _ => rfl)
        (fun _ _ => rfl) (fun _ _ => rfl)
  · by_cases hv : v = g
    · subst hv
      refine ⟨by simpa [State.setTask, State.setThread], h₂, h₃, fun r hr => ?_, ?_, x, ⟨?_, ?_⟩,
        ?_⟩
      · simp [Idle] at hidle
        simp [State.setTask, State.setThread, hidle] at hr
      · exact .inr ⟨n, hn, by simp [State.setTask, State.setThread, hp]⟩
      · have hn' : (s.group v).curMeta = .slot n := hn
        simpa [State.setTask, State.setThread, State.cur, hn'] using hx
      · have hn' : (s.group v).curMeta = .slot n := hn
        simpa [State.setTask, State.setThread, State.cur, hn', MainSaved] using hx'
      · have hn' : (s.group v).curMeta = .slot n := hn
        simpa [State.setTask, State.setThread, State.cur, hn', ContOk, Idle] using hidle
    · have hc : s.cur v ≠ .slot n := h.cur_ne (by rw [hp]; simpa using fun hg => hv hg.symm)
      refine (h.worker v).congr rfl (by simp [State.setTask, State.setThread, hv])
        (by simp [State.setTask, State.setThread, hc]) (by simp [State.setTask, State.setThread])
        rfl rfl fun m _ => ?_
      by_cases hm : m = n
      · subst hm
        simp [State.setTask, State.setThread]
      · simp [State.setTask, State.setThread, hm]
  · obtain ⟨f₁, f₂, f₃⟩ := h.place
    refine ⟨fun t k ht => f₁ t k ?_, f₂, fun m g hm => ?_⟩
    · by_cases htn : t = .slot n
      · subst htn
        simpa [State.setTask, State.setThread] using ht
      · simpa [State.setTask, State.setThread, htn] using ht
    · by_cases hmn : m = n
      · subst hmn
        simpa [State.setTask, State.setThread] using
          f₃ m g (by simpa [State.setTask, State.setThread] using hm)
      · simpa [State.setTask, State.setThread, hmn] using
          f₃ m g (by simpa [State.setTask, State.setThread, hmn] using hm)

/-- A worker runs callbacks of its own group. -/
theorem ContOk.loopGroup {w g : GroupId} {x : StackRef} {k : Cont} (h : ContOk s w x k)
    (hg : k.loopGroup = some g) : g = w ∧ (s.group w).schedRecursiveGuard = 1 := by
  cases k with
  | remainedLoop f g' v =>
    obtain rfl : g' = g := by simpa [Cont.loopGroup] using hg
    exact ⟨h.1, h.2.1⟩
  | entered g' =>
    obtain rfl : g' = g := by simpa [Cont.loopGroup] using hg
    exact ⟨h.2.1, h.2.2.2⟩
  | _ => simp [Cont.loopGroup] at hg

/-- The callback loop ends. -/
theorem Good.leave {w : GroupId} {s' : State} (h : Good s) (hs : next s (.leave w) = some s') :
    Good s' := by
  simp only [next, Option.bind_eq_some_iff] at hs
  obtain ⟨g, hg, hs⟩ := hs
  split at hs
  · rename_i hrem
    cases hs
    obtain ⟨-, -, -, -, -, x, hx, hc⟩ := h.worker w
    obtain ⟨rfl, -⟩ := hc.loopGroup hg
    refine h.setThread (w := g) rfl rfl rfl rfl (fun v hv => ?_) ?_ ?_ ?_ ?_ fun x hx hc => ?_
    · simp [State.setGroup, State.setThread, hv]
    · simp [State.setGroup, State.setThread]
    · simp [State.setGroup, State.setThread]
    · simp [State.setGroup, State.setThread]
    · simp [State.setGroup, State.setThread]
    · simp only [State.setGroup, State.setThread, update_self]
      cases hk : (s.thread g).cont with
      | remainedLoop f g' v =>
        rw [hk] at hc
        cases f with
        | runMainTask r =>
          obtain ⟨rfl, hguard, rfl, rfl, ⟨hm, -⟩ | ⟨hm, hcalled, hb⟩⟩ := hc
          · have hm' : (s.group g').curMeta = .main g' := hm
            simp [Cont.leave, ContOk, State.cur, Idle, hm', hguard, hrem]
          · have hm' : (s.group g').curMeta ≠ .main g' := hm
            have hcalled' : (s.task (s.group g').curMeta).called = false := hcalled
            simp [Cont.leave, ContOk, State.cur, Idle, Starting, StackRef.base, hm', hguard, hrem,
              hcalled', hb]
        | endingSched b =>
          obtain ⟨rfl, hguard, rfl, ⟨hm, hb⟩ | ⟨hm, hcalled, hb⟩⟩ := hc
          · have hm' : (s.group g').curMeta = .main g' := hm
            simp [Cont.leave, ContOk, State.cur, Idle, hm', hguard, hrem, hb]
          · have hm' : (s.group g').curMeta ≠ .main g' := hm
            have hcalled' : (s.task (s.group g').curMeta).called = false := hcalled
            simp [Cont.leave, ContOk, State.cur, Idle, Starting, hm', hguard, hrem, hcalled', hb]
        | fn b m =>
          obtain ⟨rfl, hguard, rfl, hb, rfl, hm, hcalled, -⟩ := hc
          have hm' : (s.group g').curMeta ≠ .main g' := hm
          have hcalled' : (s.task (s.group g').curMeta).called = true := hcalled
          simp [Cont.leave, ContOk, State.cur, Idle, hm', hguard, hrem, hcalled', hb]
        | returnKeytable b m g'' =>
          obtain ⟨rfl, hguard, rfl, hb, rfl, hm, hcalled, -⟩ := hc
          have hm' : (s.group g').curMeta ≠ .main g' := hm
          have hcalled' : (s.task (s.group g').curMeta).called = true := hcalled
          simp [Cont.leave, ContOk, State.cur, Idle, hm', hguard, hrem, hcalled', hb]
      | entered g' =>
        rw [hk] at hc
        obtain ⟨hb, rfl, ⟨hm, hcalled, hbls⟩, hguard⟩ := hc
        have hm' : (s.group g').curMeta ≠ .main g' := hm
        have hcalled' : (s.task (s.group g').curMeta).called = false := hcalled
        simp [Cont.leave, ContOk, State.cur, Idle, Starting, hm', hguard, hrem, hcalled', hbls, hb]
      | _ => simp [hk, Cont.loopGroup] at hg
  · cases hs

/-- A callback changes the task it is about, and is not pending any more. -/
theorem Good.ran {s' : State} {g : GroupId} {n : ℕ} {r : Remained} (h : Good s)
    (hr : (s.group g).lastContextRemained = some r) (hn : r.task = .slot n)
    (hloop : (s.thread g).cont.loopGroup = some g)
    (htask : ∀ t, t ≠ .slot n → s'.task t = s.task t) (hsaved : s'.saved = s.saved)
    (hret : s'.mainReturned = s.mainReturned)
    (hother : ∀ v, v ≠ g → s'.group v = s.group v ∧ s'.thread v = s.thread v)
    (hgroup : s'.group g =
      { s.group g with lastContextRemained := none, ran := (s.group g).ran + 1 })
    (hthread : s'.thread g = { s.thread g with cont := (s.thread g).cont.reload g })
    (hslot : SlotOk s' n) (hplace : PlaceOk s') : Good s' := by
  obtain ⟨h₁, h₂, h₃, h₄, h₅, x, hx, hc⟩ := h.worker g
  have hp : (s.task (.slot n)).phase = .leaving g ∨ (s.task (.slot n)).phase = .ended g := by
    obtain ⟨m, hm, hp, -⟩ := h₄ r hr
    obtain rfl : n = m := by simpa [hn] using hm
    exact hp.imp And.left And.left
  have hcur : ∀ v, s.cur v ≠ .slot n := fun v => h.cur_ne (by
    rintro hrun
    obtain hp | hp := hp <;> simp [hrun] at hp)
  refine ⟨fun i => ?_, fun v => ?_, hplace⟩
  · by_cases hi : i = n
    · exact hi ▸ hslot
    · refine (h.slot i).congr (htask _ (by simpa using hi)) (fun _ _ => by rw [hsaved])
        (fun v _ => ?_) fun v hv => ?_
      · by_cases hvg : v = g
        · rw [hvg, hgroup]
        · rw [(hother v hvg).1]
      · by_cases hvg : v = g
        · -- the callback pending in the group is about one task only
          subst hvg
          exfalso
          obtain hv | hv := hv
          · obtain ⟨-, r', hr', hi', -⟩ := (h.slot i).leaving v hv
            obtain rfl : r = r' := by simpa [hr] using hr'
            exact hi (by simpa [hn] using hi'.symm)
          · obtain ⟨-, hr'⟩ := (h.slot i).ended v hv
            obtain rfl : r = _ := by simpa [hr] using hr'
            exact hi (by simpa [Remained.task] using hn)
        · rw [(hother v hvg).1]
  · by_cases hv : v = g
    · subst hv
      have hc' : s'.cur v = s.cur v := by rw [State.cur, hgroup, State.cur]
      have hmain : s'.task (.main v) = s.task (.main v) := htask _ (by simp)
      have htc : s'.task (s.cur v) = s.task (s.cur v) := htask _ (hcur v)
      refine ⟨by rwa [hmain], by rwa [hret], ?_, by simp [hgroup], ?_, x, ?_, ?_⟩
      · simpa [hgroup, hr] using h₃
      · obtain h₅ | ⟨m, hm, hp⟩ := h₅
        · exact .inl (by rwa [hc'])
        · exact .inr ⟨m, by rwa [hc'], by rwa [← hm, htc, hm]⟩
      · rwa [OnStack, MainSaved, hc', htc, hmain, hsaved]
      · rw [hthread]
        cases hk : (s.thread v).cont with
        | remainedLoop f g' v' =>
          rw [hk] at hc
          obtain rfl : g' = v := hc.1
          cases f <;>
            simp only [ContOk, Cont.reload, Starting, hc', htc, hgroup, hthread] at hc ⊢
          · exact hc
          · obtain ⟨-, hguard, hb, hbx, rfl, hne, hcalled⟩ := hc
            exact ⟨trivial, hguard, hb, hbx, rfl, hne, by rwa [htc]⟩
          · obtain ⟨-, hguard, hb, hbx, rfl, hne, hcalled⟩ := hc
            exact ⟨trivial, hguard, hb, hbx, rfl, hne, by rwa [htc]⟩
          · exact hc
        | entered g' =>
          rw [hk] at hc
          simp only [ContOk, Cont.reload, Starting, hc', htc, hgroup, hthread]
          exact And.intro hc.1 (And.intro trivial hc.2.2)
        | _ => simp [hk, Cont.loopGroup] at hloop
    · exact (h.worker v).congr (hother v hv).1 (hother v hv).2 (htask _ (hcur v))
        (htask _ (by simp)) (by rw [hsaved]) (by rw [hret]) fun m hm => by
          rw [htask]
          rintro hmn
          obtain rfl : m = n := by simpa using hmn
          obtain hm | hm := hm <;> obtain hp | hp := hp <;> simp [hm] at hp <;> exact hv hp

/-- A callback that gives the bthread back, or leaves it to others. -/
theorem Good.ranBack {g : GroupId} {n : ℕ} {r : Remained} {p : Phase} (h : Good s)
    (hr : (s.group g).lastContextRemained = some r) (hn : r.task = .slot n)
    (hloop : (s.thread g).cont.loopGroup = some g)
    (hleave : (s.task (.slot n)).phase = .leaving g) (hp : p = .ready ∨ p = .away) :
    Good (((s.setGroup g fun x =>
      { x with lastContextRemained := none, ran := x.ran + 1 }).setTask (.slot n)
        fun m => { m with phase := p }).setThread g
          fun x => { x with cont := x.cont.reload g }) := by
  obtain ⟨p₁, p₂, p₃⟩ := h.place
  refine h.ran hr hn hloop (fun t ht => ?_) rfl rfl (fun v hv => ?_) ?_ ?_ ?_ ?_
  · simp [State.setGroup, State.setTask, State.setThread, ht]
  · simp [State.setGroup, State.setTask, State.setThread, hv]
  · simp [State.setGroup, State.setTask, State.setThread]
  · simp [State.setGroup, State.setTask, State.setThread]
  · have hsus := ((h.slot n).leaving g hleave).1
    have hlive := (h.slot n).live (by simp [hleave])
    obtain rfl | rfl := hp <;>
    · constructor <;> simp [State.setGroup, State.setTask, State.setThread, hlive]
      · exact .inr (by
          simpa [Suspended, State.setGroup, State.setTask, State.setThread] using hsus)
  · refine ⟨fun t k hk => p₁ t k ?_, p₂, fun m g' hm => ?_⟩
    · by_cases ht : t = .slot n
      · subst ht
        simpa [State.setGroup, State.setTask, State.setThread] using hk
      · simpa [State.setGroup, State.setTask, State.setThread, ht] using hk
    · by_cases hmn : m = n
      · subst hmn
        have := (p₃ m g' (by
          simpa [State.setGroup, State.setTask, State.setThread] using hm)).2
        simp [hleave] at this
      · simpa [State.setGroup, State.setTask, State.setThread, hmn] using
          p₃ m g' (by simpa [State.setGroup, State.setTask, State.setThread, hmn] using hm)

/-- The stack of a bthread that has ended is none, the `_main_stack`, or goes to the pool. -/
theorem Good.returnStack {g : GroupId} {n : ℕ} (h : Good s)
    (hend : (s.task (.slot n)).phase = .ended g) :
    ∃ s₁, (if (s.task (.slot n)).stackType = .pthread then s
      else Context.returnStack (s.task (.slot n)).stack s) = s₁ ∧ s₁.task = s.task ∧
        s₁.saved = s.saved ∧ s₁.mainReturned = s.mainReturned ∧ s₁.group = s.group ∧
        s₁.thread = s.thread ∧
        ∀ k, (s₁.place k = s.place k ∧ (s.task (.slot n)).stack ≠ some (.alloc k)) ∨
          ((s.task (.slot n)).stack = some (.alloc k) ∧ (∃ ty, s₁.place k = .pooled ty) ∧
            ∃ v, s.saved (.alloc k) = .jumpStack (.endingSched none) v) := by
  obtain hs | ⟨ht, hs⟩ | ⟨ht, k, v, hs, hv⟩ := ((h.slot n).ended g hend).1
  · refine ⟨s, ?_, rfl, rfl, rfl, rfl, rfl, fun k => .inl ⟨rfl, by simp [hs]⟩⟩
    split
    · rfl
    · rw [hs]
      rfl
  · exact ⟨s, by simp [ht], rfl, rfl, rfl, rfl, rfl, fun k => .inl ⟨rfl, by simp [hs]⟩⟩
  · obtain ⟨ty, hk⟩ := h.place.held _ _ hs
    refine ⟨{ s with place := update s.place k (.pooled ty) }, ?_, rfl, rfl, rfl, rfl, rfl,
      fun i => ?_⟩
    · simp [ht, hs, Context.returnStack, hk]
    · by_cases hi : i = k
      · subst hi
        exact .inr ⟨hs, ⟨ty, by simp⟩, v, hv⟩
      · exact .inl ⟨by simp [hi], by simpa [hs] using fun h => hi h.symm⟩

/-- `_release_last_context` does not look at what was changed of the group. -/
theorem runRemained_release {back : Bool} {g : GroupId} {t : TaskRef} {s₁ : State}
    {f : Group → Group} (hg : s₁.group = s.group)
    (hs₁ : (if (s.task t).stackType = .pthread then s
      else returnStack (s.task t).stack s) = s₁) :
    runRemained back (.releaseLastContext t) (s.setGroup g f) =
      (s₁.setGroup g f).setTask t
        fun m => { m with stack := none, phase := .free, returns := m.returns + 1 } := by
  subst hs₁
  by_cases ht : (s.task t).stackType = .pthread
  · simp [runRemained, State.setGroup, ht]
  · simp only [runRemained, State.setGroup, ht, if_false]
    cases (s.task t).stack with
    | none => rfl
    | some r =>
      cases r with
      | main g' => rfl
      | alloc k =>
        simp only [returnStack]
        cases s.place k <;> rfl

/-- The callback that gives a slot back. -/
theorem Good.released {g : GroupId} {n : ℕ} {back : Bool} (h : Good s)
    (hr : (s.group g).lastContextRemained = some (.releaseLastContext (.slot n)))
    (hloop : (s.thread g).cont.loopGroup = some g)
    (hend : (s.task (.slot n)).phase = .ended g) :
    Good ((runRemained back (.releaseLastContext (.slot n)) (s.setGroup g fun x =>
      { x with lastContextRemained := none, ran := x.ran + 1 })).setThread g
        fun x => { x with cont := x.cont.reload g }) := by
  have hlive := (h.slot n).live (by simp [hend])
  obtain ⟨p₁, p₂, p₃⟩ := h.place
  obtain ⟨s₁, hs₁, e₁, e₂, e₃, e₄, e₅, e₆⟩ := h.returnStack hend
  rw [runRemained_release e₄ hs₁]
  refine h.ran hr rfl hloop (fun t ht => ?_) ?_ ?_ (fun v hv => ?_) ?_ ?_ ?_ ?_
  · simp [State.setGroup, State.setTask, State.setThread, ht, e₁]
  · simp [State.setGroup, State.setTask, State.setThread, e₂]
  · simp [State.setGroup, State.setTask, State.setThread, e₃]
  · simp [State.setGroup, State.setTask, State.setThread, hv, e₄, e₅]
  · simp [State.setGroup, State.setTask, State.setThread, e₄]
  · simp [State.setGroup, State.setTask, State.setThread, e₅]
  · constructor <;> simp [State.setGroup, State.setTask, State.setThread, e₁, hlive]
  · refine ⟨fun t k hk => ?_, fun k ty hk => ?_, fun m g' hm => ?_⟩
    · by_cases ht : t = .slot n
      · subst ht
        simp [State.setGroup, State.setTask, State.setThread] at hk
      · have hk' : (s.task t).stack = some (.alloc k) := by
          simpa [State.setGroup, State.setTask, State.setThread, ht, e₁] using hk
        obtain ⟨ty, hty⟩ := p₁ t k hk'
        obtain ⟨hk, -⟩ | ⟨hk, -⟩ := e₆ k
        · exact ⟨ty, by simpa [State.setGroup, State.setTask, State.setThread, hk] using hty⟩
        · obtain ⟨ty', hty'⟩ := p₁ _ k hk
          simp only [hty, StackPlace.held.injEq] at hty'
          exact absurd hty'.2 ht
    · have hk' : s₁.place k = .pooled ty := hk
      have hsaved : s₁.saved (.alloc k) = s.saved (.alloc k) := by rw [e₂]
      obtain ⟨hk, -⟩ | ⟨-, -, hv⟩ := e₆ k
      · exact hsaved.symm ▸ p₂ k ty (hk ▸ hk')
      · exact hsaved.symm ▸ hv
    · by_cases hmn : m = n
      · subst hmn
        simp [State.setGroup, State.setTask, State.setThread] at hm
      · simpa [State.setGroup, State.setTask, State.setThread, hmn, e₁] using
          p₃ m g' (by simpa [State.setGroup, State.setTask, State.setThread, hmn, e₁] using hm)

/-- A callback is run. -/
theorem Good.remained {w : GroupId} {back : Bool} {s' : State} (h : Good s)
    (hs : next s (.remained w back) = some s') : Good s' := by
  simp only [next, Option.bind_eq_some_iff, Option.map_eq_some_iff] at hs
  obtain ⟨g, hg, r, hr, rfl⟩ := hs
  obtain ⟨-, -, -, h₄, -, x, -, hc⟩ := h.worker w
  obtain ⟨rfl, -⟩ := hc.loopGroup hg
  obtain ⟨n, hn, hp, -⟩ := h₄ r hr
  cases r with
  | readyToRunInWorker t =>
    obtain rfl : t = .slot n := hn
    exact h.ranBack hr rfl hg (by simpa [Remained.Ends] using hp) (.inl rfl)
  | waitForButex t | addSleepEvent t _ =>
    obtain rfl : t = .slot n := hn
    exact h.ranBack hr rfl hg (by simpa [Remained.Ends] using hp) (by cases back <;> simp)
  | releaseLastContext t =>
    obtain rfl : t = .slot n := hn
    exact h.released hr hg (by simpa [Remained.Ends] using hp)

/-! ## Switching -/

/-- The task that is run next, with its stack `y`. -/
inductive Next (s : State) (w : GroupId) (y : StackRef) : TaskRef → Prop
  | main (hy : y = .main w) : Next s w y (.main w)
  | fresh (n : ℕ) (hp : (s.task (.slot n)).phase = .ready)
    (hlive : (s.task (.slot n)).gets = (s.task (.slot n)).returns + 1)
    (hf : Fresh s (.slot n))
    (hy : (y = .main w ∧ (s.task (.slot n)).stackType = .pthread) ∨
      ((∃ k, y = .alloc k) ∧ (s.task (.slot n)).stackType ≠ .pthread ∧
        ((s.task (s.cur w)).stack = none ∨ s.saved y = .taskRunner ∨
          ∃ v, s.saved y = .jumpStack (.endingSched none) v))) : Next s w y (.slot n)
  | suspended (n : ℕ) (hp : (s.task (.slot n)).phase = .ready)
    (hlive : (s.task (.slot n)).gets = (s.task (.slot n)).returns + 1)
    (hs : Suspended s (.slot n)) : Next s w y (.slot n)

/-- The task that is switched out, with its stack and the frame that calls `sched_to`. -/
inductive Last (s : State) (w : GroupId) : Option StackRef → Frame → TaskRef → Prop
  | main (hr : (s.group w).lastContextRemained = none) :
    Last s w (some (.main w)) (.runMainTask ⟨w, w⟩) (.main w)
  | user (n k : ℕ) (f : Frame) (r : Remained) (hp : (s.task (.slot n)).phase = .leaving w)
    (hr : (s.group w).lastContextRemained = some r) (hn : r.task = .slot n) (he : ¬r.Ends)
    (hg : ∀ t g, r = .addSleepEvent t g → g = w) (hf : f.Of none (.slot n))
    (ht : (s.task (.slot n)).stackType ≠ .pthread) (hc : (s.task (.slot n)).called = true)
    (hm : MainSaved s w) : Last s w (some (.alloc k)) f (.slot n)
  | ended (n : ℕ) (x : Option StackRef) (b : Option MainTask)
    (hp : (s.task (.slot n)).phase = .ended w)
    (hr : (s.group w).lastContextRemained = some (.releaseLastContext (.slot n)))
    (hx : ∀ r, x = some r → r.base = b ∧ ((r = .main w ∧ (s.task (.slot n)).stackType = .pthread) ∨
      ((∃ k, r = .alloc k) ∧ (s.task (.slot n)).stackType ≠ .pthread)))
    (hm : b = none → MainSaved s w) : Last s w x (.endingSched b) (.slot n)

/-- A state in which worker `w` calls `sched_to` for `t`, whose stack is `y`, from `f`. -/
structure Prepared (s : State) (w : GroupId) (t : TaskRef) (y : StackRef) (f : Frame) : Prop where
  slot : ∀ n, .slot n ≠ t → .slot n ≠ s.cur w → SlotOk s n
  worker : ∀ v, v ≠ w → WorkerOk s v
  held : ∀ t k, (s.task t).stack = some (.alloc k) → ∃ ty, s.place k = .held ty t
  pooled : ∀ k ty, s.place k = .pooled ty →
    ∃ v, s.saved (.alloc k) = .jumpStack (.endingSched none) v
  mains : ∀ n g, .slot n ≠ t → .slot n ≠ s.cur w → (s.task (.slot n)).stack = some (.main g) →
    (s.task (.slot n)).stackType = .pthread ∧
      ((s.task (.slot n)).phase = .running g ∨ (s.task (.slot n)).phase = .ended g)
  main : (s.task (.main w)).stack = some (.main w) ∧ (s.task (.main w)).stackType = .main
  kept : s.mainReturned w = false
  count : (s.group w).registered =
    (s.group w).ran + if (s.group w).lastContextRemained = none then 0 else 1
  guard : (s.group w).schedRecursiveGuard = 0
  live : ∀ n, s.cur w = .slot n → (s.task (.slot n)).gets = (s.task (.slot n)).returns + 1
  ne : t ≠ s.cur w
  stack : (s.task t).stack = some y
  next : Next s w y t
  last : Last s w (s.task (s.cur w)).stack f (s.cur w)
  handed : (s.task (s.cur w)).stack = none → f = .endingSched y.base ∧ Fresh s t ∧ t ≠ .main w

/-- The state after the switch, with the contexts `saved` on the stacks and context `k` on the
worker. -/
def switched (w : GroupId) (t : TaskRef) (saved : StackRef → Cont) (k : Cont) (s : State) : State :=
  { s with
    group := update s.group w { s.group w with
      curMeta := t, schedRecursiveGuard := (s.group w).schedRecursiveGuard + 1 }
    task := update (update s.task (s.cur w)
      { s.task (s.cur w) with localStorage := (s.thread w).bls }) t
        { s.task t with phase := .running w }
    thread := update s.thread w { s.thread w with bls := (s.task t).localStorage, cont := k }
    saved := saved }

/-- The locals of a call of `sched_to`. -/
def Thread.locals (x : Thread) : Locals := ⟨x.errno, x.uniqueUserPtr, x.bls⟩

/-- `sched_to` without a jump. -/
theorem schedTo_stay {w : GroupId} {t : TaskRef} {f : Frame} (hne : t ≠ s.cur w)
    (h : (s.task (s.cur w)).stack = none ∨
      ∃ y, (s.task t).stack = some y ∧ (s.task (s.cur w)).stack = some y) :
    schedTo w w t f s =
      switched w t s.saved (.remainedLoop f w (s.thread w).locals) s := by
  obtain h | ⟨y, hy, hx⟩ := h
  · simp [schedTo, hne, State.setGroup, State.setTask, State.setThread, update_of_ne hne.symm, h,
      switched, Thread.locals]
  · simp [schedTo, hne, State.setGroup, State.setTask, State.setThread, update_of_ne hne.symm, hx,
      hy, switched, Thread.locals]

/-- `sched_to` with a jump from stack `x` to stack `y`. -/
theorem schedTo_jump {w : GroupId} {t : TaskRef} {f : Frame} {x y : StackRef} (hne : t ≠ s.cur w)
    (hx : (s.task (s.cur w)).stack = some x) (hy : (s.task t).stack = some y) (hxy : y ≠ x) :
    schedTo w w t f s = switched w t (update s.saved x (.jumpStack f (s.thread w).locals))
      ((s.saved y).resume w) s := by
  simp [schedTo, hne, State.setGroup, State.setTask, State.setThread, update_of_ne hne.symm, hx,
    hy, hxy, switched, Thread.locals]

section

variable {w : GroupId} {t : TaskRef} {y : StackRef} {f : Frame}

/-- The task that is switched out is the main task of its group, or is about to be given to a
callback. -/
theorem Last.phase {x : Option StackRef} {c : TaskRef} (h : Last s w x f c) :
    c = .main w ∨ ∃ n, c = .slot n ∧
      ((s.task (.slot n)).phase = .leaving w ∨ (s.task (.slot n)).phase = .ended w) := by
  cases h with
  | main => exact .inl rfl
  | user n k f r hp => exact .inr ⟨n, rfl, .inl hp⟩
  | ended n x b hp => exact .inr ⟨n, rfl, .inr hp⟩

/-- The task that is run next is the main task of the group, or was on a run queue. -/
theorem Next.phase (h : Next s w y t) :
    t = .main w ∨ ∃ n, t = .slot n ∧ (s.task (.slot n)).phase = .ready := by
  cases h with
  | main => exact .inl rfl
  | fresh n hp => exact .inr ⟨n, rfl, hp⟩
  | suspended n hp => exact .inr ⟨n, rfl, hp⟩

/-- The two tasks do not share a stack, but for the `_main_stack`. -/
theorem Prepared.stack_ne (h : Prepared s w t y f) {k : ℕ} (hy : y = .alloc k) :
    (s.task (s.cur w)).stack ≠ some y := by
  rintro hx
  subst hy
  obtain ⟨ty, h₁⟩ := h.held _ _ h.stack
  obtain ⟨ty', h₂⟩ := h.held _ _ hx
  simp only [h₁, StackPlace.held.injEq] at h₂
  exact h.ne h₂.2

section

variable {saved : StackRef → Cont} {k : Cont}

theorem switched_other {i : TaskRef} (h₁ : i ≠ t) (h₂ : i ≠ s.cur w) :
    (switched w t saved k s).task i = s.task i := by
  simp [switched, h₁, h₂]

theorem switched_cur (h : t ≠ s.cur w) : (switched w t saved k s).task (s.cur w) =
    { s.task (s.cur w) with localStorage := (s.thread w).bls } := by
  simp [switched, update_of_ne h.symm]

theorem switched_next :
    (switched w t saved k s).task t = { s.task t with phase := .running w } := by
  simp [switched]

/-- Nobody else is on the stack that was left. -/
theorem Prepared.saved_of_ne (h : Prepared s w t y f)
    (hsaved : ∀ r, (s.task (s.cur w)).stack ≠ some r → saved r = s.saved r) {i : TaskRef} {j : ℕ}
    (hi : i ≠ s.cur w) (hj : (s.task i).stack = some (.alloc j)) :
    saved (.alloc j) = s.saved (.alloc j) := by
  refine hsaved _ fun hc => ?_
  obtain ⟨ty, h₁⟩ := h.held _ _ hj
  obtain ⟨ty', h₂⟩ := h.held _ _ hc
  simp only [h₁, StackPlace.held.injEq] at h₂
  exact hi h₂.2

/-- The slots after a switch. -/
theorem Prepared.slot_switched (h : Prepared s w t y f)
    (hsaved : ∀ r, (s.task (s.cur w)).stack ≠ some r → saved r = s.saved r)
    (hx : ∀ r, (s.task (s.cur w)).stack = some r →
      (r ≠ y ∧ saved r = .jumpStack f (s.thread w).locals) ∨ (r = y ∧ saved r = s.saved r))
    (n : ℕ) : SlotOk (switched w t saved k s) n := by
  by_cases ht : .slot n = t
  · -- the task that runs now
    subst ht
    have hlive : (s.task (.slot n)).gets = (s.task (.slot n)).returns + 1 := by
      cases h.next with
      | fresh _ _ hlive => exact hlive
      | suspended _ _ hlive => exact hlive
    constructor <;> simp [switched_next, hlive]
    simp [switched]
  by_cases hc : .slot n = s.cur w
  · -- the task that was switched out
    have hc' : (switched w t saved k s).task (s.cur w) =
        { s.task (s.cur w) with localStorage := (s.thread w).bls } := switched_cur h.ne
    have hlive := h.live n hc.symm
    have hl := h.last
    have hstack := h.stack
    rw [← hc] at hc' hl hx
    generalize hst : (s.task (.slot n)).stack = st at hl
    cases hl with
    | user m j f r hp hr hn he hg hf ht' hcalled hm =>
      have hne : StackRef.alloc j ≠ y := fun hy => by
        refine h.stack_ne hy.symm ?_
        rw [← hc, hst, hy]
      have hsv : saved (.alloc j) = .jumpStack f (s.thread w).locals := by
        obtain ⟨-, hsv⟩ | ⟨hy, -⟩ := hx _ hst
        · exact hsv
        · exact absurd hy hne
      constructor <;> simp [hc', hp, hlive]
      refine ⟨⟨by simp [hc', hcalled], by simp [hc', ht'], j, f, _, by simp [hc', hst], hsv, hf,
        by simp [hc', Thread.locals]⟩, r, ?_, hn, he⟩
      simpa [switched] using hr
    | ended m _ b hp hr hxx hm =>
      constructor <;> simp [hc', hp, hlive]
      refine ⟨?_, by simpa [switched] using hr⟩
      cases hst' : st with
      | none => exact .inl (by simp [hc', hst, hst'])
      | some r =>
        subst hst'
        obtain ⟨hb, ⟨rfl, ht'⟩ | ⟨⟨j, rfl⟩, ht'⟩⟩ := hxx r rfl
        · exact .inr (.inl ⟨by simp [hc', ht'], by simp [hc', hst]⟩)
        · have hne : StackRef.alloc j ≠ y := fun hy => by
            refine h.stack_ne hy.symm ?_
            rw [← hc, hst, hy]
          have hsv : saved (.alloc j) = .jumpStack (.endingSched b) (s.thread w).locals := by
            obtain ⟨-, hsv⟩ | ⟨hy, -⟩ := hx _ hst
            · exact hsv
            · exact absurd hy hne
          obtain rfl : none = b := hb
          exact .inr (.inr ⟨by simp [hc', ht'], j, _, by simp [hc', hst], hsv⟩)
  · have hS := h.slot n ht hc
    refine hS.congr (switched_other ht hc) (fun j hj => h.saved_of_ne hsaved hc hj) (fun g hg => ?_)
      fun g _ => ?_
    · have hgw : g ≠ w := by
        rintro rfl
        exact hc (hS.running g hg).symm
      simp [switched, hgw]
    · by_cases hgw : g = w
      · subst hgw
        simp [switched]
      · simp [switched, hgw]

/-- The other workers after a switch. -/
theorem Prepared.worker_switched (h : Prepared s w t y f)
    (hsaved : ∀ r, (s.task (s.cur w)).stack ≠ some r → saved r = s.saved r) {v : GroupId}
    (hv : v ≠ w) : WorkerOk (switched w t saved k s) v := by
  have hV := h.worker v hv
  have hct : s.cur v ≠ t := by
    rintro hct
    obtain hc | ⟨n, hn, hp⟩ := hV.cur
    · obtain ht | ⟨m, ht, -⟩ := h.next.phase
      · simp only [hct, ht, TaskRef.main.injEq] at hc
        exact hv hc.symm
      · simp [hct, ht] at hc
    · obtain ht | ⟨m, ht, hm⟩ := h.next.phase
      · simp [hct, ht] at hn
      · simp only [hct, ht, TaskRef.slot.injEq] at hn
        subst hn
        simp [hp] at hm
  have hcc : s.cur v ≠ s.cur w := by
    intro hcc
    obtain hc | ⟨n, hn, hp⟩ := hV.cur
    · obtain ht | ⟨m, ht, -⟩ := h.last.phase
      · simp only [hcc, ht, TaskRef.main.injEq] at hc
        exact hv hc.symm
      · simp [hcc, ht] at hc
    · obtain ht | ⟨m, ht, hm⟩ := h.last.phase
      · simp [hcc, ht] at hn
      · simp only [hcc, ht, TaskRef.slot.injEq] at hn
        subst hn
        simp [hp] at hm
  have hmt : TaskRef.main v ≠ t := by
    rintro rfl
    obtain ht | ⟨m, ht, -⟩ := h.next.phase
    · exact hv (by simpa using ht)
    · simp at ht
  have hmc : TaskRef.main v ≠ s.cur w := by
    intro hc
    obtain ht | ⟨m, ht, -⟩ := h.last.phase
    · exact hv (by simpa [ht] using hc)
    · simp [ht] at hc
  refine hV.congr (by simp [switched, hv]) (by simp [switched, hv]) (switched_other hct hcc)
    (switched_other hmt hmc) (hsaved _ fun hst => ?_) rfl fun n hn => ?_
  · -- the stack that was left is not the `_main_stack` of another group
    have hl := h.last
    rw [hst] at hl
    generalize s.cur w = c at hl
    generalize hr : some (StackRef.main v) = r at hl
    cases hl with
    | main => exact hv (by simpa using hr)
    | user => simp at hr
    | ended n x b hp _ hx =>
      obtain ⟨-, ⟨hr', -⟩ | ⟨⟨j, hr'⟩, -⟩⟩ := hx _ hr.symm
      · exact hv (by simpa using hr')
      · simp at hr'
  · have hnt : TaskRef.slot n ≠ t := by
      rintro rfl
      obtain ht | ⟨m, ht, hm⟩ := h.next.phase
      · simp at ht
      · simp only [TaskRef.slot.injEq] at ht
        subst ht
        simp [hm] at hn
    by_cases hnc : TaskRef.slot n = s.cur w
    · rw [hnc, switched_cur h.ne]
    · rw [switched_other hnt hnc]

/-- The stacks after a switch. -/
theorem Prepared.place_switched (h : Prepared s w t y f)
    (hsaved : ∀ r, (s.task (s.cur w)).stack ≠ some r → saved r = s.saved r) :
    PlaceOk (switched w t saved k s) := by
  have hstack : ∀ i, ((switched w t saved k s).task i).stack = (s.task i).stack := by
    intro i
    by_cases ht : i = t
    · rw [ht, switched_next]
    · by_cases hc : i = s.cur w
      · rw [hc, switched_cur h.ne]
      · rw [switched_other ht hc]
  refine ⟨fun i j hj => h.held i j (hstack i ▸ hj), fun j ty hj => ?_, fun n g hg => ?_⟩
  · have hne : (s.task (s.cur w)).stack ≠ some (.alloc j) := fun hc => by
      obtain ⟨ty', hty'⟩ := h.held _ _ hc
      have : s.place j = .pooled ty := hj
      simp [hty'] at this
    obtain ⟨v, hv⟩ := h.pooled j ty hj
    exact ⟨v, by simpa [switched, hsaved _ hne] using hv⟩
  · rw [hstack] at hg
    by_cases ht : .slot n = t
    · subst ht
      have hy : y = .main g := by simpa [h.stack] using hg
      subst hy
      rw [switched_next]
      generalize hr : StackRef.main g = r at *
      cases h.next with
      | fresh _ _ _ _ hy =>
        obtain ⟨hy, hty⟩ | ⟨⟨j, hy⟩, -⟩ := hy
        · have : g = w := by simpa [← hr] using hy
          exact ⟨hty, .inl (by rw [this])⟩
        · simp [← hr] at hy
      | suspended _ _ _ hs =>
        obtain ⟨-, -, j, _, _, hj, -⟩ := hs
        rw [h.stack, ← hr] at hj
        simp at hj
    · by_cases hc : .slot n = s.cur w
      · have hl := h.last
        rw [hc, switched_cur h.ne]
        rw [← hc] at hl ⊢
        rw [hg] at hl
        generalize hr : some (StackRef.main g) = r at hl
        cases hl with
        | user => simp at hr
        | ended _ _ b hp _ hx =>
          obtain ⟨-, ⟨hr', hty⟩ | ⟨⟨j, hr'⟩, -⟩⟩ := hx _ hr.symm
          · have : g = w := by simpa using hr'
            exact ⟨hty, .inr (by rw [hp, this])⟩
          · simp at hr'
      · rw [switched_other ht hc]
        exact h.mains n g ht hc hg

/-- The context on the `_main_stack` after a switch to another stack. -/
theorem Prepared.mainSaved (h : Prepared s w t y f)
    (hsaved : ∀ r, (s.task (s.cur w)).stack ≠ some r → saved r = s.saved r)
    (hx : ∀ r, (s.task (s.cur w)).stack = some r →
      (r ≠ y ∧ saved r = .jumpStack f (s.thread w).locals) ∨ (r = y ∧ saved r = s.saved r))
    (hy : y.base = none) (ht : t ≠ .main w) : MainSaved (switched w t saved k s) w := by
  have hym : StackRef.main w ≠ y := by rintro rfl; simp [StackRef.base] at hy
  -- a context that was there before
  have hkeep (hm : MainSaved s w) (hc : s.cur w ≠ .main w)
      (hst : (s.task (s.cur w)).stack ≠ some (.main w)) :
      MainSaved (switched w t saved k s) w := by
    obtain ⟨f', v, hv, hf⟩ := hm
    refine ⟨f', v, by simpa [switched, hsaved _ hst] using hv, ?_⟩
    rwa [switched_other ht.symm hc.symm]
  have hl := h.last
  generalize hc : s.cur w = c at hl
  generalize hst : (s.task c).stack = st at hl
  rw [← hc] at hst
  cases hl with
  | main =>
    obtain ⟨-, hs⟩ | ⟨hs, -⟩ := hx _ hst
    · refine ⟨_, _, hs, .inl ⟨rfl, ?_⟩⟩
      rw [← hc, switched_cur h.ne]
      rfl
    · exact absurd hs hym
  | user n j f r _ _ _ _ _ _ _ _ hm =>
    exact hkeep hm (by simp [hc]) (by simp [hst])
  | ended n x b _ _ hxx hm =>
    cases st with
    | none =>
      have := (h.handed hst).1
      rw [hy] at this
      exact hkeep (hm (by simpa using this)) (by simp [hc]) (by simp [hst])
    | some r =>
      obtain ⟨hb, ⟨rfl, -⟩ | ⟨⟨j, rfl⟩, -⟩⟩ := hxx r rfl
      · obtain ⟨-, hs⟩ | ⟨hs, -⟩ := hx _ hst
        · exact ⟨_, _, hs, .inr (by rw [← hb]; rfl)⟩
        · exact absurd hs hym
      · exact hkeep (hm (by rw [← hb]; rfl)) (by simp [hc]) (by simp [hst])

/-- **The invariant after a switch**, if the context of the worker fits and the stack that was left
has the context of the call of `sched_to`. -/
theorem Prepared.good (h : Prepared s w t y f)
    (hsaved : ∀ r, (s.task (s.cur w)).stack ≠ some r → saved r = s.saved r)
    (hx : ∀ r, (s.task (s.cur w)).stack = some r →
      (r ≠ y ∧ saved r = .jumpStack f (s.thread w).locals) ∨ (r = y ∧ saved r = s.saved r))
    (hk : ContOk (switched w t saved k s) w y k) : Good (switched w t saved k s) := by
  refine ⟨fun n => h.slot_switched hsaved hx n, fun v => ?_, h.place_switched hsaved⟩
  by_cases hv : v = w
  swap
  · exact h.worker_switched hsaved hv
  subst hv
  have hcur : (switched v t saved k s).cur v = t := by simp [switched, State.cur]
  have hmain : ((switched v t saved k s).task (.main v)).stack = some (.main v) ∧
      ((switched v t saved k s).task (.main v)).stackType = .main := by
    by_cases ht : .main v = t
    · rw [ht, switched_next, ← ht]
      exact h.main
    · by_cases hc : .main v = s.cur v
      · rw [hc, switched_cur h.ne, ← hc]
        exact h.main
      · rw [switched_other ht hc]
        exact h.main
  refine ⟨hmain, h.kept, ?_, fun r hr => ?_, ?_, y, ⟨?_, ?_⟩, ?_⟩
  · simpa [switched] using h.count
  · have hr' : (s.group v).lastContextRemained = some r := by simpa [switched] using hr
    have hl := h.last
    obtain ⟨n, hn, hc, hp, hg⟩ : ∃ n, r.task = .slot n ∧ s.cur v = .slot n ∧
        (((s.task (.slot n)).phase = .leaving v ∧ ¬r.Ends) ∨
          ((s.task (.slot n)).phase = .ended v ∧ r.Ends)) ∧
        ∀ t g, r = .addSleepEvent t g → g = v := by
      generalize s.cur v = c at hl
      generalize (s.task c).stack = st at hl
      cases hl with
      | main hn => simp [hr'] at hn
      | user n k f r₀ hp hr₀ hn he hg =>
        obtain rfl : r = r₀ := by simpa [hr'] using hr₀
        exact ⟨n, hn, rfl, .inl ⟨hp, he⟩, hg⟩
      | ended n x b hp hr₀ =>
        obtain rfl : r = _ := by simpa [hr'] using hr₀
        exact ⟨n, rfl, rfl, .inr ⟨hp, trivial⟩, by simp⟩
    refine ⟨n, hn, ?_, hg⟩
    rw [← hc] at hp ⊢
    rwa [switched_cur h.ne]
  · rw [hcur]
    obtain ht | ⟨n, ht, -⟩ := h.next.phase
    · exact .inl ht
    · exact .inr ⟨n, ht, by rw [← ht, switched_next]⟩
  · rw [hcur, switched_next]
    exact h.stack
  · rw [hcur, switched_next]
    have hnext := h.next
    have hstack := h.stack
    have halloc : ∀ j, y = .alloc j → t ≠ .main v := by
      rintro j hj rfl
      simp [h.main.1, hj] at hstack
    cases hnext with
    | main hy => exact .inl ⟨hy, fun hn => absurd rfl hn⟩
    | fresh n _ _ _ hy =>
      obtain ⟨hy, hty⟩ | ⟨⟨j, hj⟩, hty, -⟩ := hy
      · exact .inl ⟨hy, fun _ => hty⟩
      · exact .inr ⟨⟨j, hj⟩, hty, by simp,
          h.mainSaved hsaved hx (by rw [hj]; rfl) (by simp)⟩
    | suspended n _ _ hs =>
      obtain ⟨-, hty, j, _, _, hj, -⟩ := hs
      have hj : y = .alloc j := by simpa [hstack] using hj
      exact .inr ⟨⟨j, hj⟩, hty, by simp, h.mainSaved hsaved hx (by rw [hj]; rfl) (by simp)⟩
  · simpa [switched] using hk

end

/-- The context saved on the `_main_stack` when its worker is on another stack. -/
theorem Last.mainSaved {x : StackRef} {c : TaskRef} (h : Last s w (some x) f c)
    (hx : x ≠ .main w) : MainSaved s w := by
  cases h with
  | main => exact absurd rfl hx
  | user _ _ _ _ _ _ _ _ _ _ _ _ hm => exact hm
  | ended _ _ b _ _ hxx hm =>
    obtain ⟨hb, ⟨rfl, -⟩ | ⟨⟨j, rfl⟩, -⟩⟩ := hxx x rfl
    · exact absurd rfl hx
    · exact hm hb.symm

/-- A task that was never run starts with `tls_bls` reset. -/
theorem starting_switched {saved : StackRef → Cont} {k : Cont} (hf : Fresh s t)
    (ht : t ≠ .main w) : Starting (switched w t saved k s) w := by
  have hcur : (switched w t saved k s).cur w = t := by simp [switched, State.cur]
  refine ⟨by rwa [hcur], by rw [hcur, switched_next]; exact hf.1, ?_⟩
  simpa [switched] using hf.2

theorem guard_switched {saved : StackRef → Cont} {k : Cont}
    (h : (s.group w).schedRecursiveGuard = 0) :
    ((switched w t saved k s).group w).schedRecursiveGuard = 1 := by
  simp [switched, h]

theorem cur_switched {saved : StackRef → Cont} {k : Cont} :
    (switched w t saved k s).cur w = t := by
  simp [switched, State.cur]

/-- The context of a worker that stays on its stack. -/
theorem Prepared.contOk_stay (h : Prepared s w t y f)
    (hst : (s.task (s.cur w)).stack = none ∨ (s.task (s.cur w)).stack = some y)
    {saved : StackRef → Cont} {k : Cont} :
    ContOk (switched w t saved k s) w y (.remainedLoop f w (s.thread w).locals) := by
  have hguard : ((switched w t saved k s).group w).schedRecursiveGuard = 1 :=
    guard_switched h.guard
  have hmain : y ≠ .main w → (s.task (s.cur w)).stack = none := by
    intro hy
    refine hst.resolve_right fun hst => ?_
    cases h.next with
    | main hy' => exact hy hy'
    | fresh _ _ _ _ hy' =>
      obtain ⟨hy', -⟩ | ⟨⟨j, hj⟩, -⟩ := hy'
      · exact hy hy'
      · exact h.stack_ne hj hst
    | suspended _ _ _ hs =>
      obtain ⟨-, -, j, _, _, hj, -⟩ := hs
      have hj : y = .alloc j := by simpa [h.stack] using hj
      exact h.stack_ne hj hst
  by_cases hnone : (s.task (s.cur w)).stack = none
  · obtain ⟨rfl, hf, ht⟩ := h.handed hnone
    exact ⟨rfl, hguard, rfl, .inr (starting_switched hf ht)⟩
  · have hy : y = .main w := by
      by_contra hy
      exact hnone (hmain hy)
    have hst := hst.resolve_left hnone
    subst hy
    have hnext : t = .main w ∨ Fresh s t ∧ t ≠ .main w := by
      have hstack := h.stack
      cases h.next with
      | main => exact .inl rfl
      | fresh n _ _ hf => exact .inr ⟨hf, by simp⟩
      | suspended n _ _ hs =>
        obtain ⟨-, -, j, _, _, hj, -⟩ := hs
        simp [hstack] at hj
    have hl := h.last
    rw [hst] at hl
    generalize hc : s.cur w = c at hl
    generalize hr : some (StackRef.main w) = r at hl
    cases hl with
    | main =>
      obtain ht | ⟨hf, ht⟩ := hnext
      · exact absurd (ht.trans hc.symm) h.ne
      · exact ⟨rfl, hguard, rfl, rfl, .inr (starting_switched hf ht)⟩
    | user => simp at hr
    | ended n x b _ _ hxx =>
      have hb : b = some ⟨w, w⟩ := ((hxx _ hr.symm).1).symm
      refine ⟨rfl, hguard, hb, ?_⟩
      obtain rfl | ⟨hf, ht⟩ := hnext
      · exact .inl ⟨cur_switched, hb⟩
      · exact .inr (starting_switched hf ht)

/-- The context of a worker that jumps to another stack. -/
theorem Prepared.contOk_jump (h : Prepared s w t y f) {x : StackRef}
    (hx : (s.task (s.cur w)).stack = some x) (hxy : y ≠ x) {saved : StackRef → Cont} {k : Cont} :
    ContOk (switched w t saved k s) w y ((s.saved y).resume w) := by
  have hguard : ((switched w t saved k s).group w).schedRecursiveGuard = 1 :=
    guard_switched h.guard
  have hstack := h.stack
  have hl := h.last
  rw [hx] at hl
  have hcur : (switched w t saved k s).cur w = t := cur_switched
  have hbls : ((switched w t saved k s).thread w).bls = (s.task t).localStorage := by
    simp [switched]
  -- on the `_main_stack`
  have hmain (hy : y = .main w) (hnext : t = .main w ∨ Fresh s t ∧ t ≠ .main w) :
      ContOk (switched w t saved k s) w y ((s.saved y).resume w) := by
    subst hy
    obtain ⟨f', v, hv, ⟨rfl, hvb⟩ | rfl⟩ := hl.mainSaved hxy.symm
    · rw [hv]
      refine ⟨rfl, hguard, rfl, rfl, ?_⟩
      obtain rfl | ⟨hf, ht⟩ := hnext
      · exact .inl ⟨hcur, by rw [hbls, hvb]⟩
      · exact .inr (starting_switched hf ht)
    · rw [hv]
      refine ⟨rfl, hguard, rfl, ?_⟩
      obtain rfl | ⟨hf, ht⟩ := hnext
      · exact .inl ⟨hcur, rfl⟩
      · exact .inr (starting_switched hf ht)
  cases hnext : h.next with
  | main hy => exact hmain hy (.inl rfl)
  | fresh n _ _ hf hy =>
    obtain ⟨hy, -⟩ | ⟨⟨j, rfl⟩, -, hn | hs | ⟨v, hs⟩⟩ := hy
    · exact hmain hy (.inr ⟨hf, by simp⟩)
    · simp [hn] at hx
    · rw [hs]
      exact ⟨rfl, rfl, starting_switched hf (by simp), hguard⟩
    · rw [hs]
      exact ⟨rfl, hguard, rfl, .inr (starting_switched hf (by simp))⟩
  | suspended n _ _ hs =>
    obtain ⟨hcalled, -, j, f', v, hj, hs, hf, hvb⟩ := hs
    obtain rfl : y = .alloc j := by simpa [hstack] using hj
    rw [hs]
    have hcalled' : ((switched w (.slot n) saved k s).task (.slot n)).called = true := by
      rw [switched_next]
      exact hcalled
    obtain rfl | ⟨g, rfl⟩ := hf
    · exact ⟨rfl, hguard, rfl, rfl, hcur.symm, by simp [hcur], hcalled', by rw [hbls, hvb]⟩
    · exact ⟨rfl, hguard, rfl, rfl, hcur.symm, by simp [hcur], hcalled', by rw [hbls, hvb]⟩

/-- **The invariant is kept by `sched_to`**. -/
theorem Prepared.schedTo (h : Prepared s w t y f) : Good (schedTo w w t f s) := by
  cases hx : (s.task (s.cur w)).stack with
  | none =>
    rw [schedTo_stay h.ne (.inl hx)]
    exact h.good (fun _ _ => rfl) (by simp [hx]) (h.contOk_stay (.inl hx))
  | some x =>
    by_cases hxy : y = x
    · subst hxy
      rw [schedTo_stay h.ne (.inr ⟨y, h.stack, hx⟩)]
      exact h.good (fun _ _ => rfl) (fun r hr => .inr ⟨by simpa [hx] using hr.symm, rfl⟩)
        (h.contOk_stay (.inr hx))
    · rw [schedTo_jump h.ne hx h.stack hxy]
      refine h.good (fun r hr => ?_) (fun r hr => .inl ?_) (h.contOk_jump hx hxy)
      · exact update_of_ne (by rintro rfl; exact hr hx) _ _
      · obtain rfl : x = r := by simpa [hx] using hr
        exact ⟨fun h => hxy h.symm, by simp⟩

end

/-! ## Stacks for the next task -/

section

variable {w : GroupId} {n : ℕ} {o : Option ℕ} {s' : State}

/-- Every stack given to a task is given to that task only. -/
def Held (s : State) : Prop :=
  ∀ t k, (s.task t).stack = some (.alloc k) → ∃ ty, s.place k = .held ty t

/-- Every stack in the pool was left by a bthread that has ended. -/
def Pooled (s : State) : Prop :=
  ∀ k ty, s.place k = .pooled ty → ∃ v, s.saved (.alloc k) = .jumpStack (.endingSched none) v

/-- The changes when slot `n`, and a task `c` that gives its stack away, prepare for a switch. -/
structure Stacked (s s' : State) (n : ℕ) (c : Option TaskRef) : Prop where
  group : s'.group = s.group
  thread : s'.thread = s.thread
  mainReturned : s'.mainReturned = s.mainReturned
  task : ∀ i, i ≠ .slot n → c ≠ some i → s'.task i = s.task i
  next : ∃ r ty, s'.task (.slot n) = { s.task (.slot n) with stack := r, stackType := ty }
  given : ∀ i, c = some i → s'.task i = { s.task i with stack := none }
  saved : ∀ i j, i ≠ .slot n → (s.task i).stack = some (.alloc j) →
    s'.saved (.alloc j) = s.saved (.alloc j)
  main : ∀ g, s'.saved (.main g) = s.saved (.main g)
  held : Held s'
  pooled : Pooled s'

/-- The stack `y` fits the next task. -/
def Fits (s : State) (w : GroupId) (n : ℕ) (y : StackRef) : Prop :=
  (s.task (.slot n)).stack = some y ∧
    ((Fresh s (.slot n) ∧ ((y = .main w ∧ (s.task (.slot n)).stackType = .pthread) ∨
        ((∃ k, y = .alloc k) ∧ (s.task (.slot n)).stackType ≠ .pthread ∧
          (s.saved y = .taskRunner ∨ ∃ v, s.saved y = .jumpStack (.endingSched none) v)))) ∨
      Suspended s (.slot n))

/-- A stack from `get_stack` was in nobody's hands. -/
theorem getStack_spec {ty : StackType} {t : TaskRef} {k : ℕ} (hp : Pooled s)
    (h : getStack ty t k s = some s') : ty ≠ .pthread ∧ s'.group = s.group ∧ s'.thread = s.thread ∧
      s'.mainReturned = s.mainReturned ∧ s'.task = s.task ∧
      s'.place = update s.place k (.held ty t) ∧
      (∀ r, r ≠ .alloc k → s'.saved r = s.saved r) ∧ (∀ ty t, s.place k ≠ .held ty t) ∧
      (s'.saved (.alloc k) = .taskRunner ∨
        ∃ v, s'.saved (.alloc k) = .jumpStack (.endingSched none) v) := by
  rw [getStack] at h
  split at h
  · cases h
  · rename_i hty
    have hty : ty ≠ .pthread := fun h => hty (.inr h)
    split at h
    · rename_i hk
      cases h
      refine ⟨hty, rfl, rfl, rfl, rfl, rfl, fun r hr => ?_, by simp [hk], .inl (by simp)⟩
      simp [hr]
    · rename_i ty' hk
      split at h
      · cases h
        obtain ⟨v, hv⟩ := hp k ty' hk
        exact ⟨hty, rfl, rfl, rfl, rfl, rfl, fun _ _ => rfl, by simp [hk], .inr ⟨v, hv⟩⟩
      · cases h
    · cases h

/-- `allocateStack` gives a task a stack that fits. -/
theorem allocateStack_spec (hh : Held s) (hp : Pooled s) (hf : Fresh s (.slot n))
    (h : allocateStack w (.slot n) o s = some s') :
    Stacked s s' n none ∧ ∃ y, Fits s' w n y := by
  cases o with
  | none =>
    obtain rfl : _ = s' := Option.some.inj h
    refine ⟨⟨rfl, rfl, rfl, fun i hi _ => ?_, ⟨some (.main w), .pthread, by simp [State.setTask]⟩,
      by simp, fun _ _ _ _ => rfl, fun _ => rfl, fun t k hk => ?_, hp⟩, .main w, ?_,
      .inl ⟨?_, .inl ⟨rfl, ?_⟩⟩⟩
    · simp [State.setTask, hi]
    · by_cases ht : t = .slot n
      · subst ht
        simp [State.setTask] at hk
      · exact hh t k (by simpa [State.setTask, ht] using hk)
    · simp [State.setTask]
    · simpa [Fresh, State.setTask] using hf
    · simp [State.setTask]
  | some k =>
    obtain ⟨s₁, hs₁, rfl⟩ := Option.map_eq_some_iff.mp h
    obtain ⟨hty, e₁, e₂, e₃, e₄, e₅, e₆, hk, e₇⟩ := getStack_spec hp hs₁
    refine ⟨⟨e₁, e₂, e₃, fun i hi _ => ?_, ⟨some (.alloc k), (s.task (.slot n)).stackType, ?_⟩,
      by simp, fun i j _ hj => ?_, fun g => ?_,
      fun t j hj => ?_, fun j ty hj => ?_⟩, .alloc k, ?_, .inl ⟨?_, .inr ⟨⟨k, rfl⟩, ?_, e₇⟩⟩⟩
    · simp [State.setTask, hi, e₄]
    · simp [State.setTask, e₄]
    · refine e₆ _ ?_
      rintro hjk
      obtain rfl : j = k := by simpa using hjk
      obtain ⟨ty, hty⟩ := hh i j hj
      exact hk ty i hty
    · exact e₆ _ (by simp)
    · by_cases ht : t = .slot n
      · subst ht
        obtain rfl : k = j := by simpa [State.setTask] using hj
        exact ⟨(s.task (.slot n)).stackType, by simp [State.setTask, e₅]⟩
      · have hj' : (s.task t).stack = some (.alloc j) := by simpa [State.setTask, ht, e₄] using hj
        obtain ⟨ty, hty⟩ := hh t j hj'
        have hjk : j ≠ k := by rintro rfl; exact hk ty t hty
        exact ⟨ty, by simpa [State.setTask, e₅, hjk] using hty⟩
    · have hjk : j ≠ k := by
        rintro rfl
        simp [State.setTask, e₅] at hj
      obtain ⟨v, hv⟩ := hp j ty (by simpa [State.setTask, e₅, hjk] using hj)
      exact ⟨v, by simpa [State.setTask, e₆ (.alloc j) (by simpa using hjk)] using hv⟩
    · simp [State.setTask]
    · simpa [Fresh, State.setTask, e₄] using hf
    · simpa [State.setTask, e₄] using hty

/-- `needStack` gives a resting task a stack that fits. -/
theorem needStack_spec (hh : Held s) (hp : Pooled s) (hr : Resting s (.slot n))
    (h : needStack w (.slot n) o s = some s') :
    Stacked s s' n none ∧ ∃ y, Fits s' w n y := by
  rw [needStack] at h
  obtain ⟨hf, hn⟩ | hs := hr
  · rw [if_pos hn] at h
    exact allocateStack_spec hh hp hf h
  · obtain ⟨h₁, h₂, k, f, v, h₃, h₄⟩ := hs
    rw [if_neg (by simp [h₃])] at h
    obtain rfl : s = s' := Option.some.inj h
    exact ⟨⟨rfl, rfl, rfl, fun _ _ _ => rfl, ⟨_, _, rfl⟩, by simp, fun _ _ _ _ => rfl,
      fun _ => rfl, hh, hp⟩, .alloc k, h₃, .inr ⟨h₁, h₂, k, f, v, h₃, h₄⟩⟩

/-- `handOver` gives the stack of the ended task to the next one. -/
theorem handOver_spec {c : TaskRef} {x : StackRef} (hh : Held s) (hp : Pooled s)
    (hx : (s.task c).stack = some x) (hc : c ≠ .slot n) :
    Stacked s (handOver c (.slot n) s) n (some c) ∧
      (handOver c (.slot n) s).task (.slot n) = { s.task (.slot n) with stack := some x } ∧
        (handOver c (.slot n) s).saved = s.saved := by
  cases x with
  | main g =>
    have he : handOver c (.slot n) s = (s.setTask c fun m => { m with stack := none }).setTask
        (.slot n) fun m => { m with stack := some (.main g) } := by
      simp [handOver, hx]
    rw [he]
    refine ⟨⟨rfl, rfl, rfl, fun i hi hci => ?_,
      ⟨some (.main g), (s.task (.slot n)).stackType, ?_⟩, fun i hi => ?_, fun _ _ _ _ => rfl,
      fun _ => rfl, fun t j hj => ?_, hp⟩, ?_, rfl⟩
    · have : i ≠ c := by rintro rfl; exact hci rfl
      simp [State.setTask, hi, this]
    · simp [State.setTask, update_of_ne hc.symm]
    · obtain rfl : c = i := by simpa using hi
      simp [State.setTask, hc]
    · by_cases ht : t = .slot n
      · subst ht
        simp [State.setTask] at hj
      · by_cases htc : t = c
        · subst htc
          simp [State.setTask, ht] at hj
        · exact hh t j (by simpa [State.setTask, ht, htc] using hj)
    · simp [State.setTask, update_of_ne hc.symm]
  | alloc k =>
    obtain ⟨ty, hk⟩ := hh c k hx
    have he : handOver c (.slot n) s = { (s.setTask c fun m => { m with stack := none }).setTask
        (.slot n) (fun m => { m with stack := some (.alloc k) }) with
          place := update s.place k (.held ty (.slot n)) } := by
      simp [handOver, hx, State.setTask, hk]
    rw [he]
    refine ⟨⟨rfl, rfl, rfl, fun i hi hci => ?_,
      ⟨some (.alloc k), (s.task (.slot n)).stackType, ?_⟩, fun i hi => ?_, fun _ _ _ _ => rfl,
      fun _ => rfl, fun t j hj => ?_, fun j ty' hj => ?_⟩, ?_, rfl⟩
    · have : i ≠ c := by rintro rfl; exact hci rfl
      simp [State.setTask, hi, this]
    · simp [State.setTask, update_of_ne hc.symm]
    · obtain rfl : c = i := by simpa using hi
      simp [State.setTask, hc]
    · by_cases ht : t = .slot n
      · subst ht
        obtain rfl : k = j := by simpa [State.setTask] using hj
        exact ⟨ty, by simp⟩
      · by_cases htc : t = c
        · subst htc
          simp [State.setTask, ht] at hj
        · have hj' : (s.task t).stack = some (.alloc j) := by
            simpa [State.setTask, ht, htc] using hj
          obtain ⟨ty', hty'⟩ := hh t j hj'
          have hjk : j ≠ k := by
            rintro rfl
            simp only [hk, StackPlace.held.injEq] at hty'
            exact htc hty'.2.symm
          exact ⟨ty', by simp [hjk, hty']⟩
    · have hjk : j ≠ k := by rintro rfl; simp at hj
      exact hp j ty' (by simpa [hjk] using hj)
    · simp [State.setTask, update_of_ne hc.symm]

end

/-! ## Steps that call `sched_to` -/

section

variable {w : GroupId} {t : TaskRef} {y : StackRef} {f : Frame} {s' : State}

/-- What is prepared before `sched_to` is called touches the two tasks and their group. -/
theorem Good.prepared (h : Good s) (hidle : Idle s w)
    (hgroup : ∀ v, v ≠ w → s'.group v = s.group v)
    (hcur : s'.cur w = s.cur w)
    (hguard : (s'.group w).schedRecursiveGuard = (s.group w).schedRecursiveGuard)
    (hcount : (s'.group w).registered =
      (s'.group w).ran + if (s'.group w).lastContextRemained = none then 0 else 1)
    (hthread : s'.thread = s.thread) (hret : s'.mainReturned = s.mainReturned)
    (htask : ∀ i, i ≠ t → i ≠ s.cur w → s'.task i = s.task i)
    (hsaved : ∀ i j, i ≠ t → i ≠ s.cur w → (s.task i).stack = some (.alloc j) →
      s'.saved (.alloc j) = s.saved (.alloc j))
    (hmains : ∀ g, s'.saved (.main g) = s.saved (.main g)) (hh : Held s') (hp : Pooled s')
    (hmain : (s'.task (.main w)).stack = some (.main w) ∧ (s'.task (.main w)).stackType = .main)
    (hlive : ∀ n, s.cur w = .slot n →
      (s'.task (.slot n)).gets = (s'.task (.slot n)).returns + 1)
    (hne : t ≠ s.cur w)
    (ht : t = .main w ∨ ∃ n, t = .slot n ∧ (s.task (.slot n)).phase = .ready)
    (hstack : (s'.task t).stack = some y) (hnext : Next s' w y t)
    (hlast : Last s' w (s'.task (s.cur w)).stack f (s.cur w))
    (hhand : (s'.task (s.cur w)).stack = none →
      f = .endingSched y.base ∧ Fresh s' t ∧ t ≠ .main w) :
    Prepared s' w t y f where
  slot n hn hc := by
    rw [hcur] at hc
    have hS := h.slot n
    refine hS.congr (htask _ hn hc) (fun j hj => hsaved _ j hn hc hj) (fun g hg => ?_)
      fun g hg => ?_
    · by_cases hgw : g = w
      · subst hgw
        exact hcur
      · rw [hgroup g hgw]
    · have hgw : g ≠ w := by
        rintro rfl
        obtain hg | hg := hg
        · obtain ⟨-, r, hr, -⟩ := hS.leaving g hg
          simp [hidle.2] at hr
        · have := (hS.ended g hg).2
          simp [hidle.2] at this
      rw [hgroup g hgw]
  worker v hv := by
    have hV := h.worker v
    have hphase : ∀ n, s.cur w = .slot n → (s.task (.slot n)).phase = .running w := by
      intro n hn
      obtain hm | ⟨m, hm, hp⟩ := (h.worker w).cur
      · simp [hm] at hn
      · obtain rfl : m = n := by simpa [hm] using hn
        exact hp
    have hcv : s.cur v ≠ t ∧ s.cur v ≠ s.cur w := by
      obtain hm | ⟨n, hn, hpn⟩ := hV.cur
      · rw [hm]
        refine ⟨?_, fun hc => ?_⟩
        · rintro rfl
          obtain ht | ⟨n, ht, -⟩ := ht
          · exact hv (by simpa using ht)
          · simp at ht
        · obtain hm' | ⟨m, hm', -⟩ := (h.worker w).cur
          · exact hv (by simpa [hm'] using hc)
          · simp [hm'] at hc
      · rw [hn]
        refine ⟨?_, fun hc => ?_⟩
        · rintro rfl
          obtain ht | ⟨m, ht, hm⟩ := ht
          · simp at ht
          · obtain rfl : n = m := by simpa using ht
            simp [hpn] at hm
        · have := hphase n hc.symm
          rw [hpn] at this
          exact hv (by simpa using this)
    have hmv : TaskRef.main v ≠ t ∧ TaskRef.main v ≠ s.cur w := by
      refine ⟨?_, fun hc => ?_⟩
      · rintro rfl
        obtain ht | ⟨n, ht, -⟩ := ht
        · exact hv (by simpa using ht)
        · simp at ht
      · obtain hm' | ⟨m, hm', -⟩ := (h.worker w).cur
        · exact hv (by simpa [hm'] using hc)
        · simp [hm'] at hc
    refine hV.congr (hgroup v hv) (by rw [hthread]) (htask _ hcv.1 hcv.2) (htask _ hmv.1 hmv.2)
      (hmains v) (by rw [hret]) fun n hn => ?_
    rw [htask]
    · rintro rfl
      obtain ht | ⟨m, ht, hm⟩ := ht
      · simp at ht
      · obtain rfl : n = m := by simpa using ht
        simp [hm] at hn
    · intro hc
      have := hphase n hc.symm
      simp [this] at hn
  held := hh
  pooled := hp
  mains n g hn hc hg := by
    rw [hcur] at hc
    rw [htask _ hn hc] at hg ⊢
    exact h.place.main n g hg
  main := hmain
  kept := by rw [hret]; exact (h.worker w).kept
  count := hcount
  guard := by rw [hguard]; exact hidle.1
  live n hn := hlive n (by rwa [hcur] at hn)
  ne := by rwa [hcur]
  stack := hstack
  next := hnext
  last := by rwa [hcur]
  handed := by rwa [hcur]

/-- What `set_remained` changes before the bthread is switched out, if it is called at all. -/
structure Leaving (s s' : State) (w : GroupId) : Prop where
  group : ∀ v, v ≠ w → s'.group v = s.group v
  cur : s'.cur w = s.cur w
  guard : (s'.group w).schedRecursiveGuard = (s.group w).schedRecursiveGuard
  count : (s'.group w).registered =
    (s'.group w).ran + if (s'.group w).lastContextRemained = none then 0 else 1
  thread : s'.thread = s.thread
  mainReturned : s'.mainReturned = s.mainReturned
  saved : s'.saved = s.saved
  place : s'.place = s.place
  task : ∀ i, i ≠ s.cur w → s'.task i = s.task i
  last : ∃ p, s'.task (s.cur w) = { s.task (s.cur w) with phase := p }

/-- Nothing is registered by `run_main_task`. -/
theorem Good.leaving_refl (h : Good s) (w : GroupId) : Leaving s s w :=
  ⟨fun _ _ => rfl, rfl, rfl, (h.worker w).count, rfl, rfl, rfl, rfl, fun _ _ => rfl, _, rfl⟩

/-- `set_remained` for the current task of an idle group. -/
theorem Good.leaving_setRemained (h : Good s) (hidle : Idle s w) {r : Remained} (p : Phase)
    (hr : r.task = s.cur w) : Leaving s (setRemained w r p s) w := by
  refine ⟨fun v hv => ?_, ?_, ?_, ?_, rfl, rfl, rfl, rfl, fun i hi => ?_, p, ?_⟩
  · simp [setRemained, State.setGroup, State.setTask, hv]
  · simp [setRemained, State.setGroup, State.setTask, State.cur]
  · simp [setRemained, State.setGroup, State.setTask]
  · have := (h.worker w).count
    simp only [hidle.2, if_true, Nat.add_zero] at this
    simp [setRemained, State.setGroup, State.setTask, this]
  · simp [setRemained, State.setGroup, State.setTask, hr, hi]
  · simp [setRemained, State.setGroup, State.setTask, hr]

/-- A task of a run queue is not the current one. -/
theorem Good.ready_ne (h : Good s) {n : ℕ} (hn : (s.task (.slot n)).phase = .ready) :
    .slot n ≠ s.cur w :=
  fun hc => h.cur_ne (w := w) (by simp [hn]) hc.symm

/-- A stack that fits, for a task of a run queue. -/
theorem Fits.next {n : ℕ} (h : Fits s w n y) (hp : (s.task (.slot n)).phase = .ready)
    (hlive : (s.task (.slot n)).gets = (s.task (.slot n)).returns + 1) :
    Next s w y (.slot n) := by
  obtain ⟨-, ⟨hf, hy | ⟨hk, hty, hs⟩⟩ | hs⟩ := h
  · exact .fresh n hp hlive hf (.inl hy)
  · exact .fresh n hp hlive hf (.inr ⟨hk, hty, .inr hs⟩)
  · exact .suspended n hp hlive hs

/-- The task that is switched out does not notice that the next one is given a stack. -/
theorem Last.congr {x : Option StackRef} {c : TaskRef} (h : Last s w x f c)
    (hg : (s'.group w).lastContextRemained = (s.group w).lastContextRemained)
    (hc : ∃ r, s'.task c = { s.task c with stack := r })
    (hs : s'.saved (.main w) = s.saved (.main w))
    (hm : (s'.task (.main w)).localStorage = (s.task (.main w)).localStorage) :
    Last s' w x f c := by
  have hsaved : MainSaved s w → MainSaved s' w := by
    rintro ⟨f, v, hv, hf⟩
    exact ⟨f, v, by rwa [hs], by rwa [hm]⟩
  obtain ⟨r₀, hc⟩ := hc
  cases h with
  | main hr => exact .main (by rwa [hg])
  | user n k _ r hp hr hn he hga hf ht hcalled hm =>
    exact .user n k _ r (by rw [hc]; exact hp) (by rwa [hg]) hn he hga hf
      (by rw [hc]; exact ht) (by rw [hc]; exact hcalled) (hsaved hm)
  | ended n _ b hp hr hx hm =>
    exact .ended n _ b (by rw [hc]; exact hp) (by rwa [hg])
      (by simpa only [hc] using hx) fun hb => hsaved (hm hb)

section

variable {s₁ s₂ : State} {n : ℕ}

/-- The next task was on a run queue, and has a stack or is given one. -/
theorem Leaving.prepared (h : Good s) (hidle : Idle s w) (hl : Leaving s s₁ w)
    (hready : (s.task (.slot n)).phase = .ready) (hs : Stacked s₁ s₂ n none)
    (hfits : Fits s₂ w n y) (hlast : Last s₁ w (s.task (s.cur w)).stack f (s.cur w)) :
    Prepared s₂ w (.slot n) y f := by
  have hne : .slot n ≠ s.cur w := h.ready_ne hready
  have hcur₂ : s₂.task (s.cur w) = s₁.task (s.cur w) := hs.task _ hne.symm (by simp)
  have hother : ∀ i, i ≠ .slot n → i ≠ s.cur w → s₂.task i = s.task i := fun i h₁ h₂ => by
    rw [hs.task i h₁ (by simp), hl.task i h₂]
  obtain ⟨p, hp⟩ := hl.last
  obtain ⟨r, ty, hn⟩ := hs.next
  have hslot : s₂.task (.slot n) = { s.task (.slot n) with stack := r, stackType := ty } := by
    rw [hn, hl.task _ hne]
  obtain ⟨x, ⟨hx, -⟩, -⟩ := (h.worker w).cont
  have hmain : s₂.task (.main w) = s₁.task (.main w) := hs.task _ (by simp) (by simp)
  refine h.prepared hidle (fun v hv => by rw [hs.group, hl.group v hv])
    (by rw [State.cur, hs.group, ← State.cur, hl.cur]) (by rw [hs.group, hl.guard])
    (by rw [hs.group]; exact hl.count) (by rw [hs.thread, hl.thread])
    (by rw [hs.mainReturned, hl.mainReturned]) hother (fun i j hi hc hj => ?_)
    (fun g => by rw [hs.main, hl.saved]) hs.held hs.pooled ?_ (fun m hm => ?_) hne
    (.inr ⟨n, rfl, hready⟩) hfits.1 (hfits.next ?_ ?_) ?_ fun hnone => ?_
  · rw [hs.saved i j hi (by rw [hl.task i hc]; exact hj), hl.saved]
  · rw [hmain]
    by_cases hc : .main w = s.cur w
    · rw [hc, hp, ← hc]
      exact (h.worker w).main
    · rw [hl.task _ hc]
      exact (h.worker w).main
  · rw [← hm, hcur₂, hp, hm]
    refine (h.slot m).live ?_
    obtain hm' | ⟨i, hi, hpi⟩ := (h.worker w).cur
    · simp [hm] at hm'
    · obtain rfl : m = i := by simpa [hm] using hi
      simp [hpi]
  · rw [hslot]
    exact hready
  · rw [hslot]
    exact (h.slot n).live (by simp [hready])
  · rw [hcur₂, hp]
    exact hlast.congr (by rw [hs.group]) ⟨(s₁.task (s.cur w)).stack, by rw [hcur₂]⟩ (hs.main w)
      (by rw [hmain])
  · rw [hcur₂, hp, hx] at hnone
    cases hnone

/-- The main task is run next. -/
theorem Leaving.prepared_main (h : Good s) (hidle : Idle s w) (hl : Leaving s s₁ w)
    (hne : .main w ≠ s.cur w) (hlast : Last s₁ w (s.task (s.cur w)).stack f (s.cur w)) :
    Prepared s₁ w (.main w) (.main w) f := by
  obtain ⟨p, hp⟩ := hl.last
  obtain ⟨x, ⟨hx, -⟩, -⟩ := (h.worker w).cont
  have hstack : ∀ i, (s₁.task i).stack = (s.task i).stack := fun i => by
    by_cases hi : i = s.cur w
    · rw [hi, hp]
    · rw [hl.task i hi]
  have hmain : s₁.task (.main w) = s.task (.main w) := hl.task _ hne
  refine h.prepared hidle hl.group hl.cur hl.guard hl.count hl.thread hl.mainReturned
    (fun i _ hi => hl.task i hi) (fun _ _ _ _ _ => by rw [hl.saved]) (fun _ => by rw [hl.saved])
    (fun i k hk => ?_) (fun k ty hk => ?_) ?_ (fun m hm => ?_) hne (.inl rfl) ?_ (.main rfl) ?_
    fun hnone => ?_
  · rw [hl.place]
    exact h.place.held i k (by rwa [hstack] at hk)
  · rw [hl.saved]
    exact h.place.pooled k ty (by rwa [hl.place] at hk)
  · rw [hmain]
    exact (h.worker w).main
  · rw [← hm, hp, hm]
    refine (h.slot m).live ?_
    obtain hm' | ⟨i, hi, hpi⟩ := (h.worker w).cur
    · simp [hm] at hm'
    · obtain rfl : m = i := by simpa [hm] using hi
      simp [hpi]
  · rw [hmain]
    exact (h.worker w).main.1
  · rwa [hstack]
  · rw [hstack, hx] at hnone
    cases hnone

/-- The next task takes over the stack of the one that has ended. -/
theorem Leaving.prepared_handOver (h : Good s) (hidle : Idle s w) (hl : Leaving s s₁ w)
    (hready : (s.task (.slot n)).phase = .ready) (hf : Fresh s (.slot n)) {x : StackRef}
    (hx : OnStack s w x)
    (hty : (s.task (.slot n)).stackType = (s.task (s.cur w)).stackType) (hmain : s.cur w ≠ .main w)
    (hlast : Last s₁ w (some x) (.endingSched x.base) (s.cur w)) :
    Prepared (handOver (s.cur w) (.slot n) s₁) w (.slot n) x (.endingSched x.base) := by
  have hne : .slot n ≠ s.cur w := h.ready_ne hready
  obtain ⟨p, hp⟩ := hl.last
  have hstack : ∀ i, (s₁.task i).stack = (s.task i).stack := fun i => by
    by_cases hi : i = s.cur w
    · rw [hi, hp]
    · rw [hl.task i hi]
  have hh : Held s₁ := fun i k hk => by
    rw [hl.place]
    exact h.place.held i k (by rwa [hstack] at hk)
  have hpool : Pooled s₁ := fun k ty hk => by
    rw [hl.saved]
    exact h.place.pooled k ty (by rwa [hl.place] at hk)
  obtain ⟨hs, hn, hsv⟩ := handOver_spec hh hpool (by rw [hstack]; exact hx.1) hne.symm
  have hc := hs.given _ rfl
  rw [hl.task _ hne] at hn
  have hm : (handOver (s.cur w) (.slot n) s₁).task (.main w) = s.task (.main w) := by
    rw [hs.task _ (by simp) (by simpa using hmain), hl.task _ hmain.symm]
  refine h.prepared hidle (fun v hv => by rw [hs.group, hl.group v hv])
    (by rw [State.cur, hs.group, ← State.cur, hl.cur]) (by rw [hs.group, hl.guard])
    (by rw [hs.group]; exact hl.count) (by rw [hs.thread, hl.thread])
    (by rw [hs.mainReturned, hl.mainReturned]) (fun i hi hci => ?_)
    (fun _ _ _ _ _ => by rw [hsv, hl.saved]) (fun _ => by rw [hsv, hl.saved]) hs.held hs.pooled
    ?_ (fun m hcm => ?_) hne (.inr ⟨n, rfl, hready⟩) (by rw [hn]) (.fresh n ?_ ?_ ?_ ?_) ?_
    fun _ => ⟨rfl, ?_, by simp⟩
  · rw [hs.task i hi (by simpa using fun h => hci h.symm), hl.task i hci]
  · rw [hm]
    exact (h.worker w).main
  · rw [← hcm, hc, hp, hcm]
    refine (h.slot m).live ?_
    obtain hm' | ⟨i, hi, hpi⟩ := (h.worker w).cur
    · exact absurd hm' hmain
    · obtain rfl : m = i := by simpa [hcm] using hi
      simp [hpi]
  · rw [hn]
    exact hready
  · rw [hn]
    exact (h.slot n).live (by simp [hready])
  · rw [Fresh, hn]
    exact hf
  · have hcur₂ : (handOver (s.cur w) (.slot n) s₁).cur w = s.cur w := by
      rw [State.cur, hs.group, ← State.cur, hl.cur]
    rw [hn, hcur₂, hc]
    obtain ⟨hxm, ht⟩ | ⟨hxk, ht, -⟩ := hx.2
    · exact .inl ⟨hxm, hty.trans (ht hmain)⟩
    · exact .inr ⟨hxk, by rw [hty]; exact ht, .inl rfl⟩
  · rw [hc]
    have hlast' : Last (handOver (s.cur w) (.slot n) s₁) w (some x) (.endingSched x.base)
        (s.cur w) := hlast.congr (by rw [hs.group]) ⟨none, by rw [hc]⟩ (hs.main w)
          (by rw [hm, hl.task _ hmain.symm])
    generalize s.cur w = c at hlast' hmain
    generalize hr : some x = r at hlast'
    generalize hf' : Frame.endingSched x.base = f' at hlast'
    cases hlast' with
    | main => simp at hf'
    | user _ _ _ _ _ _ _ _ _ hof =>
      obtain rfl | ⟨g, rfl⟩ := hof <;> simp at hf'
    | ended m _ b hp' hr' _ hmm => exact .ended m _ b hp' hr' (by simp) hmm
  · rw [Fresh, hn]
    exact hf

end

/-- `run_main_task` runs a task. -/
theorem Good.runTask {n : ℕ} {o : Option ℕ} (h : Good s)
    (hs : next s (.runTask w n o) = some s') : Good s' := by
  obtain ⟨x, ⟨hx, -⟩, hc⟩ := (h.worker w).cont
  cases hk : (s.thread w).cont with
  | code f =>
    cases f with
    | runMainTask r =>
      rw [hk] at hc
      obtain ⟨rfl, hcur, hidle⟩ := hc
      simp only [next, hk, Option.ite_none_right_eq_some, Option.map_eq_some_iff] at hs
      obtain ⟨hready, s₂, h₂, rfl⟩ := hs
      obtain ⟨hst, y, hy⟩ := needStack_spec h.place.held h.place.pooled
        ((h.slot n).ready hready) h₂
      refine ((h.leaving_refl w).prepared h hidle hready hst hy ?_).schedTo
      rw [hcur, (h.worker w).main.1]
      exact .main hidle.2
    | _ => simp [next, hk] at hs
  | _ => simp [next, hk] at hs

/-- A bthread suspends itself. -/
theorem Good.suspend {how : Suspend} {o : Option ℕ} (h : Good s)
    (hs : next s (.suspend w how t o) = some s') : Good s' := by
  obtain ⟨x, ⟨hx, hxx⟩, hc⟩ := (h.worker w).cont
  cases hk : (s.thread w).cont with
  | code f =>
    rw [hk] at hc
    simp only [next, hk, Option.ite_none_right_eq_some, Option.map_eq_some_iff] at hs
    obtain ⟨⟨huser, hpthread, hrun⟩, s₂, h₂, rfl⟩ := hs
    obtain ⟨hof, hne, hcalled, hidle⟩ : f.Of x.base (s.cur w) ∧ s.cur w ≠ .main w ∧
        (s.task (s.cur w)).called = true ∧ Idle s w := by
      cases f with
      | fn b m =>
        obtain ⟨rfl, rfl, hc⟩ := hc
        exact ⟨.inl rfl, hc⟩
      | returnKeytable b m g =>
        obtain ⟨rfl, rfl, hc⟩ := hc
        exact ⟨.inr ⟨g, rfl⟩, hc⟩
      | _ => simp [Frame.user?] at huser
    obtain ⟨rfl, -⟩ | ⟨⟨j, rfl⟩, hty, -, hm⟩ := hxx
    · exact absurd hx hpthread
    obtain ⟨n, hn, hp⟩ := (h.worker w).cur.resolve_left hne
    have hr : (how.remained w (s.cur w)).task = s.cur w := by cases how <;> rfl
    have hl := h.leaving_setRemained hidle (.leaving w) hr
    have hc₁ : (setRemained w (how.remained w (s.cur w)) (.leaving w) s).task (s.cur w) =
        { s.task (s.cur w) with phase := .leaving w } := by
      simp [setRemained, State.setGroup, State.setTask, hr]
    have hg₁ : ((setRemained w (how.remained w (s.cur w)) (.leaving w) s).group
        w).lastContextRemained = some (how.remained w (s.cur w)) := by
      simp [setRemained, State.setGroup, State.setTask]
    have hlast : Last (setRemained w (how.remained w (s.cur w)) (.leaving w) s) w
        (s.task (s.cur w)).stack f (s.cur w) := by
      rw [hx]
      rw [hn] at hc₁ hg₁ hr hof hty hcalled ⊢
      refine .user n j f _ (by rw [hc₁]) hg₁ hr ?_ ?_ hof (by rw [hc₁]; exact hty)
        (by rw [hc₁]; exact hcalled) ?_
      · cases how <;> simp [Suspend.remained, Remained.Ends]
      · cases how <;> simp [Suspend.remained]
      · obtain ⟨f', v, hv, hf⟩ := hm
        refine ⟨f', v, hv, ?_⟩
        rwa [← hn, hl.task _ hne.symm]
    obtain rfl | ⟨i, rfl, hready⟩ := hrun
    · rw [needStack, if_neg (by rw [hl.task _ hne.symm, (h.worker w).main.1]; simp)] at h₂
      cases h₂
      exact (hl.prepared_main h hidle hne.symm hlast).schedTo
    · have hi := h.ready_ne (w := w) hready
      have hrest : Resting (setRemained w (how.remained w (s.cur w)) (.leaving w) s) (.slot i) := by
        simpa only [Resting, Fresh, Suspended, hl.task _ hi, hl.saved] using (h.slot i).ready hready
      have hheld : Held (setRemained w (how.remained w (s.cur w)) (.leaving w) s) := by
        intro a k hk
        refine h.place.held a k ?_
        by_cases ha : a = s.cur w
        · rw [ha, hc₁] at hk
          rwa [ha]
        · rwa [hl.task a ha] at hk
      have hpool : Pooled (setRemained w (how.remained w (s.cur w)) (.leaving w) s) :=
        h.place.pooled
      obtain ⟨hst, y, hy⟩ := needStack_spec hheld hpool hrest h₂
      exact (hl.prepared h hidle hready hst hy hlast).schedTo
  | _ => simp [next, hk] at hs

/-- A bthread ends. -/
theorem Good.endTask {o : Option ℕ} (h : Good s) (hown : InOwnGroup s (.endTask w t o))
    (hs : next s (.endTask w t o) = some s') : Good s' := by
  obtain ⟨x, hx, hc⟩ := (h.worker w).cont
  cases hk : (s.thread w).cont with
  | code f =>
    cases f with
    | returnKeytable b m g =>
      obtain rfl := hown w t o rfl b m g hk
      rw [hk] at hc
      obtain ⟨rfl, rfl, hne, hcalled, hidle⟩ := hc
      simp only [next, hk, Option.ite_none_right_eq_some, Option.map_eq_some_iff] at hs
      obtain ⟨hrun, s₂, h₂, rfl⟩ := hs
      obtain ⟨n, hn, hp⟩ := (h.worker g).cur.resolve_left hne
      have hl := h.leaving_setRemained hidle (r := .releaseLastContext (s.cur g)) (.ended g) rfl
      generalize hs₁ : setRemained g (.releaseLastContext (s.cur g)) (.ended g) s = s₁ at hl h₂
      have hc₁ : s₁.task (s.cur g) = { s.task (s.cur g) with phase := .ended g } := by
        simp [← hs₁, setRemained, State.setGroup, State.setTask, Remained.task]
      have hg₁ : (s₁.group g).lastContextRemained = some (.releaseLastContext (s.cur g)) := by
        simp [← hs₁, setRemained, State.setGroup, State.setTask]
      have hlast : Last s₁ g (some x) (.endingSched x.base) (s.cur g) := by
        rw [hn] at hc₁ hg₁ ⊢
        refine .ended n _ _ (by rw [hc₁]) hg₁ (fun r hr => ?_) fun hb => ?_
        · obtain rfl : x = r := by simpa using hr
          refine ⟨rfl, ?_⟩
          rw [hc₁, ← hn]
          obtain ⟨hxm, hty⟩ | ⟨hxk, hty, -⟩ := hx.2
          · exact .inl ⟨hxm, hty hne⟩
          · exact .inr ⟨hxk, hty⟩
        · obtain ⟨rfl, -⟩ | ⟨-, -, -, f', v, hv, hf⟩ := hx.2
          · simp [StackRef.base] at hb
          · exact ⟨f', v, by rwa [hl.saved], by rwa [hl.task _ hne.symm]⟩
      have hlast' : Last s₁ g (s.task (s.cur g)).stack (.endingSched x.base) (s.cur g) := by
        rwa [hx.1]
      obtain rfl | ⟨i, rfl, hready⟩ := hrun
      · rw [needStackEnding, if_neg (by rw [hl.task _ hne.symm, (h.worker g).main.1]; simp)] at h₂
        cases h₂
        exact (hl.prepared_main h hidle hne.symm hlast').schedTo
      · have hi := h.ready_ne (w := g) hready
        have hti := hl.task _ hi
        by_cases hhand : (s.task (.slot i)).stack = none ∧
            (s.task (.slot i)).stackType = (s.task (s.cur g)).stackType
        · -- the two have the same type of stack
          rw [needStackEnding, hti, hl.cur, hc₁, if_pos hhand.1, if_pos hhand.2] at h₂
          cases h₂
          have hfresh : Fresh s (.slot i) := by
            obtain ⟨hf, -⟩ | ⟨-, -, k, _, _, hk, -⟩ := (h.slot i).ready hready
            · exact hf
            · simp [hhand.1] at hk
          exact (hl.prepared_handOver h hidle hready hfresh hx hhand.2 hne hlast).schedTo
        · have h₂' : needStack g (.slot i) o s₁ = some s₂ := by
            rw [needStackEnding, hti, hl.cur, hc₁] at h₂
            rw [needStack, hti]
            by_cases hnone : (s.task (.slot i)).stack = none
            · rw [if_pos hnone, if_neg fun hty => hhand ⟨hnone, hty⟩] at h₂
              rwa [if_pos hnone]
            · rw [if_neg hnone] at h₂
              rwa [if_neg hnone]
          have hrest : Resting s₁ (.slot i) := by
            simpa only [Resting, Fresh, Suspended, hti, hl.saved] using (h.slot i).ready hready
          have hheld : Held s₁ := by
            intro a k hk
            rw [hl.place]
            refine h.place.held a k ?_
            by_cases ha : a = s.cur g
            · rw [ha, hc₁] at hk
              rwa [ha]
            · rwa [hl.task a ha] at hk
          have hpool : Pooled s₁ := by
            intro k ty hk
            rw [hl.saved]
            exact h.place.pooled k ty (by rwa [hl.place] at hk)
          obtain ⟨hst, y, hy⟩ := needStack_spec hheld hpool hrest h₂'
          exact (hl.prepared h hidle hready hst hy hlast').schedTo
    | _ => simp [next, hk] at hs
  | _ => simp [next, hk] at hs

end

/-! ## All steps -/

/-- Every step in its own group keeps the invariant. -/
theorem Good.next {s' : State} {x : Move} (h : Good s) (hown : InOwnGroup s x)
    (hs : next s x = some s') : Good s' := by
  cases x with
  | start p n ty =>
    simp only [Context.next, Option.ite_none_right_eq_some, Option.some.injEq] at hs
    obtain ⟨⟨-, hfree, -⟩, rfl⟩ := hs
    obtain ⟨hstack, hgets⟩ := (h.slot n).free hfree
    refine h.setTask (.inl hfree) rfl rfl (by simp [hgets]) (.inl ⟨?_, ?_⟩)
    · simp [Fresh, State.setTask]
    · simpa [State.setTask] using hstack
  | wake p n =>
    simp only [Context.next, Option.ite_none_right_eq_some, Option.some.injEq] at hs
    obtain ⟨⟨-, haway⟩, rfl⟩ := hs
    refine h.setTask (.inr haway) rfl rfl ((h.slot n).live (by simp [haway])) ?_
    simpa [Resting, Fresh, Suspended, State.setTask] using (h.slot n).away haway
  | write w e u =>
    obtain rfl : _ = s' := Option.some.inj hs
    refine h.setThread (w := w) rfl rfl rfl rfl (fun v hv => ⟨rfl, by simp [State.setThread, hv]⟩)
      rfl rfl rfl rfl fun x _ hc => ?_
    have : ((s.setThread w fun x => { x with errno := e, uniqueUserPtr := u }).thread w).cont =
        (s.thread w).cont := by simp [State.setThread]
    rw [this]
    exact hc.congr rfl (by simp [State.setThread]) rfl
  | writeBls w b =>
    cases hk : (s.thread w).cont with
    | code f =>
      simp only [Context.next, hk, Option.ite_none_right_eq_some, Option.some.injEq] at hs
      obtain ⟨hf, rfl⟩ := hs
      refine h.setThread (w := w) rfl rfl rfl rfl
        (fun v hv => ⟨rfl, by simp [State.setThread, hv]⟩) rfl rfl rfl rfl fun x _ hc => ?_
      have : ((s.setThread w fun x => { x with bls := b }).thread w).cont = .code f := by
        simp [State.setThread, hk]
      rw [this]
      rw [hk] at hc
      cases f with
      | fn b m => exact hc
      | returnKeytable b m g => exact hc
      | _ => simp [Frame.user?] at hf
    | _ => simp [Context.next, hk] at hs
  | runTask w n o => exact h.runTask hs
  | call w =>
    cases hk : (s.thread w).cont with
    | top b g =>
      simp only [Context.next, hk, Option.some.injEq] at hs
      subst hs
      exact h.call hk
    | _ => simp [Context.next, hk] at hs
  | suspend w how t o => exact h.suspend hs
  | «return» w =>
    cases hk : (s.thread w).cont with
    | code f =>
      cases f with
      | fn b m =>
        simp only [Context.next, hk, Option.some.injEq] at hs
        subst hs
        refine h.setThread (w := w) rfl rfl rfl rfl
          (fun v hv => ⟨rfl, by simp [State.setThread, hv]⟩) rfl rfl rfl rfl fun x _ hc => ?_
        have : ((s.setThread w fun x =>
            { x with cont := .code (.returnKeytable b m w) }).thread w).cont =
              .code (.returnKeytable b m w) := by
          simp [State.setThread]
        rw [this]
        rw [hk] at hc
        exact hc
      | _ => simp [Context.next, hk] at hs
    | _ => simp [Context.next, hk] at hs
  | endTask w t o => exact h.endTask hown hs
  | remained w back => exact h.remained hs
  | leave w => exact h.leave hs

/-- **The invariant of the context switches**: it holds in every state reached by steps in their own
group.

**Proof sketch.** Induction on the run, by the lemma for each step. -/
theorem good (hs : machine.ReachableIf InOwnGroup s) : Good s :=
  hs.invariant (fun _ hi => State.Initial.good hi) fun _ _ _ _ ih hC hn => ih.next hC hn

end Bthread.Context
