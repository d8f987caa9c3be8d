import Bthread.Scheduling

set_option relaxedAutoImplicit false
set_option autoImplicit false

/-!
# Phases

What the steps of the workers do to the phases of the tasks. A switch changes two of them, that of
the task switched out and that of the task switched to; a callback changes that of the task it is
about.

## Main results

* `Bthread.Context.phase_runTask`, `Bthread.Context.phase_suspend`,
  `Bthread.Context.phase_endTask` — switches.
* `Bthread.Context.phase_remained` — callbacks.
-/

namespace Bthread.Context

open Function (update update_self update_of_ne)

variable {s s' : State} {w g : GroupId} {t c : TaskRef} {f : Frame} {o : Option ℕ}

/-! ## Stacks and switches -/

/-- A task whose other fields change keeps its phase. -/
theorem phase_setTask {f : TaskMeta → TaskMeta} (hf : ∀ m, (f m).phase = m.phase) (i : TaskRef) :
    ((s.setTask t f).task i).phase = (s.task i).phase := by
  by_cases hi : i = t
  · subst hi
    simp [State.setTask, hf]
  · simp [State.setTask, hi]

/-- `get_stack` changes no task and no group. -/
theorem task_getStack {ty : StackType} {k : ℕ} (h : getStack ty t k s = some s') :
    s'.task = s.task ∧ s'.group = s.group := by
  unfold getStack at h
  split_ifs at h
  split at h
  · obtain rfl := Option.some.inj h
    exact ⟨rfl, rfl⟩
  · split_ifs at h
    obtain rfl := Option.some.inj h
    exact ⟨rfl, rfl⟩
  · cases h

/-- Giving a task a stack changes no phase and no group. -/
theorem phase_allocateStack (h : allocateStack g t o s = some s') :
    (∀ i, (s'.task i).phase = (s.task i).phase) ∧ s'.group = s.group := by
  cases o with
  | none =>
    obtain rfl := Option.some.inj h
    exact ⟨phase_setTask fun _ => rfl, rfl⟩
  | some k =>
    obtain ⟨s₁, h₁, rfl⟩ := Option.map_eq_some_iff.mp h
    obtain ⟨ht, hg⟩ := task_getStack h₁
    refine ⟨fun i => (phase_setTask ?_ i).trans (by rw [ht]), hg⟩
    exact fun _ => rfl

/-- What is done before `sched_to` changes no phase and no group. -/
theorem phase_needStack (h : needStack g t o s = some s') :
    (∀ i, (s'.task i).phase = (s.task i).phase) ∧ s'.group = s.group := by
  unfold needStack at h
  split_ifs at h
  · exact phase_allocateStack h
  · obtain rfl := Option.some.inj h
    exact ⟨fun _ => rfl, rfl⟩

/-- `return_stack` changes no task. -/
theorem task_returnStack (r : Option StackRef) (s : State) : (returnStack r s).task = s.task := by
  unfold returnStack
  split
  · rfl
  · rfl
  · split <;> rfl

/-- Handing the stack over changes no phase and no group. -/
theorem phase_handOver (c t : TaskRef) (s : State) :
    (∀ i, ((handOver c t s).task i).phase = (s.task i).phase) ∧
      (handOver c t s).group = s.group := by
  have hp : ∀ i, ((((s.setTask c fun m => { m with stack := none }).setTask t
      fun m => { m with stack := (s.task c).stack }).task i).phase) = (s.task i).phase := by
    refine fun i => (phase_setTask ?_ i).trans (phase_setTask ?_ i)
    · exact fun _ => rfl
    · exact fun _ => rfl
  constructor
  · intro i
    simp only [handOver]
    split
    · split
      · exact hp i
      · exact hp i
    · exact hp i
  · simp only [handOver]
    split
    · split <;> rfl
    · rfl

/-- What `ending_sched` does before `sched_to` changes no phase and no group. -/
theorem phase_needStackEnding (h : needStackEnding g t o s = some s') :
    (∀ i, (s'.task i).phase = (s.task i).phase) ∧ s'.group = s.group := by
  unfold needStackEnding at h
  split_ifs at h
  · obtain rfl := Option.some.inj h
    exact phase_handOver _ _ s
  · exact phase_allocateStack h
  · obtain rfl := Option.some.inj h
    exact ⟨fun _ => rfl, rfl⟩

/-- `sched_to` makes the next task run. -/
theorem phase_schedTo (hne : t ≠ s.cur g) (i : TaskRef) :
    ((schedTo w g t f s).task i).phase = if i = t then .running g else (s.task i).phase := by
  have hp : ((((s.setTask (s.cur g) fun m => { m with localStorage := (s.thread w).bls }).setTask t
      fun m => { m with phase := .running g }).task i).phase) =
        if i = t then .running g else (s.task i).phase := by
    by_cases hi : i = t
    · simp [hi, State.setTask]
    · rw [if_neg hi]
      refine Eq.trans ?_ (phase_setTask (t := s.cur g)
        (f := fun m => { m with localStorage := (s.thread w).bls }) (fun _ => rfl) i)
      simp [State.setTask, hi]
  simp only [schedTo, hne, if_false]
  split
  · split
    · exact hp
    · exact hp
  · exact hp
  · exact hp

/-! ## Steps -/

/-- Starting a bthread. -/
theorem phase_start {p : Option GroupId} {n : ℕ} {ty : StackType}
    (h : next s (.start p n ty) = some s') (i : TaskRef) :
    (s'.task i).phase = if i = .slot n then .ready else (s.task i).phase := by
  simp only [next, Option.ite_none_right_eq_some, Option.some.injEq] at h
  obtain ⟨-, rfl⟩ := h
  by_cases hi : i = .slot n <;> simp [State.setTask, hi]

/-- Waking a bthread. -/
theorem phase_wake {p : Option GroupId} {n : ℕ} (h : next s (.wake p n) = some s')
    (i : TaskRef) : (s'.task i).phase = if i = .slot n then .ready else (s.task i).phase := by
  simp only [next, Option.ite_none_right_eq_some, Option.some.injEq] at h
  obtain ⟨-, rfl⟩ := h
  by_cases hi : i = .slot n <;> simp [State.setTask, hi]

/-- Switching from the main task. -/
theorem phase_runTask {n : ℕ} (hG : Good s) (h : next s (.runTask w n o) = some s')
    (i : TaskRef) :
    (s'.task i).phase = if i = .slot n then .running w else (s.task i).phase := by
  obtain ⟨x, -, hc⟩ := (hG.worker w).cont
  simp only [next] at h
  split at h
  next r hk =>
    rw [hk] at hc
    obtain ⟨rfl, hcur, -⟩ := hc
    rw [Option.ite_none_right_eq_some] at h
    obtain ⟨-, h⟩ := h
    obtain ⟨s₁, h₁, rfl⟩ := Option.map_eq_some_iff.mp h
    obtain ⟨hp, hg⟩ := phase_needStack h₁
    have hne : TaskRef.slot n ≠ s₁.cur w := by
      simp only [State.cur, hg] at hcur ⊢
      simp [hcur]
    rw [phase_schedTo hne, hp]
  next => cases h

/-- A bthread that is switched out is about to be given to its callback. -/
theorem phase_suspend {how : Suspend} (hne : t ≠ s.cur w)
    (h : next s (.suspend w how t o) = some s') (i : TaskRef) :
    (s'.task i).phase =
      if i = t then .running w else if i = s.cur w then .leaving w else (s.task i).phase := by
  simp only [next] at h
  split at h
  next f hk =>
    rw [Option.ite_none_right_eq_some] at h
    obtain ⟨-, h⟩ := h
    obtain ⟨s₁, h₁, rfl⟩ := Option.map_eq_some_iff.mp h
    obtain ⟨hp, hg⟩ := phase_needStack h₁
    have hcur : s₁.cur w = s.cur w := by
      rw [State.cur, hg]
      simp [setRemained, State.setTask, State.setGroup, State.cur]
    rw [phase_schedTo (by rwa [hcur]), hp]
    have htask : (how.remained w (s.cur w)).task = s.cur w := by cases how <;> rfl
    by_cases hi : i = s.cur w <;> simp [setRemained, State.setTask, State.setGroup, htask, hi]
  next => cases h

/-- A bthread that has ended is about to be released. -/
theorem phase_endTask {b : Option MainTask}
    (hk : (s.thread w).cont = .code (.returnKeytable b c g)) (hne : t ≠ s.cur g)
    (h : next s (.endTask w t o) = some s') (i : TaskRef) :
    (s'.task i).phase =
      if i = t then .running g else if i = c then .ended g else (s.task i).phase := by
  simp only [next, hk, Option.ite_none_right_eq_some] at h
  obtain ⟨-, h⟩ := h
  obtain ⟨s₁, h₁, rfl⟩ := Option.map_eq_some_iff.mp h
  obtain ⟨hp, hg⟩ := phase_needStackEnding h₁
  have hcur : s₁.cur g = s.cur g := by
    rw [State.cur, hg]
    simp [setRemained, State.setTask, State.setGroup, State.cur]
  rw [phase_schedTo (by rwa [hcur]), hp]
  by_cases hi : i = c <;> simp [setRemained, State.setTask, State.setGroup, Remained.task, hi]

/-- Running a callback. -/
theorem phase_remained {r : Remained}
    (hl : (s.thread w).cont.loopGroup = some g) (hr : (s.group g).lastContextRemained = some r)
    (h : next s (.remained w false) = some s') (i : TaskRef) :
    (s'.task i).phase = if i = r.task then
      match r with
      | .readyToRunInWorker _ => .ready
      | .waitForButex _ | .addSleepEvent _ _ => .away
      | .releaseLastContext _ => .free
    else (s.task i).phase := by
  simp only [next, hl, hr, Option.bind_some, Option.map_some, Option.some.injEq] at h
  subst h
  cases r with
  | releaseLastContext t =>
    by_cases hi : i = t
    · simp [runRemained, State.setThread, State.setTask, Remained.task, hi]
    · simp only [runRemained, State.setThread, State.setTask, Remained.task, hi, if_false,
        update_of_ne hi]
      split_ifs
      · rfl
      · simp [State.setGroup, task_returnStack]
  | _ t =>
    by_cases hi : i = t <;>
      simp [runRemained, State.setThread, State.setTask, State.setGroup, Remained.task, hi]

/-- A step that a worker takes alone. -/
theorem phase_alone {x : Move} (hx : Scheduling.alone x = true) (h : next s x = some s')
    (i : TaskRef) : (s'.task i).phase = (s.task i).phase := by
  cases x with
  | write w e u =>
    obtain rfl := Option.some.inj h
    rfl
  | writeBls w b =>
    simp only [next] at h
    split at h
    · split_ifs at h
      obtain rfl := Option.some.inj h
      rfl
    · cases h
  | call w =>
    simp only [next] at h
    split at h
    next b g _ =>
      obtain rfl := Option.some.inj h
      change ((s.setTask (s.cur g) fun x => { x with called := true }).task i).phase = _
      refine phase_setTask ?_ i
      exact fun _ => rfl
    next => cases h
  | «return» w =>
    simp only [next] at h
    split at h
    · obtain rfl := Option.some.inj h
      rfl
    · cases h
  | leave w =>
    obtain ⟨g, -, h⟩ := Option.bind_eq_some_iff.mp h
    split_ifs at h
    obtain rfl := Option.some.inj h
    rfl
  | _ => cases hx

end Bthread.Context
