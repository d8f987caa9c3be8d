import Bthread.Signals
import Bthread.Wakeups

set_option relaxedAutoImplicit false
set_option autoImplicit false

/-!
# `ready_to_run_general`

Off the worker of its group `ready_to_run_general` calls `ready_nosignal_tasks_remote()`, which is
declared nowhere and is given neither the task nor the flag. Whatever it does, it is not
`ready_to_run_remote`, and a waiter handed over like this is lost.

## Main definitions

* `Bthread.Signals.Runs` — the effect of a call that runs alone.
* `Bthread.Signals.readyToRunGeneral` — `ready_to_run_general`.
* `Bthread.EnqueuedOnce` — what is dequeued is enqueued once.

## Main results

* `Bthread.Signals.readyToRunGeneral_iff` — when `ready_to_run_general` is what it chooses between.
* `Bthread.enqueuedOnce` — wakers enqueue what they have dequeued, as long as it is on a worker.
-/

namespace Bthread.Signals

variable {G ι : Type*} [DecidableEq G] [AddCommGroupWithOne ι] [DecidableEq ι]

/-- The effect of what thread `t` does from control point `p` on until it returns, when it runs
alone. -/
inductive Runs (capacity : Queue G → ℕ) (t : Thread G) : Pc G ι → Mem G ι → Mem G ι → Prop
  | ret {m : Mem G ι} : Runs capacity t .idle m m
  | step {p p' : Pc G ι} {m m₁ m' : Mem G ι} {k : Call G} (hp : p ≠ .idle)
      (h : code capacity t p k m = some (m₁, p')) (hr : Runs capacity t p' m₁ m') :
      Runs capacity t p m m'

/-- `tls_task_group`. -/
def Thread.tlsTaskGroup : Thread G → Option G
  | .worker g => some g
  | .other _ => none

/-- The effect of `ready_to_run(tid, nosignal)` on the group `g`. -/
def readyToRun (capacity : Queue G → ℕ) (t : Thread G) (g : G) (tid : Tid) (nosignal : Bool) :
    Mem G ι → Mem G ι → Prop :=
  Runs capacity t (.push (g, .own) tid nosignal)

/-- The effect of `ready_to_run_remote(tid, nosignal)` on the group `g`. -/
def readyToRunRemote (capacity : Queue G → ℕ) (t : Thread G) (g : G) (tid : Tid)
    (nosignal : Bool) : Mem G ι → Mem G ι → Prop :=
  Runs capacity t (.lock g (.push tid nosignal))

/-- The effect of `ready_to_run_general(tid, nosignal)` on the group `g`;
`readyNosignalTasksRemote` is the effect of `ready_nosignal_tasks_remote()`, which the source does
not define. -/
def readyToRunGeneral (readyNosignalTasksRemote : Thread G → G → Mem G ι → Mem G ι → Prop)
    (capacity : Queue G → ℕ) (t : Thread G) (g : G) (tid : Tid) (nosignal : Bool) :
    Mem G ι → Mem G ι → Prop :=
  if t.tlsTaskGroup = some g then readyToRun capacity t g tid nosignal
  else readyNosignalTasksRemote t g

variable {capacity : Queue G → ℕ} {t : Thread G} {g : G} {m m' : Mem G ι} {tid : Tid}

/-- A thread that runs alone takes the next statement. -/
theorem Runs.of_step {p p' : Pc G ι} {m₁ : Mem G ι} (h : Runs capacity t p m m') (hp : p ≠ .idle)
    (hc : ∀ call, code capacity t p call m = some (m₁, p')) : Runs capacity t p' m₁ m' := by
  cases h with
  | ret => exact absurd rfl hp
  | step _ h hr =>
    obtain ⟨rfl, rfl⟩ := Prod.mk.inj (Option.some.inj ((hc _).symm.trans h))
    exact hr

/-- The memory after `ready_to_run_remote(tid, true)` on an empty queue. -/
theorem readyToRunRemote_iff (hc : 0 < capacity (g, .remote)) (hq : m.rq (g, .remote) = [])
    (hm : m.mutex g = none) : (∃ m', readyToRunRemote capacity t g tid true m m') ∧
      ∀ m', readyToRunRemote capacity t g tid true m m' → m'.rq (g, .remote) = [tid] := by
  have h₁ (call : Call G) : code capacity t (.lock g (.push tid true)) call m =
      some (m.lock t g, .push (g, .remote) tid true) := by
    simp [code, hm]
  have h₂ (call : Call G) : code capacity t (.push (g, .remote) tid true) call (m.lock t g) =
      some ((m.lock t g).push t (g, .remote) tid, .countNosignal (g, .remote) m.serial) := by
    simp [code, Mem.lock, hq, hc]
  constructor
  · exact ⟨_, .step (k := .bthreadFlush) (by simp) (h₁ _)
      (.step (k := .bthreadFlush) (by simp) (h₂ _)
        (.step (k := .bthreadFlush) (by simp) rfl
          (.step (k := .bthreadFlush) (by intro h; cases h) rfl .ret)))⟩
  · intro m' h
    have h := ((h.of_step (by simp) h₁).of_step (by simp) h₂).of_step (by simp) fun _ => rfl
    cases h.of_step (by intro h; cases h) fun _ => rfl with
    | ret => simp [Mem.unlock, Mem.setTally, Mem.push, Mem.lock, hq]
    | step hp => exact absurd rfl hp

/-- **`ready_to_run_general`** has the effect of the call it stands for exactly on the worker of the
group, whatever `ready_nosignal_tasks_remote` does. -/
theorem readyToRunGeneral_iff (f : Thread G → G → Mem G ι → Mem G ι → Prop)
    (hc : 0 < capacity (g, .remote)) :
    (∀ tid nosignal, readyToRunGeneral f capacity t g tid nosignal =
      if t.tlsTaskGroup = some g then readyToRun capacity t g tid nosignal
      else readyToRunRemote capacity t g tid nosignal) ↔ t.tlsTaskGroup = some g := by
  constructor
  · intro h
    by_contra ht
    have hf (tid : Tid) : f t g = readyToRunRemote capacity t g tid true := by
      simpa [readyToRunGeneral, ht] using h tid true
    obtain ⟨⟨m', h₁⟩, h₂⟩ := @readyToRunRemote_iff G ι _ _ _ capacity t g .initial 1 hc rfl rfl
    have h₃ := h₁
    rw [← hf 1, hf 2] at h₃
    have hq := (readyToRunRemote_iff hc rfl rfl).2 m' h₃
    rw [h₂ m' h₁] at hq
    exact absurd hq (by decide)
  · intro ht tid nosignal
    simp [readyToRunGeneral, ht]

end Bthread.Signals

namespace Bthread

variable {s : State}

/-- When a call has returned, every bthread waiter that it has dequeued was enqueued once. -/
def EnqueuedOnce (s : State) : Prop :=
  ∀ w c, s.mem.tid w ≠ 0 → c ∈ s.mem.removedBy w → c ≠ w → (s.pc c).Returned →
    s.mem.pushes w = 1 ∧ s.mem.handedBy w = [c]

/-- **Nothing dequeued is dropped** while hand-overs with `ready_to_run_general` are made on
workers. -/
theorem enqueuedOnce (hs : system.ReachableIf OnWorker s) : EnqueuedOnce s := by
  intro w c hw hc hne hp
  have hr := hs.reachable
  have ht := (known hr).untainted hw
  obtain ⟨-, hd, -⟩ | ⟨d, -, hd, hu⟩ | ⟨d, hh, hd, -, hu⟩ := handed_of_untainted hr w ht
  · rw [hd] at hc
    cases hc
  · -- whoever holds a waiter has not returned
    obtain rfl : c = d := by simpa [hd] using hc
    have hcl := (owned hr).complete w ht (by simp [hu, Custody.Waits])
      (by rw [hu]; exact fun e => hne (Custody.held.inj e))
    rw [hu] at hcl
    cases hcl with
    | held hm =>
      cases hpc : s.pc c with
      | done r => simp [State.shape, hpc, Pc.shape, Shape.finished] at hm
      | _ => rw [hpc] at hp; exact hp.elim
  · obtain rfl : c = d := by simpa [hd] using hc
    refine ⟨?_, hh⟩
    obtain hu | hu | hu := hu
    · rw [(owned hr).pushes w ht, if_pos hu]
    · exact absurd (tid_of_signalled hr w ht hu) hw
    · exact absurd hu (not_lost hs w)

open Signals (readyToRun readyToRunRemote readyToRunGeneral readyToRunGeneral_iff) in
/-- **`ready_to_run_general`** agrees with what it chooses between exactly on the worker of the
group, whatever `ready_nosignal_tasks_remote` does; and in every run on which it is called there
only, what is dequeued is enqueued once. -/
theorem dispatched {G ι : Type*} [DecidableEq G] [AddCommGroupWithOne ι] [DecidableEq ι]
    (f : Signals.Thread G → G → Signals.Mem G ι → Signals.Mem G ι → Prop)
    {capacity : Signals.Queue G → ℕ} (hc : ∀ g, 0 < capacity (g, .remote)) :
    (∀ t g, (∀ tid nosignal, readyToRunGeneral f capacity t g tid nosignal =
      if t.tlsTaskGroup = some g then readyToRun capacity t g tid nosignal
      else readyToRunRemote capacity t g tid nosignal) ↔ t.tlsTaskGroup = some g) ∧
      ∀ s, system.ReachableIf OnWorker s → EnqueuedOnce s :=
  ⟨fun _ g => readyToRunGeneral_iff f (hc g), fun _ hs => enqueuedOnce hs⟩

/-- A bthread waits on a butex, and a thread, on a worker or not, wakes all but the bthread `0`. -/
def waitAndWakeExcept (worker : Bool) : List (CallId × Move) :=
  startAndRun.take 7 ++ (2, .call (.butexWait ⟨.user 0, 0, 0, false⟩)) ::
    List.replicate 11 (2, .next .go) ++ (3, .call (.butexWakeExcept (.user 0) 0 worker)) ::
    List.replicate 13 (3, .next .go)

/-- Off the workers the waiter is reported as woken and has not been enqueued. -/
theorem not_enqueuedOnce : ∃ s, system.Reachable s ∧ s.pc 3 = .done (.wake 1) ∧
    ¬EnqueuedOnce s := by
  obtain ⟨s, h, hp, hw, hr, hn⟩ : ∃ s, system.exec ⟨.initial, fun _ => .idle⟩
      (waitAndWakeExcept false) = some s ∧ s.pc 3 = .done (.wake 1) ∧ s.mem.tid 2 = makeTid 1 0 ∧
        s.mem.removedBy 2 = [3] ∧ s.mem.pushes 2 = 0 := ⟨_, rfl, rfl, rfl, rfl, rfl⟩
  refine ⟨s, Conc.Machine.Reachable.exec (.of_init ⟨Mem.initial_initial, rfl⟩) h, hp, fun he => ?_⟩
  have h₁ := (he 2 3 (by rw [hw]; decide) (by simp [hr]) (by decide) (by rw [hp]; trivial)).1
  rw [hn] at h₁
  cases h₁

/-- An access is no hand-over with `ready_to_run_general` off the workers. -/
def Access.dispatches : Access → Bool
  | .handOffLost _ => false
  | _ => true

/-- On a worker it has been enqueued. -/
theorem dispatched_waitAndWakeExcept : ∃ s : State, s.pc 3 = .done (.wake 1) ∧
    s.mem.removedBy 2 = [3] ∧ s.mem.pushes 2 = 1 := by
  obtain ⟨s, h, hp, hw, hr⟩ : ∃ s, system.exec ⟨.initial, fun _ => .idle⟩
      (waitAndWakeExcept true) = some s ∧ s.pc 3 = .done (.wake 1) ∧ s.mem.tid 2 = makeTid 1 0 ∧
        s.mem.removedBy 2 = [3] := ⟨_, rfl, rfl, rfl, rfl⟩
  have hs : system.ReachableIf OnWorker s := by
    have ha : (accesses ⟨.initial, fun _ => .idle⟩ (waitAndWakeExcept true)).all
        Access.dispatches = true := rfl
    exact reachableIf_exec (P := fun a => a.dispatches = true)
      (fun s c k hP w p hc => (by cases hP _ p hc)) (.of_init ⟨Mem.initial_initial, rfl⟩) h
      (List.all_eq_true.mp ha)
  have he := (@dispatched Unit ℤ _ _ _ (fun _ _ m m' => m' = m) (fun _ => 1)
    fun _ => Nat.one_pos).2 s hs
  exact ⟨s, hp, hr, (he 2 3 (by rw [hw]; decide) (by simp [hr]) (by decide)
    (by rw [hp]; trivial)).1⟩

end Bthread
