import Mathlib.Algebra.BigOperators.Finprod
import Mathlib.Data.Set.Card
import Bthread.Lib.Trace
import Bthread.Pthreads

set_option relaxedAutoImplicit false
set_option autoImplicit false

/-!
# Wakes that are delivered

A waker counts every waiter it hands off. The wait of a pthread that was signalled is to return `0`,
but `wait_pthread` returns what the futex call has returned.

## Main definitions

* `Bthread.FoundInterrupted` — a wait has found its task interrupted.
* `Bthread.FutexAgrees` — `wait_pthread` finds the signal only after a futex call that returned `0`.
* `Bthread.Told` — what a wait returns, by who has removed its waiter.
* `Bthread.Pc.Counts` — how many waiters a waker has handed off.
* `Bthread.Delivered` — wakes of pthreads are delivered.

## Main results

* `Bthread.delivered` — they are, if the futex calls agree with `sig`.
* `Bthread.not_delivered` — they are not, otherwise.
-/

namespace Bthread

open Function (update update_self update_of_ne)
open Conc (Ensures)

variable {s s' s₀ : State} {c d w : CallId} {m : Mem} {a : Access} {p p' : Pc} {k : Move}
  {b : PthreadWaitArgs} {q q₀ : PthreadWaitPc} {rc : WaitResult}
  {tr : List (State × (CallId × Move))}

/-! ## What a wait returns -/

/-- The wait of call `w` has found its task interrupted when it was over. -/
def FoundInterrupted (tr : List (State × (CallId × Move))) (w : CallId) : Prop :=
  ∃ e ∈ tr, e.2.1 = w ∧ ∃ b rc t, e.1.pc w = .butexWaitFromPthread b (.loadInterrupted rc) ∧
    b.task = some t ∧ e.1.mem.interrupted t = true

/-- A wait finds its task interrupted by the step that loads the flag. -/
theorem foundInterrupted_snoc : FoundInterrupted (tr ++ [(s, c, k)]) w ↔ FoundInterrupted tr w ∨
    c = w ∧ ∃ b rc t, s.pc w = .butexWaitFromPthread b (.loadInterrupted rc) ∧
      b.task = some t ∧ s.mem.interrupted t = true := by
  simp [FoundInterrupted, or_and_right, exists_or]

/-- `wait_pthread` finds that `sig` has changed only after a futex call that has returned `0`: not
after `EAGAIN`, `EINTR` or `ETIMEDOUT`, and not after it has failed to remove its waiter. -/
def FutexAgrees (s : State) (x : CallId × Move) : Prop :=
  (∀ b timed rc, s.pc x.1 = .butexWaitFromPthread b (.sig timed rc) → s.mem.sig x.1 = true →
    rc = .ok) ∧
  ∀ b, s.pc x.1 = .butexWaitFromPthread b .sigAgain → s.mem.sig x.1 = false

/-- The result of a wait that is over. -/
def PthreadWaitPc.outcome : PthreadWaitPc → Option WaitResult
  | .takeBack rc | .loadInterrupted rc | .clearAfter rc | .ret rc => some rc
  | _ => none

/-- The end of `butex_wait_from_pthread` starts with the result of `wait_pthread`. -/
theorem outcome_afterWait (t : Option SlotId) (rc : WaitResult) :
    (afterWait t rc).outcome = some rc := by
  cases t <;> rfl

/-- A wait that is over has a result. -/
theorem PthreadWaitPc.Over.outcome (h : q.Over) : ∃ rc, q.outcome = some rc := by
  cases q <;> first | exact h.elim | exact ⟨_, rfl⟩

/-- A wait that has a result is over. -/
theorem over_of_outcome (h : q.outcome = some rc) : q.Over := by
  cases q <;> trivial

/-- Where the result of a wait comes from. -/
theorem PthreadStep.outcome_of (h : PthreadStep m c b q₀ a q) (hq : q.outcome = some rc) :
    q₀.Early ∨ q₀.outcome = some rc ∨
      (∃ rc₀, q₀ = .clearAfter rc₀ ∧ rc = if rc₀ = .ok then .eintr else rc₀) ∨
      (∃ timed, q₀ = .sig timed rc ∧ m.sig c = true) ∨ (q₀ = .sigAgain ∧ m.sig c = true) ∨
      q₀.Own ∧ rc = .etimedout := by
  cases h with
  | early h₀ => exact .inl h₀
  | refused h₀ => exact .inl h₀
  | signalled hs =>
    obtain rfl : rc = _ := by simpa [outcome_afterWait] using hq.symm
    exact .inr (.inr (.inr (.inl ⟨_, rfl, hs⟩)))
  | erased =>
    obtain rfl : rc = _ := by simpa [outcome_afterWait] using hq.symm
    exact .inr (.inr (.inr (.inr (.inr ⟨trivial, rfl⟩))))
  | signalledAgain hs => exact .inr (.inr (.inr (.inr (.inl ⟨rfl, hs⟩))))
  | takeBack hq' => obtain rfl | rfl := hq' <;> exact .inr (.inl hq)
  | interrupted | uninterrupted => exact .inr (.inl hq)
  | clear =>
    obtain rfl : rc = _ := by simpa [PthreadWaitPc.outcome] using hq.symm
    exact .inr (.inr (.inl ⟨_, rfl, rfl⟩))
  | _ => cases hq

/-- What the wait `w` returns is right: `0` if it was signalled and has not found its task
interrupted, and `ETIMEDOUT` if it has removed its own waiter. -/
structure Told (tr : List (State × (CallId × Move))) (s : State) (w : CallId) (rc : WaitResult) :
    Prop where
  signalled : s.mem.custody w = .signalled → rc = .ok ∨ rc = .eintr ∧ FoundInterrupted tr w
  removed : s.mem.custody w = .held w → rc = .etimedout

/-- What the wait `w` of a pthread that was queued is going to return. -/
structure TellsOk (tr : List (State × (CallId × Move))) (s : State) (w : CallId) : Prop where
  told : ∀ b q rc, s.pc w = .butexWaitFromPthread b q → q.outcome = some rc → Told tr s w rc
  found : ∀ b rc, s.pc w = .butexWaitFromPthread b (.clearAfter rc) → FoundInterrupted tr w
  done : ∀ r, s.pc w = .done r → ∃ rc, r = .wait rc ∧ Told tr s w rc

/-- A wait clears the flag of its task after it has found it set. -/
theorem PthreadStep.found_of (h : PthreadStep m c b q₀ a (.clearAfter rc)) :
    q₀.Early ∨ ∃ t, q₀ = .loadInterrupted rc ∧ b.task = some t ∧ m.interrupted t = true := by
  have hne : ∀ rc', afterWait b.task rc' ≠ .clearAfter rc := fun rc' => by
    cases b.task <;> simp [afterWait]
  generalize hq : PthreadWaitPc.clearAfter rc = q at h
  cases h with
  | early h₀ => exact .inl h₀
  | refused h₀ => exact .inl h₀
  | interrupted ht hi =>
    cases hq
    exact .inr ⟨_, rfl, ht, hi⟩
  | takeBack hq' => obtain rfl | rfl := hq' <;> cases hq
  | signalled | erased | signalledAgain => exact absurd hq.symm (hne _)
  | _ => cases hq

/-- What was told stays so while the waiter stays where it is. -/
theorem Told.keep {x : CallId × Move} (h : Told tr s w rc)
    (hu : s'.mem.custody w = s.mem.custody w) : Told (tr ++ [(s, x)]) s' w rc where
  signalled hs := (h.signalled (hu ▸ hs)).imp_right
    (And.imp_right fun hf => foundInterrupted_snoc.mpr (.inl hf))
  removed hs := h.removed (hu ▸ hs)

section Step

variable (hr : system.ReachableIf ErasesQueued s)
  (hc : control c (s.pc c) k s.mem = some (a, p))
include hr hc

/-- A waiter that has come to its end stays there. -/
theorem custody_of_end (hu : s.mem.custody w = .held w ∨ s.mem.custody w = .signalled) :
    (s.after c a p).mem.custody w = s.mem.custody w := by
  have hs := hr.reachable
  have h := step_shape hs hc
  obtain hu | hu := hu
  · obtain hk | ⟨-, hne, -⟩ :=
      (owned hs).held_step (locked hs) (known hs) h (untainted hr w) hu
    · exact hk.trans hu.symm
    · exact absurd rfl hne
  · exact ((owned hs).signalled_step (locked hs) (known hs) h (untainted hr w) hu).trans hu.symm

/-- **What a wait returns**, over one step. -/
theorem TellsOk.step (hC : FutexAgrees s (c, k)) (I : Enqueued s.mem w → TellsOk tr s w)
    (he : Enqueued (s.after c a p).mem w) :
    TellsOk (tr ++ [(s, c, k)]) (s.after c a p) w := by
  have hs := hr.reachable
  have P := pthreadOk hr w
  obtain he₀ | ⟨rfl, ⟨b₁, -, -, rfl⟩, -⟩ := enqueued_of hs hc he
  · have I := I he₀
    have keep : ∀ {rc}, Told tr s w rc →
        (s.mem.custody w = .held w ∨ s.mem.custody w = .signalled) →
        Told (tr ++ [(s, c, k)]) (s.after c a p) w rc :=
      fun ht hu => ht.keep (custody_of_end hr hc hu)
    refine ⟨fun b q rc hp hq => ?_, fun b rc hp => ?_, fun r hp => ?_⟩
    · obtain ⟨hne, hp₀⟩ | ⟨rfl, ⟨-, rfl, -⟩ | ⟨q₀, hp₀, hst⟩⟩ := pthread_after hs hc hp
      · exact keep (I.told b q rc hp₀ hq) (P.returned he₀ b q hp₀ (over_of_outcome hq))
      · cases hq
      · obtain h₀ | h₀ | ⟨rc₀, rfl, rfl⟩ | ⟨timed, rfl, hsig⟩ | ⟨rfl, hsig⟩ | ⟨hown, rfl⟩ :=
          hst.outcome_of hq
        · exact absurd (P.early b q₀ hp₀ h₀) he₀.1
        · exact keep (I.told b q₀ rc hp₀ h₀) (P.returned he₀ b q₀ hp₀ (over_of_outcome h₀))
        · have ht := I.told b _ rc₀ hp₀ rfl
          have hf := I.found b rc₀ hp₀
          have hu := P.returned he₀ b _ hp₀ trivial
          refine keep ⟨fun hu => ?_, fun hu => ?_⟩ hu
          · obtain rfl | ⟨rfl, -⟩ := ht.signalled hu
            · exact .inr ⟨rfl, hf⟩
            · exact .inr ⟨rfl, hf⟩
          · rw [ht.removed hu]
            simp
        · have hu := (P.sig he₀).mp hsig
          obtain rfl := hC.1 b timed rc hp₀ hsig
          exact keep ⟨fun _ => .inl rfl, fun h => by simp [hu] at h⟩ (.inr hu)
        · simp [hC.2 b hp₀] at hsig
        · have hu := P.own b q₀ hp₀ hown
          exact keep ⟨fun h => by simp [hu] at h, fun _ => rfl⟩ (.inl hu)
    · rw [foundInterrupted_snoc]
      obtain ⟨hne, hp₀⟩ | ⟨rfl, ⟨-, hq, -⟩ | ⟨q₀, hp₀, hst⟩⟩ := pthread_after hs hc hp
      · exact .inl (I.found b rc hp₀)
      · cases hq
      · obtain h₀ | ⟨t, rfl, ht, hi⟩ := hst.found_of
        · exact absurd (P.early b q₀ hp₀ h₀) he₀.1
        · exact .inr ⟨rfl, b, rc, t, hp₀, ht, hi⟩
    · by_cases hwc : w = c
      · subst hwc
        obtain rfl : p = .done r := by simpa using hp
        obtain ⟨b, q, hp₀, -⟩ | ⟨r', hp₀⟩ := P.place he₀
        · rw [hp₀] at hc
          obtain ⟨rc, rfl, rfl⟩ := control_pthread_done hc
          exact ⟨rc, rfl, keep (I.told b _ rc hp₀ rfl) (P.returned he₀ b _ hp₀ trivial)⟩
        · rw [hp₀] at hc
          simp [control] at hc
      · have hp₀ : s.pc w = .done r := by simpa [hwc] using hp
        obtain ⟨rc, rfl, ht⟩ := I.done r hp₀
        exact ⟨rc, rfl, keep ht (P.done he₀ _ hp₀)⟩
  · refine ⟨fun b q rc hp hq => ?_, fun b rc hp => ?_, fun r hp => ?_⟩
    · obtain ⟨-, rfl⟩ : b₁ = b ∧ .unlockQueued = q := by simpa using hp
      cases hq
    · simp at hp
    · simp at hp

end Step

/-- What the waits of pthreads return, over whole runs. -/
theorem tellsOk (h₀ : system.init s₀)
    (h : system.Trace (fun s x => FutexAgrees s x ∧ ErasesQueued s x) s₀ tr s)
    (he : Enqueued s.mem w) : TellsOk tr s w := by
  refine h.invariant (I := fun tr s => Enqueued s.mem w → TellsOk tr s w) (.of_init h₀) ?_ ?_ he
  · intro he
    exact absurd (h₀.1.enqueues w) he.1
  · rintro tr u ⟨c, k⟩ v hu ih ⟨hC, -⟩ hn he
    obtain ⟨a, p, hc, rfl⟩ := system_next hn
    exact TellsOk.step (hu.mono fun _ _ h => h.2) hc hC ih he

/-! ## What a waker reports -/

/-- How many waiters an access hands off. -/
def Access.handOffs : Access → ℕ
  | .handOff _ | .handOffLost _ | .wakeupPthread _ => 1
  | _ => 0

/-- At this control point `butex_wake_all` has handed off `h` waiters. -/
def WakeAllPc.Counts : WakeAllPc → ℕ → Prop
  | .pthreads _ _ n, h | .unsleepNext _ _ n _, h => n = h
  -- `next` is counted and handed off last
  | .bthreads _ _ n _, h | .unsleep _ _ _ n _ _, h | .ready _ _ _ n _, h | .flush _ n _, h
  | .exchange _ n, h => n = h + 1
  | _, h => h = 0

/-- At this control point `butex_wake_except` has handed off `h` waiters. -/
def WakeExceptPc.Counts : WakeExceptPc → ℕ → Prop
  | .pthreads _ _ n, h | .bthreads _ n _, h | .unsleep _ _ n _ _, h | .ready _ _ n _, h
  | .flush n _, h => n = h
  | _, h => h = 0

/-- A waker at this control point has handed off `h` waiters, and so it reports when it has
returned. -/
def Pc.Counts : Pc → ℕ → Prop
  | .done (.wake n), h => n = h
  | .idle, h | .butexWake _ _, h | .butexRequeue _ _ _, h => h = 0
  | .butexWakeAll _ _ q, h => q.Counts h
  | .butexWakeExcept _ _ _ q, h => q.Counts h
  | _, _ => True

/-- `unsleep_if_necessary` hands nobody off. -/
theorem unsleepIfNecessary_handOffs {u : UnsleepPc} :
    Ensures (unsleepIfNecessary w u m) fun a _ => a.handOffs = 0 := by
  fun_cases unsleepIfNecessary w u m <;> simp [Access.handOffs]

/-- The end of `butex_wake` and of `butex_requeue` hands one waiter off when it returns. -/
theorem wakeFront_counts (f : FrontPc) : Ensures (wakeFront w f m) fun a r =>
    (∃ f', r = .inl f' ∧ a.handOffs = 0) ∨ r = .inr 1 ∧ a.handOffs = 1 := by
  cases f with
  | unsleep u =>
    rw [wakeFront, Conc.ensures_inside]
    refine unsleepIfNecessary_handOffs.mono fun a r ha => .inl ?_
    cases r <;> exact ⟨_, rfl, ha⟩
  | dispatch => by_cases h : m.tid w = 0 <;> simp [wakeFront, h, Access.handOffs]
  | exchange => simp [wakeFront, Access.handOffs]

/-- `butex_wake_all` counts what it hands off. -/
theorem butexWakeAll_counts (b : ButexId) (j : Bool) (q : WakeAllPc) (h : ℕ) (hq : q.Counts h) :
    Ensures (butexWakeAll b j q m) fun a r =>
      Pc.Counts (r.elim (Pc.butexWakeAll b j) fun n => .done (.wake n)) (h + a.handOffs) := by
  fun_cases butexWakeAll b j q m
  case case12 next bt n u | case15 next bt w n saved u =>
    rw [Conc.ensures_inside]
    refine unsleepIfNecessary_handOffs.mono fun a r ha => ?_
    rw [ha]
    cases r <;> simp_all [Pc.Counts, WakeAllPc.Counts]
  case case16 => cases j <;> simp_all [Pc.Counts, WakeAllPc.Counts, Access.handOffs]
  case case17 next n saved =>
    by_cases hn : saved = n <;> simp_all [Pc.Counts, WakeAllPc.Counts, Access.handOffs]
  all_goals simp_all [Pc.Counts, WakeAllPc.Counts, Access.handOffs]

/-- `butex_wake_except` counts what it hands off. -/
theorem butexWakeExcept_counts (b : ButexId) (x : Tid) (j : Bool) (q : WakeExceptPc) (h : ℕ)
    (hq : q.Counts h) : Ensures (butexWakeExcept b x j q m) fun a r =>
      Pc.Counts (r.elim (Pc.butexWakeExcept b x j) fun n => .done (.wake n))
        (h + a.handOffs) := by
  fun_cases butexWakeExcept b x j q m
  case case17 bt w n saved u =>
    rw [Conc.ensures_inside]
    refine unsleepIfNecessary_handOffs.mono fun a r ha => ?_
    rw [ha]
    cases r <;> simp_all [Pc.Counts, WakeExceptPc.Counts]
  case case18 => cases j <;> simp_all [Pc.Counts, WakeExceptPc.Counts, Access.handOffs]
  case case19 n saved =>
    by_cases hn : saved = n <;> simp_all [Pc.Counts, WakeExceptPc.Counts, Access.handOffs]
  all_goals simp_all [Pc.Counts, WakeExceptPc.Counts, Access.handOffs]

/-- **Wakers count what they hand off**, over one step. -/
theorem control_counts (h : ℕ) (hp : p.Counts h) :
    Ensures (control c p k m) fun a p' => p'.Counts (h + a.handOffs) := by
  fun_cases control c p k m
  case case1 f =>
    obtain rfl : h = 0 := hp
    fun_cases begin f m <;>
      simp [Pc.Counts, WakeAllPc.Counts, WakeExceptPc.Counts, Access.handOffs]
  case case17 => exact Conc.ensures_none _
  all_goals rw [ensures_within]
  case case4 b q _ =>
    obtain rfl : h = 0 := hp
    fun_cases butexWake b q m
    case case9 w f =>
      rw [Conc.ensures_inside]
      refine (wakeFront_counts f).mono fun a r ha => ?_
      obtain ⟨f', rfl, ha⟩ | ⟨rfl, ha⟩ := ha <;> simp [Pc.Counts, ha]
    all_goals simp [Pc.Counts, Access.handOffs]
  case case5 b j q _ => exact butexWakeAll_counts b j q h hp
  case case6 b x j q _ => exact butexWakeExcept_counts b x j q h hp
  case case7 b d q _ =>
    obtain rfl : h = 0 := hp
    fun_cases butexRequeue b d q m
    case case17 w f =>
      rw [Conc.ensures_inside]
      refine (wakeFront_counts f).mono fun a r ha => ?_
      obtain ⟨f', rfl, ha⟩ | ⟨rfl, ha⟩ := ha <;> simp [Pc.Counts, ha]
    all_goals simp [Pc.Counts, Access.handOffs]
  all_goals
    intro a r _
    cases r <;> trivial

/-- The waiters that call `c` has handed off. -/
def handedOffBy (m : Mem) (c : CallId) : Set CallId := {w | c ∈ m.handedBy w}

/-- What a waker reports, over whole runs. -/
theorem counts (hs : system.ReachableIf ErasesQueued s) (c : CallId) :
    (handedOffBy s.mem c).Finite ∧ (s.pc c).Counts (handedOffBy s.mem c).ncard := by
  refine system_invariant (C := ErasesQueued) (I := fun s => ∀ c,
    (handedOffBy s.mem c).Finite ∧ (s.pc c).Counts (handedOffBy s.mem c).ncard) ?_ ?_ hs c
  · intro m hm c
    have h0 : handedOffBy m c = ∅ := by simp [handedOffBy, hm.handedBy]
    simp [h0, Pc.Counts]
  intro s c k a p hr ih _ hc h d
  have hs := hr.reachable
  by_cases hd : d = c
  · subst hd
    obtain ⟨hfin, hcount⟩ := ih d
    have hpc : (s.after d a p).pc d = p := by simp
    by_cases hh : ∃ w, a.HandsOff w
    · obtain ⟨w, hw⟩ := hh
      have hu := (Owned.held_of_handsOff (locked hs) (known hs) (owned hs) h (untainted hr w) hw).1
      have hnot : w ∉ handedOffBy s.mem d := by
        obtain ⟨h1, -⟩ | ⟨x, h1, -⟩ | ⟨x, -, -, -, h1⟩ := (handed hr w).1
        · simp [handedOffBy, h1]
        · simp [handedOffBy, h1]
        · simp [hu] at h1
      have hset : handedOffBy (a.apply d s.mem) d = insert w (handedOffBy s.mem d) := by
        ext v
        have hv : a.HandsOff v ↔ v = w := by
          cases a <;> first | exact hw.elim | skip
          all_goals
            obtain rfl := hw
            exact eq_comm
        by_cases hvw : v = w
        · subst hvw
          simp [handedOffBy, handedBy_apply, hw]
        · simp [handedOffBy, handedBy_apply, hv, hvw]
      have hone : a.handOffs = 1 := by
        cases a <;> first | exact hw.elim | rfl
      have hstep : p.Counts ((handedOffBy s.mem d).ncard + a.handOffs) :=
        control_counts _ hcount a p hc
      rw [hone] at hstep
      change (handedOffBy (a.apply d s.mem) d).Finite ∧
        ((s.after d a p).pc d).Counts (handedOffBy (a.apply d s.mem) d).ncard
      rw [hpc, hset, Set.ncard_insert_of_notMem hnot hfin]
      exact ⟨hfin.insert w, hstep⟩
    · have hset : handedOffBy (a.apply d s.mem) d = handedOffBy s.mem d := by
        ext v
        have hv : ¬a.HandsOff v := fun hv => hh ⟨v, hv⟩
        simp [handedOffBy, handedBy_apply, hv]
      have hzero : a.handOffs = 0 := by
        cases a <;> first | rfl | exact absurd ⟨_, rfl⟩ hh
      have hstep : p.Counts ((handedOffBy s.mem d).ncard + a.handOffs) :=
        control_counts _ hcount a p hc
      rw [hzero] at hstep
      change (handedOffBy (a.apply d s.mem) d).Finite ∧
        ((s.after d a p).pc d).Counts (handedOffBy (a.apply d s.mem) d).ncard
      rw [hpc, hset]
      exact ⟨hfin, hstep⟩
  · have hset : handedOffBy (a.apply c s.mem) d = handedOffBy s.mem d := by
      ext v
      by_cases hv : a.HandsOff v <;> simp [handedOffBy, handedBy_apply, hv, hd]
    have hpc : (s.after c a p).pc d = s.pc d := by simp [hd]
    change (handedOffBy (a.apply c s.mem) d).Finite ∧
      ((s.after c a p).pc d).Counts (handedOffBy (a.apply c s.mem) d).ncard
    rw [hpc, hset]
    exact ih d

/-! ## Wakes that are delivered -/

/-- How many threads a call reports as woken. -/
def Pc.reports : Pc → ℕ
  | .done (.wake n) => n
  | _ => 0

/-- Wakes of pthreads are delivered in the run `tr` to `s`: the wait of a pthread whose waiter was
dequeued and signalled returns `0` unless it has found its task interrupted, and returns `ETIMEDOUT`
only if it has removed itself; a waker reports as many threads as it has handed off; and if only
waits of pthreads were woken, by wakers that have returned, and have all returned without an
interruption, the wakers report as many threads as there are waits that have returned `0`. -/
structure Delivered (tr : List (State × (CallId × Move))) (s : State) : Prop where
  success : ∀ w r, Enqueued s.mem w → s.mem.handedBy w ≠ [] → ¬FoundInterrupted tr w →
    s.pc w = .done r → r = .wait .ok
  timedOut : ∀ w, Enqueued s.mem w → s.pc w = .done (.wait .etimedout) → s.mem.removedBy w = [w]
  reported : ∀ c n, s.pc c = .done (.wake n) →
    (handedOffBy s.mem c).Finite ∧ (handedOffBy s.mem c).ncard = n
  total : (∀ w c, c ∈ s.mem.handedBy w → Enqueued s.mem w ∧ ¬FoundInterrupted tr w ∧
      (∃ r, s.pc w = .done r) ∧ ∃ n, s.pc c = .done (.wake n)) →
    ∑ᶠ c, (s.pc c).reports = {w | Enqueued s.mem w ∧ s.pc w = .done (.wait .ok)}.ncard

/-- Only finitely many calls have been made. -/
theorem finite_made {C : State → CallId × Move → Prop} (h₀ : system.init s₀)
    (h : system.Trace C s₀ tr s) : {c | s.pc c ≠ .idle}.Finite := by
  refine h.invariant (I := fun _ s => {c | s.pc c ≠ .idle}.Finite) (.of_init h₀) ?_ ?_
  · have hidle : {c | s₀.pc c ≠ .idle} = ∅ := by simp [h₀.2]
    rw [hidle]
    exact Set.finite_empty
  · rintro tr u ⟨c, k⟩ v hu ih - hn
    obtain ⟨a, p, hc, rfl⟩ := system_next hn
    refine (ih.insert c).subset fun d hd => ?_
    by_cases hdc : d = c
    · exact .inl hdc
    · exact .inr (by simpa [hdc] using hd)

/-- The wakers report as many threads as were handed off. -/
theorem finsum_reports (hfin : {c | s.pc c ≠ .idle}.Finite)
    (hone : ∀ w c d, c ∈ s.mem.handedBy w → d ∈ s.mem.handedBy w → c = d)
    (hcard : ∀ c, (handedOffBy s.mem c).Finite ∧ (handedOffBy s.mem c).ncard = (s.pc c).reports)
    (hmade : ∀ w c, c ∈ s.mem.handedBy w → s.pc c ≠ .idle) :
    ∑ᶠ c, (s.pc c).reports = {w | s.mem.handedBy w ≠ []}.ncard := by
  classical
  have hW : {w | s.mem.handedBy w ≠ []}.Finite := by
    refine (hfin.biUnion fun c _ => (hcard c).1).subset fun w hw => ?_
    obtain ⟨c, l, hc⟩ := List.exists_cons_of_ne_nil hw
    exact Set.mem_biUnion (hmade w c (by simp [hc])) (by simp [handedOffBy, hc])
  -- a waiter is counted by the one call that has handed it off
  have hhead : ∀ w c, c ∈ s.mem.handedBy w ↔
      s.mem.handedBy w ≠ [] ∧ (s.mem.handedBy w).headD 0 = c := by
    intro w c
    constructor
    · intro hc
      obtain ⟨d, l, hd⟩ := List.exists_cons_of_ne_nil (List.ne_nil_of_mem hc)
      refine ⟨List.ne_nil_of_mem hc, ?_⟩
      rw [hd]
      exact hone w d c (by simp [hd]) hc
    · rintro ⟨hne, rfl⟩
      obtain ⟨d, l, hd⟩ := List.exists_cons_of_ne_nil hne
      simp [hd]
  have hsupp : Function.support (fun c => (s.pc c).reports) ⊆ hfin.toFinset := by
    intro c hc
    have hne : s.pc c ≠ .idle := by
      intro hi
      simp [hi, Pc.reports] at hc
    simpa using hne
  rw [finsum_eq_sum_of_support_subset _ hsupp, Set.ncard_eq_toFinset_card _ hW,
    Finset.card_eq_sum_card_fiberwise (f := fun w => (s.mem.handedBy w).headD 0)
      (t := hfin.toFinset)]
  · refine Finset.sum_congr rfl fun c _ => ?_
    rw [← (hcard c).2, ← Set.ncard_coe_finset]
    congr 1
    ext w
    simp [handedOffBy, hhead]
  · intro w hw
    have hne : s.mem.handedBy w ≠ [] := by simpa using hw
    simpa using hmade w _ ((hhead w _).mpr ⟨hne, rfl⟩)

/-- **Wakes of pthreads are delivered** in every run in which `wait_pthread` finds the signal only
after a futex call that has returned `0`.

**Proof sketch.** A wait is over when it has seen its signal or has removed its own waiter; in the
first case the futex call tells `0`, in the second the wait has timed out. A waker counts each
waiter when it hands it off, and a waiter is handed off once. -/
theorem delivered (h₀ : system.init s₀)
    (h : system.Trace (fun s x => FutexAgrees s x ∧ ErasesQueued s x) s₀ tr s) :
    Delivered tr s := by
  have hr : system.ReachableIf ErasesQueued s :=
    (h.reachableIf (.of_init h₀)).mono fun _ _ h => h.2
  have signalled : ∀ w, Enqueued s.mem w → s.mem.handedBy w ≠ [] →
      s.mem.custody w = .signalled := by
    intro w he hh
    obtain ⟨h1, -⟩ | ⟨c, h1, -⟩ | ⟨c, -, -, -, h1⟩ := (handed hr w).1
    · exact absurd h1 hh
    · exact absurd h1 hh
    · obtain ⟨b, hu⟩ | ⟨d, hu⟩ | ⟨d, hu⟩ | hu := (pthreadOk hr w).custody he
      all_goals simp [hu] at h1 ⊢
  have success : ∀ w r, Enqueued s.mem w → s.mem.handedBy w ≠ [] → ¬FoundInterrupted tr w →
      s.pc w = .done r → r = .wait .ok := by
    intro w r he hh hf hp
    obtain ⟨rc, rfl, ht⟩ := (tellsOk h₀ h he).done r hp
    obtain rfl | ⟨-, hf'⟩ := ht.signalled (signalled w he hh)
    · rfl
    · exact absurd hf' hf
  have report : ∀ c n, s.pc c = .done (.wake n) →
      (handedOffBy s.mem c).Finite ∧ (handedOffBy s.mem c).ncard = n := by
    intro c n hp
    obtain ⟨hfin, hcount⟩ := counts hr c
    rw [hp] at hcount
    exact ⟨hfin, Eq.symm hcount⟩
  refine ⟨success, ?_, report, ?_⟩
  · intro w he hp
    obtain ⟨rc, hrc, ht⟩ := (tellsOk h₀ h he).done _ hp
    obtain rfl : .etimedout = rc := by simpa using hrc
    have hu : s.mem.custody w = .held w := by
      obtain hu | hu := (pthreadOk hr w).done he _ hp
      · exact hu
      · obtain h1 | ⟨h1, -⟩ := ht.signalled hu
        · cases h1
        · cases h1
    obtain ⟨-, -, hd, -⟩ | ⟨c, -, h2, hd⟩ | ⟨c, -, -, -, hd⟩ := (handed hr w).1
    · exact absurd hu (hd w)
    · rw [hu] at hd
      cases hd
      exact h2
    · simp [hu] at hd
  · intro hall
    have hsame : {w | Enqueued s.mem w ∧ s.pc w = .done (.wait .ok)} =
        {w | s.mem.handedBy w ≠ []} := by
      ext w
      constructor
      · rintro ⟨he, hp⟩
        obtain ⟨rc, hrc, ht⟩ := (tellsOk h₀ h he).done _ hp
        obtain rfl : .ok = rc := by simpa using hrc
        obtain hu | hu := (pthreadOk hr w).done he _ hp
        · cases ht.removed hu
        · obtain ⟨-, -, -, hn, -⟩ | ⟨c, -, -, hd⟩ | ⟨c, h1, -⟩ := (handed hr w).1
          · exact absurd hu hn
          · simp [hu] at hd
          · simp [h1]
      · intro hh
        obtain ⟨c, l, hc⟩ := List.exists_cons_of_ne_nil hh
        obtain ⟨he, hf, ⟨r, hp⟩, -⟩ := hall w c (by simp [hc])
        exact ⟨he, by rw [hp, success w r he hh hf hp]⟩
    rw [hsame]
    refine finsum_reports (finite_made h₀ h) ?_ ?_ ?_
    · intro w c d hc hd
      obtain ⟨h1, -⟩ | ⟨x, h1, -⟩ | ⟨x, h1, -⟩ := (handed hr w).1
      · simp [h1] at hc
      · simp [h1] at hc
      · simp only [h1, List.mem_singleton] at hc hd
        rw [hc, hd]
    · intro c
      by_cases hn : ∃ n, s.pc c = .done (.wake n)
      · obtain ⟨n, hp⟩ := hn
        rw [hp]
        exact report c n hp
      · have hempty : handedOffBy s.mem c = ∅ := by
          ext w
          refine ⟨fun hw => ?_, fun hw => hw.elim⟩
          obtain ⟨-, -, -, hp⟩ := hall w c hw
          exact absurd hp hn
        have hzero : (s.pc c).reports = 0 := by
          cases hp : s.pc c with
          | done r =>
            cases r with
            | wake n => exact absurd ⟨n, hp⟩ hn
            | _ => rfl
          | _ => rfl
        simp [hempty, hzero]
    · intro w c hc
      obtain ⟨-, -, -, n, hp⟩ := hall w c hc
      simp [hp]

/-- A check that a futex call agrees with `sig` and that `erase_from_butex` is about a waiter that
was queued. -/
def futexAgrees (s : State) (x : CallId × Move) : Bool :=
  erasesQueued s x &&
    match s.pc x.1 with
    | .butexWaitFromPthread _ (.sig _ rc) => !s.mem.sig x.1 || rc = .ok
    | .butexWaitFromPthread _ .sigAgain => !s.mem.sig x.1
    | _ => true

/-- The check is about the condition. -/
theorem futexAgrees_spec {x : CallId × Move} (h : futexAgrees s x = true) :
    FutexAgrees s x ∧ ErasesQueued s x := by
  rw [futexAgrees, Bool.and_eq_true] at h
  refine ⟨⟨fun b timed rc hp hsig => ?_, fun b hp => ?_⟩, erasesQueued_spec h.1⟩
  · simpa [hp, hsig] using h.2
  · simpa [hp] using h.2

/-- A pthread waits and is woken, and its futex call returns `rc`. -/
def waitAndSignal (rc : WaitResult) : List (CallId × Move) :=
  [(1, .call (.butexWaitFromPthread ⟨.user 0, 0, none, false⟩)), (1, .next .go),
   (1, .next (.garbage none)), (1, .next .go), (1, .next .go), (1, .next .go), (1, .next .go),
   (1, .next .go), (1, .next .go), (2, .call (.butexWake (.user 0))), (2, .next .go),
   (2, .next .go), (2, .next .go), (2, .next .go), (2, .next .go), (2, .next .go),
   (1, .next (.futex rc)), (1, .next .go), (1, .next .go)]

/-- The waker reports one thread, and the wait returns `0`. -/
theorem delivered_waitAndSignal : ∃ s₀ tr s, system.init s₀ ∧
    system.Trace (fun s x => FutexAgrees s x ∧ ErasesQueued s x) s₀ tr s ∧
      s.pc 2 = .done (.wake 1) ∧ s.pc 1 = .done (.wait .ok) ∧ Delivered tr s := by
  obtain ⟨s, h, hc, h2, h1⟩ : ∃ s,
      system.exec ⟨.initial, fun _ => .idle⟩ (waitAndSignal .ok) = some s ∧
        system.checked futexAgrees ⟨.initial, fun _ => .idle⟩ (waitAndSignal .ok) = true ∧
          s.pc 2 = .done (.wake 1) ∧ s.pc 1 = .done (.wait .ok) :=
    ⟨_, rfl, rfl, rfl, rfl⟩
  obtain ⟨tr, ht, -⟩ := Conc.Machine.Trace.of_checked futexAgrees
    (fun _ _ => futexAgrees_spec) h hc
  exact ⟨_, tr, s, ⟨Mem.initial_initial, rfl⟩, ht, h2, h1,
    delivered ⟨Mem.initial_initial, rfl⟩ ht⟩

/-- A check that a wait does not look whether its task was interrupted. -/
def notAsked (s : State) (x : CallId × Move) : Bool :=
  match s.pc x.1 with
  | .butexWaitFromPthread _ (.loadInterrupted _) => false
  | _ => true

/-- **Wakes can get lost on the way**: the signal has arrived before the futex call, which returns
`EAGAIN`, and so does the wait. -/
theorem not_delivered : ∃ s₀ tr s, system.init s₀ ∧ system.Trace (fun _ _ => True) s₀ tr s ∧
    s.pc 2 = .done (.wake 1) ∧ ¬Delivered tr s := by
  obtain ⟨s, h, hc, h2, h1, he, ht0, hh⟩ : ∃ s,
      system.exec ⟨.initial, fun _ => .idle⟩ (waitAndSignal .ewouldblock) = some s ∧
        system.checked notAsked ⟨.initial, fun _ => .idle⟩ (waitAndSignal .ewouldblock) = true ∧
          s.pc 2 = .done (.wake 1) ∧ s.pc 1 = .done (.wait .ewouldblock) ∧
            s.mem.enqueues 1 = 1 ∧ s.mem.tid 1 = 0 ∧ s.mem.handedBy 1 = [2] :=
    ⟨_, rfl, rfl, rfl, rfl, rfl, rfl, rfl⟩
  obtain ⟨tr, ht, -, hch⟩ := Conc.Machine.Trace.of_checked (C := fun _ _ => True) notAsked
    (fun _ _ _ => trivial) h hc
  refine ⟨_, tr, s, ⟨Mem.initial_initial, rfl⟩, ht, h2, fun hd => ?_⟩
  have hf : ¬FoundInterrupted tr 1 := by
    rintro ⟨e, he, hw, b, rc, t, hp, -⟩
    simpa [notAsked, hw, hp] using hch e he
  have := hd.success 1 _ ⟨by simp [he], ht0⟩ (by simp [hh]) hf h1
  cases this

end Bthread
