import Bthread.Interruptions
import Bthread.Pthreads
import Bthread.Visibility

set_option relaxedAutoImplicit false
set_option autoImplicit false

/-!
# Reliability of interruptions

`interrupt_and_consume_waiters` takes the waiter of a task and then sets the flag, and a wait of the
task stores its waiter and then looks at the flag, each without the lock of the other.

## Main definitions

* `Bthread.OnQueue` — a waiter is in a queue or on the way into it.
* `Bthread.ConsumesInTime` — a step of an `interrupt` is in time for the wait of the task.
* `Bthread.InterruptsReliably` — a queued waiter of an interrupted task is about to be removed.

## Main results

* `Bthread.interruptsReliably` — this holds in every run whose steps are in time.
-/

namespace Bthread

open Function (update update_self update_of_ne)
open Conc (Ensures)

variable {s : State} {c d w : CallId} {m : Mem} {a : Access} {p p' : Pc} {k : Move} {b : ButexId}
  {x : Tid} {t : SlotId}

/-! ## Waiters on the way into a queue -/

/-- A butex wait of the task of slot `t`. -/
def Pc.WaitsOf (t : SlotId) : Pc → Prop
  | .butexWait y _ => y.slot = t
  | .butexWaitFromPthread y _ => y.task = some t
  | _ => False

/-- A wait that has found its task not interrupted and is putting its waiter into the queue. -/
def Pc.Admitted : Pc → Prop
  | .butexWait _ (.callback .append) | .butexWait _ (.callback .setContainer)
  | .butexWaitFromPthread _ .append | .butexWaitFromPthread _ .setContainer => True
  | _ => False

/-- `butex_wake_except`, excluding `x`, has taken waiter `w` out of the queue and will put it
back. -/
def WakeExceptPc.Keeps (x : Tid) (m : Mem) (w : CallId) : WakeExceptPc → Prop
  | .drain _ _ ex | .reappend _ _ ex | .remove _ _ ex _ => ex = some w
  | .clear _ _ ex v => ex = some w ∨ v = w ∧ m.tid w = x ∧ m.tid w ≠ 0
  | _ => False

/-- A call has taken waiter `w` out of a queue and will put it back. -/
def Pc.Keeps (m : Mem) (w : CallId) (p : Pc) : Prop :=
  ∃ b x q, p.WakesExcept b x q ∧ q.Keeps x m w

/-- Waiter `w` is on the queue: in it, or on the way into it. -/
def OnQueue (s : State) (w : CallId) : Prop :=
  (s.pc w).Admitted ∨ (∃ b, w ∈ s.mem.waiters b) ∨ ∃ d, (s.pc d).Keeps s.mem w

/-- Where a wait appends its waiter it was admitted. -/
theorem Pc.Appends.admitted (h : p.Appends b) : p.Admitted := by
  unfold Pc.Appends at h
  split at h <;> trivial

/-- Where a waiter is appended again it was kept. -/
theorem Pc.Reappends.keeps : p.Reappends b w → p.Keeps m w := by
  rintro ⟨x, bt, pt, h⟩
  exact ⟨b, x, _, h, rfl⟩

/-- A waiter that is kept is in the hands of the call. -/
theorem Pc.Keeps.mem_unl (h : p.Keeps m w) : w ∈ (p.shape c).unl := by
  obtain ⟨b, x, q, hp, hq⟩ := h
  obtain ⟨base, hs⟩ := hp.shape (c := c)
  rw [hs]
  cases q with
  | drain bt pt ex | reappend bt pt ex | remove bt pt ex v =>
    obtain rfl : ex = some w := hq
    exact List.mem_cons_self
  | clear bt pt ex v =>
    obtain rfl | ⟨rfl, -⟩ := hq
    · exact List.mem_cons_of_mem _ List.mem_cons_self
    · exact List.mem_cons_self
  | _ => exact hq.elim

/-- A call that waits has entered a wait. -/
theorem control_waitsOf : Ensures (control c p k m) fun _ p' => p'.WaitsOf t →
    p.WaitsOf t ∨ p = .idle := by
  fun_cases control c p k m
  case case1 f =>
    intro a p' _ _
    exact .inr rfl
  case case17 => exact Conc.ensures_none _
  all_goals
    rw [ensures_within]
    intro a r _ h
    cases r <;> first | exact .inl h | exact h.elim

/-- A wait is admitted when it finds its task not interrupted. -/
theorem control_admitted : Ensures (control c p k m) fun _ p' => p'.Admitted →
    p.Admitted ∨ ∀ t, p'.WaitsOf t → m.interrupted t = false := by
  fun_cases control c p k m
  case case1 f =>
    fun_cases begin f m
    all_goals first
      | exact Conc.ensures_none _
      | rw [Conc.ensures_some]
        exact False.elim
  case case17 => exact Conc.ensures_none _
  all_goals rw [ensures_within]
  case case2 y q o =>
    fun_cases butexWait c y q o m
    case case10 q =>
      rw [Conc.ensures_inside]
      fun_cases waitForButex c y q m
      case case14 u =>
        rw [Conc.ensures_inside]
        intro a r _
        cases r <;> exact False.elim
      all_goals first
        | exact Conc.ensures_none _
        | rw [Conc.ensures_goto]
        | rw [Conc.ensures_ret]
      all_goals first
        | exact False.elim
        | exact fun _ => .inl trivial
        | simp_all [Pc.Admitted, Pc.WaitsOf]
    case case3 => cases hab : y.abstime <;> simp [Pc.Admitted]
    case case13 u =>
      rw [Conc.ensures_inside]
      rintro a (u' | ok) -
      · exact False.elim
      · cases ok <;> exact False.elim
    case case14 =>
      by_cases hn : m.currentWaiter y.slot = none <;> simp [Pc.Admitted, hn]
    all_goals first
      | exact Conc.ensures_none _
      | rw [Conc.ensures_goto]
        exact False.elim
      | rw [Conc.ensures_ret]
        exact False.elim
  case case3 y q o =>
    have hafter : ∀ rc, ¬(Pc.butexWaitFromPthread y (afterWait y.task rc)).Admitted := by
      intro rc
      cases y.task <;> exact id
    fun_cases butexWaitFromPthread c y q o m
    case case4 => cases ht : y.task <;> simp [Pc.Admitted]
    case case31 t ht => by_cases hn : m.currentWaiter t = none <;> simp [Pc.Admitted, hn]
    case case28 e =>
      rw [Conc.ensures_inside]
      rintro a (e' | erased) -
      · exact False.elim
      · cases erased
        · exact False.elim
        · exact fun h => (hafter _ h).elim
    all_goals first
      | exact Conc.ensures_none _
      | rw [Conc.ensures_goto]
      | rw [Conc.ensures_ret]
    all_goals first
      | exact False.elim
      | exact fun _ => .inl trivial
      | exact fun h => (hafter _ h).elim
      | simp_all [Pc.Admitted, Pc.WaitsOf]
  all_goals
    intro a r _ h
    cases r <;> exact h.elim

/-- `butex_wake_except` keeps waiters that it has taken out of its queue. -/
theorem butexWakeExcept_keeps (j : Bool) (q : WakeExceptPc) :
    Ensures (butexWakeExcept b x j q m) fun _ r => ∀ q', r = .inl q' → q'.Keeps x m w →
      q.Keeps x m w ∨ ∃ bt pt ex, q = .remove bt pt ex w := by
  fun_cases butexWakeExcept b x j q m
  case case17 u =>
    rw [Conc.ensures_inside]
    rintro a (u' | v) - q' hq h
    · cases hq
      exact h.elim
    · cases hq
      exact h.elim
  case case5 bt pt ex v =>
    rw [Conc.ensures_goto]
    rintro q' ⟨⟩ (h | ⟨rfl, -⟩)
    · exact .inl h
    · exact .inr ⟨_, _, _, rfl⟩
  case case7 bt pt ex v h0 ht =>
    rw [Conc.ensures_goto]
    rintro q' ⟨⟩ h
    obtain rfl := Option.some.inj h
    exact .inl (.inr ⟨rfl, ht, h0⟩)
  all_goals simp_all [WakeExceptPc.Keeps]

/-- A call keeps waiters that it has taken out of a queue. -/
theorem control_keeps : Ensures (control c p k m) fun _ p' => p'.Keeps m w →
    p.Keeps m w ∨ ∃ b, (p.shape c).sel = some (b, w) := by
  rintro a p' hc ⟨b, x, q', hp', hk⟩
  obtain rfl | ⟨q, j, hp, hst⟩ := control_wakesExcept a p' hc hp'
  · exact hk.elim
  obtain hq | ⟨bt, pt, ex, rfl⟩ := butexWakeExcept_keeps j q a _ hst q' rfl hk
  · exact .inl ⟨b, x, q, hp, hq⟩
  · obtain ⟨base, hs⟩ := hp.shape (c := c)
    exact .inr ⟨b, by rw [hs]; rfl⟩

/-! ## Waiters on the queue in reachable states -/

/-- What a call keeps depends on the identifier of the waiter only. -/
theorem Pc.Keeps.congr {m' : Mem} (h : p.Keeps m' w) (ht : m'.tid w = m.tid w) : p.Keeps m w := by
  obtain ⟨b, x, q, hp, hq⟩ := h
  refine ⟨b, x, q, hp, ?_⟩
  cases q <;> simp_all [WakeExceptPc.Keeps]

/-- A wait is inside its task. -/
theorem Pc.WaitsOf.owner (h : p.WaitsOf t) : (p.shape c).owner = some t := by
  unfold Pc.WaitsOf at h
  split at h
  case h_1 y q =>
    obtain rfl := h
    cases q with
    | callback q =>
      cases q with
      | unsleep u => cases u <;> rfl
      | _ => rfl
    | unsleep u => cases u <;> rfl
    | _ => rfl
  case h_2 y q =>
    cases q with
    | erase e => cases e <;> simp [Pc.shape, PthreadWaitPc.shape, ErasePc.shape, Shape.owner, h]
    | _ => simp [Pc.shape, PthreadWaitPc.shape, Shape.owner, h]
  case h_3 => exact h.elim

/-- A wait that is about to store its `container` was admitted. -/
theorem Pc.WaitsOf.admitted (h : p.WaitsOf t) (hq : (p.shape c).queueing = some b) :
    p.Admitted := by
  unfold Pc.WaitsOf at h
  split at h
  case h_1 y q =>
    cases q with
    | callback q =>
      cases q with
      | setContainer => trivial
      | unsleep u => cases u <;> cases hq
      | _ => cases hq
    | unsleep u => cases u <;> cases hq
    | _ => cases hq
  case h_2 y q =>
    cases q with
    | setContainer => trivial
    | erase e => cases e <;> cases hq
    | _ => cases hq
  case h_3 => exact h.elim

/-- A wait that was admitted has not been switched out, is in its callback, or is queued. -/
theorem Pc.Admitted.shape (h : p.Admitted) : (∃ b, (p.shape c).queueing = some b) ∨
    (p.shape c).fresh = true ∨ ∃ t, (p.shape c).phase = some (t, .callback) := by
  unfold Pc.Admitted at h
  split at h
  · exact .inr (.inr ⟨_, rfl⟩)
  · exact .inl ⟨_, rfl⟩
  · exact .inr (.inl rfl)
  · exact .inl ⟨_, rfl⟩
  · exact h.elim

section Reachable

variable (hs : system.Reachable s) (hu : s.mem.tainted w = false)
include hs hu

/-- Nobody has taken a waiter out of a queue that is on the way into it. -/
theorem Pc.Admitted.custody (h : (s.pc w).Admitted) (d : CallId) :
    s.mem.custody w ≠ .unlinked d := by
  have O := owned hs
  obtain ⟨b, hq⟩ | hf | ⟨t, hp⟩ := h.shape (c := w)
  · simp [O.queueing w b hu hq]
  · simp [(O.fresh w hu hf).1]
  · simp [O.sound w _ hu (.callback hp)]

/-- The custody of a waiter on the queue. -/
theorem OnQueue.custody (h : OnQueue s w) : (s.pc w).Admitted ∨
    (∃ b, s.mem.custody w = .linked b) ∨
      ∃ d, s.mem.custody w = .unlinked d ∧ (s.pc d).Keeps s.mem w := by
  have O := owned hs
  obtain hA | ⟨b, hm⟩ | ⟨d, hk⟩ := h
  · exact .inl hA
  · exact .inr (.inl ⟨b, O.sound w _ hu (.linked hm)⟩)
  · exact .inr (.inr ⟨d, O.sound w _ hu (.unlinked hk.mem_unl), hk⟩)

/-- A call that was not made is on no queue. -/
theorem OnQueue.ne_idle (h : OnQueue s w) : s.pc w ≠ .idle := by
  intro hp
  have hfresh : (s.shape w).fresh = true := by simp [State.shape, hp, Pc.shape]
  have hf : s.mem.custody w = .none := ((owned hs).fresh w hu hfresh).1
  obtain hA | ⟨b, hb⟩ | ⟨d, hd, -⟩ := h.custody hs hu
  · rw [hp] at hA
    exact hA
  · simp [hf] at hb
  · simp [hf] at hd

/-- A waiter in a queue has its `container`. -/
theorem OnQueue.container (hw : (s.pc w).WaitsOf t) (h : OnQueue s w) (hA : ¬(s.pc w).Admitted) :
    s.mem.container w ≠ none := by
  have O := owned hs
  obtain hA' | ⟨b, hb⟩ | ⟨d, hd, -⟩ := h.custody hs hu
  · exact absurd hA' hA
  · obtain hb | hq := O.linked w b hu hb
    · simp [hb]
    · exact absurd (hw.admitted hq) hA
  · obtain ⟨b, -, hb⟩ := O.unlinked w d hu hd
    simp [hb]

/-- A waiter that was taken out of its queue for good is on none. -/
theorem not_onQueue_of_removed (hd : s.mem.custody w = .unlinked d)
    (hk : ∀ m, ¬(s.pc d).Keeps m w) : ¬OnQueue s w := by
  intro h
  obtain hA | ⟨b, hb⟩ | ⟨d', hd', hk'⟩ := h.custody hs hu
  · exact hA.custody hs hu d hd
  · simp [hd] at hb
  · rw [hd] at hd'
    cases hd'
    exact hk _ hk'

end Reachable

/-- **A waiter gets on the queue** only when its wait finds the task not interrupted. -/
theorem OnQueue.before (hs : system.Reachable s) (hc : control c (s.pc c) k s.mem = some (a, p))
    (hu : s.mem.tainted w = false) (h : OnQueue (s.after c a p) w) :
    OnQueue s w ∨ w = c ∧ ∀ t, p.WaitsOf t → s.mem.interrupted t = false := by
  have hstep := step_shape hs hc
  obtain hA | ⟨b, hm⟩ | ⟨d, hk⟩ := h
  · by_cases hwc : w = c
    · subst hwc
      obtain hp | hf := control_admitted _ _ hc (by simpa using hA)
      · exact .inl (.inl hp)
      · exact .inr ⟨rfl, hf⟩
    · exact .inl (.inl (by simpa [hwc] using hA))
  · left
    obtain hm | rfl := mem_waiters_apply hm
    · exact .inr (.inl ⟨b, hm⟩)
    · obtain ⟨rfl, hp⟩ | hp | ⟨b', f, hp⟩ := control_append _ _ hc b w rfl
      · exact .inl hp.admitted
      · exact .inr (.inr ⟨c, hp.keeps⟩)
      · obtain ⟨-, hq | hq⟩ := stuck_of_requeue hs hp
        · cases hq
        · cases hq
  · left
    by_cases hdc : d = c
    · subst hdc
      have hk : p.Keeps (a.apply d s.mem) w := by simpa using hk
      have hb : (s.shape w).built = true :=
        Known.built_of_refers (known hs) hstep (.inr (.inl hk.mem_unl))
      obtain hp | ⟨b, hsel⟩ := control_keeps _ _ hc (hk.congr (hstep.tid_eq hb))
      · exact .inr (.inr ⟨d, hp⟩)
      · have hl := (owned hs).sel d b w hu hsel
        have := (owned hs).complete w hu (by simp [hl, Custody.Waits]) (by simp [hl])
        rw [hl] at this
        cases this with
        | linked hm => exact .inr (.inl ⟨b, hm⟩)
    · have hk : (s.pc d).Keeps (a.apply c s.mem) w := by simpa [hdc] using hk
      have hb : (s.shape w).built = true :=
        (known hs).callBuilt d w (.inr (.inl hk.mem_unl))
      exact .inr (.inr ⟨d, hk.congr (hstep.tid_eq hb)⟩)

/-! ## Interrupters -/

/-- `erase_from_butex` has not taken the waiter out of its queue yet. -/
def ErasePc.Looks : ErasePc → Prop
  | .load | .lock _ | .recheck _ | .unlockRetry _ | .remove _ => True
  | _ => False

/-- The waiter that an `interrupt` has taken, while it has set the flag and has not yet tried to
take the waiter out of its queue. -/
def InterruptPc.Aims (w : CallId) : InterruptPc → Prop
  | .unlock v _ | .check v _ => v = some w
  | .erase v e => v = w ∧ e.Looks
  | _ => False

/-- An `interrupt` of the task of slot `t` is going to take waiter `w` out of its queue. -/
def Pc.Aims (w : CallId) (t : SlotId) : Pc → Prop
  | .interrupt tid _ q => getSlot tid = t ∧ q.Aims w
  | _ => False

/-- An `interrupt` goes on until it has tried to take the waiter out. -/
theorem interrupt_aims (tid : Tid) (j : Bool) (q : InterruptPc) :
    Ensures (interrupt tid j true q m) fun a r => q.Aims w →
      (∃ q', r = .inl q' ∧ q'.Aims w) ∨
        (a = .removeFromList w ∧ ∃ b, r = .inl (.erase w (.clear b))) ∨
          q = .erase w .load ∧ m.container w = none := by
  fun_cases interrupt tid j true q m
  case case16 v e =>
    rw [Conc.ensures_inside]
    by_cases hv : v = w
    · subst hv
      fun_cases eraseFromButex v true j .interrupted e m <;>
        simp_all [InterruptPc.Aims, ErasePc.Looks]
    · intro a r _ h
      exact absurd h.1 hv
  all_goals simp_all [InterruptPc.Aims, ErasePc.Looks]

/-- An `interrupt` goes on until it has tried to take the waiter out. -/
theorem control_aims : Ensures (control c p k m) fun a p' => p.Aims w t →
    p'.Aims w t ∨ (a = .removeFromList w ∧ ∀ m, ¬p'.Keeps m w) ∨
      ∃ tid j, p = .interrupt tid j (.erase w .load) ∧ m.container w = none := by
  fun_cases control c p k m
  case case1 f =>
    intro a p' _ h
    exact h.elim
  case case17 => exact Conc.ensures_none _
  all_goals rw [ensures_within]
  case case8 tid j q _ =>
    refine (interrupt_aims (w := w) tid j q).mono fun a r h => ?_
    rintro ⟨ht, hq⟩
    obtain ⟨q', rfl, hq'⟩ | ⟨ha, b, rfl⟩ | ⟨rfl, hn⟩ := h hq
    · exact .inl ⟨ht, hq'⟩
    · refine .inr (.inl ⟨ha, fun m hk => ?_⟩)
      obtain ⟨b, x, q, hp, -⟩ := hk
      exact hp
    · exact .inr (.inr ⟨tid, j, rfl, hn⟩)
  all_goals
    intro a r _ h
    exact h.elim

/-- The waiter that an `interrupt` has taken, while it has set the flag and has not put the waiter
back. -/
def InterruptPc.Has (w : CallId) : InterruptPc → Prop
  | .unlock v _ | .check v _ => v = some w
  | .erase v _ | .lockAgain v | .versionAgain v | .setWaiter v => v = w
  | _ => False

/-- An `interrupt` of the task of slot `t` has taken waiter `w` and set the flag, and has not
returned. -/
def Pc.Interrupts (w : CallId) (t : SlotId) : Pc → Prop
  | .interrupt tid _ q => getSlot tid = t ∧ q.Has w
  | _ => False

/-- Who is going to take a waiter out of its queue has not returned. -/
theorem Pc.Aims.interrupts (h : p.Aims w t) : p.Interrupts w t := by
  unfold Pc.Aims at h
  split at h
  case h_1 tid j q =>
    refine ⟨h.1, ?_⟩
    have hq := h.2
    cases q with
    | unlock v sl | check v sl => exact hq
    | erase v e => exact hq.1
    | _ => exact hq.elim
  case h_2 => exact h.elim

/-! ## Runs -/

/-- A step of an `interrupt` is in time for the wait of the task: it does not set the flag without
having the waiter while the waiter is on the queue, and it does not look for the queue of a waiter
that is just being queued. -/
structure ConsumesInTime (s : State) (x : CallId × Move) : Prop where
  waiter : ∀ tid j v sl w, s.pc x.1 = .interrupt tid j (.setInterrupted v sl) →
    s.mem.interrupted (getSlot tid) = false → s.mem.call (getSlot tid) = some w → OnQueue s w →
      v = some w
  container : ∀ tid j w, s.pc x.1 = .interrupt tid j (.erase w .load) → (s.pc w).Admitted →
    s.mem.container w ≠ none

/-- A waiter is in a queue while its task is interrupted only if an `interrupt` that has taken it
and set the flag has not returned. -/
def InterruptsReliably (s : State) : Prop :=
  ∀ w t b, (s.pc w).WaitsOf t → w ∈ s.mem.waiters b → s.mem.interrupted t = true →
    ∃ d, (s.pc d).Interrupts w t

/-- A waiter on the queue of an interrupted task is going to be taken out. -/
theorem aimed (hs : system.ReachableIf (fun s x => ErasesQueued s x ∧ ConsumesInTime s x) s)
    (hw : (s.pc w).WaitsOf t) (he : OnQueue s w) (hi : s.mem.interrupted t = true) :
    ∃ d, (s.pc d).Aims w t := by
  refine system_invariant (C := fun s x => ErasesQueued s x ∧ ConsumesInTime s x)
    (I := fun s => ∀ w t, (s.pc w).WaitsOf t → OnQueue s w → s.mem.interrupted t = true →
      ∃ d, (s.pc d).Aims w t) (fun m hm w t h => h.elim) ?_ hs w t hw he hi
  intro s c k a p hr ih hC hc h w t hw he hi
  have hs := hr.reachable
  have hs' := reachable_after hs hc
  have hr' : system.ReachableIf ErasesQueued s := hr.mono fun _ _ h => h.1
  have hu := untainted hr' w
  have hu' : (s.after c a p).mem.tainted w = false := by
    refine untainted (hr'.step (a := (c, k)) hC.1 ?_) w
    exact Conc.Program.next_eq_some.mpr ⟨_, _, by simp [program, hc], rfl⟩
  have hbefore := he.before hs hc hu
  by_cases hi₀ : s.mem.interrupted t = true
  · obtain he₀ | ⟨rfl, hf⟩ := hbefore
    · have hw₀ : (s.pc w).WaitsOf t := by
        by_cases hwc : w = c
        · subst hwc
          obtain hw | hidle := control_waitsOf _ _ hc (by simpa using hw)
          · exact hw
          · exact absurd hidle (he₀.ne_idle hs hu)
        · simpa [hwc] using hw
      obtain ⟨d, hd⟩ := ih w t hw₀ he₀ hi₀
      by_cases hdc : d = c
      · subst hdc
        obtain hd' | ⟨rfl, hk⟩ | ⟨tid, j, hp, hn⟩ := control_aims _ _ hc hd
        · exact ⟨d, by simpa using hd'⟩
        · have hd : ((Access.removeFromList w).apply d s.mem).custody w = .unlinked d :=
            custody_of_entrust rfl
          exact absurd he (not_onQueue_of_removed hs' hu' hd fun m => by simpa using hk m)
        · by_cases hA : (s.pc w).Admitted
          · exact absurd hn (hC.2.container tid j w hp hA)
          · exact absurd hn (OnQueue.container hs hu hw₀ he₀ hA)
      · exact ⟨d, by simpa [hdc] using hd⟩
    · exact absurd hi₀ (by simp [hf t (by simpa using hw)])
  · -- this step sets the flag
    obtain hk | ⟨v, rfl, hv⟩ | rfl := interrupted_apply (c := c) (a := a) (m := s.mem) (t := t)
    · exact absurd (hk ▸ hi) hi₀
    · obtain rfl : v = true := hv.symm.trans hi
      obtain ⟨-, tid, j, v, sl, hp, rfl⟩ | ⟨hv, -⟩ :=
        (control_origin _ p hc : Origin c (s.pc c) (.setInterrupted t true))
      · obtain rfl : p = .interrupt tid j (.unlock v sl) := by
          rw [hp] at hc
          cases k with
          | call f => simp [control] at hc
          | next o =>
            simp only [control, interrupt, Conc.goto, within, Sum.elim_inl, Option.some.injEq,
              Prod.mk.injEq] at hc
            exact hc.2.symm
        have hwc : w ≠ c := by
          rintro rfl
          simp [Pc.WaitsOf] at hw
        have hw₀ : (s.pc w).WaitsOf (getSlot tid) := by simpa [hwc] using hw
        have hcall := (call_iff hs (getSlot tid) w).mpr hw₀.owner
        have he₀ := hbefore.resolve_right fun h => hwc h.1
        obtain rfl := hC.2.waiter tid j v sl w hp (by simpa using hi₀) hcall he₀
        exact ⟨c, by simp [Pc.Aims, InterruptPc.Aims]⟩
      · simp at hv
    · simp [Access.apply] at hi

/-- **Interruptions are reliable** in every run in which every `interrupt` is in time and
`erase_from_butex` is only about waiters that were queued.

**Proof sketch.** When the flag gets set while a waiter is on the queue, the `interrupt` that sets
it has the waiter, and it finds the `container` unless somebody else takes the waiter out. -/
theorem interruptsReliably
    (hs : system.ReachableIf (fun s x => ErasesQueued s x ∧ ConsumesInTime s x) s) :
    InterruptsReliably s := by
  intro w t b hw hm hi
  obtain ⟨d, hd⟩ := aimed hs hw (.inr (.inl ⟨b, hm⟩)) hi
  exact ⟨d, hd.interrupts⟩

/-- A check that an `interrupt` is in time. -/
def consumesInTime (s : State) (x : CallId × Move) : Bool :=
  erasesQueued s x &&
    match s.pc x.1 with
    | .interrupt tid _ (.setInterrupted v _) => v.isSome && s.mem.call (getSlot tid) = v
    | .interrupt _ _ (.erase w .load) => s.mem.container w ≠ none
    | _ => true

/-- The check is about the condition. -/
theorem consumesInTime_spec {v : CallId × Move} (h : consumesInTime s v = true) :
    ErasesQueued s v ∧ ConsumesInTime s v := by
  rw [consumesInTime, Bool.and_eq_true] at h
  refine ⟨erasesQueued_spec h.1, fun tid j v sl w hp _ hcall _ => ?_, fun tid j w hp _ => ?_⟩
  · have := h.2
    simp only [hp, Bool.and_eq_true, decide_eq_true_eq] at this
    exact this.2.symm.trans hcall
  · simpa [hp] using h.2

/-- The waiter of an interrupted pthread is about to be taken out of its queue. -/
theorem interruptsReliably_waitAndInterrupt : ∃ s,
    system.ReachableIf (fun s x => ErasesQueued s x ∧ ConsumesInTime s x) s ∧
      2 ∈ s.mem.waiters (.user 0) ∧ s.mem.interrupted 0 = true ∧ InterruptsReliably s := by
  obtain ⟨s, h, hc, hm, hi⟩ : ∃ s,
      system.exec ⟨.initial, fun _ => .idle⟩
        (startAndRun.take 7 ++ waitAndInterrupt.take 20) = some s ∧
        system.checked consumesInTime ⟨.initial, fun _ => .idle⟩
          (startAndRun.take 7 ++ waitAndInterrupt.take 20) = true ∧
          2 ∈ s.mem.waiters (.user 0) ∧ s.mem.interrupted 0 = true :=
    ⟨_, rfl, rfl, List.mem_cons_self, rfl⟩
  have hs : system.ReachableIf (fun s x => ErasesQueued s x ∧ ConsumesInTime s x) s :=
    .of_checked consumesInTime (fun _ _ => consumesInTime_spec)
      (.of_init ⟨Mem.initial_initial, rfl⟩) h hc
  exact ⟨s, hs, hm, hi, interruptsReliably hs⟩

/-- A call that takes no step stays where it is. -/
theorem pc_exec {s' : State} {as : List (CallId × Move)} (h : system.exec s as = some s')
    (hd : ∀ x ∈ as, x.1 ≠ d) : s'.pc d = s.pc d := by
  induction as generalizing s with
  | nil =>
    obtain rfl : s = s' := by simpa [Conc.Machine.exec] using h
    rfl
  | cons x as ih =>
    obtain ⟨u, hn, h⟩ := Option.bind_eq_some_iff.mp h
    obtain ⟨a, p, hc, rfl⟩ := system_next (c := x.1) (k := x.2) hn
    rw [ih h fun y hy => hd y (List.mem_cons_of_mem x hy)]
    simp [(hd x List.mem_cons_self).symm]

/-- An `interrupt` looks for the waiter of a bthread just before the wait stores it, and sets the
flag when the wait has looked at it and has queued the waiter. -/
def interruptEarly : List (CallId × Move) :=
  startAndRun.take 7 ++ (2, .call (.butexWait ⟨.user 0, 0, 0, false⟩)) ::
    List.replicate 2 (2, .next .go) ++ (3, .call (.interrupt (makeTid 1 0) true)) ::
    List.replicate 6 (3, .next .go) ++ List.replicate 9 (2, .next .go) ++
    List.replicate 3 (3, .next .go)

/-- **Interruptions are missed**: the waiter is in the queue of an interrupted task, and every
`interrupt` has returned. -/
theorem not_interruptsReliably : ∃ s, system.Reachable s ∧ 2 ∈ s.mem.waiters (.user 0) ∧
    s.mem.interrupted 0 = true ∧ (∀ d tid j q, s.pc d ≠ .interrupt tid j q) ∧
      ¬InterruptsReliably s := by
  obtain ⟨s, h, hm, hi, h0, h1, h2, h3⟩ : ∃ s,
      system.exec ⟨.initial, fun _ => .idle⟩ interruptEarly = some s ∧
        2 ∈ s.mem.waiters (.user 0) ∧ s.mem.interrupted 0 = true ∧
          s.pc 0 = .done (.start (makeTid 1 0)) ∧ s.pc 1 = .done .void ∧
            s.pc 2 = .butexWait ⟨.user 0, 0, 0, false⟩ .suspended ∧
              s.pc 3 = .done (.interrupt .ok) :=
    ⟨_, rfl, List.mem_cons_self, rfl, rfl, rfl, rfl, rfl⟩
  have hcalls : ∀ x ∈ interruptEarly, x.1 < 4 := by decide
  have hnone : ∀ d tid j q, s.pc d ≠ .interrupt tid j q := by
    intro d tid j q
    by_cases hd : d < 4
    · interval_cases d
      · simp [h0]
      · simp [h1]
      · simp [h2]
      · simp [h3]
    · have hne : ∀ x ∈ interruptEarly, x.1 ≠ d := by
        rintro x hx rfl
        exact hd (hcalls x hx)
      rw [pc_exec h hne]
      simp
  refine ⟨s, Conc.Machine.Reachable.exec (.of_init ⟨Mem.initial_initial, rfl⟩) h, hm, hi, hnone,
    fun hr => ?_⟩
  obtain ⟨d, hd⟩ := hr 2 0 (.user 0) (by simp [h2, Pc.WaitsOf]) hm hi
  unfold Pc.Interrupts at hd
  split at hd
  case h_1 tid j q hp => exact hnone d tid j q hp
  case h_2 => exact hd

end Bthread
