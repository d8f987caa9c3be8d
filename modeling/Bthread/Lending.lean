import Bthread.Tasks

set_option relaxedAutoImplicit false
set_option autoImplicit false

/-!
# Waiters lent to interrupters

A wait stores its waiter in `current_waiter` and takes it back before it returns; in between,
`interrupt` may take it from there and put it back. So the waiter is either in `current_waiter` or
with one interrupter, whose bthread cannot end.

## Main definitions

* `Bthread.Pc.taken`, `Bthread.Pc.lends` — who has taken a waiter, and who has lent it.
* `Bthread.Lent` — the invariant.

## Main results

* `Bthread.lent` — the invariant holds in reachable states.
-/

namespace Bthread

open Function (update update_self update_of_ne)
open Conc (Ensures)

variable {s : State} {c d w : CallId} {m : Mem} {a : Access} {p p' : Pc} {k : Move} {t : SlotId}

/-! ## Borrowers and lenders -/

/-- The waiter that `interrupt` has taken from `current_waiter` and has not put back. -/
def InterruptPc.taken : InterruptPc → Option CallId
  | .loadSleep w | .clearSleep w _ | .setInterrupted w _ | .unlock w _ | .check w _ => w
  | .erase w _ | .lockAgain w | .versionAgain w | .setWaiter w => some w
  | _ => none

/-- The waiter that a call has taken from `current_waiter` and has not put back, with the identifier
of the task. -/
def Pc.taken : Pc → Option (Tid × CallId)
  | .interrupt tid _ q => q.taken.map (tid, ·)
  | _ => none

/-- `butex_wait` has stored its waiter in `current_waiter` and has not taken it back. -/
def WaitPc.lends : WaitPc → Bool
  | .sched | .callback _ | .suspended | .unsleep _ | .takeBack => true
  | _ => false

/-- `butex_wait_from_pthread` has stored its waiter in `current_waiter`, if it is for a task, and
has not taken it back. -/
def PthreadWaitPc.lends : PthreadWaitPc → Bool
  | .start | .init | .publish | .loadInterrupted _ | .clearAfter _ | .ret _ => false
  | _ => true

/-- The task whose `current_waiter` a wait has stored its waiter in, and has not taken it back. -/
def Pc.lends : Pc → Option SlotId
  | .butexWait y q => if q.lends then some y.slot else none
  | .butexWaitFromPthread y q => if q.lends then y.task else none
  | _ => none

/-- A wait that has lent its waiter is inside a call of its task, which does not end. -/
theorem Pc.lends_phase (h : p.lends = some t) :
    ∃ φ, (p.shape c).phase = some (t, φ) ∧ φ ≠ .wrapping ∧ φ ≠ .ending := by
  cases p with
  | butexWait y q =>
    cases q with
    | callback q =>
      obtain rfl : y.slot = t := by simpa [Pc.lends, WaitPc.lends] using h
      cases q with
      | unsleep u => cases u <;> exact ⟨_, rfl, by decide, by decide⟩
      | _ => exact ⟨_, rfl, by decide, by decide⟩
    | unsleep u =>
      obtain rfl : y.slot = t := by simpa [Pc.lends, WaitPc.lends] using h
      cases u <;> exact ⟨_, rfl, by decide, by decide⟩
    | sched | suspended | takeBack =>
      obtain rfl : y.slot = t := by simpa [Pc.lends, WaitPc.lends] using h
      exact ⟨_, rfl, by decide, by decide⟩
    | _ => simp [Pc.lends, WaitPc.lends] at h
  | butexWaitFromPthread y q =>
    have ht : y.task = some t := by
      simp only [Pc.lends] at h
      split at h
      · exact h
      · cases h
    refine ⟨.pthread, ?_, by decide, by decide⟩
    cases q with
    | erase e => cases e <;> simp [Pc.shape, PthreadWaitPc.shape, ErasePc.shape, ht]
    | _ => simp [Pc.shape, PthreadWaitPc.shape, ht]
  | _ => cases h

/-! ## Accesses -/

/-- What an access of call `c` does to who has taken or lent a waiter. -/
inductive LendStep (c : CallId) (m : Mem) (p : Pc) : Access → Pc → Prop
  /-- Nothing; a wait that does not find its waiter tries again. -/
  | keep {a : Access} {p' : Pc} (ht : p'.taken = p.taken) (hl : p'.lends = p.lends)
      (ha : ∀ t o, a = .setCurrentWaiter t o → o = none ∧ m.currentWaiter t = none) :
      LendStep c m p a p'
  /-- `current_waiter.exchange(NULL)` by `interrupt`. -/
  | take {tid : Tid} {p' : Pc} (hm : (p.shape c).matched = some tid) (h₀ : p.taken = none)
      (hl : p'.lends = p.lends) (ht : p'.taken = (m.currentWaiter (getSlot tid)).map (tid, ·)) :
      LendStep c m p (.setCurrentWaiter (getSlot tid) none) p'
  /-- `set_butex_waiter` puts the waiter back. -/
  | putBack {tid : Tid} {w : CallId} {p' : Pc} (h : p.taken = some (tid, w)) (ht : p'.taken = none)
      (hl : p'.lends = p.lends) : LendStep c m p (.setCurrentWaiter (getSlot tid) (some w)) p'
  /-- `set_butex_waiter` does not find the version. -/
  | lose {tid : Tid} {w : CallId} {p' : Pc} (h : p.taken = some (tid, w))
      (hv : m.value (.version (getSlot tid)) ≠ getVersion tid) : LendStep c m p .nop p'
  /-- A wait stores its waiter. -/
  | publish {t : SlotId} {p' : Pc} (h₀ : p.lends = none) (h₁ : p'.lends = some t)
      (ht : p.taken = none ∧ p'.taken = none) : LendStep c m p (.setCurrentWaiter t (some c)) p'
  /-- A wait takes its waiter back. -/
  | takeBack {t : SlotId} {p' : Pc} (h : p.lends = some t) (h' : p'.lends = none)
      (ht : p.taken = none ∧ p'.taken = none) (hm : m.currentWaiter t ≠ none) :
      LendStep c m p (.setCurrentWaiter t none) p'

/-- The access does not store to `current_waiter`. -/
def Access.KeepsWaiter (a : Access) : Prop := ∀ t o, a ≠ .setCurrentWaiter t o

/-- The access does not store to `current_sleep`, makes no keytable and advances no version. -/
def Access.Plain (a : Access) : Prop :=
  (∀ t i, a ≠ .setCurrentSleep t i) ∧ (∀ t, a ≠ .setKeytable t) ∧ ∀ t, a ≠ .bumpVersion t

/-- Nor does it store to `current_waiter`. -/
def Access.KeepsMeta (a : Access) : Prop := a.KeepsWaiter ∧ a.Plain

/-- An access that does not store to `current_waiter`. -/
theorem LendStep.of_keepsWaiter (h : a.KeepsWaiter) (ht : p'.taken = p.taken)
    (hl : p'.lends = p.lends) : LendStep c m p a p' :=
  .keep ht hl fun t o ha => absurd ha (h t o)

/-- `unsleep_if_necessary` does not touch these fields. -/
theorem unsleepIfNecessary_keepsMeta {u : UnsleepPc} :
    Ensures (unsleepIfNecessary w u m) fun a _ => a.KeepsMeta := by
  fun_cases unsleepIfNecessary w u m <;> simp [Access.KeepsMeta, Access.KeepsWaiter, Access.Plain]

/-- Nor does the end of `butex_wake`. -/
theorem wakeFront_keepsMeta {f : FrontPc} :
    Ensures (wakeFront w f m) fun a _ => a.KeepsMeta := by
  cases f with
  | unsleep u =>
    rw [wakeFront, Conc.ensures_inside]
    exact unsleepIfNecessary_keepsMeta
  | dispatch =>
    by_cases h : m.tid w = 0 <;>
      simp [wakeFront, h, Access.KeepsMeta, Access.KeepsWaiter, Access.Plain]
  | exchange => simp [wakeFront, Access.KeepsMeta, Access.KeepsWaiter, Access.Plain]

/-- `erase_from_butex` does not touch them. -/
theorem eraseFromButex_keepsMeta {wakeup worker : Bool} {st : WaiterState} {e : ErasePc} :
    Ensures (eraseFromButex w wakeup worker st e m) fun a _ => a.KeepsMeta := by
  fun_cases eraseFromButex w wakeup worker st e m <;>
    simp [Access.KeepsMeta, Access.KeepsWaiter, Access.Plain]

/-- `butex_wake_except` does not touch them. -/
theorem butexWakeExcept_keepsMeta {b : ButexId} {x : Tid} {worker : Bool} {q : WakeExceptPc} :
    Ensures (butexWakeExcept b x worker q m) fun a _ => a.KeepsMeta := by
  fun_cases butexWakeExcept b x worker q m
  case case19 n saved =>
    by_cases hn : saved = n <;>
      simp [Access.KeepsMeta, Access.KeepsWaiter, Access.Plain, hn]
  all_goals
    first
    | rw [Conc.ensures_inside]; exact unsleepIfNecessary_keepsMeta
    | cases worker <;> simp [Access.KeepsMeta, Access.KeepsWaiter, Access.Plain]

/-- `butex_wake` does not touch them. -/
theorem butexWake_keepsMeta (b : ButexId) (q : WakePc) :
    Ensures (butexWake b q m) fun a _ => a.KeepsMeta := by
  fun_cases butexWake b q m <;>
    first
    | rw [Conc.ensures_inside]; exact wakeFront_keepsMeta
    | simp [Access.KeepsMeta, Access.KeepsWaiter, Access.Plain]

/-- `butex_wake_all` does not touch them. -/
theorem butexWakeAll_keepsMeta (b : ButexId) (worker : Bool) (q : WakeAllPc) :
    Ensures (butexWakeAll b worker q m) fun a _ => a.KeepsMeta := by
  fun_cases butexWakeAll b worker q m
  case case17 next n saved =>
    by_cases hn : saved = n <;>
      simp [Access.KeepsMeta, Access.KeepsWaiter, Access.Plain, hn]
  all_goals
    first
    | rw [Conc.ensures_inside]; exact unsleepIfNecessary_keepsMeta
    | cases worker <;> simp [Access.KeepsMeta, Access.KeepsWaiter, Access.Plain]

/-- `butex_requeue` does not touch them. -/
theorem butexRequeue_keepsMeta (b d : ButexId) (q : RequeuePc) :
    Ensures (butexRequeue b d q m) fun a _ => a.KeepsMeta := by
  fun_cases butexRequeue b d q m <;>
    first
    | rw [Conc.ensures_inside]; exact wakeFront_keepsMeta
    | simp [Access.KeepsMeta, Access.KeepsWaiter, Access.Plain]

/-- A timer callback does not touch them. -/
theorem timerCallback_keepsMeta (i : TimerId) (q : TimerPc) :
    Ensures (timerCallback i q m) fun a _ => a.KeepsMeta := by
  cases q with
  | erase w e =>
    rw [timerCallback, Conc.ensures_inside]
    exact eraseFromButex_keepsMeta
  | ready e => simp [timerCallback, Access.KeepsMeta, Access.KeepsWaiter, Access.Plain]
  | finish => simp [timerCallback, Access.KeepsMeta, Access.KeepsWaiter, Access.Plain]

/-- Inside `butex_wait`. -/
theorem butexWait_lend (y : WaitArgs) (q : WaitPc) (o : Outcome) :
    Ensures (butexWait c y q o m) fun a r =>
      LendStep c m (.butexWait y q) a (r.elim (.butexWait y) fun v => .done (.wait v)) := by
  fun_cases butexWait c y q o m
  case case3 =>
    cases y.abstime <;>
      simpa using .of_keepsWaiter (by simp [Access.KeepsWaiter]) rfl rfl
  case case8 =>
    rw [Conc.ensures_goto]
    exact .publish rfl rfl ⟨rfl, rfl⟩
  case case10 q =>
    rw [Conc.ensures_inside]
    fun_cases waitForButex c y q m
    case case14 u =>
      rw [Conc.ensures_inside]
      exact unsleepIfNecessary_keepsMeta.mono fun a r h => by
        cases r <;> exact .of_keepsWaiter h.1 rfl rfl
    all_goals first
      | exact Conc.ensures_none _
      | rw [Conc.ensures_goto]; exact .of_keepsWaiter (by simp [Access.KeepsWaiter]) rfl rfl
      | rw [Conc.ensures_ret]; exact .of_keepsWaiter (by simp [Access.KeepsWaiter]) rfl rfl
  case case13 u =>
    rw [Conc.ensures_inside]
    exact unsleepIfNecessary_keepsMeta.mono fun a r h => by
      rcases r with u' | _ | _ <;> exact .of_keepsWaiter h.1 rfl rfl
  case case14 =>
    rw [Conc.ensures_goto]
    by_cases hn : m.currentWaiter y.slot = none
    · rw [if_pos hn]
      exact .keep rfl rfl fun t o ha => by cases ha; exact ⟨rfl, hn⟩
    · rw [if_neg hn]
      exact .takeBack rfl rfl ⟨rfl, rfl⟩ hn
  all_goals first
    | exact Conc.ensures_none _
    | rw [Conc.ensures_goto]; exact .of_keepsWaiter (by simp [Access.KeepsWaiter]) rfl rfl
    | rw [Conc.ensures_ret]; exact .of_keepsWaiter (by simp [Access.KeepsWaiter]) rfl rfl

/-- After `wait_pthread`. -/
theorem lends_afterWait (y : PthreadWaitArgs) (rc : WaitResult) :
    (Pc.butexWaitFromPthread y (afterWait y.task rc)).lends = y.task := by
  cases h : y.task <;> simp [afterWait, Pc.lends, PthreadWaitPc.lends, h]

/-- Inside `butex_wait_from_pthread`. -/
theorem butexWaitFromPthread_lend (y : PthreadWaitArgs) (q : PthreadWaitPc) (o : Outcome) :
    Ensures (butexWaitFromPthread c y q o m) fun a r =>
      LendStep c m (.butexWaitFromPthread y q) a
        (r.elim (.butexWaitFromPthread y) fun v => .done (.wait v)) := by
  fun_cases butexWaitFromPthread c y q o m
  case case4 =>
    rw [Conc.ensures_goto]
    refine .of_keepsWaiter (by simp [Access.KeepsWaiter]) rfl ?_
    cases h : y.task <;> simp [Pc.lends, PthreadWaitPc.lends, h]
  case case6 t ht =>
    rw [Conc.ensures_goto]
    exact .publish rfl ht ⟨rfl, rfl⟩
  case case28 e =>
    rw [Conc.ensures_inside]
    refine eraseFromButex_keepsMeta.mono fun a r h => ?_
    rcases r with e' | _ | _
    · exact .of_keepsWaiter h.1 rfl rfl
    · exact .of_keepsWaiter h.1 rfl rfl
    · exact .of_keepsWaiter h.1 rfl (lends_afterWait y _)
  case case31 t ht =>
    rw [Conc.ensures_goto]
    by_cases hn : m.currentWaiter t = none
    · rw [if_pos hn]
      exact .keep rfl rfl fun t o ha => by cases ha; exact ⟨rfl, hn⟩
    · rw [if_neg hn]
      exact .takeBack ht rfl ⟨rfl, rfl⟩ hn
  all_goals first
    | exact Conc.ensures_none _
    | rw [Conc.ensures_goto]
      exact .of_keepsWaiter (by simp [Access.KeepsWaiter]) rfl rfl
    | rw [Conc.ensures_goto]
      exact .of_keepsWaiter (by simp [Access.KeepsWaiter]) rfl (lends_afterWait y _)
    | rw [Conc.ensures_ret]
      exact .of_keepsWaiter (by simp [Access.KeepsWaiter]) rfl rfl

/-- Inside `TaskGroup::interrupt`. -/
theorem interrupt_lend (tid : Tid) (worker : Bool) (q : InterruptPc) :
    Ensures (interrupt tid worker true q m) fun a r =>
      LendStep c m (.interrupt tid worker q) a
        (r.elim (.interrupt tid worker) fun v => .done (.interrupt v)) := by
  fun_cases interrupt tid worker true q m
  case case7 =>
    rw [Conc.ensures_goto]
    exact .take rfl rfl rfl rfl
  case case16 w e =>
    rw [Conc.ensures_inside]
    refine eraseFromButex_keepsMeta.mono fun a r h => ?_
    cases r <;> exact .of_keepsWaiter h.1 rfl rfl
  case case20 w hv =>
    rw [Conc.ensures_goto]
    exact .lose rfl hv
  case case21 w =>
    rw [Conc.ensures_goto]
    exact .putBack rfl rfl rfl
  all_goals first
    | exact Conc.ensures_none _
    | rw [Conc.ensures_goto]; exact .of_keepsWaiter (by simp [Access.KeepsWaiter]) rfl rfl
    | rw [Conc.ensures_ret]; exact .of_keepsWaiter (by simp [Access.KeepsWaiter]) rfl rfl

/-- **What an access does** to who has taken or lent a waiter. -/
theorem control_lend : Ensures (control c p k m) (LendStep c m p) := by
  fun_cases control c p k m
  case case1 f =>
    fun_cases begin f m
    all_goals first
      | exact Conc.ensures_none _
      | rw [Conc.ensures_some]; exact .of_keepsWaiter (by simp [Access.KeepsWaiter]) rfl rfl
  case case17 => exact Conc.ensures_none _
  all_goals rw [ensures_within]
  case case2 y q o => exact butexWait_lend y q o
  case case3 y q o => exact butexWaitFromPthread_lend y q o
  case case8 tid worker q _ => exact interrupt_lend tid worker q
  -- no other function stores to it
  all_goals
    refine Ensures.mono (Φ := fun a _ => a.KeepsWaiter) ?_ fun a r h => by
      cases r <;> exact .of_keepsWaiter h rfl rfl
  case case4 b q _ => exact (butexWake_keepsMeta b q).mono fun _ _ h => h.1
  case case5 b worker q _ => exact (butexWakeAll_keepsMeta b worker q).mono fun _ _ h => h.1
  case case6 b x worker q _ => exact butexWakeExcept_keepsMeta.mono fun _ _ h => h.1
  case case7 b d q _ => exact (butexRequeue_keepsMeta b d q).mono fun _ _ h => h.1
  case case9 t q _ => fun_cases setStopped t q m <;> simp [Access.KeepsWaiter]
  case case10 t q _ => fun_cases usleep t q m <;> simp [Access.KeepsWaiter]
  case case11 e t q o => fun_cases addSleepEvent e t q o m <;> simp [Access.KeepsWaiter]
  case case12 i q _ => exact (timerCallback_keepsMeta i q).mono fun _ _ h => h.1
  case case13 q o => fun_cases startTask q o m <;> simp [Access.KeepsWaiter]
  case case14 q o => fun_cases initGroup q o m <;> simp [Access.KeepsWaiter]
  case case15 t q _ =>
    fun_cases endTask t q m
    case case8 q =>
      rw [Conc.ensures_inside]
      exact butexWakeExcept_keepsMeta.mono fun _ _ h => h.1
    all_goals simp [Access.KeepsWaiter]
  case case16 t q _ => fun_cases yield t q m <;> simp [Access.KeepsWaiter]

/-- Where accesses are made that are not plain. -/
theorem control_plain : Ensures (control c p k m) fun a _ => a.Plain ∨ p = .idle ∨
    (∃ tid j q, p = .interrupt tid j q) ∨ (∃ t q, p = .usleep t q) ∨
      (∃ e tid q, p = .addSleepEvent e tid q) ∨ ∃ t q, p = .endTask t q := by
  fun_cases control c p k m
  case case1 f => exact fun a r _ => .inr (.inl rfl)
  case case17 => exact Conc.ensures_none _
  all_goals rw [ensures_within]
  case case8 tid j q _ => exact fun a r _ => .inr (.inr (.inl ⟨tid, j, q, rfl⟩))
  case case10 t q _ => exact fun a r _ => .inr (.inr (.inr (.inl ⟨t, q, rfl⟩)))
  case case11 e tid q o => exact fun a r _ => .inr (.inr (.inr (.inr (.inl ⟨e, tid, q, rfl⟩))))
  case case15 t q _ => exact fun a r _ => .inr (.inr (.inr (.inr (.inr ⟨t, q, rfl⟩))))
  all_goals refine Ensures.mono (Φ := fun a _ => a.Plain) ?_ fun a r h => .inl h
  case case2 y q o =>
    fun_cases butexWait c y q o m
    case case10 q =>
      rw [Conc.ensures_inside]
      fun_cases waitForButex c y q m
      case case14 u =>
        rw [Conc.ensures_inside]
        exact unsleepIfNecessary_keepsMeta.mono fun a r h => h.2
      all_goals simp [Access.Plain]
    case case13 u =>
      rw [Conc.ensures_inside]
      exact unsleepIfNecessary_keepsMeta.mono fun a r h => h.2
    all_goals simp [Access.Plain]
  case case3 y q o =>
    fun_cases butexWaitFromPthread c y q o m
    case case28 e =>
      rw [Conc.ensures_inside]
      exact eraseFromButex_keepsMeta.mono fun a r h => h.2
    all_goals simp [Access.Plain]
  case case4 b q _ => exact (butexWake_keepsMeta b q).mono fun a r h => h.2
  case case5 b worker q _ => exact (butexWakeAll_keepsMeta b worker q).mono fun a r h => h.2
  case case6 b x worker q _ => exact butexWakeExcept_keepsMeta.mono fun a r h => h.2
  case case7 b d q _ => exact (butexRequeue_keepsMeta b d q).mono fun a r h => h.2
  case case9 t q _ => fun_cases setStopped t q m <;> simp [Access.Plain]
  case case12 i q _ => exact (timerCallback_keepsMeta i q).mono fun a r h => h.2
  case case13 q o => fun_cases startTask q o m <;> simp [Access.Plain]
  case case14 q o => fun_cases initGroup q o m <;> simp [Access.Plain]
  case case16 t q _ => fun_cases yield t q m <;> simp [Access.Plain]

/-! ## The invariant -/

/-- A waiter is in `current_waiter` or with one interrupter while it is lent. -/
structure Lent (s : State) : Prop where
  current : ∀ t w, s.mem.currentWaiter t = some w → (s.pc w).lends = some t
  taken : ∀ d tid w, (s.pc d).taken = some (tid, w) → (s.pc w).lends = some (getSlot tid) ∧
    s.mem.currentWaiter (getSlot tid) = none ∧
      s.mem.value (.version (getSlot tid)) = getVersion tid
  once : ∀ d e u v, (s.pc d).taken = some u → (s.pc e).taken = some v →
    getSlot u.1 = getSlot v.1 → d = e

/-- A task has lent one waiter. -/
theorem Owned.lends_unique (O : Owned s.mem s.shape) (hc : (s.pc c).lends = some t)
    (hd : (s.pc d).lends = some t) : c = d := by
  obtain ⟨φ, hφ, -⟩ := Pc.lends_phase (c := c) hc
  obtain ⟨ψ, hψ, -⟩ := Pc.lends_phase (c := d) hd
  exact O.unique c d t φ ψ hφ hψ

/-- The version of a task that has lent a waiter does not change. -/
theorem Owned.value_of_lends (O : Owned s.mem s.shape)
    (h : Shape.Step c s.mem a (s.shape c) (p.shape c))
    (hw : (s.pc w).lends = some t) (hw' : ((s.after c a p).pc w).lends = some t) :
    (a.apply c s.mem).value (.version t) = s.mem.value (.version t) := by
  obtain ⟨φ, hφ, hne⟩ := Pc.lends_phase (c := w) hw
  by_cases hwc : w = c
  · subst hwc
    obtain ⟨ψ, hψ, hne'⟩ := Pc.lends_phase (c := w) (by simpa using hw')
    have hph := h.phase
    cases a with
    | bumpVersion t' =>
      obtain ⟨-, hy⟩ := hph
      rw [hψ] at hy
      simp only [Option.some.injEq, Prod.mk.injEq] at hy
      obtain ⟨-, hy⟩ := hy
      split at hy
      · exact absurd hy hne'.1
      · exact absurd hy hne'.2
    | skipVersion t' =>
      obtain ⟨hx, -⟩ := hph
      rw [State.shape, hφ] at hx
      simp only [Option.some.injEq, Prod.mk.injEq] at hx
      exact absurd hx.2 hne.1
    | store n v => simp [Access.apply]
    | _ => rfl
  · exact O.version_keep h hφ fun hd => absurd hd hwc

/-- An access that stores nothing new to `current_waiter`. -/
theorem currentWaiter_apply
    (ha : ∀ t o, a = .setCurrentWaiter t o → o = none ∧ m.currentWaiter t = none) :
    (a.apply c m).currentWaiter = m.currentWaiter := by
  cases a with
  | setCurrentWaiter t o =>
    obtain ⟨rfl, hn⟩ := ha t o rfl
    exact Function.update_eq_self_iff.mpr hn.symm
  | push t => exact rfl
  | _ => rfl

/-- What a call that has not moved has taken and lent. -/
theorem Lent.taken_after (hi : Lent s) (O : Owned s.mem s.shape)
    (h : Shape.Step c s.mem a (s.shape c) (p.shape c)) {tid : Tid}
    (hd : (s.pc d).taken = some (tid, w))
    (hw : ((s.after c a p).pc w).lends = some (getSlot tid))
    (hn : (s.after c a p).mem.currentWaiter (getSlot tid) = none) :
    ((s.after c a p).pc w).lends = some (getSlot tid) ∧
      (s.after c a p).mem.currentWaiter (getSlot tid) = none ∧
        (s.after c a p).mem.value (.version (getSlot tid)) = getVersion tid := by
  obtain ⟨h₁, -, h₃⟩ := hi.taken d tid w hd
  exact ⟨hw, hn, (O.value_of_lends h h₁ hw).trans h₃⟩

/-- What `current_waiter` reads after a store to it. -/
theorem currentWaiter_after {o : Option CallId} (t' : SlotId) :
    (s.after c (.setCurrentWaiter t o) p).mem.currentWaiter t' =
      if t' = t then o else s.mem.currentWaiter t' := by
  simp [Access.apply, update]

/-- A call that changes nothing about its own waiter. -/
theorem lends_after (hl : p.lends = (s.pc c).lends) (d : CallId) :
    ((s.after c a p).pc d).lends = (s.pc d).lends := by
  by_cases hd : d = c
  · subst hd
    simpa using hl
  · simp [hd]

/-- A call that has taken nothing is not among those that have. -/
theorem taken_stays (hp : p.taken = none) {u : Tid × CallId}
    (hd : ((s.after c a p).pc d).taken = some u) : d ≠ c ∧ (s.pc d).taken = some u := by
  by_cases hdc : d = c
  · subst hdc
    simp [hp] at hd
  · exact ⟨hdc, by simpa [hdc] using hd⟩

/-- A call that has taken nothing keeps it that no two have taken from the same task. -/
theorem Lent.once_after (hi : Lent s) (hp : p.taken = none) {e : CallId} {u v : Tid × CallId}
    (hd : ((s.after c a p).pc d).taken = some u) (he : ((s.after c a p).pc e).taken = some v)
    (huv : getSlot u.1 = getSlot v.1) : d = e :=
  hi.once d e u v (taken_stays hp hd).2 (taken_stays hp he).2 huv

/-- An access that moves no waiter. -/
theorem Lent.keep (hi : Lent s) (O : Owned s.mem s.shape)
    (h : Shape.Step c s.mem a (s.shape c) (p.shape c)) (ht : p.taken = (s.pc c).taken)
    (hl : p.lends = (s.pc c).lends)
    (ha : ∀ t o, a = .setCurrentWaiter t o → o = none ∧ s.mem.currentWaiter t = none) :
    Lent (s.after c a p) := by
  have hw : (s.after c a p).mem.currentWaiter = s.mem.currentWaiter := currentWaiter_apply ha
  have taken (d : CallId) : ((s.after c a p).pc d).taken = (s.pc d).taken := by
    by_cases hd : d = c
    · subst hd
      simpa using ht
    · simp [hd]
  refine ⟨fun t w hcw => ?_, fun d tid w hd => ?_, fun d e u v hd he => ?_⟩
  · rw [lends_after hl]
    exact hi.current t w (hw ▸ hcw)
  · rw [taken] at hd
    obtain ⟨h₁, h₂, -⟩ := hi.taken d tid w hd
    exact hi.taken_after O h hd (by rw [lends_after hl, h₁]) (by rw [hw, h₂])
  · rw [taken] at hd he
    exact hi.once d e u v hd he

/-- `interrupt` takes the waiter of a task. -/
theorem Lent.take {tid : Tid} (hi : Lent s) (K : Known s.mem s.shape) (O : Owned s.mem s.shape)
    (h : Shape.Step c s.mem (.setCurrentWaiter (getSlot tid) none) (s.shape c) (p.shape c))
    (hm : ((s.pc c).shape c).matched = some tid) (hl : p.lends = (s.pc c).lends)
    (ht : p.taken = (s.mem.currentWaiter (getSlot tid)).map (tid, ·)) :
    Lent (s.after c (.setCurrentWaiter (getSlot tid) none) p) := by
  refine ⟨fun t w hcw => ?_, fun d tid' w hd => ?_, fun d e u v hd he huv => ?_⟩
  · rw [currentWaiter_after] at hcw
    split at hcw
    · cases hcw
    · rw [lends_after hl]
      exact hi.current t w hcw
  · by_cases hdc : d = c
    · subst hdc
      simp only [update_self, ht, Option.map_eq_some_iff, Prod.mk.injEq] at hd
      obtain ⟨w', hw', rfl, rfl⟩ := hd
      have h₁ := hi.current _ _ hw'
      have h₂ : ((s.after d (.setCurrentWaiter (getSlot tid) none) p).pc w').lends =
          some (getSlot tid) := by rw [lends_after hl, h₁]
      exact ⟨h₂, by rw [currentWaiter_after, if_pos rfl],
        (O.value_of_lends h h₁ h₂).trans (K.matched d tid hm)⟩
    · have hd : (s.pc d).taken = some (tid', w) := by simpa [hdc] using hd
      obtain ⟨h₁, h₂, -⟩ := hi.taken d tid' w hd
      refine hi.taken_after O h hd (by rw [lends_after hl, h₁]) ?_
      rw [currentWaiter_after, h₂, ite_self]
  · have absent {d e : CallId} {u v : Tid × CallId} (hdc : d = c) (hec : e ≠ c)
        (hd : ((s.after c (.setCurrentWaiter (getSlot tid) none) p).pc d).taken = some u)
        (he : ((s.after c (.setCurrentWaiter (getSlot tid) none) p).pc e).taken = some v) :
        getSlot u.1 ≠ getSlot v.1 := by
      subst hdc
      simp only [update_self, ht, Option.map_eq_some_iff] at hd
      obtain ⟨w, hw, rfl⟩ := hd
      have he : (s.pc e).taken = some v := by simpa [hec] using he
      intro huv
      have hn := (hi.taken e v.1 v.2 he).2.1
      rw [← huv, hw] at hn
      cases hn
    by_cases hdc : d = c <;> by_cases hec : e = c
    · rw [hdc, hec]
    · exact absurd huv (absent hdc hec hd he)
    · exact absurd huv.symm (absent hec hdc he hd)
    · exact hi.once d e u v (by simpa [hdc] using hd) (by simpa [hec] using he) huv

/-- `interrupt` puts the waiter of a task back. -/
theorem Lent.putBack {tid : Tid} (hi : Lent s) (O : Owned s.mem s.shape)
    (h : Shape.Step c s.mem (.setCurrentWaiter (getSlot tid) (some w)) (s.shape c) (p.shape c))
    (hc : (s.pc c).taken = some (tid, w)) (ht : p.taken = none) (hl : p.lends = (s.pc c).lends) :
    Lent (s.after c (.setCurrentWaiter (getSlot tid) (some w)) p) := by
  refine ⟨fun t w' hcw => ?_, fun d tid' w' hd => ?_,
    fun d e u v hd he huv => hi.once_after ht hd he huv⟩
  · rw [currentWaiter_after] at hcw
    rw [lends_after hl]
    split at hcw
    next ht =>
      obtain rfl := Option.some.inj hcw
      rw [ht]
      exact (hi.taken c tid w hc).1
    next => exact hi.current t w' hcw
  · obtain ⟨hdc, hd⟩ := taken_stays ht hd
    obtain ⟨h₁, h₂, -⟩ := hi.taken d tid' w' hd
    refine hi.taken_after O h hd (by rw [lends_after hl, h₁]) ?_
    rw [currentWaiter_after, if_neg fun hs => hdc (hi.once d c _ _ hd hc hs), h₂]

/-- A wait stores its waiter. -/
theorem Lent.publish (hi : Lent s) (O : Owned s.mem s.shape)
    (O' : Owned (s.after c (.setCurrentWaiter t (some c)) p).mem
      (s.after c (.setCurrentWaiter t (some c)) p).shape)
    (h : Shape.Step c s.mem (.setCurrentWaiter t (some c)) (s.shape c) (p.shape c))
    (h₀ : (s.pc c).lends = none) (h₁ : p.lends = some t) (ht : p.taken = none) :
    Lent (s.after c (.setCurrentWaiter t (some c)) p) := by
  have hne {w : CallId} {t' : SlotId} (hw : (s.pc w).lends = some t') : w ≠ c := by
    rintro rfl
    simp [h₀] at hw
  have hother {w : CallId} (hw : (s.pc w).lends = some t) : False :=
    hne hw (O'.lends_unique (c := w) (d := c) (by simpa [hne hw] using hw) (by simpa using h₁))
  refine ⟨fun t' w hcw => ?_, fun d tid w hd => ?_,
    fun d e u v hd he huv => hi.once_after ht hd he huv⟩
  · rw [currentWaiter_after] at hcw
    split at hcw
    next ht =>
      obtain rfl := Option.some.inj hcw
      simpa [ht] using h₁
    next =>
      have hw := hi.current t' w hcw
      simpa [hne hw] using hw
  · obtain ⟨hdc, hd⟩ := taken_stays ht hd
    obtain ⟨hw, hn, -⟩ := hi.taken d tid w hd
    refine hi.taken_after O h hd (by simpa [hne hw] using hw) ?_
    rw [currentWaiter_after, if_neg fun hs => hother (hs ▸ hw), hn]

/-- A wait takes its waiter back. -/
theorem Lent.takeBack (hi : Lent s) (O : Owned s.mem s.shape)
    (h : Shape.Step c s.mem (.setCurrentWaiter t none) (s.shape c) (p.shape c))
    (hc : (s.pc c).lends = some t) (ht : p.taken = none) (hm : s.mem.currentWaiter t ≠ none) :
    Lent (s.after c (.setCurrentWaiter t none) p) := by
  have hne {w : CallId} {t' : SlotId} (htt : t' ≠ t) (hw : (s.pc w).lends = some t') : w ≠ c := by
    rintro rfl
    exact htt (Option.some.inj (hw.symm.trans hc))
  refine ⟨fun t' w hcw => ?_, fun d tid w hd => ?_,
    fun d e u v hd he huv => hi.once_after ht hd he huv⟩
  · rw [currentWaiter_after] at hcw
    split at hcw
    next => cases hcw
    next htt =>
      have hw := hi.current t' w hcw
      simpa [hne htt hw] using hw
  · obtain ⟨hdc, hd⟩ := taken_stays ht hd
    obtain ⟨hw, hn, -⟩ := hi.taken d tid w hd
    have htt : getSlot tid ≠ t := fun hs => hm (hs ▸ hn)
    refine hi.taken_after O h hd (by simpa [hne htt hw] using hw) ?_
    rw [currentWaiter_after, if_neg htt, hn]

/-- Every access keeps it that a waiter is in one place.

**Proof sketch.** A task makes one wait at a time, so a wait that stores its waiter finds none of
the task lent, and one that takes it back takes its own. -/
theorem Lent.step (hi : Lent s) (K : Known s.mem s.shape) (O : Owned s.mem s.shape)
    (O' : Owned (s.after c a p).mem (s.after c a p).shape)
    (h : Shape.Step c s.mem a (s.shape c) (p.shape c)) (hl : LendStep c s.mem (s.pc c) a p) :
    Lent (s.after c a p) := by
  cases hl with
  | keep ht hl ha => exact hi.keep O h ht hl ha
  | take hm _ hl ht => exact hi.take K O h hm hl ht
  | putBack hc ht hl => exact hi.putBack O h hc ht hl
  | lose hc hv => exact absurd (hi.taken c _ _ hc).2.2 hv
  | publish h₀ h₁ ht => exact hi.publish O O' h h₀ h₁ ht.2
  | takeBack hc _ ht hm => exact hi.takeBack O h hc ht.2 hm

/-- **A waiter is in one place** while it is lent. -/
theorem lent (hs : system.Reachable s) : Lent s := by
  refine system_invariant (C := fun _ _ => True) (fun m hm => ?_) ?_ hs
  · refine ⟨fun t w hw => ?_, fun d tid w hd => ?_, fun d e u v hd => ?_⟩
    · simp [hm.currentWaiter] at hw
    · cases hd
    · cases hd
  · intro s c k a p hr hi _ hc h
    exact hi.step (known hr) (owned hr) (owned (reachable_after hr hc)) h
      (control_lend _ _ hc)

end Bthread
