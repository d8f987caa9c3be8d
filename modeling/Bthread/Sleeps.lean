import Bthread.Slots

set_option relaxedAutoImplicit false
set_option autoImplicit false

/-!
# Sleeping bthreads

A `usleep` switches its bthread out and leaves it to `_add_sleep_event`, to the timer and to
interrupters to make it runnable again. Exactly one of them does.

## Main definitions

* `Bthread.Sleeps` — who knows the timer of a sleep.
* `Bthread.SleepOver` — the timer of a sleep is gone, and so is whoever made it go.

## Main results

* `Bthread.sleeps` — this holds in reachable states.
* `Bthread.sleep_pushed_once` — a sleeping bthread is pushed once.
-/

namespace Bthread

open Function (update update_self update_of_ne)
open Conc (Ensures)

variable {s : State} {c d e : CallId} {m : Mem} {sh : CallId → Shape} {a : Access} {y : Shape}

/-! ## Which accesses lead where -/

/-- A step within a function that leads to a control point of it. -/
theorem within_eq {P R : Type} {k : P → Pc} {f : R → Result} {r : Res P R} {q : Pc}
    (h : within k f r = some (a, q)) :
    (∃ p, r = some (a, .inl p) ∧ q = k p) ∨ ∃ v, r = some (a, .inr v) ∧ q = .done (f v) := by
  rcases r with _ | ⟨a', p | v⟩
  · simp [within] at h
  · simp only [within, Sum.elim_inl, Option.some.injEq, Prod.mk.injEq] at h
    obtain ⟨rfl, rfl⟩ := h
    exact .inl ⟨p, rfl, rfl⟩
  · simp only [within, Sum.elim_inr, Option.some.injEq, Prod.mk.injEq] at h
    obtain ⟨rfl, rfl⟩ := h
    exact .inr ⟨v, rfl, rfl⟩

/-- `_add_sleep_event` starts with the remained callback and goes on by itself. -/
theorem control_addSleepEvent {p : Pc} {k : Move} {t : Tid} {q : AddSleepPc}
    (h : control c p k m = some (a, .addSleepEvent e t q)) :
    (a = .runRemained e ∧ m.remained e = true ∧ q = .schedule) ∨
      ∃ q₀ o, p = .addSleepEvent e t q₀ ∧ addSleepEvent e t q₀ o m = some (a, .inl q) := by
  cases k with
  | call f =>
    cases p with
    | idle =>
      left
      cases f with
      | runRemained e' =>
        simp only [control, begin, Option.ite_none_right_eq_some, Option.some.injEq,
          Prod.mk.injEq, Pc.addSleepEvent.injEq] at h
        obtain ⟨hr, rfl, rfl, -, rfl⟩ := h
        exact ⟨rfl, hr, rfl⟩
      | butexWaitFromPthread a' =>
        cases ht : a'.task <;> simp [control, begin, ht] at h
      | fire i =>
        cases ht : m.timerFn i <;> simp [control, begin, ht] at h
      | _ => simp [control, begin] at h
    | _ => simp [control] at h
  | next o =>
    cases p with
    | addSleepEvent e' t' q₀ =>
      obtain ⟨q', hq, hp⟩ | ⟨v, -, hp⟩ := within_eq h
      · cases hp
        exact .inr ⟨q₀, o, rfl, hq⟩
      · simp at hp
    | idle | done r => simp [control] at h
    | _ =>
      obtain ⟨q', -, hp⟩ | ⟨v, -, hp⟩ := within_eq h
      · simp at hp
      · simp at hp

/-- An interrupter goes on by itself. -/
theorem control_interrupt {p : Pc} {k : Move} {t : Tid} {b : Bool} {i : TimerId}
    (h : control c p k m = some (a, .interrupt t b (.ready i))) :
    p = .interrupt t b (.unschedule i) ∧ a = .unschedule i ∧ m.timerState i = .pending := by
  cases k with
  | call f =>
    cases p with
    | idle =>
      cases f with
      | butexWaitFromPthread a' =>
        cases ht : a'.task <;> simp [control, begin, ht] at h
      | fire i =>
        cases ht : m.timerFn i <;> simp [control, begin, ht] at h
      | _ => simp [control, begin] at h
    | _ => simp [control] at h
  | next o =>
    cases p with
    | interrupt t' b' q₀ =>
      obtain ⟨q', hq, hp⟩ | ⟨v, -, hp⟩ := within_eq h
      · cases hp
        have : Ensures (interrupt t b true q₀ m) fun a r => ∀ i, r = .inl (.ready i) →
            q₀ = .unschedule i ∧ a = .unschedule i ∧ m.timerState i = .pending := by
          fun_cases interrupt t b true q₀ m
          case case16 w p =>
            rw [Conc.ensures_inside]
            intro a x _ i hi
            rcases x with x | x <;> simp at hi
          case case24 sl h => simp [unscheduleResult_eq_zero.mp h]
          all_goals simp
        obtain ⟨rfl, rfl, hp⟩ := this a _ hq i rfl
        exact ⟨rfl, rfl, hp⟩
      · simp at hp
    | idle | done r => simp [control] at h
    | _ =>
      obtain ⟨q', -, hp⟩ | ⟨v, -, hp⟩ := within_eq h
      · simp at hp
      · simp at hp

/-- Only `_add_sleep_event`, timer callbacks and interrupters have to do with sleeps and run
timers. -/
theorem Pc.shape_other (c : CallId) (p : Pc) :
    (∃ e t q, p = .addSleepEvent e t q) ∨ (∃ i q, p = .timer i q) ∨
      (∃ t b q, p = .interrupt t b q) ∨
      (p.shape c).wake = none ∧ (p.shape c).rescue = none ∧ (p.shape c).running = none := by
  let quiet (x : Shape) : Prop := x.wake = none ∧ x.rescue = none ∧ x.running = none
  have unsleep : ∀ (base : Shape) w (u : UnsleepPc), quiet base → quiet (u.shape base w) := by
    intro base w u h
    cases u <;> exact h
  have erase : ∀ (base : Shape) w b (q : ErasePc), quiet base → quiet (q.shape base w b) := by
    intro base w b q h
    cases q <;> exact h
  have except : ∀ (base : Shape) b t (q : WakeExceptPc), quiet base → quiet (q.shape base b t) := by
    intro base b t q h
    cases q with
    | unsleep bt w n saved u => exact unsleep _ _ _ h
    | _ => exact h
  have none : quiet {} := ⟨rfl, rfl, rfl⟩
  cases p with
  | addSleepEvent e t q => exact .inl ⟨e, t, q, rfl⟩
  | timer i q => exact .inr (.inl ⟨i, q, rfl⟩)
  | interrupt t b q => exact .inr (.inr (.inl ⟨t, b, q, rfl⟩))
  | butexWait a q =>
    refine .inr (.inr (.inr ?_))
    cases q with
    | callback q =>
      cases q with
      | unsleep u => exact unsleep _ _ _ none
      | _ => exact none
    | unsleep u => exact unsleep _ _ _ none
    | _ => exact none
  | butexWaitFromPthread a q =>
    refine .inr (.inr (.inr ?_))
    cases q with
    | erase q => exact erase _ _ _ _ none
    | _ => exact none
  | butexWake b q =>
    refine .inr (.inr (.inr ?_))
    cases q with
    | front w q =>
      cases q with
      | unsleep u => exact unsleep _ _ _ none
      | _ => exact none
    | _ => exact none
  | butexWakeAll b _ q =>
    refine .inr (.inr (.inr ?_))
    cases q with
    | unsleepNext next bt n u => exact unsleep _ _ _ none
    | unsleep next bt w n saved u => exact unsleep _ _ _ none
    | _ => exact none
  | butexWakeExcept b t _ q => exact .inr (.inr (.inr (except _ _ _ _ none)))
  | endTask s q =>
    refine .inr (.inr (.inr ?_))
    cases q with
    | wakeExcept q => exact except _ _ _ _ none
    | _ => exact none
  | butexRequeue b d q => exact .inr (.inr (.inr (by cases q <;> exact none)))
  | setStopped t q => exact .inr (.inr (.inr (by cases q <;> exact none)))
  | usleep s q => exact .inr (.inr (.inr (by cases q <;> exact none)))
  | startTask q => exact .inr (.inr (.inr (by cases q <;> exact none)))
  | initGroup q => exact .inr (.inr (.inr (by cases q <;> exact none)))
  | yield s q => exact .inr (.inr (.inr (by cases q <;> exact none)))
  | idle | done r => exact .inr (.inr (.inr none))

/-- Erasing a waiter has nothing to do with sleeps. -/
theorem ErasePc.shape_sleep (base : Shape) (w : CallId) (b : Bool) (q : ErasePc) :
    (q.shape base w b).wake = base.wake ∧ (q.shape base w b).rescue = base.rescue ∧
      (q.shape base w b).running = base.running := by
  cases q <;> exact ⟨rfl, rfl, rfl⟩

/-- Who has to push a sleep: its `_add_sleep_event` or its timer. -/
theorem eq_of_wake {p : Pc} (h : (p.shape c).wake = some e) :
    (∃ t q, p = .addSleepEvent e t q ∧ (q = .schedule ∨ q = .readyFailed ∨ q = .readyRemoved)) ∨
      ∃ i, p = .timer i (.ready e) := by
  obtain ⟨e', t, q, rfl⟩ | ⟨i, q, rfl⟩ | ⟨t, b, q, rfl⟩ | ⟨hn, -⟩ := p.shape_other c
  · left
    cases q <;> simp [Pc.shape, AddSleepPc.shape] at h <;> simp [h]
  · right
    cases q <;> simp [Pc.shape, TimerPc.shape, ErasePc.shape_sleep] at h
    exact ⟨i, by rw [h]⟩
  · cases q <;> simp [Pc.shape, InterruptPc.shape, ErasePc.shape_sleep] at h
  · simp [hn] at h

/-- An interrupter that has to push a sleep. -/
theorem eq_of_rescue {p : Pc} {i : TimerId} (h : (p.shape c).rescue = some i) :
    ∃ t b, p = .interrupt t b (.ready i) := by
  obtain ⟨e', t, q, rfl⟩ | ⟨i, q, rfl⟩ | ⟨t, b, q, rfl⟩ | ⟨-, hn, -⟩ := p.shape_other c
  · cases q <;> simp [Pc.shape, AddSleepPc.shape] at h
  · cases q <;> simp [Pc.shape, TimerPc.shape, ErasePc.shape_sleep] at h
  · cases q <;> simp [Pc.shape, InterruptPc.shape, ErasePc.shape_sleep] at h
    exact ⟨t, b, by rw [h]⟩
  · simp [hn] at h

/-- The call that runs the callback of a timer. -/
theorem eq_of_running {p : Pc} {i : TimerId} (h : (p.shape c).running = some i) :
    ∃ q, p = .timer i q := by
  obtain ⟨e', t, q, rfl⟩ | ⟨j, q, rfl⟩ | ⟨t, b, q, rfl⟩ | ⟨-, -, hn⟩ := p.shape_other c
  · cases q <;> simp [Pc.shape, AddSleepPc.shape] at h
  · refine ⟨q, ?_⟩
    cases q <;> simp [Pc.shape, TimerPc.shape, ErasePc.shape_sleep] at h <;> rw [h]
  · cases q <;> simp [Pc.shape, InterruptPc.shape, ErasePc.shape_sleep] at h
  · simp [hn] at h

/-- Only `_add_sleep_event` makes the timer of a sleep. -/
theorem eq_of_schedule {p q : Pc} {k : Move}
    (h : control c p k m = some (.schedule (.readyToRunFromTimerThread e), q))
    (hw : (p.shape c).wake = some e) : ∃ t, p = .addSleepEvent e t .schedule := by
  obtain ⟨t, q₀, rfl, hq⟩ | ⟨i, rfl⟩ := eq_of_wake hw
  · cases k with
    | call f => simp [control] at h
    | next o =>
      refine ⟨t, ?_⟩
      obtain rfl | rfl | rfl := hq
      · rfl
      · simp [control, within, addSleepEvent, Conc.ret] at h
      · simp [control, within, addSleepEvent, Conc.ret] at h
  · cases k with
    | call f => simp [control] at h
    | next o => simp [control, within, timerCallback, Conc.goto] at h

/-! ## The timers of sleeps -/

/-- The call that runs the `_add_sleep_event` of a sleep is the one that was recorded; a sleep has
one timer, made by that call; whoever has removed a timer is recorded with it. -/
structure Sleeps (s : State) : Prop where
  caller : ∀ d e t q, s.pc d = .addSleepEvent e t q → s.mem.callbackBy e = some d
  early : ∀ d e t q, s.pc d = .addSleepEvent e t q → q = .schedule ∨ q = .readyFailed →
    ∀ i, s.mem.timerFn i ≠ some (.readyToRunFromTimerThread e)
  one : ∀ e i j, s.mem.timerFn i = some (.readyToRunFromTimerThread e) →
    s.mem.timerFn j = some (.readyToRunFromTimerThread e) → i = j
  removed : ∀ d e t, s.pc d = .addSleepEvent e t .readyRemoved →
    ∃ i, s.mem.timerFn i = some (.readyToRunFromTimerThread e) ∧
      s.mem.timerState i = .removed ∧ s.mem.unscheduledBy i = some d
  taken : ∀ d t b i, s.pc d = .interrupt t b (.ready i) →
    s.mem.timerState i = .removed ∧ s.mem.unscheduledBy i = some d

/-- A timer that was removed stays so. -/
theorem Known.timerState_removed (K : Known m sh) (R : Running m sh)
    (h : Shape.Step c m a (sh c) y) {i : TimerId} (hi : m.timerState i = .removed)
    (hf : m.timerFn i ≠ none) :
    (a.apply c m).timerState i = .removed ∧ (a.apply c m).unscheduledBy i = m.unscheduledBy i := by
  cases a with
  | schedule fn =>
    obtain ⟨f, hf⟩ := Option.ne_none_iff_exists'.mp hf
    simpa [Access.apply, (K.timerFn i f hf).2.ne] using hi
  | unschedule j =>
    by_cases hp : m.timerState j = .pending
    · have : i ≠ j := by rintro rfl; simp [hi] at hp
      simpa [Access.apply, hp, this] using hi
    · simpa [Access.apply, hp] using hi
  | fire j =>
    have : i ≠ j := by
      rintro rfl
      simp [h.sleep.1] at hi
    simpa [Access.apply, this] using hi
  | finishTimer j =>
    have : i ≠ j := by
      rintro rfl
      simp [R.state c i h.sleep.1] at hi
    simpa [Access.apply, this] using hi
  | _ => exact ⟨hi, rfl⟩

/-- A timer of a sleep was there before, or is made by the access. -/
theorem timerFn_of_apply {i : TimerId} {f : TimerFn}
    (hi : (a.apply c m).timerFn i = some f) :
    m.timerFn i = some f ∨ a = .schedule f ∧ i = m.nextTimer := by
  cases a with
  | schedule fn =>
    by_cases hn : i = m.nextTimer
    · right
      simp only [Access.apply, hn, update_self, Option.some.injEq] at hi
      exact ⟨by rw [hi], hn⟩
    · exact .inl (by simpa [Access.apply, hn] using hi)
  | _ => exact .inl hi

/-- **The timers of sleeps.** -/
theorem sleeps (hs : system.Reachable s) : Sleeps s := by
  refine system_invariant (C := fun _ _ => True) (I := Sleeps) (fun m hm => ?_) ?_ hs
  · exact ⟨by simp, by simp, by simp [hm.timerFn], by simp, by simp⟩
  intro s c k a p hr I _ hc h
  have hs := hr.reachable
  have K := known hs
  have R := running hs
  -- a new timer of a sleep comes from the call that was recorded
  have new : ∀ e, a = .schedule (.readyToRunFromTimerThread e) →
      s.mem.callbackBy e = some c ∧ ∀ i, s.mem.timerFn i ≠ some (.readyToRunFromTimerThread e) := by
    rintro e rfl
    obtain ⟨-, -, ⟨hf, -⟩ | ⟨e', hf, hw, -⟩⟩ := h.sleep
    · simp at hf
    · obtain rfl : e = e' := by simpa using hf
      obtain ⟨t, hp⟩ := eq_of_schedule hc hw
      exact ⟨I.caller c e t _ hp, I.early c e t _ hp (.inl rfl)⟩
  have callbackBy : ∀ e, s.mem.callbackBy e ≠ none →
      (a.apply c s.mem).callbackBy e = s.mem.callbackBy e := by
    intro e he
    cases a with
    | runRemained e' =>
      have : e ≠ e' := by
        rintro rfl
        exact he (K.remained e h.sleep.1)
      simp [Access.apply, this]
    | _ => rfl
  have early : ∀ d e, s.mem.callbackBy e = some d → d ≠ c →
      (∀ i, s.mem.timerFn i ≠ some (.readyToRunFromTimerThread e)) →
        ∀ i, (a.apply c s.mem).timerFn i ≠ some (.readyToRunFromTimerThread e) := by
    intro d e hd hdc hn i hi
    obtain hi | ⟨ha, -⟩ := timerFn_of_apply hi
    · exact hn i hi
    · have := (new e ha).1
      rw [hd] at this
      exact hdc (Option.some.inj this)
  refine ⟨fun d e t q hd => ?_, fun d e t q hd hq => ?_, fun e i j hi hj => ?_,
    fun d e t hd => ?_, fun d t b i hd => ?_⟩
  · by_cases hdc : d = c
    · subst hdc
      obtain rfl : p = .addSleepEvent e t q := by simpa using hd
      obtain ⟨rfl, -, -⟩ | ⟨q₀, o, hp, -⟩ := control_addSleepEvent hc
      · simp [Access.apply]
      · have := I.caller d e t q₀ hp
        rw [callbackBy e (by simp [this]), this]
    · have := I.caller d e t q (by simpa [hdc] using hd)
      rw [callbackBy e (by simp [this]), this]
  · by_cases hdc : d = c
    · subst hdc
      obtain rfl : p = .addSleepEvent e t q := by simpa using hd
      obtain ⟨rfl, hrm, -⟩ | ⟨q₀, o, hp, hstep⟩ := control_addSleepEvent hc
      · intro i hi
        exact K.sleepCalled i e hi (K.remained e hrm)
      · have : Ensures (addSleepEvent e t q₀ o s.mem) fun a r => ∀ q, r = .inl q →
            q = .schedule ∨ q = .readyFailed → q₀ = .schedule ∧ a = .nop := by
          fun_cases addSleepEvent e t q₀ o s.mem <;> simp
        obtain ⟨rfl, rfl⟩ := this a _ hstep q rfl hq
        exact I.early d e t _ hp (.inl rfl)
    · have hp : s.pc d = .addSleepEvent e t q := by simpa [hdc] using hd
      exact early d e (I.caller d e t q hp) hdc (I.early d e t q hp hq)
  · obtain hi | ⟨ha, hi⟩ := timerFn_of_apply hi
    · obtain hj | ⟨ha, -⟩ := timerFn_of_apply hj
      · exact I.one e i j hi hj
      · exact absurd hi ((new e ha).2 i)
    · obtain hj | ⟨-, hj⟩ := timerFn_of_apply hj
      · exact absurd hj ((new e ha).2 j)
      · rw [hi, hj]
  · by_cases hdc : d = c
    · subst hdc
      obtain rfl : p = .addSleepEvent e t .readyRemoved := by simpa using hd
      obtain ⟨-, -, hq⟩ | ⟨q₀, o, hp, hstep⟩ := control_addSleepEvent hc
      · simp at hq
      · have : Ensures (addSleepEvent e t q₀ o s.mem) fun a r => r = .inl .readyRemoved →
            ∃ i, q₀ = .unschedule i ∧ a = .unschedule i ∧ s.mem.timerState i = .pending := by
          fun_cases addSleepEvent e t q₀ o s.mem <;> simp_all [unscheduleResult_eq_zero]
        obtain ⟨i, rfl, rfl, hpend⟩ := this a _ hstep rfl
        have hf := K.timer d i (.readyToRunFromTimerThread e)
          (by simp [State.shape, hp, Pc.shape, AddSleepPc.shape])
        exact ⟨i, hf, by simp [Access.apply, hpend], by simp [Access.apply, hpend]⟩
    · obtain ⟨i, hf, h1, h2⟩ := I.removed d e t (by simpa [hdc] using hd)
      obtain ⟨h1', h2'⟩ := Known.timerState_removed K R h h1 (by simp [hf])
      exact ⟨i, K.timerFn_mono c a hf, h1', by rw [h2', h2]⟩
  · by_cases hdc : d = c
    · subst hdc
      obtain rfl : p = .interrupt t b (.ready i) := by simpa using hd
      obtain ⟨-, rfl, hpend⟩ := control_interrupt hc
      exact ⟨by simp [Access.apply, hpend], by simp [Access.apply, hpend]⟩
    · have hp : s.pc d = .interrupt t b (.ready i) := by simpa [hdc] using hd
      obtain ⟨h1, h2⟩ := I.taken d t b i hp
      obtain ⟨e, hf⟩ := K.rescue d i (by simp [State.shape, hp, Pc.shape, InterruptPc.shape])
      obtain ⟨h1', h2'⟩ := Known.timerState_removed K R h h1 (by simp [hf])
      exact ⟨h1', by rw [h2', h2]⟩

/-! ## Pushing a sleeping bthread -/

/-- The call `e` is a sleep that was switched out: its `_add_sleep_event` is to run or has been
started. -/
def Mem.Slept (m : Mem) (e : CallId) : Prop := m.remained e = true ∨ m.callbackBy e ≠ none

/-- The custodies of a sleep that was switched out. -/
def Custody.OfSleep : Custody → Prop
  | .remained | .timer _ | .waking _ | .pushed => True
  | _ => False

/-- A sleep that was switched out is in the custody of its callback, its timer or whoever has to
push it, until it is pushed. -/
theorem custody_of_slept (hs : system.Reachable s) (he : s.mem.Slept e) :
    (s.mem.custody e).OfSleep := by
  have main := shape_invariant
    (J := fun m sh => Locked m sh ∧ Known m sh ∧ Owned m sh)
    (I := fun m _ => ∀ e, m.Slept e → (m.custody e).OfSleep)
    (fun s hs => ⟨locked hs, known hs, owned hs⟩)
    (fun m hm e he => by simp [Mem.Slept, hm.remained, hm.callbackBy] at he) ?_ hs
  · exact main e he
  intro m sh c a y ⟨L, K, O⟩ _ ih h e he
  have hold : m.Slept e ∨ e = c ∧ ∃ s, a = .suspendSleep s := by
    cases a with
    | suspendSleep s =>
      by_cases hc : e = c
      · exact .inr ⟨hc, s, rfl⟩
      · exact .inl (by simpa [Mem.Slept, Access.apply, hc] using he)
    | runRemained e' =>
      by_cases hc : e = e'
      · subst hc; exact .inl (.inl h.sleep.1)
      · exact .inl (by simpa [Mem.Slept, Access.apply, hc] using he)
    | _ => exact .inl he
  obtain hold | ⟨rfl, s, rfl⟩ := hold
  · have hu := ih e hold
    by_cases hn : ∃ v, a.entrust c m = some (e, v)
    · obtain ⟨v, hv⟩ := hn
      have hm := (O.handover L K h (K.untainted (O.sleeper e hold)) hv).1
      rw [custody_of_entrust hv]
      generalize m.custody e = u at hm hu
      cases hm <;> simp_all [Custody.OfSleep]
    · rwa [custody_of_not_entrust fun v hv => hn ⟨v, hv⟩]
  · simp [Access.apply, Custody.OfSleep]

/-- The timer entry of sleep `e` is gone, and the operation that made it go has finished: its
`_add_sleep_event` got no timer and has returned, the callback of its timer is completed, or the
call whose `unschedule` removed its timer has returned. -/
inductive SleepOver (s : State) (e : CallId) : Prop
  | failed (d : CallId) (r : Result) (hd : s.mem.callbackBy e = some d) (hr : s.pc d = .done r)
      (hn : ∀ i, s.mem.timerFn i ≠ some (.readyToRunFromTimerThread e))
  | fired (i : TimerId) (hf : s.mem.timerFn i = some (.readyToRunFromTimerThread e))
      (hi : s.mem.timerState i = .finished)
  | removed (i : TimerId) (d : CallId) (r : Result)
      (hf : s.mem.timerFn i = some (.readyToRunFromTimerThread e))
      (hi : s.mem.timerState i = .removed) (hd : s.mem.unscheduledBy i = some d)
      (hr : s.pc d = .done r)

/-- Nobody who could push the sleep is left when it is over. -/
theorem SleepOver.not_claim (hs : system.Reachable s) (ho : SleepOver s e) {u : Custody}
    (hu : u.OfSleep) (hp : u ≠ .pushed) : ¬Claim s.mem s.shape e u := by
  have K := known hs
  have R := running hs
  have S := sleeps hs
  have called : s.mem.callbackBy e ≠ none := by
    obtain ⟨d, r, hd, -⟩ | ⟨i, hf, -⟩ | ⟨i, d, r, hf, -⟩ := ho
    · simp [hd]
    · exact K.sleepCalled i e hf
    · exact K.sleepCalled i e hf
  -- the timer of the sleep is neither pending nor running
  have gone : ∀ i, s.mem.timerFn i = some (.readyToRunFromTimerThread e) →
      s.mem.timerState i = .finished ∨ s.mem.timerState i = .removed ∧
        ∃ d r, s.mem.unscheduledBy i = some d ∧ s.pc d = .done r := by
    intro i hi
    obtain ⟨d, r, -, -, hn⟩ | ⟨j, hf, hj⟩ | ⟨j, d, r, hf, hj, hd, hr⟩ := ho
    · exact absurd hi (hn i)
    · obtain rfl := S.one e i j hi hf
      exact .inl hj
    · obtain rfl := S.one e i j hi hf
      exact .inr ⟨hj, d, r, hd, hr⟩
  intro hc
  cases hc with
  | callback h | switched h | linked h | unlinked h | held h => exact hu.elim
  | remained h => exact called (K.remained e h)
  | @timer i hf hpend =>
    obtain hi | ⟨hi, -⟩ := gone i hf
    · simp [hpend] at hi
    · simp [hpend] at hi
  | @wake d h =>
    obtain ⟨t, q, hd, hq⟩ | ⟨i, hd⟩ := eq_of_wake h
    · have hcall := S.caller d e t q hd
      have early : q = .schedule ∨ q = .readyFailed → False := by
        intro hq
        have hn := S.early d e t q hd hq
        obtain ⟨d', r, hd', hr, -⟩ | ⟨i, hf, -⟩ | ⟨i, d', r, hf, -⟩ := ho
        · obtain rfl : d = d' := by simpa [hcall] using hd'
          simp [hd] at hr
        · exact hn i hf
        · exact hn i hf
      obtain hq | hq | rfl := hq
      · exact early (.inl hq)
      · exact early (.inr hq)
      · obtain ⟨i, hf, hi, hby⟩ := S.removed d e t hd
        obtain hi' | ⟨-, d', r, hby', hr⟩ := gone i hf
        · simp [hi] at hi'
        · obtain rfl : d = d' := by simpa [hby] using hby'
          simp [hd] at hr
    · have hi := R.state d i (by simp [State.shape, hd, Pc.shape, TimerPc.shape])
      have hf := K.timer d i (.readyToRunFromTimerThread e)
        (by simp [State.shape, hd, Pc.shape, TimerPc.shape])
      obtain hi' | ⟨hi', -⟩ := gone i hf
      · simp [hi] at hi'
      · simp [hi] at hi'
  | @rescue d i h hf =>
    obtain ⟨t, b, hd⟩ := eq_of_rescue h
    obtain ⟨hi, hby⟩ := S.taken d t b i hd
    obtain hi' | ⟨-, d', r, hby', hr⟩ := gone i hf
    · simp [hi] at hi'
    · obtain rfl : d = d' := by simpa [hby] using hby'
      simp [hd] at hr

/-- The call `d` is about to push sleep `e`: its `_add_sleep_event` after a failure of `schedule`
or after having removed the timer, its timer callback, or an interrupter that has removed its
timer. -/
def Pushing (s : State) (d e : CallId) : Prop :=
  (s.shape d).wake = some e ∨
    ∃ i, (s.shape d).rescue = some i ∧ s.mem.timerFn i = some (.readyToRunFromTimerThread e)

/-- **A sleeping bthread is rescheduled exactly once**: every push of a sleep by its callback, its
timer or an interrupter is the first one and is of the sleeping bthread; it is pushed at most once;
and once its timer is gone and whoever made it go has finished, it has been pushed.

**Proof sketch.** A sleep that was switched out is in the custody of its callback, of its timer, or
of a call that has to push it, and counts one push when it is in none of these. Each custody comes
with a claim, and when the sleep is over nobody has a claim left. -/
theorem sleep_pushed_once (hs : system.Reachable s) (he : s.mem.Slept e) :
    s.mem.pushes e ≤ 1 ∧
    (∀ d k t p, control d (s.pc d) k s.mem = some (.push t, p) → Pushing s d e →
      s.mem.pushes e = 0 ∧ t = s.mem.tid e ∧ ((Access.push t).apply d s.mem).pushes e = 1) ∧
    (SleepOver s e → s.mem.pushes e = 1) := by
  have L := locked hs
  have K := known hs
  have O := owned hs
  have h0 := O.sleeper e he
  have hw := K.untainted h0
  have hpushes := O.pushes e hw
  refine ⟨by rw [hpushes]; split_ifs <;> omega, fun d k t p hc hd => ?_, fun ho => ?_⟩
  · have h := step_shape hs hc
    have hcall : s.mem.call (getSlot t) = some e ∧ t = s.mem.tid e := by
      have hp := h.push t rfl
      obtain hwk | ⟨i, hrs, hf⟩ := hd
      · have hnone := (L.wf d).wake e hwk
        obtain ⟨-, -, s', ⟨hx, -⟩ | ⟨hx, -⟩ | ⟨hx, -⟩⟩ | ⟨-, -, e', hx, -, ht⟩ |
          ⟨-, -, i, hx, -⟩ := hp
        · simp [hnone.1] at hx
        · simp [hnone.1] at hx
        · simp [hnone.1] at hx
        · obtain rfl : e = e' := by simpa [hwk] using hx
          exact ⟨O.call_of_wake L K hwk ht, ht.elim id (K.copied d e t)⟩
        · simp [hnone.2.1] at hx
      · have hnone := (L.wf d).rescue i hrs
        obtain ⟨-, -, s', ⟨hx, -⟩ | ⟨hx, -⟩ | ⟨hx, -⟩⟩ | ⟨-, -, e', hx, -⟩ |
          ⟨-, -, i', hx, -, ht⟩ := hp
        · simp [hnone.1] at hx
        · simp [hnone.1] at hx
        · simp [hnone.1] at hx
        · simp [hnone.2.1] at hx
        · obtain rfl : i = i' := by simpa [hrs] using hx
          have hu : s.mem.custody e = .waking d := O.sound e _ hw (.rescue hrs hf)
          exact ⟨O.call_of_rescue L K hrs ht hf, (O.rescued d t i e ht hf
            (by simp [hu, Custody.Waits]) (by simp [hu])).symm⟩
    have hent : (Access.push t).entrust d s.mem = some (e, .pushed) := by
      simp [Access.entrust, hcall.1]
    have hne := (O.handover L K h hw hent).1.ne
    rw [pushes_apply, if_pos hent, hpushes, if_neg hne]
    exact ⟨rfl, hcall.2, rfl⟩
  · have hu := custody_of_slept hs he
    rw [hpushes]
    by_cases hp : s.mem.custody e = .pushed
    · rw [if_pos hp]
    · have hcl := O.complete e hw
        (by cases hc : s.mem.custody e <;> simp_all [Custody.OfSleep, Custody.Waits])
        (by intro hh; simp [hh, Custody.OfSleep] at hu)
      exact absurd hcl (ho.not_claim hs hu hp)

/-- A bthread sleeps; an interrupter removes its timer and pushes it. -/
def interruptedSleep : List (CallId × Move) :=
  startAndRun.take 7 ++
  [(2, .call (.usleep 0)), (2, .next .go), (2, .next .go), (3, .call (.runRemained 2)),
   (3, .next .go), (3, .next .go), (3, .next .go), (3, .next .go), (3, .next .go), (3, .next .go),
   (4, .call (.interrupt (makeTid 1 0) true)), (4, .next .go), (4, .next .go), (4, .next .go),
   (4, .next .go), (4, .next .go), (4, .next .go), (4, .next .go), (4, .next .go), (4, .next .go),
   (4, .next .go), (4, .next .go)]

/-- The interrupter has pushed the bthread, once. -/
theorem sleep_pushed_once_interrupted : ∃ s : State,
    (∃ r, s.pc 4 = .done r) ∧ s.mem.unscheduledBy 1 = some 4 ∧ s.mem.pushes 2 = 1 := by
  obtain ⟨s, h, r, hr, hcb, hf, hi, hu⟩ : ∃ s,
      system.exec ⟨.initial, fun _ => .idle⟩ interruptedSleep = some s ∧ ∃ r, s.pc 4 = .done r ∧
        s.mem.callbackBy 2 = some 3 ∧ s.mem.timerFn 1 = some (.readyToRunFromTimerThread 2) ∧
        s.mem.timerState 1 = .removed ∧ s.mem.unscheduledBy 1 = some 4 :=
    ⟨_, rfl, _, rfl, rfl, rfl, rfl, rfl⟩
  have hs : system.Reachable s :=
    Conc.Machine.Reachable.exec (.of_init ⟨Mem.initial_initial, rfl⟩) h
  exact ⟨s, ⟨r, hr⟩, hu,
    (sleep_pushed_once hs (.inr (by simp [hcb]))).2.2 (.removed 1 4 r hf hi hu hr)⟩

end Bthread
