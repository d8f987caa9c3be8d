import Bthread.Objects

set_option relaxedAutoImplicit false
set_option autoImplicit false

/-!
# Custody

Whoever has to make a suspended call or a queued waiter go on has a claim to it: the queue it is
linked in, the call that has unlinked or removed it, the timer or the callback of its sleep. Every
access hands at most one call over, from one custody to the next (`Bthread.Access.entrust`), and
claims arise and vanish only that way.

## Main definitions

* `Bthread.Claim` — the claims to a call.
* `Bthread.Access.entrust` — what an access hands over.
* `Bthread.Custody.Moves` — how custody goes on.

## Main results

* `Bthread.custody_apply` — the custodies after an access.
* `Bthread.Shape.Step.claim_of` — where claims come from.
-/

namespace Bthread

open Function (update update_self update_of_ne)

variable {s : State} {c d w : CallId} {m : Mem} {sh : CallId → Shape} {a : Access} {y : Shape}
  {u v : Custody}

/-- A claim to call `w`. -/
inductive Claim (m : Mem) (sh : CallId → Shape) (w : CallId) : Custody → Prop
  | callback {t : SlotId} (h : (sh w).phase = some (t, .callback)) : Claim m sh w .callback
  | switched {t : SlotId} (h : (sh w).phase = some (t, .switched)) : Claim m sh w .callback
  | linked {b : ButexId} (h : w ∈ m.waiters b) : Claim m sh w (.linked b)
  | unlinked {d : CallId} (h : w ∈ (sh d).unl) : Claim m sh w (.unlinked d)
  | held {d : CallId} (h : w ∈ (sh d).hand) : Claim m sh w (.held d)
  | remained (h : m.remained w = true) : Claim m sh w .remained
  | timer {i : TimerId} (hf : m.timerFn i = some (.readyToRunFromTimerThread w))
      (hp : m.timerState i = .pending) : Claim m sh w (.timer i)
  | wake {d : CallId} (h : (sh d).wake = some w) : Claim m sh w (.waking d)
  | rescue {d : CallId} {i : TimerId} (h : (sh d).rescue = some i)
      (hf : m.timerFn i = some (.readyToRunFromTimerThread w)) : Claim m sh w (.waking d)

/-- Somebody still has to make the call go on. -/
def Custody.Waits : Custody → Prop
  | .none | .pushed | .signalled | .lost => False
  | _ => True

/-- The call whose timer `i` is a sleep's. -/
def Mem.sleeper (m : Mem) (i : TimerId) : Option CallId :=
  match m.timerFn i with
  | some (.readyToRunFromTimerThread e) => some e
  | _ => none

/-- The call that an access by call `c` hands over, and its custody after that. -/
def Access.entrust (c : CallId) (m : Mem) : Access → Option (CallId × Custody)
  | .append b w => some (w, .linked b)
  | .removeFromList w => some (w, .unlinked c)
  | .clearContainer w => some (w, .held c)
  | .schedule (.readyToRunFromTimerThread e) => some (e, .timer m.nextTimer)
  | .unschedule i =>
    if m.timerState i = .pending then (m.sleeper i).map (·, .waking c) else none
  | .push t => (m.call (getSlot t)).map (·, .pushed)
  | .handOff w => (m.call (getSlot (m.tid w))).map (·, .pushed)
  | .handOffLost w => some (w, .lost)
  | .wakeupPthread w => some (w, .signalled)
  | .suspendWait _ | .suspendYield _ => some (c, .callback)
  | .suspendSleep _ => some (c, .remained)
  | .runRemained e => some (e, .waking c)
  | .fire i => (m.sleeper i).map (·, .waking c)
  | _ => none

/-- Taking over a timer is taking over the sleep it would end. -/
theorem takeTimer_eq (m : Mem) (i : TimerId) (c : CallId) :
    m.takeTimer i c = match m.sleeper i with
      | some e => update m.custody e (.waking c)
      | none => m.custody := by
  unfold Mem.takeTimer Mem.sleeper
  rcases m.timerFn i with _ | _ | _ <;> rfl

/-- The sleep of a timer. -/
theorem sleeper_eq_some {i : TimerId} {e : CallId} :
    m.sleeper i = some e ↔ m.timerFn i = some (.readyToRunFromTimerThread e) := by
  unfold Mem.sleeper
  rcases m.timerFn i with _ | _ | _ <;> simp

/-- **The custodies after an access.** -/
theorem custody_apply (c : CallId) (a : Access) (m : Mem) :
    (a.apply c m).custody = match a.entrust c m with
      | some (w, u) => update m.custody w u
      | none => m.custody := by
  cases a with
  | schedule fn => cases fn <;> rfl
  | unschedule i =>
    by_cases hp : m.timerState i = .pending
    · cases hs : m.sleeper i <;> simp [Access.apply, Access.entrust, takeTimer_eq, hp, hs]
    · simp [Access.apply, Access.entrust, hp]
  | push t => cases hc : m.call (getSlot t) <;> simp [Access.apply, Access.entrust, Mem.push, hc]
  | handOff w =>
    cases hc : m.call (getSlot (m.tid w)) <;>
      simp [Access.apply, Access.entrust, Mem.push, hc]
  | fire i =>
    cases hs : m.sleeper i <;> simp [Access.apply, Access.entrust, takeTimer_eq, hs]
  | _ => rfl

/-- The custody of the call that was handed over. -/
theorem custody_of_entrust (h : a.entrust c m = some (w, u)) : (a.apply c m).custody w = u := by
  rw [custody_apply, h]
  simp

/-- The custody of the calls that were not handed over. -/
theorem custody_of_not_entrust (h : ∀ u, a.entrust c m ≠ some (w, u)) :
    (a.apply c m).custody w = m.custody w := by
  rw [custody_apply]
  cases he : a.entrust c m with
  | none => rfl
  | some e =>
    obtain ⟨w', u⟩ := e
    have : w ≠ w' := by rintro rfl; exact h u he
    simp [this]

/-! ## Where claims come from -/

/-- A call waits for its callback from the access on that switches it out. -/
theorem Shape.Step.phase_callback {x : Shape} {t : SlotId} (h : Shape.Step c m a x y)
    (hy : y.phase = some (t, .callback)) :
    x.phase = some (t, .callback) ∨ a = .suspendWait t := by
  have hp := h.phase
  cases a with
  | push t' =>
    obtain ⟨-, -, s, ⟨-, -, hy'⟩ | ⟨-, -, hy'⟩ | ⟨-, -, hy'⟩⟩ | ⟨hy', -⟩ | ⟨hy', -⟩ := h.push t' rfl
    all_goals simp_all
  | bumpVersion t' =>
    obtain ⟨-, hy'⟩ := hp
    split_ifs at hy' <;> simp_all
  | _ =>
    simp only [PhaseChange] at hp
    grind

/-- A call waits for the requeueing callback from the access on that switches it out. -/
theorem Shape.Step.phase_switched {x : Shape} {t : SlotId} (h : Shape.Step c m a x y)
    (hy : y.phase = some (t, .switched)) :
    x.phase = some (t, .switched) ∨ a = .suspendYield t := by
  have hp := h.phase
  cases a with
  | push t' =>
    obtain ⟨-, -, s, ⟨-, -, hy'⟩ | ⟨-, -, hy'⟩ | ⟨-, -, hy'⟩⟩ | ⟨hy', -⟩ | ⟨hy', -⟩ := h.push t' rfl
    all_goals simp_all
  | bumpVersion t' =>
    obtain ⟨-, hy'⟩ := hp
    split_ifs at hy' <;> simp_all
  | _ =>
    simp only [PhaseChange] at hp
    grind

/-- Waiters get into queues by `append`. -/
theorem mem_waiters_apply {b : ButexId} (hw : w ∈ (a.apply c m).waiters b) :
    w ∈ m.waiters b ∨ a = .append b w := by
  cases a with
  | append b' w' =>
    by_cases hb : b = b'
    · subst hb
      simp only [Access.apply, update_self, List.mem_append, List.mem_singleton] at hw
      exact hw.imp_right fun h => by rw [h]
    · exact .inl (by simpa [Access.apply, hb] using hw)
  | removeFromList w' => exact .inl (List.mem_of_mem_erase hw)
  | _ => exact .inl hw

/-- Waiters are unlinked by `RemoveFromList`. -/
theorem QueueChange.mem_unl {x : Shape} (h : QueueChange c m x y a) (hw : w ∈ y.unl) :
    w ∈ x.unl ∨ a = .removeFromList w := by
  cases a with
  | nop =>
    obtain ⟨-, -, hu | ⟨w₁, w₂, t, hx, hy, -⟩, -⟩ := h
    · exact .inl (hu.subset hw)
    · simp_all
  | removeFromList w' =>
    obtain ⟨-, -, hu, -⟩ := h
    rw [hu] at hw
    obtain rfl | hw := List.mem_cons.mp hw
    · exact .inr rfl
    · exact .inl hw
  | moveContainer w' b => exact h.elim
  | _ => simp only [QueueChange] at h; grind

/-- Waiters are removed by the access that clears their `container`. -/
theorem QueueChange.mem_hand {x : Shape} (h : QueueChange c m x y a) (hw : w ∈ y.hand) :
    w ∈ x.hand ∨ a = .clearContainer w := by
  cases a with
  | nop => exact .inl (h.2.1.subset hw)
  | clearContainer w' =>
    obtain ⟨-, -, -, hh | ⟨-, -, -, hh⟩⟩ := h
    · obtain rfl | hw := List.mem_cons.mp (hh.subset hw)
      · exact .inr rfl
      · exact .inl hw
    · simp [hh] at hw
  | handOff w' | handOffLost w' | wakeupPthread w' =>
    exact .inl (h.2.2.2.1.symm.subset (List.mem_cons_of_mem _ hw))
  | moveContainer w' b => exact h.elim
  | _ => simp only [QueueChange] at h; grind

/-- Timers become pending when they are made. -/
theorem timerState_apply {i : TimerId} (hi : (a.apply c m).timerState i = .pending) :
    m.timerState i = .pending ∨ i = m.nextTimer ∧ ∃ fn, a = .schedule fn := by
  cases a with
  | schedule fn =>
    by_cases hn : i = m.nextTimer
    · exact .inr ⟨hn, fn, rfl⟩
    · exact .inl (by simpa [Access.apply, hn] using hi)
  | unschedule j =>
    refine .inl ?_
    by_cases hp : m.timerState j = .pending <;> by_cases hij : i = j <;>
      simp_all [Access.apply]
  | fire j | finishTimer j =>
    refine .inl ?_
    by_cases hij : i = j <;> simp_all [Access.apply]
  | _ => exact .inl hi

/-- A call has to push a sleep it has taken over. -/
theorem Shape.Step.wake_of (K : Known m sh) (h : Shape.Step c m a (sh c) y)
    (hw : y.wake = some w) :
    (sh c).wake = some w ∨ a.entrust c m = some (w, .waking c) := by
  have hsl := h.sleep
  cases a with
  | schedule fn =>
    obtain ⟨-, -, ⟨-, -, hy⟩ | ⟨-, -, -, hy⟩⟩ := hsl <;> simp_all
  | unschedule i =>
    obtain ⟨-, ⟨-, hy, -⟩ | ⟨⟨e, hx, -, hy⟩, -⟩ | ⟨-, -, hy, -⟩⟩ := hsl
    · exact .inl (hy ▸ hw)
    · obtain ⟨hp, rfl⟩ : m.timerState i = .pending ∧ e = w := by simpa [hy] using hw
      right
      simp [Access.entrust, hp, sleeper_eq_some.mpr (K.timer c i _ hx)]
    · exact .inl (hy ▸ hw)
  | runRemained e => simp_all [SleepChange, Access.entrust]
  | fire i =>
    obtain ⟨-, -, -, -, -, ⟨-, hy⟩ | ⟨e, hf, hy⟩⟩ := hsl
    · simp [hy] at hw
    · obtain rfl : e = w := by simpa [hy] using hw
      right
      simp [Access.entrust, sleeper_eq_some.mpr hf]
  | push t =>
    obtain ⟨hy, -⟩ | ⟨-, -, e, -, hy, -⟩ | ⟨-, hy, -⟩ := h.push t rfl <;> simp_all
  | _ =>
    simp only [SleepChange] at hsl
    grind

/-- An interrupter has to push a sleep whose timer it has removed. -/
theorem Shape.Step.rescue_of {i : TimerId} (h : Shape.Step c m a (sh c) y)
    (hi : y.rescue = some i) :
    (sh c).rescue = some i ∨ a = .unschedule i ∧ m.timerState i = .pending := by
  have hsl := h.sleep
  cases a with
  | push t =>
    obtain ⟨-, hy, -⟩ | ⟨-, hy, -⟩ | ⟨-, -, j, -, hy, -⟩ := h.push t rfl <;> simp_all
  | unschedule j =>
    obtain ⟨-, ⟨-, -, hy⟩ | ⟨-, hy⟩ | ⟨-, -, -, hy⟩⟩ := hsl <;> grind
  | _ =>
    simp only [SleepChange] at hsl
    grind

/-- **Where claims come from**: a claim after an access was there before, or the access has handed
the call over accordingly. -/
theorem Shape.Step.claim_of (K : Known m sh) (h : Shape.Step c m a (sh c) y)
    (hu : Claim (a.apply c m) (update sh c y) w u) :
    Claim m sh w u ∨ a.entrust c m = some (w, u) := by
  cases hu with
  | @callback t hw =>
    by_cases hc : w = c
    · subst hc
      simp only [update_self] at hw
      obtain hx | rfl := h.phase_callback hw
      · exact .inl (.callback hx)
      · exact .inr rfl
    · exact .inl (.callback (by simpa [hc] using hw))
  | @switched t hw =>
    by_cases hc : w = c
    · subst hc
      simp only [update_self] at hw
      obtain hx | rfl := h.phase_switched hw
      · exact .inl (.switched hx)
      · exact .inr rfl
    · exact .inl (.switched (by simpa [hc] using hw))
  | linked hw =>
    obtain hw | rfl := mem_waiters_apply hw
    · exact .inl (.linked hw)
    · exact .inr rfl
  | @unlinked d hw =>
    by_cases hd : d = c
    · subst hd
      simp only [update_self] at hw
      obtain hx | rfl := QueueChange.mem_unl h.queue hw
      · exact .inl (.unlinked hx)
      · exact .inr rfl
    · exact .inl (.unlinked (by simpa [hd] using hw))
  | @held d hw =>
    by_cases hd : d = c
    · subst hd
      simp only [update_self] at hw
      obtain hx | rfl := QueueChange.mem_hand h.queue hw
      · exact .inl (.held hx)
      · exact .inr rfl
    · exact .inl (.held (by simpa [hd] using hw))
  | remained hr =>
    cases a with
    | suspendSleep t =>
      by_cases hc : w = c
      · subst hc; exact .inr rfl
      · exact .inl (.remained (by simpa [Access.apply, hc] using hr))
    | runRemained e =>
      by_cases he : w = e
      · simp [Access.apply, he] at hr
      · exact .inl (.remained (by simpa [Access.apply, he] using hr))
    | _ => exact .inl (.remained hr)
  | @timer i hf hp =>
    obtain hp | ⟨rfl, fn, rfl⟩ := timerState_apply hp
    · obtain ⟨f, hf'⟩ := Option.ne_none_iff_exists'.mp (K.pending i hp)
      rw [K.timerFn_mono c a hf', Option.some.injEq] at hf
      exact .inl (.timer (hf ▸ hf') hp)
    · simp only [Access.apply, update_self, Option.some.injEq] at hf
      subst hf
      exact .inr rfl
  | @wake d hw =>
    by_cases hd : d = c
    · subst hd
      obtain hx | he := h.wake_of K (by simpa using hw)
      · exact .inl (.wake hx)
      · exact .inr he
    · exact .inl (.wake (by simpa [hd] using hw))
  | @rescue d i hw hf =>
    have old : ∀ e, m.timerFn i = some (.readyToRunFromTimerThread e) → e = w := by
      intro e he
      simpa [K.timerFn_mono c a he] using hf
    by_cases hd : d = c
    · subst hd
      obtain hx | ⟨rfl, hp⟩ := h.rescue_of (by simpa using hw)
      · obtain ⟨e, he⟩ := K.rescue d i hx
        exact .inl (.rescue hx (old e he ▸ he))
      · refine .inr ?_
        have hf' : m.timerFn i = some (.readyToRunFromTimerThread w) := hf
        simp [Access.entrust, hp, sleeper_eq_some.mpr hf']
    · simp only [update_of_ne hd] at hw
      obtain ⟨e, he⟩ := K.rescue d i hw
      exact .inl (.rescue hw (old e he ▸ he))

/-! ## How custody goes on -/

/-- `Moves c u v`: an access by call `c` may turn custody `u` into `v`. -/
inductive Custody.Moves (c : CallId) : Custody → Custody → Prop
  | callback : Moves c .none .callback
  | remained : Moves c .none .remained
  | enqueue {b : ButexId} : Moves c .none (.linked b)
  | append {b : ButexId} : Moves c .callback (.linked b)
  | requeue : Moves c .callback .pushed
  | reappend {b : ButexId} : Moves c (.unlinked c) (.linked b)
  | remove {b : ButexId} : Moves c (.linked b) (.unlinked c)
  | clear : Moves c (.unlinked c) (.held c)
  | handOff : Moves c (.held c) .pushed
  | handOffLost : Moves c (.held c) .lost
  | wakeup : Moves c (.held c) .signalled
  | runRemained : Moves c .remained (.waking c)
  | schedule {i : TimerId} : Moves c (.waking c) (.timer i)
  | takeTimer {i : TimerId} : Moves c (.timer i) (.waking c)
  | wake : Moves c (.waking c) .pushed

end Bthread
