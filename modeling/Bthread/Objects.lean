import Mathlib
import Bthread.Locks

set_option relaxedAutoImplicit false
set_option autoImplicit false

/-!
# Objects and what calls know of them

Every object on a stack that anything refers to is constructed, so that the identifier in it does
not change any more; and what a call has learned of timers, identifiers and versions stays true.

## Main definitions

* `Bthread.Mem.Refers`, `Bthread.Shape.Refers` — references to objects on stacks.
* `Bthread.Known` — what calls and the memory know.

## Main results

* `Bthread.known` — what is known in reachable states.
-/

namespace Bthread

open Function (update update_self update_of_ne)

variable {s : State} {c d w : CallId} {k : Move} {m : Mem} {sh : CallId → Shape} {a : Access}
  {x y : Shape}

/-- The argument of a timer callback. -/
def TimerFn.arg : TimerFn → CallId
  | .eraseFromButexAndWakeup bw => bw
  | .readyToRunFromTimerThread e => e

/-- The memory refers to the object of call `w`. -/
def Mem.Refers (m : Mem) (w : CallId) : Prop :=
  (∃ b, w ∈ m.waiters b) ∨ (∃ t, m.currentWaiter t = some w) ∨
    (∃ i f, m.timerFn i = some f ∧ f.arg = w) ∨ m.remained w = true

/-- A call of shape `x` refers to the object of call `w`. -/
def Shape.Refers (x : Shape) (w : CallId) : Prop :=
  x.target = some w ∨ w ∈ x.unl ∨ w ∈ x.hand ∨ ∃ b, x.sel = some (b, w)

/-! ## References -/

/-- The waiters in the hands of a call come from the memory. -/
theorem QueueChange.refers (h : QueueChange c m x y a)
    (hw : w ∈ y.unl ∨ w ∈ y.hand ∨ ∃ b, y.sel = some (b, w)) : x.Refers w ∨ m.Refers w := by
  have same : y.sel = x.sel ∧ y.unl = x.unl ∧ y.hand = x.hand → x.Refers w := by
    rintro ⟨hs, hu, hh⟩
    rw [hs, hu, hh] at hw
    exact .inr hw
  cases a with
  | nop =>
    obtain ⟨-, hh, hu, hs⟩ := h
    obtain hw | hw | ⟨b, hw⟩ := hw
    · obtain hu | ⟨w₁, w₂, t, hx, hy, -⟩ := hu
      · exact .inl (.inr (.inl (hu.subset hw)))
      · exact .inl (.inr (.inl (by rw [hy] at hw; rw [hx]; simp_all)))
    · exact .inl (.inr (.inr (.inl (hh.subset hw))))
    · obtain hs | ⟨b', w', -, hm, hs⟩ := hs
      · exact .inl (.inr (.inr (.inr ⟨b, hs ▸ hw⟩)))
      · obtain ⟨rfl, rfl⟩ : b' = b ∧ w' = w := by simpa [hs] using hw
        exact .inr (.inl ⟨b', hm⟩)
  | unlockButex b =>
    obtain ⟨-, -, -, -, hs, hu, hh⟩ := h
    rw [hs, hu, hh] at hw
    exact .inl (.inr (.inr (.inl (by simpa using hw))))
  | append b w' =>
    obtain ⟨-, -, hs, hu, hh, -⟩ := h
    rw [hs, hu, hh] at hw
    exact .inl (.inr (.inr (.inl (by simpa using hw))))
  | removeFromList w' =>
    obtain ⟨-, hs, hu, hh, b, hx⟩ := h
    rw [hs, hu, hh] at hw
    obtain hw | hw | ⟨b', hw⟩ := hw
    · obtain rfl | hw := List.mem_cons.mp hw
      · exact .inl (.inr (.inr (.inr ⟨b, hx⟩)))
      · exact .inl (.inr (.inl hw))
    · exact .inl (.inr (.inr (.inl hw)))
    · exact nomatch hw
  | matchContainer w' =>
    obtain ⟨-, -, hu, hh, ht, b, -, -, hs⟩ := h
    rw [hs, hu, hh] at hw
    obtain hw | hw | ⟨b', hw⟩ := hw
    · exact nomatch hw
    · exact .inl (.inr (.inr (.inl hw)))
    · obtain ⟨-, rfl⟩ : b = b' ∧ w' = w := by simpa using hw
      exact .inl (.inl ht)
  | setContainer b => exact .inl (same ⟨h.2.2.2.2.1, h.2.2.2.2.2.1, h.2.2.2.2.2.2⟩)
  | moveContainer w' b => exact h.elim
  | clearContainer w' =>
    obtain ⟨-, hs, hu, hh⟩ := h
    rw [hs] at hw
    have hw' : w' ∈ x.unl := by simp [hu]
    obtain hw | hw | hw := hw
    · exact .inl (.inr (.inl (by simp [hu, hw])))
    · obtain hh | ⟨-, -, -, hh⟩ := hh
      · obtain rfl | hw := List.mem_cons.mp (hh.subset hw)
        · exact .inl (.inr (.inl hw'))
        · exact .inl (.inr (.inr (.inl hw)))
      · rw [hh] at hw; exact nomatch hw
    · exact .inl (.inr (.inr (.inr hw)))
  | handOff w' | handOffLost w' | wakeupPthread w' =>
    obtain ⟨-, hs, hu, hh, -⟩ := h
    rw [hs, hu] at hw
    obtain hw | hw | hw := hw
    · exact .inl (.inr (.inl hw))
    · exact .inl (.inr (.inr (.inl (hh.symm.subset (List.mem_cons_of_mem _ hw)))))
    · exact .inl (.inr (.inr (.inr hw)))
  | _ => exact .inl (same h.2)

/-- A call gets its references from the memory. -/
theorem Shape.Step.refers (h : Shape.Step c m a x y) (hy : y.Refers w) :
    x.Refers w ∨ m.Refers w ∨ w = c ∧ x.built = true := by
  obtain hy | hy := hy
  · obtain hx | hx | hx | ⟨i, hx⟩ | ⟨i, hx⟩ | hx := h.learns.target w hy
    · exact .inl (.inl hx)
    · exact .inr (.inr hx)
    · exact .inr (.inl (.inr (.inl hx)))
    · exact .inr (.inl (.inr (.inr (.inl ⟨i, _, hx, rfl⟩))))
    · exact .inr (.inl (.inr (.inr (.inl ⟨i, _, hx, rfl⟩))))
    · exact .inr (.inl (.inr (.inr (.inr hx))))
  · exact (QueueChange.refers h.queue hy).imp_right .inl

/-- The memory gets its references from the calls. -/
theorem Shape.Step.mem_refers (h : Shape.Step c m a x y) (hx : x.Wf)
    (hw : (a.apply c m).Refers w) : m.Refers w ∨ x.Refers w ∨ w = c ∧ x.built = true := by
  have hq := h.queue
  have hsl := h.sleep
  cases a with
  | append b w' =>
    obtain ⟨b', hw⟩ | hw := hw
    · by_cases hb : b' = b
      · subst hb
        simp only [Access.apply, Function.update_self, List.mem_append, List.mem_singleton] at hw
        obtain hw | rfl := hw
        · exact .inl (.inl ⟨b', hw⟩)
        · obtain ⟨-, -, -, -, -, ⟨rfl, -, hb, -⟩ | ⟨hu, -⟩⟩ := hq
          · exact .inr (.inr ⟨rfl, hb⟩)
          · exact .inr (.inl (.inr (.inl (by simp [hu]))))
      · exact .inl (.inl ⟨b', by simpa [Access.apply, hb] using hw⟩)
    · exact .inl (.inr hw)
  | removeFromList w' =>
    obtain ⟨b', hw⟩ | hw := hw
    · exact .inl (.inl ⟨b', List.mem_of_mem_erase hw⟩)
    · exact .inl (.inr hw)
  | setCurrentWaiter t o =>
    obtain hw | ⟨t', hw⟩ | hw := hw
    · exact .inl (.inl hw)
    · by_cases ht : t' = t
      · subst ht
        simp only [Access.apply, Function.update_self] at hw
        subst hw
        obtain hc | hx := h.ages.publishes t' w rfl
        · exact .inr (.inr hc)
        · exact .inr (.inl (.inl hx))
      · exact .inl (.inr (.inl ⟨t', by simpa [Access.apply, ht] using hw⟩))
    · exact .inl (.inr (.inr hw))
  | schedule fn =>
    obtain hw | hw | ⟨i, f, hw, hf⟩ | hw := hw
    · exact .inl (.inl hw)
    · exact .inl (.inr (.inl hw))
    · by_cases hi : i = m.nextTimer
      · simp only [Access.apply, hi, Function.update_self, Option.some.injEq] at hw
        subst hw
        obtain ⟨-, -, ⟨rfl, hb, -⟩ | ⟨e, rfl, he, -⟩⟩ := hsl
        · exact .inr (.inr ⟨hf.symm, hb.1⟩)
        · subst hf; exact .inr (.inl (.inl (hx.wake _ he).2.2))
      · exact .inl (.inr (.inr (.inl ⟨i, f, by simpa [Access.apply, hi] using hw, hf⟩)))
    · exact .inl (.inr (.inr (.inr hw)))
  | suspendSleep t =>
    obtain hw | hw | hw | hw := hw
    · exact .inl (.inl hw)
    · exact .inl (.inr (.inl hw))
    · exact .inl (.inr (.inr (.inl hw)))
    · by_cases hc : w = c
      · exact .inr (.inr ⟨hc, (h.ages.waits t (.inr rfl)).1⟩)
      · exact .inl (.inr (.inr (.inr (by simpa [Access.apply, hc] using hw))))
  | runRemained e =>
    obtain hw | hw | hw | hw := hw
    · exact .inl (.inl hw)
    · exact .inl (.inr (.inl hw))
    · exact .inl (.inr (.inr (.inl hw)))
    · by_cases hc : w = e
      · simp [Access.apply, hc] at hw
      · exact .inl (.inr (.inr (.inr (by simpa [Access.apply, hc] using hw))))
  | _ => exact .inl hw

/-! ## What is known -/

/-- What calls and the memory know: only constructed objects are referred to; timers that are known
exist and have the callback they are known with; the identifiers that calls have read are those in
the objects; a version matched under `version_lock` is still current. -/
structure Known (m : Mem) (sh : CallId → Shape) : Prop where
  memBuilt : ∀ w, m.Refers w → (sh w).built = true
  callBuilt : ∀ c w, (sh c).Refers w → (sh w).built = true
  nextTimer : 0 < m.nextTimer
  timerFn : ∀ i f, m.timerFn i = some f → i ≠ 0 ∧ i < m.nextTimer
  pending : ∀ i, m.timerState i = .pending → m.timerFn i ≠ none
  timer : ∀ c i f, (sh c).timer = some (i, f) → m.timerFn i = some f
  sleepId : ∀ w, m.sleepId w ≠ 0 → m.timerFn (m.sleepId w) = some (.eraseFromButexAndWakeup w)
  copied : ∀ c e t, (sh c).copied = some (e, t) → t = m.tid e
  bts : ∀ c, ∀ w ∈ (sh c).bts, m.tid w ≠ 0
  pts : ∀ c, ∀ w ∈ (sh c).pts, m.tid w = 0
  ex : ∀ c w t, (sh c).ex = some (w, t) → m.tid w = t ∧ t ≠ 0
  currentSleep : ∀ t, m.currentSleep t ≠ 0 →
    ∃ e, m.timerFn (m.currentSleep t) = some (.readyToRunFromTimerThread e) ∧ getSlot (m.tid e) = t
  sleepTimer : ∀ c t i, (sh c).sleepId = some (t, i) → i ≠ 0 →
    ∃ e, m.timerFn i = some (.readyToRunFromTimerThread e) ∧ getSlot (m.tid e) = getSlot t
  rescue : ∀ c i, (sh c).rescue = some i → ∃ e, m.timerFn i = some (.readyToRunFromTimerThread e)
  matched : ∀ c t, (sh c).matched = some t → m.value (.version (getSlot t)) = getVersion t
  freshSleep : ∀ c, (sh c).fresh = true → m.remained c = false ∧ m.callbackBy c = none
  remained : ∀ e, m.remained e = true → m.callbackBy e = none
  sleepCalled : ∀ i e, m.timerFn i = some (.readyToRunFromTimerThread e) → m.callbackBy e ≠ none
  wakeCalled : ∀ c e, (sh c).wake = some e → m.callbackBy e ≠ none
  pthread : ∀ c, (sh c).fresh = true → (sh c).built = true → (sh c).self = none → m.tid c = 0
  unqueued : ∀ c, (sh c).unqueued = true → m.enqueues c = 0
  enqueues : ∀ c, m.enqueues c ≤ 1
  unbuilt : ∀ c, (sh c).built = false → m.container c = none ∧ m.tainted c = false
  garbage : ∀ c, m.enqueues c = 0 → m.container c ≠ none → m.tid c = 0
  tainted : ∀ c, m.tainted c = true → m.tid c = 0

/-! ## Steps -/

/-- Objects stay constructed. -/
theorem Shape.Step.built_update (h : Shape.Step c m a (sh c) y) (hw : (sh w).built = true) :
    (update sh c y w).built = true := by
  by_cases hc : w = c
  · subst hc; simpa using h.ages.built hw
  · simpa [hc] using hw

/-- The identifier in a constructed object does not change. -/
theorem Shape.Step.tid_eq (h : Shape.Step c m a (sh c) y) (hw : (sh w).built = true) :
    (a.apply c m).tid w = m.tid w := by
  have hne : (sh c).built = false → w ≠ c := by
    rintro hc rfl
    simp [hw] at hc
  cases a with
  | initBthreadWaiter t =>
    simp [Access.apply, hne (h.ages.init t (.inl rfl)).1]
  | initSleepArgs t =>
    simp [Access.apply, hne (h.ages.init t (.inr rfl)).1]
  | initPthreadWaiter o =>
    simp [Access.apply, hne (h.ages.initPthread o rfl).1]
  | _ => rfl

/-- While a call has matched a version, nobody changes it. -/
theorem Shape.Step.value_eq (h : Shape.Step c m a (sh c) y) (L : Locked m sh) {t : Tid}
    (hd : (sh d).matched = some t) :
    (a.apply c m).value (.version (getSlot t)) = m.value (.version (getSlot t)) := by
  have hv := ((L.wf d).matched t hd).1
  have hne : ∀ t', (sh c).vlock = some t' → ∀ ψ, (sh c).phase = some (t', ψ) → getSlot t ≠ t' := by
    rintro t' hc ψ hψ rfl
    obtain rfl : d = c := by
      have hd' := (L.versionLock _ d).mpr hv
      rw [(L.versionLock _ c).mpr hc] at hd'
      exact (Option.some.inj hd').symm
    simp [((L.wf d).matched t hd).2] at hψ
  cases a with
  | bumpVersion t' =>
    simp [Access.apply, hne t' h.vlock.1 _ h.phase.1]
  | skipVersion t' =>
    simp [Access.apply, hne t' h.vlock.1 _ h.phase.1]
  | store n v => simp [Access.apply]
  | _ => rfl

/-- A timer keeps its callback. -/
theorem Known.timerFn_mono (K : Known m sh) {i : TimerId} {f : TimerFn} (c : CallId) (a : Access)
    (hi : m.timerFn i = some f) : (a.apply c m).timerFn i = some f := by
  cases a with
  | schedule fn => simpa [Access.apply, (K.timerFn i f hi).2.ne] using hi
  | _ => exact hi

namespace Known

variable (L : Locked m sh) (L' : Locked (a.apply c m) (update sh c y)) (K : Known m sh)
  (h : Shape.Step c m a (sh c) y)
include K h

/-- What a call refers to after its step was constructed before it. -/
theorem built_of_refers (hw : y.Refers w) : (sh w).built = true := by
  obtain hx | hm | ⟨rfl, hb⟩ := h.refers hw
  · exact K.callBuilt c w hx
  · exact K.memBuilt w hm
  · exact hb

theorem memBuilt_step (hx : (sh c).Wf) (w : CallId) (hw : (a.apply c m).Refers w) :
    (update sh c y w).built = true := by
  refine h.built_update ?_
  obtain hm | hx | ⟨rfl, hb⟩ := h.mem_refers hx hw
  · exact K.memBuilt w hm
  · exact K.callBuilt c w hx
  · exact hb

theorem callBuilt_step (d w : CallId) (hw : (update sh c y d).Refers w) :
    (update sh c y w).built = true := by
  refine h.built_update ?_
  by_cases hd : d = c
  · subst hd; exact K.built_of_refers h (by simpa using hw)
  · exact K.callBuilt d w (by simpa [hd] using hw)

omit h in
theorem nextTimer_step : 0 < (a.apply c m).nextTimer := by
  cases a with
  | schedule fn => exact Nat.succ_pos _
  | _ => exact K.nextTimer

omit h in
theorem timerFn_step (i : TimerId) (f : TimerFn) (hi : (a.apply c m).timerFn i = some f) :
    i ≠ 0 ∧ i < (a.apply c m).nextTimer := by
  cases a with
  | schedule fn =>
    by_cases hn : i = m.nextTimer
    · subst hn; exact ⟨K.nextTimer.ne', Nat.lt_succ_self _⟩
    · have := K.timerFn i f (by simpa [Access.apply, hn] using hi)
      exact ⟨this.1, Nat.lt_succ_of_lt this.2⟩
  | _ => exact K.timerFn i f hi

omit h in
theorem pending_step (i : TimerId) (hi : (a.apply c m).timerState i = .pending) :
    (a.apply c m).timerFn i ≠ none := by
  cases a with
  | schedule fn =>
    by_cases hn : i = m.nextTimer
    · simp [Access.apply, hn]
    · simpa [Access.apply, hn] using K.pending i (by simpa [Access.apply, hn] using hi)
  | unschedule j =>
    refine K.pending i ?_
    by_cases hp : m.timerState j = .pending
    · by_cases hij : i = j
      · simp [Access.apply, hp, hij] at hi
      · simpa [Access.apply, hp, hij] using hi
    · simpa [Access.apply, hp] using hi
  | fire j =>
    by_cases hij : i = j
    · simp [Access.apply, hij] at hi
    · exact K.pending i (by simpa [Access.apply, hij] using hi)
  | finishTimer j =>
    by_cases hij : i = j
    · simp [Access.apply, hij] at hi
    · exact K.pending i (by simpa [Access.apply, hij] using hi)
  | _ => exact K.pending i hi

theorem timer_step (d : CallId) (i : TimerId) (f : TimerFn)
    (hd : (update sh c y d).timer = some (i, f)) : (a.apply c m).timerFn i = some f := by
  by_cases hc : d = c
  · subst hc
    simp only [update_self] at hd
    obtain hx | ⟨rfl, hi⟩ | ⟨hi, -⟩ | ⟨w, hf, hi, h0⟩ := h.learns.timer _ hd
    · exact K.timerFn_mono d a (K.timer d i f hx)
    · simp only at hi
      subst hi
      simp [Access.apply]
    · exact K.timerFn_mono d a hi
    · simp only at hf hi h0
      subst hf hi
      exact K.timerFn_mono d a (K.sleepId w h0)
  · exact K.timerFn_mono c a (K.timer d i f (by simpa [hc] using hd))

theorem sleepId_step (w : CallId) (hw : (a.apply c m).sleepId w ≠ 0) :
    (a.apply c m).timerFn ((a.apply c m).sleepId w) = some (.eraseFromButexAndWakeup w) := by
  cases a with
  | setSleepId i =>
    by_cases hc : w = c
    · subst hc
      simpa [Access.apply] using K.timer w i _ h.sleep.1
    · simp only [Access.apply, update_of_ne hc] at hw ⊢
      exact K.sleepId w hw
  | clearSleepId v =>
    by_cases hv : w = v
    · simp [Access.apply, hv] at hw
    · simp only [Access.apply, update_of_ne hv] at hw ⊢
      exact K.sleepId w hw
  | initBthreadWaiter t =>
    by_cases hc : w = c
    · simp [Access.apply, hc] at hw
    · simp only [Access.apply, update_of_ne hc] at hw ⊢
      exact K.sleepId w hw
  | _ => exact K.timerFn_mono c _ (K.sleepId w hw)

/-- What a call refers to keeps its identifier. -/
theorem tid_eq_of_refers (hd : (update sh c y d).Refers w) :
    (a.apply c m).tid w = m.tid w := by
  refine h.tid_eq ?_
  by_cases hc : d = c
  · subst hc; exact K.built_of_refers h (by simpa using hd)
  · exact K.callBuilt d w (by simpa [hc] using hd)

include L' in
theorem copied_step (d e : CallId) (t : Tid) (hd : (update sh c y d).copied = some (e, t)) :
    t = (a.apply c m).tid e := by
  rw [K.tid_eq_of_refers h (.inl ((L'.wf d).copied e t hd))]
  by_cases hc : d = c
  · subst hc
    simp only [update_self] at hd
    obtain hx | ⟨-, ht⟩ := h.learns.copied _ hd
    · exact K.copied d e t hx
    · exact ht
  · exact K.copied d e t (by simpa [hc] using hd)

include L' in
theorem bts_step (d w : CallId) (hw : w ∈ (update sh c y d).bts) : (a.apply c m).tid w ≠ 0 := by
  rw [K.tid_eq_of_refers h (.inr (.inr (.inl ((L'.wf d).bts hw))))]
  by_cases hc : d = c
  · subst hc
    exact (h.learns.bts w (by simpa using hw)).elim (K.bts d w) id
  · exact K.bts d w (by simpa [hc] using hw)

include L' in
theorem pts_step (d w : CallId) (hw : w ∈ (update sh c y d).pts) : (a.apply c m).tid w = 0 := by
  rw [K.tid_eq_of_refers h (.inr (.inr (.inl ((L'.wf d).pts hw))))]
  by_cases hc : d = c
  · subst hc
    exact (h.learns.pts w (by simpa using hw)).elim (K.pts d w) id
  · exact K.pts d w (by simpa [hc] using hw)

include L' in
theorem ex_step (d w : CallId) (t : Tid) (hd : (update sh c y d).ex = some (w, t)) :
    (a.apply c m).tid w = t ∧ t ≠ 0 := by
  rw [K.tid_eq_of_refers h (.inr (.inl ((L'.wf d).ex w t hd)))]
  by_cases hc : d = c
  · subst hc
    exact (h.learns.ex (w, t) (by simpa using hd)).elim (K.ex d w t) id
  · exact K.ex d w t (by simpa [hc] using hd)

/-- The slot of a sleep whose timer is known does not change. -/
theorem sleep_slot {i : TimerId} {t : SlotId}
    (he : ∃ e, m.timerFn i = some (.readyToRunFromTimerThread e) ∧ getSlot (m.tid e) = t) :
    ∃ e, (a.apply c m).timerFn i = some (.readyToRunFromTimerThread e) ∧
      getSlot ((a.apply c m).tid e) = t := by
  obtain ⟨e, hi, ht⟩ := he
  refine ⟨e, K.timerFn_mono c a hi, ?_⟩
  rw [h.tid_eq (K.memBuilt e (.inr (.inr (.inl ⟨i, _, hi, rfl⟩)))), ht]

theorem currentSleep_step (t : SlotId) (ht : (a.apply c m).currentSleep t ≠ 0) :
    ∃ e, (a.apply c m).timerFn ((a.apply c m).currentSleep t) =
        some (.readyToRunFromTimerThread e) ∧ getSlot ((a.apply c m).tid e) = t := by
  cases a with
  | setCurrentSleep t' i =>
    by_cases hs : t = t'
    · subst hs
      simp only [Access.apply, update_self] at ht ⊢
      obtain ⟨rfl | ⟨e, u, hx, rfl, hi⟩, -⟩ := h.sleep
      · exact absurd rfl ht
      · exact ⟨e, K.timer c i _ hi, by rw [← K.copied c e u hx]⟩
    · simp only [Access.apply, update_of_ne hs] at ht ⊢
      exact K.currentSleep t ht
  | _ => exact K.sleep_slot h (K.currentSleep t ht)

theorem sleepTimer_step (d : CallId) (t : Tid) (i : TimerId)
    (hd : (update sh c y d).sleepId = some (t, i)) (hi : i ≠ 0) :
    ∃ e, (a.apply c m).timerFn i = some (.readyToRunFromTimerThread e) ∧
      getSlot ((a.apply c m).tid e) = getSlot t := by
  refine K.sleep_slot h ?_
  by_cases hc : d = c
  · subst hc
    simp only [update_self] at hd
    obtain hx | ⟨-, ht⟩ := h.learns.sleepId _ hd
    · exact K.sleepTimer d t i hx hi
    · simp only at ht
      subst ht
      exact K.currentSleep _ hi
  · exact K.sleepTimer d t i (by simpa [hc] using hd) hi

theorem rescue_step (d : CallId) (i : TimerId) (hd : (update sh c y d).rescue = some i) :
    ∃ e, (a.apply c m).timerFn i = some (.readyToRunFromTimerThread e) := by
  suffices hi : ∃ e, m.timerFn i = some (.readyToRunFromTimerThread e) from
    hi.imp fun e => K.timerFn_mono c a
  by_cases hc : d = c
  · subst hc
    simp only [update_self] at hd
    have hsl := h.sleep
    cases a with
    | unschedule j =>
      obtain ⟨-, ⟨-, -, hr⟩ | ⟨-, hr⟩ | ⟨⟨t, hx⟩, -, -, hr⟩⟩ := hsl
      · exact K.rescue d i (hr ▸ hd)
      · exact K.rescue d i (hr ▸ hd)
      · obtain ⟨hp, rfl⟩ : m.timerState j = .pending ∧ j = i := by simpa [hr] using hd
        obtain ⟨f, hf⟩ := Option.ne_none_iff_exists'.mp (K.pending j hp)
        obtain ⟨e, he, -⟩ := K.sleepTimer d t j hx (K.timerFn j f hf).1
        exact ⟨e, he⟩
    | schedule fn => exact K.rescue d i (hsl.2.1 ▸ hd)
    | runRemained e => exact K.rescue d i (hsl.2.2.2.1 ▸ hd)
    | fire j => exact K.rescue d i (hsl.2.2.2.1 ▸ hd)
    | finishTimer j => exact K.rescue d i (hsl.2.2.2 ▸ hd)
    | push t =>
      obtain ⟨-, hr, -⟩ | ⟨-, hr, -⟩ | ⟨-, -, j, -, hr, -⟩ := h.push t rfl
      · exact K.rescue d i (hr ▸ hd)
      · exact K.rescue d i (hr ▸ hd)
      · simp [hr] at hd
    | setSleepId j | setCurrentSleep t j => exact K.rescue d i (hsl.2.2.2 ▸ hd)
    | _ => exact K.rescue d i (hsl.2.2 ▸ hd)
  · exact K.rescue d i (by simpa [hc] using hd)

theorem matched_step (L : Locked m sh) (d : CallId) (t : Tid)
    (hd : (update sh c y d).matched = some t) :
    (a.apply c m).value (.version (getSlot t)) = getVersion t := by
  by_cases hc : d = c
  · subst hc
    simp only [update_self] at hd
    obtain hx | ⟨-, ht, rfl⟩ := h.learns.matched _ hd
    · rw [h.value_eq L hx, K.matched d t hx]
    · exact ht
  · simp only [update_of_ne hc] at hd
    rw [h.value_eq L hd, K.matched d t hd]

theorem freshSleep_step (d : CallId) (hd : (update sh c y d).fresh = true) :
    (a.apply c m).remained d = false ∧ (a.apply c m).callbackBy d = none := by
  have hold : (sh d).fresh = true := by
    by_cases hc : d = c
    · subst hc; exact h.ages.fresh (by simpa using hd)
    · simpa [hc] using hd
  cases a with
  | suspendSleep t =>
    have hc : d ≠ c := by
      rintro rfl
      simp [(h.ages.waits t (.inr rfl)).2.2.1] at hd
    simpa [Access.apply, hc] using K.freshSleep d hold
  | runRemained e =>
    have he : d ≠ e := by
      rintro rfl
      have hr := h.sleep.1
      simp [(K.freshSleep d hold).1] at hr
    simpa [Access.apply, he] using K.freshSleep d hold
  | _ => exact K.freshSleep d hold

theorem remained_step (e : CallId) (he : (a.apply c m).remained e = true) :
    (a.apply c m).callbackBy e = none := by
  cases a with
  | suspendSleep t =>
    by_cases hc : e = c
    · subst hc; exact (K.freshSleep e (h.ages.waits t (.inr rfl)).2.1).2
    · exact K.remained e (by simpa [Access.apply, hc] using he)
  | runRemained e' =>
    by_cases hc : e = e'
    · simp [Access.apply, hc] at he
    · simpa [Access.apply, hc] using K.remained e (by simpa [Access.apply, hc] using he)
  | _ => exact K.remained e he

omit K h in
/-- What was called stays called. -/
theorem called_mono (c : CallId) (a : Access) {e : CallId} (he : m.callbackBy e ≠ none) :
    (a.apply c m).callbackBy e ≠ none := by
  cases a with
  | runRemained e' =>
    by_cases hc : e = e'
    · simp [Access.apply, hc]
    · simpa [Access.apply, hc] using he
  | _ => exact he

theorem sleepCalled_step (i : TimerId) (e : CallId)
    (hi : (a.apply c m).timerFn i = some (.readyToRunFromTimerThread e)) :
    (a.apply c m).callbackBy e ≠ none := by
  refine called_mono c a ?_
  cases a with
  | schedule fn =>
    by_cases hn : i = m.nextTimer
    · simp only [Access.apply, hn, update_self, Option.some.injEq] at hi
      subst hi
      obtain ⟨-, -, ⟨hf, -⟩ | ⟨e', hf, he, -⟩⟩ := h.sleep
      · simp at hf
      · cases hf
        exact K.wakeCalled c e he
    · exact K.sleepCalled i e (by simpa [Access.apply, hn] using hi)
  | _ => exact K.sleepCalled i e hi

theorem wakeCalled_step (d e : CallId) (hd : (update sh c y d).wake = some e) :
    (a.apply c m).callbackBy e ≠ none := by
  by_cases hc : d = c
  · subst hc
    simp only [update_self] at hd
    have hsl := h.sleep
    cases a with
    | runRemained e' =>
      obtain ⟨-, -, hy, -⟩ := hsl
      obtain rfl : e' = e := by simpa [hd] using hy.symm
      simp [Access.apply]
    | schedule fn =>
      obtain ⟨-, -, ⟨-, -, hw⟩ | ⟨-, -, -, hw⟩⟩ := hsl
      · exact K.wakeCalled d e (hw ▸ hd)
      · simp [hw] at hd
    | unschedule i =>
      obtain ⟨-, ⟨-, hw, -⟩ | ⟨⟨e', hx, -, hw⟩, -⟩ | ⟨-, -, hw, -⟩⟩ := hsl
      · exact K.wakeCalled d e (hw ▸ hd)
      · obtain ⟨-, rfl⟩ : m.timerState i = .pending ∧ e' = e := by simpa [hw] using hd
        exact K.sleepCalled i e' (K.timer d i _ hx)
      · exact K.wakeCalled d e (hw ▸ hd)
    | fire i =>
      obtain ⟨-, -, -, -, -, ⟨-, hw⟩ | ⟨e', hf, hw⟩⟩ := hsl
      · simp [hw] at hd
      · obtain rfl : e' = e := by simpa [hw] using hd
        exact K.sleepCalled i e' hf
    | finishTimer i => exact K.wakeCalled d e (hsl.2.2.1 ▸ hd)
    | push t =>
      obtain ⟨hw, -⟩ | ⟨-, -, e', -, hw, -⟩ | ⟨-, hw, -⟩ := h.push t rfl
      · exact K.wakeCalled d e (hw ▸ hd)
      · simp [hw] at hd
      · exact K.wakeCalled d e (hw ▸ hd)
    | setSleepId i | setCurrentSleep t i => exact K.wakeCalled d e (hsl.2.2.1 ▸ hd)
    | _ => exact K.wakeCalled d e (hsl.2.1 ▸ hd)
  · exact called_mono c a (K.wakeCalled d e (by simpa [hc] using hd))

theorem pthread_step (d : CallId) (hf : (update sh c y d).fresh = true)
    (hb : (update sh c y d).built = true) (hs : (update sh c y d).self = none) :
    (a.apply c m).tid d = 0 := by
  by_cases hc : d = c
  · subst hc
    simp only [update_self] at hf hb hs
    obtain hx | hx | ⟨t, hx⟩ | ⟨o, rfl⟩ := h.ages.builds hb
    · rw [h.tid_eq hx]
      exact K.pthread d (h.ages.fresh hf) hx (h.ages.self hf hx ▸ hs)
    · simp [hf] at hx
    · simp [(h.ages.init t hx).2.2.1] at hs
    · simp [Access.apply]
  · simp only [update_of_ne hc] at hf hb hs
    rw [h.tid_eq hb]
    exact K.pthread d hf hb hs

theorem unqueued_step (d : CallId) (hd : (update sh c y d).unqueued = true) :
    (a.apply c m).enqueues d = 0 := by
  have hold : (sh d).unqueued = true := by
    by_cases hc : d = c
    · subst hc; exact h.ages.unqueued (by simpa using hd)
    · simpa [hc] using hd
  cases a with
  | setContainer b =>
    have hc : d ≠ c := by
      rintro rfl
      simp [h.queue.2.2.1] at hd
    simpa [Access.apply, hc] using K.unqueued d hold
  | _ => exact K.unqueued d hold

theorem enqueues_step (d : CallId) : (a.apply c m).enqueues d ≤ 1 := by
  cases a with
  | setContainer b =>
    by_cases hc : d = c
    · subst hc; simp [Access.apply, K.unqueued d h.queue.2.1]
    · simpa [Access.apply, hc] using K.enqueues d
  | _ => exact K.enqueues d

/-- The container of an unconstructed object is not set, and it is not matched. -/
theorem unbuilt_step (L : Locked m sh) (d : CallId) (hd : (update sh c y d).built = false) :
    (a.apply c m).container d = none ∧ (a.apply c m).tainted d = false := by
  have hold : (sh d).built = false := by
    by_contra hb
    rw [h.built_update (by simpa using hb)] at hd
    exact nomatch hd
  have hcd : y.built = true → d ≠ c := by
    rintro hy rfl
    simp [hy] at hd
  have hK := K.unbuilt d hold
  cases a with
  | setContainer b =>
    have hb := ((L.wf c).queueing b h.queue.1).2.1
    simpa [Access.apply, hcd (h.ages.built hb)] using hK
  | clearContainer w =>
    by_cases hw : d = w
    · simpa [Access.apply, hw] using hw ▸ hK.2
    · simpa [Access.apply, hw] using hK
  | moveContainer w b => exact h.queue.elim
  | matchContainer w =>
    have hw : d ≠ w := by
      rintro rfl
      simp [K.callBuilt c d (.inl h.queue.2.2.2.2.1)] at hold
    simpa [Access.apply, hw] using hK
  | initBthreadWaiter t =>
    simpa [Access.apply, hcd (h.ages.init t (.inl rfl)).2.1] using hK
  | initPthreadWaiter o =>
    simpa [Access.apply, hcd (h.ages.initPthread o rfl).2.1] using hK
  | _ => exact hK

theorem garbage_step (d : CallId) (he : (a.apply c m).enqueues d = 0)
    (hd : (a.apply c m).container d ≠ none) : (a.apply c m).tid d = 0 := by
  have hfree : (sh c).built = false → d = c → m.container d = none := by
    rintro hb rfl
    exact (K.unbuilt d hb).1
  cases a with
  | setContainer b =>
    by_cases hc : d = c
    · simp [Access.apply, hc] at he
    · simp only [Access.apply, update_of_ne hc] at he hd ⊢
      exact K.garbage d he hd
  | clearContainer w =>
    by_cases hw : d = w
    · simp [Access.apply, hw] at hd
    · simp only [Access.apply, update_of_ne hw] at hd
      exact K.garbage d he hd
  | moveContainer w b => exact h.queue.elim
  | initBthreadWaiter t =>
    by_cases hc : d = c
    · simp [Access.apply, hc] at hd
    · simp only [Access.apply, update_of_ne hc] at hd ⊢
      exact K.garbage d he hd
  | initSleepArgs t =>
    by_cases hc : d = c
    · exact absurd (hfree (h.ages.init t (.inr rfl)).1 hc) hd
    · simp only [Access.apply, update_of_ne hc]
      exact K.garbage d he hd
  | initPthreadWaiter o =>
    by_cases hc : d = c
    · simp [Access.apply, hc]
    · simp only [Access.apply, update_of_ne hc] at hd ⊢
      exact K.garbage d he hd
  | _ => exact K.garbage d he hd

theorem tainted_step (d : CallId) (hd : (a.apply c m).tainted d = true) :
    (a.apply c m).tid d = 0 := by
  cases a with
  | matchContainer w =>
    by_cases hw : d = w
    · subst hw
      obtain ⟨-, -, -, -, -, b, -, hb, -⟩ := h.queue
      simp only [Access.apply, update_self, Bool.or_eq_true, decide_eq_true_eq] at hd
      exact hd.elim (K.tainted d) fun he => K.garbage d he (by simp [hb])
    · exact K.tainted d (by simpa [Access.apply, hw] using hd)
  | _ =>
    have hd' : m.tainted d = true := hd
    have hb : (sh d).built = true := by
      by_contra hb
      simp [(K.unbuilt d (by simpa using hb)).2] at hd'
    rw [h.tid_eq hb]
    exact K.tainted d hd'

end Known

/-- What is known stays known. -/
theorem Known.step (L : Locked m sh) (L' : Locked (a.apply c m) (update sh c y)) (K : Known m sh)
    (h : Shape.Step c m a (sh c) y) : Known (a.apply c m) (update sh c y) where
  memBuilt := K.memBuilt_step h (L.wf c)
  callBuilt := K.callBuilt_step h
  nextTimer := K.nextTimer_step
  timerFn := K.timerFn_step
  pending := K.pending_step
  timer := K.timer_step h
  sleepId := K.sleepId_step h
  copied := K.copied_step L' h
  bts := K.bts_step L' h
  pts := K.pts_step L' h
  ex := K.ex_step L' h
  currentSleep := K.currentSleep_step h
  sleepTimer := K.sleepTimer_step h
  rescue := K.rescue_step h
  matched := K.matched_step h L
  freshSleep := K.freshSleep_step h
  remained := K.remained_step h
  sleepCalled := K.sleepCalled_step h
  wakeCalled := K.wakeCalled_step h
  pthread := K.pthread_step h
  unqueued := K.unqueued_step h
  enqueues := K.enqueues_step h
  unbuilt := K.unbuilt_step h L
  garbage := K.garbage_step h
  tainted := K.tainted_step h

/-- Nothing is known initially. -/
theorem Known.initial (h : m.Initial) : Known m fun _ => {} where
  memBuilt w hw := by
    simp [Mem.Refers, h.waiters, h.currentWaiter, h.timerFn, h.remained] at hw
  callBuilt c w hw := by simp [Shape.Refers] at hw
  nextTimer := by simp [h.nextTimer]
  timerFn i f hi := by simp [h.timerFn] at hi
  pending i hi := by simp [h.timerState] at hi
  timer := by simp
  sleepId w hw := absurd (h.sleepId w) hw
  copied := by simp
  bts := by simp
  pts := by simp
  ex := by simp
  currentSleep t ht := absurd (h.currentSleep t) ht
  sleepTimer := by simp
  rescue := by simp
  matched := by simp
  freshSleep c _ := ⟨h.remained c, h.callbackBy c⟩
  remained e _ := h.callbackBy e
  sleepCalled i e hi := by simp [h.timerFn] at hi
  wakeCalled := by simp
  pthread := by simp
  unqueued c _ := h.enqueues c
  enqueues c := by simp [h.enqueues]
  unbuilt c _ := ⟨h.container c, h.tainted c⟩
  garbage c _ hc := absurd (h.container c) hc
  tainted c hc := by simp [h.tainted] at hc

/-- **What is known in reachable states.** -/
theorem known (hs : system.Reachable s) : Known s.mem s.shape :=
  shape_invariant (fun _ => locked) (fun _ => Known.initial)
    (fun _ _ _ _ _ L L' K h => K.step L L' h) hs

end Bthread
