import Bthread.Ownership

set_option relaxedAutoImplicit false
set_option autoImplicit false

/-!
# Claims last

A claim to a call lasts until the call is handed over, and whoever hands a call over leaves a claim
to it: a call that waits is never forgotten.

## Main definitions

* `Bthread.Running` — a callback is run by one call.

## Main results

* `Bthread.running` — this holds in reachable states.
* `Bthread.Owned.sound_step`, `Bthread.Owned.complete_step` — claims and custody agree after an
  access.
-/

namespace Bthread

open Function (update update_self update_of_ne)

variable {s : State} {c d w : CallId} {m : Mem} {sh : CallId → Shape} {a : Access} {y : Shape}
  {u v : Custody} {t : SlotId} {φ : Phase}

/-- An exempt waiter stays exempt. -/
theorem tainted_of_apply (hw : (a.apply c m).tainted w = false) : m.tainted w = false := by
  cases a with
  | matchContainer w' =>
    by_cases h : w = w'
    · subst h
      simp only [Access.apply, update_self, Bool.or_eq_false_iff] at hw
      exact hw.1
    · simpa [Access.apply, h] using hw
  | _ => exact hw

/-- Custody always goes on. -/
theorem Custody.Moves.ne (h : Custody.Moves c u v) : u ≠ v := by
  cases h <;> simp

/-- Whoever takes a call out of a queue unlinks it. -/
theorem eq_removeFromList (h : a.entrust c m = some (w, .unlinked d)) :
    a = .removeFromList w ∧ d = c := by
  cases a with
  | schedule fn => cases fn <;> simp [Access.entrust] at h
  | _ => simp_all [Access.entrust]

/-- Whoever puts a call into a queue appends it. -/
theorem eq_append {b : ButexId} (h : a.entrust c m = some (w, .linked b)) : a = .append b w := by
  cases a with
  | schedule fn => cases fn <;> simp [Access.entrust] at h
  | _ => simp_all [Access.entrust]

/-- How often a call was pushed. -/
theorem pushes_apply : (a.apply c m).pushes w =
    m.pushes w + if a.entrust c m = some (w, .pushed) then 1 else 0 := by
  cases a with
  | push t =>
    cases hc : m.call (getSlot t) with
    | none => simp [Access.apply, Access.entrust, Mem.push, hc]
    | some e =>
      by_cases he : w = e
      · subst he; simp [Access.apply, Access.entrust, Mem.push, hc]
      · simp [Access.apply, Access.entrust, Mem.push, hc, he, Ne.symm he]
  | handOff w' =>
    cases hc : m.call (getSlot (m.tid w')) with
    | none => simp [Access.apply, Access.entrust, Mem.push, hc]
    | some e =>
      by_cases he : w = e
      · subst he; simp [Access.apply, Access.entrust, Mem.push, hc]
      · simp [Access.apply, Access.entrust, Mem.push, hc, he, Ne.symm he]
  | schedule fn => cases fn <;> simp [Access.apply, Access.entrust]
  | _ => simp [Access.apply, Access.entrust]

/-- The last waiter that `butex_wake_except` unlinked is not a second one. -/
theorem Owned.unl_odd (L : Locked m sh) (K : Known m sh) (O : Owned m sh) {w₀ : CallId} {t : Tid}
    (hx : (sh c).unl = [w, w₀]) (he : (sh c).ex = some (w₀, t)) (hw : m.tid w = t) (ht : t ≠ 0) :
    False := by
  have h0 := (K.ex c w₀ t he).1
  have hu : ∀ e ∈ (sh c).unl, m.tid e ≠ 0 → m.custody e = .unlinked c :=
    fun e hm he => O.sound e _ (K.untainted he) (.unlinked hm)
  have hu1 := hu w (by simp [hx]) (by rwa [hw])
  have hu2 := hu w₀ (by simp [hx]) (by rwa [h0])
  obtain ⟨t1, -, -, -, -, g1, c1⟩ := O.blocked_of_waits L (w := w) (by rwa [hw])
    (by simp [hu1, Custody.Waits]) (by simp [hu1])
  obtain ⟨t2, -, -, -, -, g2, c2⟩ := O.blocked_of_waits L (w := w₀) (by rwa [h0])
    (by simp [hu2, Custody.Waits]) (by simp [hu2])
  obtain rfl : t1 = t2 := by rw [← g1, ← g2, hw, h0]
  obtain rfl : w = w₀ := Option.some.inj (c1.symm.trans c2)
  have := O.unl w c (K.untainted (by rwa [hw]))
  simp [hx] at this

/-! ## One step -/

section Step

variable (L : Locked m sh) (K : Known m sh) (O : Owned m sh) (h : Shape.Step c m a (sh c) y)
include L K O h

/-- A call is in other custody before it is handed over. -/
theorem Owned.not_claim_before (hw : m.tainted w = false) (he : a.entrust c m = some (w, u)) :
    ¬Claim m sh w u :=
  fun hcl => (O.handover L K h hw he).1.ne (O.sound w u hw hcl)

theorem Owned.sound_step (w : CallId) (u : Custody) (hw : (a.apply c m).tainted w = false)
    (hu : Claim (a.apply c m) (update sh c y) w u) : (a.apply c m).custody w = u := by
  have hw := tainted_of_apply hw
  obtain hcl | he := h.claim_of K hu
  · have hc := O.sound w u hw hcl
    by_cases hn : ∃ v, a.entrust c m = some (w, v)
    · obtain ⟨v, he⟩ := hn
      exact absurd (hc ▸ hu) (O.handover L K h hw he).2
    · rw [custody_of_not_entrust (fun v hv => hn ⟨v, hv⟩), hc]
  · exact custody_of_entrust he

theorem Owned.waiters_step (w : CallId) (b : ButexId) (hw : (a.apply c m).tainted w = false) :
    ((a.apply c m).waiters b).count w ≤ 1 := by
  have hw := tainted_of_apply hw
  have ih := O.waiters w b hw
  cases a with
  | append b' w' =>
    by_cases hb : b = b'
    · subst hb
      by_cases hww : w' = w
      · subst hww
        have hn := O.not_claim_before L K h hw (u := .linked b) rfl
        have : w' ∉ m.waiters b := fun hm => hn (.linked hm)
        simp [Access.apply, List.count_eq_zero.mpr this]
      · simpa [Access.apply, List.count_singleton, hww] using ih
    · simpa [Access.apply, hb] using ih
  | removeFromList w' => exact (List.erase_sublist.count_le w).trans ih
  | _ => exact ih

theorem Owned.unl_step (w d : CallId) (hw : (a.apply c m).tainted w = false) :
    (update sh c y d).unl.count w ≤ 1 := by
  have hw := tainted_of_apply hw
  have ih := O.unl w d hw
  by_cases hd : d = c
  · subst hd
    rw [update_self]
    have hq := h.queue
    cases a with
    | nop =>
      obtain ⟨-, -, hu | ⟨w₁, w₂, t, hx, hy, -⟩, -⟩ := hq
      · rwa [hu.count_eq]
      · rw [hy]; exact List.count_le_length
    | removeFromList w' =>
      obtain ⟨-, -, hu, -⟩ := hq
      rw [hu]
      by_cases hww : w' = w
      · subst hww
        have hn := O.not_claim_before L K h hw (u := .unlinked d) rfl
        have : w' ∉ (sh d).unl := fun hm => hn (.unlinked hm)
        simp [List.count_eq_zero.mpr this]
      · simpa [List.count_cons, hww] using ih
    | clearContainer w' =>
      obtain ⟨-, -, hu, -⟩ := hq
      rw [hu] at ih
      exact (List.sublist_cons_self w' y.unl).count_le w |>.trans ih
    | moveContainer w' b => exact hq.elim
    | _ => simp only [QueueChange] at hq; grind
  · simpa [hd] using ih

theorem Owned.hand_step (w d : CallId) (hw : (a.apply c m).tainted w = false) :
    (update sh c y d).hand.count w ≤ 1 := by
  have hw := tainted_of_apply hw
  have ih := O.hand w d hw
  by_cases hd : d = c
  · subst hd
    rw [update_self]
    have hq := h.queue
    cases a with
    | nop => rwa [hq.2.1.count_eq]
    | clearContainer w' =>
      obtain ⟨-, -, -, hh | ⟨-, -, -, hh⟩⟩ := hq
      · rw [hh.count_eq]
        by_cases hww : w' = w
        · subst hww
          have hn := O.not_claim_before L K h hw (u := .held d) rfl
          have : w' ∉ (sh d).hand := fun hm => hn (.held hm)
          simp [List.count_eq_zero.mpr this]
        · simpa [List.count_cons, hww] using ih
      · simp [hh]
    | handOff w' | handOffLost w' | wakeupPthread w' =>
      rw [hq.2.2.2.1.count_eq] at ih
      exact (List.sublist_cons_self w' y.hand).count_le w |>.trans ih
    | moveContainer w' b => exact hq.elim
    | _ => simp only [QueueChange] at hq; grind
  · simpa [hd] using ih

end Step

/-- A callback is run by one call, and its timer says so. -/
structure Running (m : Mem) (sh : CallId → Shape) : Prop where
  state : ∀ c i, (sh c).running = some i → m.timerState i = .running
  made : ∀ c i, (sh c).running = some i → m.timerFn i ≠ none
  unique : ∀ c d i, (sh c).running = some i → (sh d).running = some i → c = d

/-- What becomes of the timer whose callback a call is. -/
theorem Shape.Step.running_of {x : Shape} {i : TimerId} (h : Shape.Step c m a x y)
    (hy : y.running = some i) :
    x.running = some i ∧ a ≠ .finishTimer i ∨ a = .fire i ∧ m.timerState i = .pending := by
  have hs := h.sleep
  cases a with
  | push t => rw [show y.running = x.running from hs] at hy; exact .inl ⟨hy, by simp⟩
  | _ => simp only [SleepChange] at hs; grind

/-- The timer of a running callback stays what it is until the callback is completed. -/
theorem Known.timerState_running (K : Known m sh) {i : TimerId} (hi : m.timerState i = .running)
    (hf : m.timerFn i ≠ none) (hn : a ≠ .finishTimer i) :
    (a.apply c m).timerState i = .running := by
  cases a with
  | schedule fn =>
    obtain ⟨f, hf⟩ := Option.ne_none_iff_exists'.mp hf
    simpa [Access.apply, (K.timerFn i f hf).2.ne] using hi
  | unschedule j =>
    by_cases hp : m.timerState j = .pending
    · have : i ≠ j := by rintro rfl; simp [hi] at hp
      simpa [Access.apply, hp, this] using hi
    · simpa [Access.apply, hp] using hi
  | fire j =>
    by_cases hij : i = j
    · simp [Access.apply, hij]
    · simpa [Access.apply, hij] using hi
  | finishTimer j =>
    have : i ≠ j := by rintro rfl; exact hn rfl
    simpa [Access.apply, this] using hi
  | _ => exact hi

/-- **Running callbacks.** -/
theorem running (hs : system.Reachable s) : Running s.mem s.shape := by
  refine shape_invariant (J := Known) (fun _ => known)
    (fun m hm => ⟨by simp, by simp, by simp⟩) ?_ hs
  intro m sh c a y K K' R h
  have old : ∀ d i, (update sh c y d).running = some i →
      (sh d).running = some i ∧ a ≠ .finishTimer i ∨
        d = c ∧ a = .fire i ∧ m.timerState i = .pending := by
    intro d i hi
    by_cases hd : d = c
    · subst hd
      exact (h.running_of (by simpa using hi)).imp_right fun hf => ⟨rfl, hf⟩
    · have hi : (sh d).running = some i := by simpa [hd] using hi
      refine .inl ⟨hi, ?_⟩
      rintro rfl
      exact hd (R.unique d c i hi h.sleep.1)
  refine ⟨fun d i hi => ?_, fun d i hi => ?_, fun d e i hd he => ?_⟩
  · obtain ⟨hx, hn⟩ | ⟨-, rfl, -⟩ := old d i hi
    · exact K.timerState_running (R.state d i hx) (R.made d i hx) hn
    · simp [Access.apply]
  · have hm : m.timerFn i ≠ none := by
      obtain ⟨hx, -⟩ | ⟨-, -, hp⟩ := old d i hi
      · exact R.made d i hx
      · exact K.pending i hp
    obtain ⟨f, hf⟩ := Option.ne_none_iff_exists'.mp hm
    simp [K.timerFn_mono c a hf]
  · obtain ⟨hx, -⟩ | ⟨rfl, -, hp⟩ := old d i hd
    · obtain ⟨hx', -⟩ | ⟨-, -, hp⟩ := old e i he
      · exact R.unique d e i hx hx'
      · simp [R.state d i hx] at hp
    · obtain ⟨hx', -⟩ | ⟨rfl, -⟩ := old e i he
      · simp [R.state e i hx'] at hp
      · rfl

/-! ## Claims last -/

/-- A sleep that a call has to push is the one the identifier is inside. -/
theorem Owned.call_of_wake (L : Locked m sh) (K : Known m sh) (O : Owned m sh) {e : CallId}
    {t : Tid} (hx : (sh c).wake = some e) (ht : t = m.tid e ∨ (sh c).copied = some (e, t)) :
    m.call (getSlot t) = some e := by
  have h0 : m.tid e ≠ 0 := O.sleeper e (.inr (K.wakeCalled c e hx))
  have hu : m.custody e = .waking c := O.sound e _ (K.untainted h0) (.wake hx)
  obtain rfl : t = m.tid e := ht.elim id (K.copied c e t)
  obtain ⟨s, -, -, -, -, rfl, h4⟩ := O.blocked_of_waits L h0 (by simp [hu, Custody.Waits])
    (by simp [hu])
  exact h4

/-- A sleep that an interrupter has to push is the one the identifier is inside. -/
theorem Owned.call_of_rescue (L : Locked m sh) (K : Known m sh) (O : Owned m sh) {e : CallId}
    {i : TimerId} {t : Tid} (hx : (sh c).rescue = some i) (ht : (sh c).sleepId = some (t, i))
    (he : m.timerFn i = some (.readyToRunFromTimerThread e)) :
    m.call (getSlot t) = some e := by
  have h0 : m.tid e ≠ 0 := O.sleeper e (.inr (K.sleepCalled i e he))
  have hu : m.custody e = .waking c := O.sound e _ (K.untainted h0) (.rescue hx he)
  obtain rfl : m.tid e = t := O.rescued c t i e ht he (by simp [hu, Custody.Waits]) (by simp [hu])
  obtain ⟨s, -, -, -, -, rfl, h4⟩ := O.blocked_of_waits L h0 (by simp [hu, Custody.Waits])
    (by simp [hu])
  exact h4

/-- A waiter stays in its queue until somebody removes it. -/
theorem claim_linked {b : ButexId} (hn : ∀ v, a.entrust c m ≠ some (w, v)) (hm : w ∈ m.waiters b) :
    Claim (a.apply c m) (update sh c y) w (.linked b) := by
  refine .linked ?_
  cases a with
  | append b' w' =>
    by_cases hb : b = b'
    · subst hb; simp [Access.apply, hm]
    · simpa [Access.apply, hb] using hm
  | removeFromList w' =>
    have : w ≠ w' := by rintro rfl; simp [Access.entrust] at hn
    exact (List.mem_erase_of_ne this).mpr hm
  | _ => exact hm

/-- The function of a sleep is kept in its group until the group runs it. -/
theorem claim_remained (hn : ∀ v, a.entrust c m ≠ some (w, v)) (hr : m.remained w = true) :
    Claim (a.apply c m) (update sh c y) w .remained := by
  refine .remained ?_
  cases a with
  | suspendSleep t =>
    by_cases hc : w = c <;> simp [Access.apply, hc, hr]
  | runRemained e =>
    have : w ≠ e := by rintro rfl; simp [Access.entrust] at hn
    simpa [Access.apply, this] using hr
  | _ => exact hr

/-- The timer of a sleep stays pending until it fires or is taken off. -/
theorem Running.claim_timer (K : Known m sh) (R : Running m sh) (h : Shape.Step c m a (sh c) y)
    {i : TimerId} (hn : ∀ v, a.entrust c m ≠ some (w, v))
    (hf : m.timerFn i = some (.readyToRunFromTimerThread w)) (hp : m.timerState i = .pending) :
    Claim (a.apply c m) (update sh c y) w (.timer i) := by
  refine .timer (K.timerFn_mono c a hf) ?_
  have hsl' := sleeper_eq_some.mpr hf
  cases a with
  | schedule fn => simpa [Access.apply, (K.timerFn i _ hf).2.ne] using hp
  | unschedule j =>
    have : i ≠ j := by rintro rfl; simp [Access.entrust, hp, hsl'] at hn
    by_cases hpj : m.timerState j = .pending <;> simpa [Access.apply, hpj, this] using hp
  | fire j =>
    have : i ≠ j := by rintro rfl; simp [Access.entrust, hsl'] at hn
    simpa [Access.apply, this] using hp
  | finishTimer j =>
    have : i ≠ j := by
      rintro rfl
      simp [R.state c i h.sleep.1] at hp
    simpa [Access.apply, this] using hp
  | _ => exact hp

section Step

variable (L : Locked m sh) (K : Known m sh) (O : Owned m sh) (h : Shape.Step c m a (sh c) y)
include L K O h

/-- A callback is run until the call is handed over. -/
theorem Owned.claim_callback {t : SlotId} (hn : ∀ v, a.entrust c m ≠ some (w, v))
    (hp : (sh w).phase = some (t, .callback)) :
    Claim (a.apply c m) (update sh c y) w .callback := by
  have hph := h.phase
  by_cases hc : w = c
  · subst hc
    refine .callback (t := t) ?_
    rw [update_self]
    cases a with
    | push t' =>
      obtain ⟨s, -, rfl, hP⟩ := O.pushes_of L K (h.push t' rfl)
      cases hP with
      | start hx _ _ _ => simp [hp] at hx
      | requeue hx _ hc _ _ => simp [Access.entrust, hc] at hn
      | wake e _ _ _ _ hy _ _ => rw [hy, hp]
    | append b w' =>
      obtain ⟨rfl, -⟩ | ⟨-, hy⟩ := hph
      · simp [Access.entrust] at hn
      · rw [hy, hp]
    | _ => simp only [PhaseChange] at hph; grind
  · exact .callback (t := t) (by simpa [hc] using hp)

/-- A call that is switched out runs its callback before anything else. -/
theorem Owned.claim_switched {t : SlotId} (hn : ∀ v, a.entrust c m ≠ some (w, v))
    (hp : (sh w).phase = some (t, .switched)) :
    Claim (a.apply c m) (update sh c y) w .callback := by
  have hph := h.phase
  by_cases hc : w = c
  · subst hc
    refine .switched (t := t) ?_
    rw [update_self]
    cases a with
    | push t' =>
      obtain ⟨s, -, rfl, hP⟩ := O.pushes_of L K (h.push t' rfl)
      cases hP with
      | start hx _ _ _ => simp [hp] at hx
      | requeue hx _ hc _ _ => simp [Access.entrust, hc] at hn
      | wake e _ _ _ _ hy _ _ => rw [hy, hp]
    | _ => simp only [PhaseChange] at hph; grind
  · exact .switched (t := t) (by simpa [hc] using hp)

/-- A waiter that a call has unlinked stays with it until that call queues it anew or clears its
`container`. -/
theorem Owned.claim_unlinked (hn : ∀ v, a.entrust c m ≠ some (w, v)) (hm : w ∈ (sh d).unl) :
    Claim (a.apply c m) (update sh c y) w (.unlinked d) := by
  have hq := h.queue
  refine .unlinked (d := d) ?_
  by_cases hd : d = c
  · subst hd
    rw [update_self]
    cases a with
    | nop =>
      obtain ⟨-, -, hu | ⟨w₁, w₂, t, hx, hy, he, ht, h0⟩, -⟩ := hq
      · exact hu.symm.subset hm
      · exact (O.unl_odd L K hx he ht h0).elim
    | append b w' =>
      obtain ⟨-, -, -, -, -, ⟨-, hx, -⟩ | ⟨hx, -⟩⟩ := hq
      · simp [hx] at hm
      · simp_all [Access.entrust]
    | clearContainer w' =>
      obtain ⟨-, -, hx, -⟩ := hq
      rw [hx] at hm
      obtain rfl | hm := List.mem_cons.mp hm
      · simp [Access.entrust] at hn
      · exact hm
    | removeFromList w' =>
      rw [hq.2.2.1]
      exact List.mem_cons_of_mem _ hm
    | moveContainer w' b => exact hq.elim
    | _ => simp only [QueueChange] at hq; grind
  · simpa [hd] using hm

/-- A waiter that a call holds stays with it until that call hands it off. -/
theorem Owned.claim_held (hn : ∀ v, a.entrust c m ≠ some (w, v)) (hm : w ∈ (sh d).hand) :
    Claim (a.apply c m) (update sh c y) w (.held d) := by
  have hq := h.queue
  refine .held (d := d) ?_
  by_cases hd : d = c
  · subst hd
    rw [update_self]
    cases a with
    | nop => exact hq.2.1.symm.subset hm
    | clearContainer w' =>
      obtain ⟨-, -, -, hh | ⟨-, -, hx, -⟩⟩ := hq
      · exact hh.symm.subset (List.mem_cons_of_mem _ hm)
      · simp [hx] at hm
    | handOff w' =>
      obtain rfl | hm' := List.mem_cons.mp (hq.2.2.2.1.subset hm)
      · obtain ⟨s, -, -, -, -, hg, hc⟩ := O.handOff_of L K hm hq.2.2.2.2
        simp [Access.entrust, hg, hc] at hn
      · exact hm'
    | handOffLost w' | wakeupPthread w' =>
      obtain rfl | hm' := List.mem_cons.mp (hq.2.2.2.1.subset hm)
      · simp [Access.entrust] at hn
      · exact hm'
    | moveContainer w' b => exact hq.elim
    | _ => simp only [QueueChange] at hq; grind
  · simpa [hd] using hm

/-- A call that is to push a sleeping one keeps it until it pushes it or makes a timer for it. -/
theorem Owned.claim_wake (hn : ∀ v, a.entrust c m ≠ some (w, v)) (hx : (sh d).wake = some w) :
    Claim (a.apply c m) (update sh c y) w (.waking d) := by
  have hsl := h.sleep
  refine .wake (d := d) ?_
  by_cases hd : d = c
  · subst hd
    rw [update_self]
    cases a with
    | push t =>
      obtain hP | ⟨hy, hr, e, hx', hyw, ht⟩ | ⟨-, hyw, -⟩ := h.push t rfl
      · rw [hP.1, hx]
      · obtain rfl : e = w := Option.some.inj (hx'.symm.trans hx)
        simp [Access.entrust, O.call_of_wake L K hx' ht] at hn
      · rw [hyw, hx]
    | schedule fn =>
      obtain ⟨-, -, ⟨-, -, hy⟩ | ⟨e, rfl, he, -⟩⟩ := hsl
      · rw [hy, hx]
      · simp_all [Access.entrust]
    | unschedule j =>
      obtain ⟨-, ⟨-, hy, -⟩ | ⟨⟨e, -, hx', -⟩, -⟩ | ⟨-, -, hy, -⟩⟩ := hsl
      · rw [hy, hx]
      · simp [hx] at hx'
      · rw [hy, hx]
    | _ => simp only [SleepChange] at hsl; grind
  · simpa [hd] using hx

/-- An interrupter that has taken the timer off keeps the sleeping call until it pushes it. -/
theorem Owned.claim_rescue {i : TimerId} (hn : ∀ v, a.entrust c m ≠ some (w, v))
    (hx : (sh d).rescue = some i)
    (hf : m.timerFn i = some (.readyToRunFromTimerThread w)) :
    Claim (a.apply c m) (update sh c y) w (.waking d) := by
  have hsl := h.sleep
  refine .rescue (d := d) (i := i) ?_ (K.timerFn_mono c a hf)
  by_cases hd : d = c
  · subst hd
    rw [update_self]
    cases a with
    | push t =>
      obtain hP | ⟨-, hyr, -⟩ | ⟨hy, hyw, j, hx', hr, ht⟩ := h.push t rfl
      · rw [hP.2.1, hx]
      · rw [hyr, hx]
      · obtain rfl : j = i := Option.some.inj (hx'.symm.trans hx)
        simp [Access.entrust, O.call_of_rescue L K hx' ht hf] at hn
    | unschedule j =>
      obtain ⟨-, ⟨-, -, hy⟩ | ⟨-, hy⟩ | ⟨-, hx', -⟩⟩ := hsl
      · rw [hy, hx]
      · rw [hy, hx]
      · simp [hx] at hx'
    | _ => simp only [SleepChange] at hsl; grind
  · simpa [hd] using hx

/-- **Claims last** until the call is handed over.

**Proof sketch.** Case by case over what gives the claim: another call leaves it alone, and the one
whose claim it is gives it up only in an access that hands the call over. -/
theorem Owned.claim_keep (R : Running m sh) (hn : ∀ v, a.entrust c m ≠ some (w, v))
    (hu : Claim m sh w u) : Claim (a.apply c m) (update sh c y) w u := by
  cases hu with
  | callback hp => exact O.claim_callback L K h hn hp
  | switched hp => exact O.claim_switched L K h hn hp
  | linked hm => exact claim_linked hn hm
  | unlinked hm => exact O.claim_unlinked L K h hn hm
  | held hm => exact O.claim_held L K h hn hm
  | remained hr => exact claim_remained hn hr
  | timer hf hp => exact R.claim_timer K h hn hf hp
  | wake hx => exact O.claim_wake L K h hn hx
  | rescue hx hf => exact O.claim_rescue L K h hn hx hf

end Step

/-- Whoever hands a call over leaves a claim to it. -/
theorem Shape.Step.claim_new (K : Known m sh) (h : Shape.Step c m a (sh c) y)
    (he : a.entrust c m = some (w, u)) (hu : u.Waits) (hne : u ≠ .held w) :
    Claim (a.apply c m) (update sh c y) w u := by
  have hq := h.queue
  have hsl := h.sleep
  cases a with
  | append b w' =>
    obtain ⟨rfl, rfl⟩ : w' = w ∧ .linked b = u := by simpa [Access.entrust] using he
    exact .linked (by simp [Access.apply])
  | removeFromList w' =>
    obtain ⟨rfl, rfl⟩ : w' = w ∧ .unlinked c = u := by simpa [Access.entrust] using he
    exact .unlinked (by simp [hq.2.2.1])
  | clearContainer w' =>
    obtain ⟨rfl, rfl⟩ : w' = w ∧ .held c = u := by simpa [Access.entrust] using he
    obtain ⟨-, -, -, hh | ⟨rfl, -⟩⟩ := hq
    · exact .held (by simpa using hh.symm.subset List.mem_cons_self)
    · exact absurd rfl hne
  | schedule fn =>
    cases fn with
    | eraseFromButexAndWakeup _ => simp [Access.entrust] at he
    | readyToRunFromTimerThread e =>
      obtain ⟨rfl, rfl⟩ : e = w ∧ .timer m.nextTimer = u := by simpa [Access.entrust] using he
      exact .timer (by simp [Access.apply]) (by simp [Access.apply])
  | unschedule i =>
    by_cases hp : m.timerState i = .pending
    · obtain ⟨hs, rfl⟩ : m.sleeper i = some w ∧ .waking c = u := by
        cases hsl : m.sleeper i <;> simp_all [Access.entrust]
      have hf := sleeper_eq_some.mp hs
      obtain ⟨-, ⟨⟨w', hx⟩, -⟩ | ⟨⟨e, hx, -, hy⟩, -⟩ | ⟨-, -, -, hy⟩⟩ := hsl
      · simp [K.timer c i _ hx] at hf
      · obtain rfl : e = w := by simpa [K.timer c i _ hx] using hf
        exact .wake (d := c) (by simp [hy, hp])
      · exact .rescue (d := c) (i := i) (by simp [hy, hp]) hf
    · simp [Access.entrust, hp] at he
  | fire i =>
    obtain ⟨hs, rfl⟩ : m.sleeper i = some w ∧ .waking c = u := by
      cases hsl : m.sleeper i <;> simp_all [Access.entrust]
    have hf := sleeper_eq_some.mp hs
    obtain ⟨-, -, -, -, -, ⟨⟨w', hf'⟩, -⟩ | ⟨e, hf', hy⟩⟩ := hsl
    · simp [hf'] at hf
    · obtain rfl : e = w := by simpa [hf'] using hf
      exact .wake (d := c) (by simp [hy])
  | push t =>
    obtain ⟨-, rfl⟩ : m.call (getSlot t) = some w ∧ .pushed = u := by
      cases hc : m.call (getSlot t) <;> simp_all [Access.entrust]
    exact hu.elim
  | handOff w' =>
    obtain ⟨-, rfl⟩ : m.call (getSlot (m.tid w')) = some w ∧ .pushed = u := by
      cases hc : m.call (getSlot (m.tid w')) <;> simp_all [Access.entrust]
    exact hu.elim
  | handOffLost w' =>
    obtain ⟨rfl, rfl⟩ : w' = w ∧ .lost = u := by simpa [Access.entrust] using he
    exact hu.elim
  | wakeupPthread w' =>
    obtain ⟨rfl, rfl⟩ : w' = w ∧ .signalled = u := by simpa [Access.entrust] using he
    exact hu.elim
  | suspendWait t =>
    obtain ⟨rfl, rfl⟩ : c = w ∧ .callback = u := by simpa [Access.entrust] using he
    exact .callback (t := t) (by simp [h.phase.2])
  | suspendYield t =>
    obtain ⟨rfl, rfl⟩ : c = w ∧ .callback = u := by simpa [Access.entrust] using he
    exact .switched (t := t) (by simp [h.phase.2])
  | suspendSleep t =>
    obtain ⟨rfl, rfl⟩ : c = w ∧ .remained = u := by simpa [Access.entrust] using he
    exact .remained (by simp [Access.apply])
  | runRemained e =>
    obtain ⟨rfl, rfl⟩ : e = w ∧ .waking c = u := by simpa [Access.entrust] using he
    exact .wake (d := c) (by simp [hsl.2.2.1])
  | _ => simp [Access.entrust] at he

/-- One call holds the lock of a butex. -/
theorem Locked.lock_unique (L : Locked m sh) {b : ButexId} (hc : (sh c).lock = some b)
    (hd : (sh d).lock = some b) : c = d :=
  Option.some.inj (((L.waiterLock b c).mpr hc).symm.trans ((L.waiterLock b d).mpr hd))

/-- Only a call itself takes it out of no custody, and it is not fresh after that. -/
theorem Shape.Step.entrust_of_none (L : Locked m sh) (K : Known m sh) (O : Owned m sh)
    (h : Shape.Step c m a (sh c) y) (hw : m.tainted w = false) (hu : m.custody w = .none)
    (he : a.entrust c m = some (w, u)) :
    w = c ∧ (sh c).fresh = true ∧ y.fresh = false := by
  have hm := (O.handover L K h hw he).1
  rw [hu] at hm
  have hq := h.queue
  cases hm with
  | callback =>
    cases a with
    | suspendWait t =>
      obtain rfl : c = w := by simpa [Access.entrust] using he
      exact ⟨rfl, (h.ages.waits t (.inl rfl)).2.1, (h.ages.waits t (.inl rfl)).2.2.1⟩
    | suspendYield t =>
      obtain rfl : c = w := by simpa [Access.entrust] using he
      exact ⟨rfl, h.ages.yields t rfl⟩
    | schedule fn => cases fn <;> simp [Access.entrust] at he
    | _ => simp_all [Access.entrust]
  | remained =>
    cases a with
    | suspendSleep t =>
      obtain rfl : c = w := by simpa [Access.entrust] using he
      exact ⟨rfl, (h.ages.waits t (.inr rfl)).2.1, (h.ages.waits t (.inr rfl)).2.2.1⟩
    | schedule fn => cases fn <;> simp [Access.entrust] at he
    | _ => simp_all [Access.entrust]
  | @enqueue b =>
    obtain rfl := eq_append he
    obtain ⟨-, -, -, -, -, ⟨rfl, -, -, -, -, -, hf, ⟨hx, -⟩ | ⟨s, hx⟩⟩ | ⟨hx, -⟩⟩ := hq
    · exact ⟨rfl, hx, hf⟩
    · simp [(O.task w s _ hx).2] at hu
    · simp [O.sound w _ hw (.unlinked (d := c) (by simp [hx]))] at hu

/-- A call that is waiting for its own callback is only handed over by itself. -/
theorem Shape.Step.entrust_of_callback (L : Locked m sh) (K : Known m sh) (O : Owned m sh)
    (h : Shape.Step c m a (sh c) y) (hw : m.tainted w = false) (hu : m.custody w = .callback)
    (he : a.entrust c m = some (w, u)) :
    w = c ∧ ((∃ b, a = .append b c) ∨ ∃ t, a = .push t ∧ u = .pushed ∧ ∃ s,
      m.metaTid s = t ∧ getSlot t = s ∧ (m.run s = .switched ∨ m.run s = .blocked) ∧
        y.phase = some (s, .suspended)) := by
  have hm := (O.handover L K h hw he).1
  rw [hu] at hm
  have hq := h.queue
  cases hm with
  | @append b =>
    obtain rfl := eq_append he
    obtain ⟨-, -, -, -, -, ⟨rfl, -, -, -, -, -, hf, -⟩ | ⟨hx, -⟩⟩ := hq
    · exact ⟨rfl, .inl ⟨b, rfl⟩⟩
    · simp [O.sound w _ hw (.unlinked (d := c) (by simp [hx]))] at hu
  | requeue =>
    cases a with
    | push t =>
      obtain ⟨s, hs, rfl, hP⟩ := O.pushes_of L K (h.push t rfl)
      cases hP with
      | start _ _ hc _ => simp [Access.entrust, hc] at he
      | requeue hx hr hc hu' hy =>
        obtain rfl : c = w := by simpa [Access.entrust, hc] using he
        exact ⟨rfl, .inr ⟨t, rfl, rfl, _, hs, rfl, hr, hy⟩⟩
      | wake e _ hc hu' _ _ _ _ =>
        obtain rfl : e = w := by simpa [Access.entrust, hc] using he
        simp [hu] at hu'
    | handOff w' =>
      obtain ⟨s, -, -, hu', -, hg, hc⟩ := O.handOff_of L K
        (hq.2.2.2.1.symm.subset List.mem_cons_self) hq.2.2.2.2
      obtain rfl : w' = w := by simpa [Access.entrust, hg, hc] using he
      simp [hu] at hu'
    | schedule fn => cases fn <;> simp [Access.entrust] at he
    | _ => simp_all [Access.entrust]

section Step

variable (L : Locked m sh) (K : Known m sh) (R : Running m sh) (O : Owned m sh)
  (h : Shape.Step c m a (sh c) y)
include L K O h

include R in
theorem Owned.complete_step (w : CallId) (hw : (a.apply c m).tainted w = false)
    (hu : ((a.apply c m).custody w).Waits) (hne : (a.apply c m).custody w ≠ .held w) :
    Claim (a.apply c m) (update sh c y) w ((a.apply c m).custody w) := by
  have hw := tainted_of_apply hw
  by_cases hn : ∃ v, a.entrust c m = some (w, v)
  · obtain ⟨v, he⟩ := hn
    rw [custody_of_entrust he] at hu hne ⊢
    exact h.claim_new K he hu hne
  · have hn' : ∀ v, a.entrust c m ≠ some (w, v) := fun v hv => hn ⟨v, hv⟩
    rw [custody_of_not_entrust hn'] at hu hne ⊢
    exact O.claim_keep L K h R hn' (O.complete w hw hu hne)

end Step

end Bthread
