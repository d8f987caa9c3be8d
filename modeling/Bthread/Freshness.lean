import Bthread.Sleeps
import Bthread.Interruptions
import Bthread.Lending

set_option relaxedAutoImplicit false
set_option autoImplicit false

/-!
# The sleep that an interrupter ends

`current_sleep` is stored by `_add_sleep_event` when the timer is already armed. The sleeping
bthread may have been woken by then, and may have gone on to something else.

## Main definitions

* `Bthread.StoresInTime` — `_add_sleep_event` stores the timer of a sleep that has not ended.
* `Bthread.Fresh`, `Bthread.Excludes`, `Bthread.Armed` — the invariants.
* `Bthread.SleepFresh` — `current_sleep` belongs to the sleep that the bthread is in.

## Main results

* `Bthread.sleepFresh` — it does in every run whose stores are in time.
* `Bthread.not_sleepFresh` — it does not in all runs.
-/

namespace Bthread

open Function (update update_self update_of_ne)
open Conc (Ensures)

variable {s : State} {c d e : CallId} {w : Option CallId} {m : Mem} {a : Access} {p p' : Pc}
  {k : Move} {t : SlotId} {tid : Tid} {i sl : TimerId} {j : Bool}

/-- `usleep` is suspended, or was released and has not executed `current_sleep = 0`. -/
def Pc.Sleeps (t : SlotId) : Pc → Prop
  | .usleep t' .suspended | .usleep t' .clearSleep => t' = t
  | _ => False

/-- `_add_sleep_event` stores the timer of a sleep only while the bthread has not executed
`current_sleep = 0` at the end of it. -/
def StoresInTime (s : State) (x : CallId × Move) : Prop :=
  ∀ e tid i, s.pc x.1 = .addSleepEvent e tid (.setSleep i) → (s.pc e).Sleeps (getSlot tid)

/-! ## Who stores to `current_sleep` -/

/-- The accesses that store to `current_sleep`, and where they are made. -/
inductive SleepStore (p : Pc) : Access → Pc → Prop
  | keep {a : Access} {p' : Pc} (h : ∀ t i, a ≠ .setCurrentSleep t i) : SleepStore p a p'
  /-- `_add_sleep_event`. -/
  | add {e : CallId} {tid : Tid} {i : TimerId} {p' : Pc}
      (hp : p = .addSleepEvent e tid (.setSleep i)) (hp' : p' = .addSleepEvent e tid .unlockSet) :
      SleepStore p (.setCurrentSleep (getSlot tid) i) p'
  /-- `interrupt`. -/
  | take {tid : Tid} {j : Bool} {w : Option CallId} {sl : TimerId} {p' : Pc}
      (hp : p = .interrupt tid j (.clearSleep w sl))
      (hp' : p' = .interrupt tid j (.setInterrupted w sl)) :
      SleepStore p (.setCurrentSleep (getSlot tid) 0) p'
  /-- `usleep`. -/
  | wake {t : SlotId} {p' : Pc} (hp : p = .usleep t .clearSleep) :
      SleepStore p (.setCurrentSleep t 0) p'

/-- **Who stores to `current_sleep`.** -/
theorem control_stores : Ensures (control c p k m) (SleepStore p) := by
  intro a p' hc
  obtain h | rfl | ⟨tid, worker, q, rfl⟩ | ⟨t, q, rfl⟩ | ⟨e, tid, q, rfl⟩ | ⟨t, q, rfl⟩ :=
    control_plain _ _ hc
  · exact .keep h.1
  all_goals
    revert a p'
    change Ensures _ _
    cases k
  case inr.inl.call f =>
    simp only [control]
    fun_cases begin f m
    all_goals first
      | exact Conc.ensures_none _
      | rw [Conc.ensures_some]; exact .keep (by simp)
  all_goals first
    | exact Conc.ensures_none _
    | rw [control, ensures_within]
  case inr.inr.inl.next o =>
    fun_cases interrupt tid worker true q m
    case case16 w e =>
      rw [Conc.ensures_inside]
      exact eraseFromButex_keepsMeta.mono fun a r h => .keep h.2.1
    all_goals first
      | exact Conc.ensures_none _
      | rw [Conc.ensures_goto]; exact .take rfl rfl
      | rw [Conc.ensures_goto]; exact .keep (by simp)
      | rw [Conc.ensures_ret]; exact .keep (by simp)
  case inr.inr.inr.inl.next o =>
    fun_cases usleep t q m
    all_goals first
      | exact Conc.ensures_none _
      | rw [Conc.ensures_goto]; exact .wake rfl
      | rw [Conc.ensures_goto]; exact .keep (by simp)
      | rw [Conc.ensures_ret]; exact .keep (by simp)
  case inr.inr.inr.inr.inl.next o =>
    fun_cases addSleepEvent e tid q o m
    all_goals first
      | exact Conc.ensures_none _
      | rw [Conc.ensures_goto]; exact .add rfl rfl
      | rw [Conc.ensures_goto]; exact .keep (by simp)
      | rw [Conc.ensures_ret]; exact .keep (by simp)
  case inr.inr.inr.inr.inr.next o =>
    fun_cases endTask t q m
    case case8 q =>
      rw [Conc.ensures_inside]
      exact butexWakeExcept_keepsMeta.mono fun a r h => .keep h.2.1
    all_goals first
      | exact Conc.ensures_none _
      | rw [Conc.ensures_goto]; exact .keep (by simp)
      | rw [Conc.ensures_ret]; exact .keep (by simp)

/-- A timer is stored by the `_add_sleep_event` that has made it. -/
theorem eq_of_setCurrentSleep (hc : control c p k m = some (.setCurrentSleep t i, p'))
    (hi : i ≠ 0) : ∃ e tid, p = .addSleepEvent e tid (.setSleep i) ∧ t = getSlot tid ∧
      (p.shape c).timer = some (i, .readyToRunFromTimerThread e) := by
  have hs := control_stores _ _ hc
  generalize ha : Access.setCurrentSleep t i = a at hs
  cases hs with
  | keep h => exact absurd ha.symm (h t i)
  | @add e tid i' _ hp hp' =>
    cases ha
    exact ⟨e, tid, hp, rfl, by rw [hp]; rfl⟩
  | take hp hp' =>
    cases ha
    exact absurd rfl hi
  | wake hp =>
    cases ha
    exact absurd rfl hi

/-- A sleeping bthread leaves its sleep with `current_sleep = 0`. -/
theorem control_sleeps (hc : control c p k m = some (a, p')) (hp : p.Sleeps t) :
    p'.Sleeps t ∨ a = .setCurrentSleep t 0 := by
  cases p with
  | usleep t' q =>
    cases k with
    | call f => simp [control] at hc
    | next o =>
      cases q with
      | suspended =>
        obtain rfl : t' = t := hp
        simp only [control, usleep] at hc
        split at hc
        · simp only [within, Conc.goto, Sum.elim_inl, Option.some.injEq, Prod.mk.injEq] at hc
          obtain ⟨-, rfl⟩ := hc
          exact .inl rfl
        · cases hc
      | clearSleep =>
        obtain rfl : t' = t := hp
        simp only [control, usleep, within, Conc.goto, Sum.elim_inl, Option.some.injEq,
          Prod.mk.injEq] at hc
        exact .inr hc.1.symm
      | _ => exact hp.elim
  | _ => exact hp.elim

/-! ## Where calls come from and go to -/

/-- Whoever sleeps was switched out by `usleep`, and has been resumed at the end of it. -/
theorem control_usleep {q : UsleepPc} (h : control c p k m = some (a, .usleep t q)) :
    (∃ f, k = .call f ∧ q = .init) ∨
      ∃ q₀, p = .usleep t q₀ ∧ usleep t q₀ m = some (a, .inl q) := by
  cases k with
  | call f =>
    left
    cases p with
    | idle =>
      cases f with
      | butexWaitFromPthread y =>
        cases ht : y.task <;> simp [control, begin, ht] at h
      | fire i =>
        cases ht : m.timerFn i <;> simp [control, begin, ht] at h
      | usleep t' =>
        simp only [control, begin, Option.ite_none_right_eq_some, Option.some.injEq,
          Prod.mk.injEq, Pc.usleep.injEq] at h
        exact ⟨_, rfl, h.2.2.2.symm⟩
      | _ => simp [control, begin] at h
    | _ => simp [control] at h
  | next o =>
    right
    cases p with
    | usleep t' q₀ =>
      obtain ⟨q', hq, hp⟩ | ⟨v, -, hp⟩ := within_eq h
      · cases hp
        exact ⟨q₀, rfl, hq⟩
      · cases hp
    | idle | done r => simp [control] at h
    | _ =>
      obtain ⟨q', -, hp⟩ | ⟨v, -, hp⟩ := within_eq h
      · cases hp
      · cases hp

/-- A sleep is switched out after it has constructed its argument. -/
theorem control_suspended (h : control c p k m = some (a, .usleep t .suspended)) :
    p = .usleep t .sched ∧ a = .suspendSleep t := by
  obtain ⟨f, -, hq⟩ | ⟨q₀, rfl, hq⟩ := control_usleep h
  · cases hq
  · cases q₀ with
    | sched => exact ⟨rfl, by simpa [usleep, Conc.goto] using hq.symm⟩
    | _ =>
      simp only [usleep] at hq
      first
      | split at hq <;> simp [Conc.goto] at hq
      | simp [Conc.goto, Conc.ret] at hq

/-- A sleep ends when its bthread is resumed. -/
theorem control_clearSleep (h : control c p k m = some (a, .usleep t .clearSleep)) :
    p = .usleep t .suspended ∧ a = .nop := by
  obtain ⟨f, -, hq⟩ | ⟨q₀, rfl, hq⟩ := control_usleep h
  · cases hq
  · cases q₀ with
    | suspended =>
      simp only [usleep] at hq
      split at hq
      · exact ⟨rfl, by simpa [Conc.goto] using hq.symm⟩
      · cases hq
    | _ =>
      simp only [usleep] at hq
      first
      | split at hq <;> simp [Conc.goto] at hq
      | simp [Conc.goto, Conc.ret] at hq

/-- An interrupter goes on by itself. -/
theorem control_interrupt_inv {q : InterruptPc}
    (h : control c p k m = some (a, .interrupt tid j q)) :
    q = .addressMeta ∨ ∃ q₀, p = .interrupt tid j q₀ ∧
      interrupt tid j true q₀ m = some (a, .inl q) := by
  cases k with
  | call f =>
    left
    cases p with
    | idle =>
      cases f with
      | butexWaitFromPthread y =>
        cases ht : y.task <;> simp [control, begin, ht] at h
      | fire i =>
        cases ht : m.timerFn i <;> simp [control, begin, ht] at h
      | interrupt tid' j' =>
        simp only [control, begin, Option.some.injEq, Prod.mk.injEq, Pc.interrupt.injEq] at h
        exact h.2.2.2.symm
      | _ => simp [control, begin] at h
    | _ => simp [control] at h
  | next o =>
    right
    cases p with
    | interrupt t' j' q₀ =>
      obtain ⟨q', hq, hp⟩ | ⟨v, -, hp⟩ := within_eq h
      · cases hp
        exact ⟨q₀, rfl, hq⟩
      · cases hp
    | idle | done r => simp [control] at h
    | _ =>
      obtain ⟨q', -, hp⟩ | ⟨v, -, hp⟩ := within_eq h
      · cases hp
      · cases hp

/-! ## What interrupters have read -/

/-- The waiter and the `sleep_id` that `interrupt` has taken from the `TaskMeta` and has not dealt
with. -/
def InterruptPc.read : InterruptPc → Option (Option CallId × TimerId)
  | .clearSleep w sl | .setInterrupted w sl | .unlock w sl | .check w sl => some (w, sl)
  | .unschedule sl => some (none, sl)
  | _ => none

/-- `sleep_id` is read under `version_lock`, and is kept. -/
theorem interrupt_read {q q' : InterruptPc}
    (h : interrupt tid j true q m = some (a, .inl q')) (hq : q'.read = some (w, sl)) :
    (q = .loadSleep w ∧ a = .nop ∧ q' = .clearSleep w sl ∧ sl = m.currentSleep (getSlot tid)) ∨
      q.read = some (w, sl) ∧ (∀ w sl, q' ≠ .clearSleep w sl) ∧
        (∀ w sl, q' = .setInterrupted w sl → a = .setCurrentSleep (getSlot tid) 0) ∧
        ∀ i, q' = .unschedule i → i ≠ 0 := by
  have : Ensures (interrupt tid j true q m) fun a r => ∀ q' w sl, r = .inl q' →
      q'.read = some (w, sl) →
        (q = .loadSleep w ∧ a = .nop ∧ q' = .clearSleep w sl ∧
          sl = m.currentSleep (getSlot tid)) ∨
        q.read = some (w, sl) ∧ (∀ w sl, q' ≠ .clearSleep w sl) ∧
          (∀ w sl, q' = .setInterrupted w sl → a = .setCurrentSleep (getSlot tid) 0) ∧
          ∀ i, q' = .unschedule i → i ≠ 0 := by
    fun_cases interrupt tid j true q m
    case case16 w' e =>
      rw [Conc.ensures_inside]
      intro a x _ q' w sl hr hq'
      rcases x with x | x <;> cases hr <;> cases hq'
    all_goals simp [InterruptPc.read]
    all_goals grind
  exact this a _ h q' w sl rfl hq

/-- An interrupter drops a `sleep_id` with a waiter, when it is `0`, or when it has called
`unschedule`. -/
theorem interrupt_leaves {q : InterruptPc} {r : InterruptPc ⊕ InterruptResult}
    (h : interrupt tid j true q m = some (a, r)) (hq : q.read = some (w, sl)) :
    (∃ q', r = .inl q' ∧ q'.read = some (w, sl)) ∨ w ≠ none ∨ sl = 0 ∨ a = .unschedule sl := by
  have : Ensures (interrupt tid j true q m) fun a r => ∀ w sl, q.read = some (w, sl) →
      (∃ q', r = .inl q' ∧ q'.read = some (w, sl)) ∨ w ≠ none ∨ sl = 0 ∨
        a = .unschedule sl := by
    fun_cases interrupt tid j true q m
    case case16 w' e =>
      rw [Conc.ensures_inside]
      intro a x _ w sl hq'
      cases hq'
    all_goals simp [InterruptPc.read]
  exact this a _ h w sl hq

/-! ## The sleep of a bthread -/

/-- A sleep is a call of its task. -/
theorem Pc.Sleeps.phase (h : p.Sleeps t) : ∃ φ, (p.shape c).phase = some (t, φ) ∧
    (φ = .suspended ∨ φ = .active) ∧ (p.shape c).built = true := by
  unfold Pc.Sleeps at h
  split at h
  · obtain rfl := h
    exact ⟨_, rfl, .inl rfl, rfl⟩
  · obtain rfl := h
    exact ⟨_, rfl, .inr rfl, rfl⟩
  · exact h.elim

/-- A sleep has lent no waiter. -/
theorem Pc.Sleeps.lends (h : p.Sleeps t) : p.lends = none := by
  unfold Pc.Sleeps at h
  split at h
  · rfl
  · rfl
  · exact h.elim

/-- The identifier in the argument of a sleep is that of the task. -/
theorem tid_of_sleeps (hs : system.Reachable s) (he : (s.pc e).Sleeps t) :
    s.mem.tid e = s.mem.metaTid t := by
  refine system_invariant (C := fun _ _ => True)
    (I := fun s => ∀ e t, (s.pc e).Sleeps t → s.mem.tid e = s.mem.metaTid t)
    (fun m hm e t h => h.elim) ?_ hs e t he
  intro s c k a p hr ih _ hc h e t he
  have L := locked hr
  have K := known hr
  have O := owned hr
  -- the task of a sleep is not being started
  have keep (hp : (s.pc e).Sleeps t) :
      (s.after c a p).mem.tid e = (s.after c a p).mem.metaTid t := by
    obtain ⟨φ, hφ, hne, hb⟩ := hp.phase (c := e)
    have hx : (s.shape c).phase ≠ some (t, .starting) := by
      intro hx
      obtain rfl := O.unique e c t φ _ hφ hx
      obtain rfl : φ = .starting := by simpa [State.shape, hφ] using hx
      obtain h | h := hne <;> cases h
    exact (h.tid_eq hb).trans ((ih e t hp).trans (h.metaTid_keep hx).symm)
  by_cases hec : e = c
  · subst hec
    have hp : p.Sleeps t := by simpa using he
    unfold Pc.Sleeps at hp
    split at hp
    · obtain rfl := hp
      obtain ⟨hp, rfl⟩ := control_suspended hc
      exact O.self e _ (by rw [State.shape, hp]; rfl)
    · obtain rfl := hp
      obtain ⟨hp, rfl⟩ := control_clearSleep hc
      exact keep (by rw [hp]; rfl)
    · exact hp.elim
  · exact keep (by simpa [hec] using he)

/-- Who writes `current_sleep`. -/
theorem currentSleep_apply : (a.apply c m).currentSleep t = m.currentSleep t ∨
    ∃ i, a = .setCurrentSleep t i ∧ (a.apply c m).currentSleep t = i := by
  cases a with
  | setCurrentSleep t' i =>
    by_cases ht : t = t'
    · subst ht
      exact .inr ⟨i, rfl, by simp [Access.apply]⟩
    · exact .inl (by simp [Access.apply, ht])
  | _ => exact .inl rfl

/-- `current_sleep` and what interrupters have read from it. -/
structure Fresh (s : State) : Prop where
  current : ∀ t, s.mem.currentSleep t ≠ 0 → ∃ e, (s.pc e).Sleeps t ∧
    s.mem.timerFn (s.mem.currentSleep t) = some (.readyToRunFromTimerThread e)
  read : ∀ d tid j q w sl, s.pc d = .interrupt tid j q → q.read = some (w, sl) → sl ≠ 0 →
    w = none ∧ ∃ e, s.mem.timerFn sl = some (.readyToRunFromTimerThread e) ∧ s.mem.tid e = tid
  unschedule : ∀ d tid j i, s.pc d = .interrupt tid j (.unschedule i) → i ≠ 0

/-- An interrupter that finds a sleep has found no waiter, and the sleep is one of the bthread that
it interrupts. -/
theorem Fresh.load (hi : Fresh s) (hs : system.Reachable s)
    (hd : s.pc d = .interrupt tid j (.loadSleep w)) (h₀ : s.mem.currentSleep (getSlot tid) ≠ 0) :
    w = none ∧ ∃ e, s.mem.timerFn (s.mem.currentSleep (getSlot tid)) =
      some (.readyToRunFromTimerThread e) ∧ s.mem.tid e = tid := by
  have O := owned hs
  obtain ⟨e, he, hf⟩ := hi.current (getSlot tid) h₀
  obtain ⟨φ, hφ, hne, -⟩ := he.phase (c := e)
  refine ⟨?_, e, hf, ?_⟩
  · -- a task that has lent a waiter is in a wait
    by_contra hw
    obtain ⟨v, rfl⟩ := Option.ne_none_iff_exists'.mp hw
    have hl := ((lent hs).taken d tid v (by rw [hd]; rfl)).1
    obtain ⟨ψ, hψ, -⟩ := Pc.lends_phase (c := v) hl
    obtain rfl := O.unique v e _ ψ φ hψ hφ
    rw [he.lends] at hl
    cases hl
  · have hn : φ ≠ .starting := by obtain rfl | rfl := hne <;> simp
    have hslot := (O.slot_of_phase hφ hn).1
    have hrun : s.mem.run (getSlot tid) ≠ .ended := by
      have ht := O.task e _ φ hφ
      obtain rfl | rfl := hne
      · simp only [TaskOk] at ht
        grind
      · simp only [TaskOk] at ht
        simp [ht]
    have hv := (O.version _ (O.identified_of_phase hφ hn) hrun).resolve_right <| by
      rintro ⟨c, hc | hc⟩
      all_goals
        obtain rfl := O.unique e c _ φ _ hφ hc
        obtain rfl : φ = _ := by simpa [State.shape, hφ] using hc
        simp at hne
    have hm : s.mem.value (.version (getSlot tid)) = getVersion tid :=
      (known hs).matched d tid (by rw [State.shape, hd]; rfl)
    calc s.mem.tid e = s.mem.metaTid (getSlot tid) := tid_of_sleeps hs he
      _ = makeTid (getVersion (s.mem.metaTid (getSlot tid)))
          (getSlot (s.mem.metaTid (getSlot tid))) := (makeTid_getVersion_getSlot _).symm
      _ = makeTid (getVersion tid) (getSlot tid) := by rw [hslot, ← hv, hm]
      _ = tid := makeTid_getVersion_getSlot tid

/-- Every access that stores in time keeps it that `current_sleep` is the sleep of the bthread. -/
theorem Fresh.step (hi : Fresh s) (hs : system.Reachable s) (hC : StoresInTime s (c, k))
    (hc : control c (s.pc c) k s.mem = some (a, p))
    (h : Shape.Step c s.mem a (s.shape c) (p.shape c)) : Fresh (s.after c a p) := by
  have K := known hs
  have keep {i : TimerId} {tid : Tid} (hx : ∃ e,
      s.mem.timerFn i = some (.readyToRunFromTimerThread e) ∧ s.mem.tid e = tid) :
      ∃ e, (s.after c a p).mem.timerFn i = some (.readyToRunFromTimerThread e) ∧
        (s.after c a p).mem.tid e = tid := by
    obtain ⟨e, hf, rfl⟩ := hx
    exact ⟨e, K.timerFn_mono c a hf, h.tid_eq (K.memBuilt e (.inr (.inr (.inl ⟨i, _, hf, rfl⟩))))⟩
  refine ⟨fun t ht => ?_, fun d tid j q w sl hd hq h₀ => ?_, fun d tid j i hd => ?_⟩
  · obtain he | ⟨i, rfl, he⟩ := currentSleep_apply (c := c) (m := s.mem) (a := a) (t := t)
    · have he' : (s.after c a p).mem.currentSleep t = s.mem.currentSleep t := he
      rw [he'] at ht ⊢
      obtain ⟨e, hp, hf⟩ := hi.current t ht
      refine ⟨e, ?_, K.timerFn_mono c a hf⟩
      by_cases hec : e = c
      · subst hec
        obtain hp | rfl := control_sleeps hc hp
        · simpa using hp
        · -- the sleep has set `current_sleep` to `0`
          rw [← he] at ht
          simp [Access.apply] at ht
      · simpa [hec] using hp
    · have he' : (s.after c (.setCurrentSleep t i) p).mem.currentSleep t = i := he
      rw [he'] at ht ⊢
      obtain ⟨e, tid, hp, rfl, htm⟩ := eq_of_setCurrentSleep hc ht
      have hsl := hC e tid i hp
      have hec : e ≠ c := by
        rintro rfl
        rw [hp] at hsl
        exact hsl
      have hf := K.timer c i _ htm
      exact ⟨e, by simpa [hec] using hsl, K.timerFn_mono c (.setCurrentSleep _ i) hf⟩
  · by_cases hdc : d = c
    · subst hdc
      obtain rfl : p = .interrupt tid j q := by simpa using hd
      obtain rfl | ⟨q₀, hp, hstep⟩ := control_interrupt_inv hc
      · cases hq
      · obtain ⟨rfl, rfl, rfl, rfl⟩ | ⟨hq₀, -⟩ := interrupt_read hstep hq
        · obtain ⟨hw, hx⟩ := hi.load hs hp h₀
          exact ⟨hw, keep hx⟩
        · obtain ⟨hw, hx⟩ := hi.read d tid j q₀ w sl hp hq₀ h₀
          exact ⟨hw, keep hx⟩
    · obtain ⟨hw, hx⟩ := hi.read d tid j q w sl (by simpa [hdc] using hd) hq h₀
      exact ⟨hw, keep hx⟩
  · by_cases hdc : d = c
    · subst hdc
      obtain rfl : p = .interrupt tid j (.unschedule i) := by simpa using hd
      obtain hq | ⟨q₀, hp, hstep⟩ := control_interrupt_inv hc
      · cases hq
      · obtain ⟨-, -, hq, -⟩ | ⟨-, -, -, hq⟩ := interrupt_read hstep rfl
        · cases hq
        · exact hq i rfl
    · exact hi.unschedule d tid j i (by simpa [hdc] using hd)

/-- **`current_sleep` is the sleep of the bthread**, in runs that store in time. -/
theorem fresh (hs : system.ReachableIf StoresInTime s) : Fresh s := by
  refine system_invariant (fun m hm => ?_) (fun s c k a p hr hi hC hc h => ?_) hs
  · refine ⟨fun t ht => absurd (hm.currentSleep t) ht, fun d tid j q w sl hd => ?_,
      fun d tid j i hd => ?_⟩
    · cases hd
    · cases hd
  · exact hi.step hr.reachable hC hc h

/-! ## Sleeps that are interrupted -/

/-- What holds of `current_sleep` and `interrupted` under `version_lock`. -/
structure Excludes (s : State) : Prop where
  read : ∀ d tid j w sl, s.pc d = .interrupt tid j (.clearSleep w sl) →
    s.mem.currentSleep (getSlot tid) ≠ 0 → sl = s.mem.currentSleep (getSlot tid)
  cleared : ∀ d tid j w sl, s.pc d = .interrupt tid j (.setInterrupted w sl) →
    s.mem.currentSleep (getSlot tid) = 0
  tested : ∀ d e tid i, s.pc d = .addSleepEvent e tid (.setSleep i) →
    s.mem.interrupted (getSlot tid) = false
  current : ∀ t, s.mem.currentSleep t ≠ 0 → s.mem.interrupted t = false

/-- `_add_sleep_event` has found that its task was not interrupted. -/
theorem control_setSleep (h : control c p k m = some (a, .addSleepEvent e tid (.setSleep i))) :
    p = .addSleepEvent e tid (.interrupted i) ∧ a = .nop ∧ m.interrupted (getSlot tid) = false := by
  obtain ⟨-, -, hq⟩ | ⟨q₀, o, rfl, hq⟩ := control_addSleepEvent h
  · cases hq
  · have : Ensures (addSleepEvent e tid q₀ o m) fun a r => ∀ i, r = .inl (.setSleep i) →
        q₀ = .interrupted i ∧ a = .nop ∧ m.interrupted (getSlot tid) = false := by
      fun_cases addSleepEvent e tid q₀ o m <;> simp_all
    obtain ⟨rfl, ha, hm⟩ := this a _ hq i rfl
    exact ⟨rfl, ha, hm⟩

/-- Every access keeps what holds under `version_lock`. -/
theorem Excludes.step (hi : Excludes s) (hs : system.Reachable s)
    (hc : control c (s.pc c) k s.mem = some (a, p))
    (h : Shape.Step c s.mem a (s.shape c) (p.shape c)) : Excludes (s.after c a p) := by
  have L := locked hs
  have excl {d : CallId} {t : SlotId} (hd : (s.shape d).vlock = some t)
      (hx : (s.shape c).vlock = some t) : d = c := by
    have hd := (L.versionLock t d).mpr hd
    rw [(L.versionLock t c).mpr hx] at hd
    exact (Option.some.inj hd).symm
  -- another call that holds `version_lock` sees no timer stored
  have stored {d : CallId} {t : SlotId} (hdc : d ≠ c) (hd : (s.shape d).vlock = some t) :
      (s.after c a p).mem.currentSleep t = s.mem.currentSleep t ∨
        (s.after c a p).mem.currentSleep t = 0 := by
    obtain he | ⟨i, rfl, he⟩ := currentSleep_apply (c := c) (m := s.mem) (a := a) (t := t)
    · exact .inl he
    · by_cases h₀ : i = 0
      · exact .inr (he.trans h₀)
      · obtain ⟨e, tid, hp, rfl, -⟩ := eq_of_setCurrentSleep hc h₀
        exact absurd (excl hd (by rw [State.shape, hp]; rfl)) hdc
  -- `interrupted` is set by interrupters under `version_lock`
  have interrupts {t : SlotId} (ht : s.mem.interrupted t = false) :
      (s.after c a p).mem.interrupted t = false ∨ ∃ tid j w sl,
        s.pc c = .interrupt tid j (.setInterrupted w sl) ∧ getSlot tid = t := by
    obtain he | ⟨v, rfl, he⟩ | rfl := interrupted_apply (c := c) (m := s.mem) (a := a) (t := t)
    · exact .inl (he.trans ht)
    · obtain ⟨-, tid, j, w, sl, hp, ht⟩ | ⟨rfl, -⟩ := control_origin _ _ hc
      · exact .inr ⟨tid, j, w, sl, hp, ht⟩
      · exact .inl he
    · exact .inl (by simp [Access.apply])
  refine ⟨fun d tid j w sl hd h₀ => ?_, fun d tid j w sl hd => ?_, fun d e tid i hd => ?_,
    fun t ht => ?_⟩
  · by_cases hdc : d = c
    · subst hdc
      obtain rfl : p = .interrupt tid j (.clearSleep w sl) := by simpa using hd
      obtain hq | ⟨q₀, hp, hstep⟩ := control_interrupt_inv hc
      · cases hq
      · obtain ⟨-, rfl, -, hsl⟩ | ⟨-, hq, -⟩ := interrupt_read hstep rfl
        · exact hsl
        · exact absurd rfl (hq w sl)
    · have hd : s.pc d = .interrupt tid j (.clearSleep w sl) := by simpa [hdc] using hd
      obtain he | he := stored hdc (d := d) (t := getSlot tid) (by rw [State.shape, hd]; rfl)
      · rw [he] at h₀ ⊢
        exact hi.read d tid j w sl hd h₀
      · exact absurd he h₀
  · by_cases hdc : d = c
    · subst hdc
      obtain rfl : p = .interrupt tid j (.setInterrupted w sl) := by simpa using hd
      obtain hq | ⟨q₀, hp, hstep⟩ := control_interrupt_inv hc
      · cases hq
      · obtain ⟨-, -, hq, -⟩ | ⟨-, -, hq, -⟩ := interrupt_read hstep rfl
        · cases hq
        · rw [hq w sl rfl]
          simp [Access.apply]
    · have hd : s.pc d = .interrupt tid j (.setInterrupted w sl) := by simpa [hdc] using hd
      obtain he | he := stored hdc (d := d) (t := getSlot tid) (by rw [State.shape, hd]; rfl)
      · exact he.trans (hi.cleared d tid j w sl hd)
      · exact he
  · by_cases hdc : d = c
    · subst hdc
      obtain rfl : p = .addSleepEvent e tid (.setSleep i) := by simpa using hd
      obtain ⟨-, rfl, ht⟩ := control_setSleep hc
      exact ht
    · have hd : s.pc d = .addSleepEvent e tid (.setSleep i) := by simpa [hdc] using hd
      obtain ht | ⟨tid', j, w, sl, hp, ht⟩ := interrupts (hi.tested d e tid i hd)
      · exact ht
      · refine absurd (excl (t := getSlot tid) ?_ ?_) hdc
        · rw [State.shape, hd]; rfl
        · rw [State.shape, hp, ← ht]; rfl
  · obtain he | ⟨i, rfl, he⟩ := currentSleep_apply (c := c) (m := s.mem) (a := a) (t := t)
    · have hn : s.mem.currentSleep t ≠ 0 := fun h₀ => ht (he.trans h₀)
      obtain hf | ⟨tid, j, w, sl, hp, rfl⟩ := interrupts (hi.current t hn)
      · exact hf
      · exact absurd (hi.cleared c tid j w sl hp) hn
    · have h₀ : i ≠ 0 := fun h₀ => ht (he.trans h₀)
      obtain ⟨e, tid, hp, rfl, -⟩ := eq_of_setCurrentSleep hc h₀
      exact hi.tested c e tid i hp

/-- **A sleep is not stored for an interrupted task.** -/
theorem excludes (hs : system.Reachable s) : Excludes s := by
  refine system_invariant (C := fun _ _ => True) (fun m hm => ?_)
    (fun s c k a p hr hi _ hc h => hi.step hr hc h) hs
  exact ⟨fun d tid j w sl hd => (by cases hd), fun d tid j w sl hd => (by cases hd),
    fun d e tid i hd => (by cases hd), fun t ht => absurd (hm.currentSleep t) ht⟩

/-- `_add_sleep_event` has made the timer and is about to store it, or to remove it when it finds
that the task was interrupted. -/
def AddSleepPc.arms : AddSleepPc → Option TimerId
  | .lock i | .version i | .interrupted i | .setSleep i | .unlockUnset i | .unschedule i => some i
  | _ => none

/-- Who knows the timer of a sleep that has not been resumed. -/
inductive Armed (s : State) (t : SlotId) (e : CallId) (i : TimerId) : Prop
  | callback (d : CallId) (tid : Tid) (q : AddSleepPc) (hd : s.pc d = .addSleepEvent e tid q)
      (hq : q.arms = some i)
  | current (h : s.mem.currentSleep t = i)
  | interrupter (d : CallId) (tid : Tid) (j : Bool) (q : InterruptPc) (w : Option CallId)
      (hd : s.pc d = .interrupt tid j q) (hq : q.read = some (w, i))

/-- `_add_sleep_event` stores its timer or removes it. -/
theorem addSleepEvent_arms {q : AddSleepPc} {o : Outcome} {r : AddSleepPc ⊕ Unit}
    (h : addSleepEvent e tid q o m = some (a, r)) (hq : q.arms = some i) :
    (∃ q', r = .inl q' ∧ q'.arms = some i) ∨ a = .setCurrentSleep (getSlot tid) i ∨
      a = .unschedule i := by
  have : Ensures (addSleepEvent e tid q o m) fun a r => ∀ i, q.arms = some i →
      (∃ q', r = .inl q' ∧ q'.arms = some i) ∨ a = .setCurrentSleep (getSlot tid) i ∨
        a = .unschedule i := by
    fun_cases addSleepEvent e tid q o m <;> simp_all [AddSleepPc.arms]
  exact this a r h i hq

/-- A timer that is to run was to run before, and was not removed. -/
theorem Known.pending_of_apply {sh : CallId → Shape} {f : TimerFn} (K : Known m sh)
    (hf : m.timerFn i = some f) (hp : (a.apply c m).timerState i = .pending) :
    m.timerState i = .pending ∧ a ≠ .unschedule i := by
  cases a with
  | schedule f' => simpa [Access.apply, (K.timerFn i _ hf).2.ne] using hp
  | unschedule i' =>
    by_cases hpi : m.timerState i' = .pending
    · by_cases hii : i = i'
      · subst hii
        simp [Access.apply, hpi] at hp
      · exact ⟨by simpa [Access.apply, hpi, hii] using hp, fun h => hii (by cases h; rfl)⟩
    · have hp₀ : m.timerState i = .pending := by simpa [Access.apply, hpi] using hp
      exact ⟨hp₀, fun h => hpi (by cases h; exact hp₀)⟩
  | fire i' => by_cases hii : i = i' <;> simp_all [Access.apply]
  | finishTimer i' => by_cases hii : i = i' <;> simp_all [Access.apply]
  | _ => exact ⟨hp, by simp⟩

section Armed

variable (hs : system.Reachable s) (hc : control c (s.pc c) k s.mem = some (a, p))
include hs hc

/-- `_add_sleep_event` keeps its timer until it stores it. -/
theorem armed_of_callback {q : AddSleepPc} (he : s.pc e = .usleep t .suspended)
    (hd : s.pc d = .addSleepEvent e tid q) (hq : q.arms = some i) (hun : a ≠ .unschedule i) :
    Armed (s.after c a p) t e i := by
  have hself : (s.shape e).self = some t := by rw [State.shape, he]; rfl
  obtain ⟨-, hslot, -⟩ := (owned hs).tid_of_self (locked hs) hself
  by_cases hdc : d = c
  · subst hdc
    cases k with
    | call f => simp [control, hd] at hc
    | next o =>
      rw [hd] at hc
      have hcopied := (known hs).copied d e tid (by
        rw [State.shape, hd]
        cases q <;> rfl)
      obtain ⟨q', hr, rfl⟩ | ⟨v, hr, rfl⟩ := within_eq hc
      all_goals
        obtain ⟨q'', hq', hq''⟩ | rfl | rfl := addSleepEvent_arms hr hq
      · cases hq'
        exact .callback d tid q' (by simp) hq''
      · exact .current (by simp [Access.apply, hcopied, hslot])
      · exact absurd rfl hun
      · cases hq'
      · exact .current (by simp [Access.apply, hcopied, hslot])
      · exact absurd rfl hun
  · exact .callback d tid q (by simpa [hdc] using hd) hq

/-- A timer in `current_sleep` stays there until an interrupter takes it. -/
theorem armed_of_current (hC : StoresInTime s (c, k)) (he : s.pc e = .usleep t .suspended)
    (hf : s.mem.timerFn i = some (.readyToRunFromTimerThread e)) (hec : e ≠ c)
    (hcur : s.mem.currentSleep t = i) : Armed (s.after c a p) t e i := by
  have K := known hs
  have O := owned hs
  have hne : i ≠ 0 := (K.timerFn i _ hf).1
  have hph : (s.shape e).phase = some (t, .suspended) := by rw [State.shape, he]; rfl
  obtain hcs | ⟨i', rfl, hcs⟩ := currentSleep_apply (c := c) (m := s.mem) (a := a) (t := t)
  · exact .current (hcs.trans hcur)
  by_cases h₀ : i' = 0
  · subst h₀
    have hst := control_stores _ _ hc
    generalize ha : Access.setCurrentSleep t 0 = a at hst
    cases hst with
    | keep h => exact absurd ha.symm (h t 0)
    | @add e' tid i' _ hpc hpc' =>
      cases ha
      exact absurd rfl (K.timerFn 0 _ (K.timer c 0 (.readyToRunFromTimerThread e')
        (by rw [State.shape, hpc]; rfl))).1
    | @take tid j w sl _ hpc hpc' =>
      cases ha
      obtain rfl : sl = i := by
        rw [(excludes hs).read c tid j w sl hpc (hcur ▸ hne), hcur]
      exact .interrupter c tid j (.setInterrupted w sl) w (by simpa using hpc') rfl
    | wake hpc =>
      cases ha
      exact absurd (O.unique e c t .suspended .active hph (by rw [State.shape, hpc]; rfl)) hec
  · -- a timer that is stored is the one of the sleep
    obtain ⟨e', tid, hpc, rfl, htm⟩ := eq_of_setCurrentSleep hc h₀
    have he' := hC e' tid i' hpc
    obtain ⟨φ, hφ, -⟩ := he'.phase (c := e')
    obtain rfl := O.unique e e' _ .suspended φ hph hφ
    exact .current (hcs.trans ((sleeps hs).one e i' i (K.timer c i' _ htm) hf))

end Armed

/-- An interrupter keeps the timer until it calls `unschedule`. -/
theorem armed_of_interrupter (hc : control c (s.pc c) k s.mem = some (a, p)) (hF : Fresh s)
    (hne : i ≠ 0) {q : InterruptPc} (hd : s.pc d = .interrupt tid j q)
    (hq : q.read = some (w, i)) (hun : a ≠ .unschedule i) : Armed (s.after c a p) t e i := by
  by_cases hdc : d = c
  · subst hdc
    cases k with
    | call f => simp [control, hd] at hc
    | next o =>
      rw [hd] at hc
      obtain ⟨hw, -⟩ := hF.read d tid j q w i hd hq hne
      obtain ⟨q', hr, rfl⟩ | ⟨v, hr, rfl⟩ := within_eq hc
      all_goals
        obtain ⟨q'', hq', hq''⟩ | hw' | h₀ | rfl := interrupt_leaves hr hq
      · cases hq'
        exact .interrupter d tid j q' w (by simp) hq''
      · exact absurd hw hw'
      · exact absurd h₀ hne
      · exact absurd rfl hun
      · cases hq'
      · exact absurd hw hw'
      · exact absurd h₀ hne
      · exact absurd rfl hun
  · exact .interrupter d tid j q w (by simpa [hdc] using hd) hq

/-- A timer of a sleep is made by its `_add_sleep_event`. -/
theorem armed_of_schedule (hc : control c (s.pc c) k s.mem =
      some (.schedule (.readyToRunFromTimerThread e), p))
    (h : Shape.Step c s.mem (.schedule (.readyToRunFromTimerThread e)) (s.shape c) (p.shape c)) :
    Armed (s.after c (.schedule (.readyToRunFromTimerThread e)) p) t e s.mem.nextTimer := by
  obtain ⟨-, -, ⟨hf', -⟩ | ⟨e', hf', hw, -⟩⟩ := h.sleep
  · cases hf'
  · cases hf'
    obtain ⟨tid, hpc⟩ := eq_of_schedule hc hw
    cases k with
    | call f => simp [control, hpc] at hc
    | next o =>
      rw [hpc] at hc
      obtain ⟨q', hr, rfl⟩ | ⟨v, hr, rfl⟩ := within_eq hc
      · cases o <;> simp [addSleepEvent, Conc.goto] at hr <;>
          exact .callback c tid q' (by simp) (by rw [← hr]; rfl)
      · cases o <;> simp [addSleepEvent, Conc.goto] at hr

/-- Every access that stores in time keeps it that somebody knows the timer of a sleep. -/
theorem armed_step (hF : Fresh s) (hs : system.Reachable s) (hC : StoresInTime s (c, k))
    (hi : ∀ t e i, s.pc e = .usleep t .suspended →
      s.mem.timerFn i = some (.readyToRunFromTimerThread e) → s.mem.timerState i = .pending →
        Armed s t e i)
    (hc : control c (s.pc c) k s.mem = some (a, p))
    (h : Shape.Step c s.mem a (s.shape c) (p.shape c)) (t : SlotId) (e : CallId) (i : TimerId)
    (he : (s.after c a p).pc e = .usleep t .suspended)
    (hf : (s.after c a p).mem.timerFn i = some (.readyToRunFromTimerThread e))
    (hp : (s.after c a p).mem.timerState i = .pending) : Armed (s.after c a p) t e i := by
  have K := known hs
  obtain hf₀ | ⟨rfl, rfl⟩ := timerFn_of_apply hf
  · obtain ⟨hp₀, hun⟩ := K.pending_of_apply hf₀ hp
    have hec : e ≠ c := by
      rintro rfl
      obtain rfl : p = .usleep t .suspended := by simpa using he
      obtain ⟨hpc, rfl⟩ := control_suspended hc
      exact K.sleepCalled i e hf₀ (K.freshSleep e (by rw [State.shape, hpc]; rfl)).2
    have he₀ : s.pc e = .usleep t .suspended := by simpa [hec] using he
    obtain ⟨d, tid, q, hd, hq⟩ | hcur | ⟨d, tid, j, q, w, hd, hq⟩ := hi t e i he₀ hf₀ hp₀
    · exact armed_of_callback hs hc he₀ hd hq hun
    · exact armed_of_current hs hc hC he₀ hf₀ hec hcur
    · exact armed_of_interrupter hc hF (K.timerFn i _ hf₀).1 hd hq hun
  · exact armed_of_schedule hc h

/-- **Somebody knows the timer of a sleep**, in runs that store in time. -/
theorem armed (hs : system.ReachableIf StoresInTime s) (he : s.pc e = .usleep t .suspended)
    (hf : s.mem.timerFn i = some (.readyToRunFromTimerThread e))
    (hp : s.mem.timerState i = .pending) : Armed s t e i := by
  refine system_invariant (I := fun s => ∀ t e i, s.pc e = .usleep t .suspended →
    s.mem.timerFn i = some (.readyToRunFromTimerThread e) → s.mem.timerState i = .pending →
      Armed s t e i) (fun m hm t e i he => ?_) (fun s c k a p hr hi hC hc h => ?_) hs t e i he hf hp
  · cases he
  · exact armed_step (fresh hr) hr.reachable hC hi hc h

/-! ## Interrupting a sleep -/

/-- `_add_sleep_event` is about to find that the task was interrupted, or has found it. -/
def AddSleepPc.removes : AddSleepPc → Option TimerId
  | .lock i | .version i | .interrupted i | .unlockUnset i | .unschedule i => some i
  | _ => none

/-- `current_sleep` belongs to the sleep that the bthread is in. -/
structure SleepFresh (s : State) : Prop where
  /-- It is the timer of the `usleep` that the task is inside: one that is suspended, or was
  released and has not executed `current_sleep = 0`. -/
  current : ∀ t, s.mem.currentSleep t ≠ 0 → ∃ e, s.mem.call t = some e ∧ (s.pc e).Sleeps t ∧
    s.mem.timerFn (s.mem.currentSleep t) = some (.readyToRunFromTimerThread e)
  /-- `CHECK(!sleep_id || !w)` holds. -/
  check : ∀ d tid j w sl, s.pc d = .interrupt tid j (.check w sl) → sl = 0 ∨ w = none
  /-- `interrupt` calls `unschedule` for the timer of a sleep of the bthread that it interrupts;
  when the timer is still to run, the bthread is switched out in that sleep. -/
  unschedules : ∀ d tid j i, s.pc d = .interrupt tid j (.unschedule i) →
    ∃ e, s.mem.timerFn i = some (.readyToRunFromTimerThread e) ∧ s.mem.tid e = tid ∧
      (s.mem.timerState i = .pending →
        s.mem.call (getSlot tid) = some e ∧ s.mem.run (getSlot tid) = .blocked)
  /-- When a suspended sleep was interrupted and its timer is still to run, its `_add_sleep_event`
  or an interrupter of the bthread is about to call `unschedule` for that timer. -/
  ends : ∀ t e i, s.pc e = .usleep t .suspended →
    s.mem.timerFn i = some (.readyToRunFromTimerThread e) → s.mem.timerState i = .pending →
      s.mem.interrupted t = true →
        (∃ d q, s.pc d = .addSleepEvent e (s.mem.tid e) q ∧ q.removes = some i) ∨
          ∃ d j q, s.pc d = .interrupt (s.mem.tid e) j q ∧ q.read = some (none, i)

/-- **Freshness of `current_sleep`**, in runs in which `_add_sleep_event` stores in time.

**Proof sketch.** A timer is stored while the task is in the sleep, and the sleep sets
`current_sleep` to `0` before it returns. A task in a sleep has lent no waiter, so an interrupter
that takes a timer takes no waiter; it keeps the timer until it calls `unschedule`. -/
theorem sleepFresh (hs : system.ReachableIf StoresInTime s) : SleepFresh s := by
  have hF := fresh hs
  have hx := excludes hs.reachable
  have L := locked hs.reachable
  have K := known hs.reachable
  have O := owned hs.reachable
  refine ⟨fun t ht => ?_, fun d tid j w sl hd => ?_, fun d tid j i hd => ?_,
    fun t e i he hf hp hint => ?_⟩
  · obtain ⟨e, he, hf⟩ := hF.current t ht
    obtain ⟨φ, hφ, hne, -⟩ := he.phase (c := e)
    refine ⟨e, (L.call t e).mpr ?_, he, hf⟩
    obtain rfl | rfl := hne <;> simp [Shape.owner, State.shape, hφ]
  · by_cases h₀ : sl = 0
    · exact .inl h₀
    · exact .inr (hF.read d tid j _ w sl hd rfl h₀).1
  · obtain ⟨-, e, hf, ht⟩ := hF.read d tid j _ none i hd rfl (hF.unschedule d tid j i hd)
    refine ⟨e, hf, ht, fun hp => ?_⟩
    have h₀ : s.mem.tid e ≠ 0 := O.sleeper e (.inr (K.sleepCalled i e hf))
    have hu : s.mem.custody e = .timer i := O.sound e _ (K.untainted h₀) (.timer hf hp)
    obtain ⟨t, -, -, hb, -, hslot, hcall⟩ := O.blocked_of_waits L h₀ (by simp [hu, Custody.Waits])
      (by simp [hu])
    rw [← ht, hslot]
    exact ⟨hcall, hb⟩
  · have hne : i ≠ 0 := (K.timerFn i _ hf).1
    have hself : (s.shape e).self = some t := by rw [State.shape, he]; rfl
    obtain ⟨-, hslot, -⟩ := O.tid_of_self L hself
    obtain ⟨d, tid, q, hd, hq⟩ | hcur | ⟨d, tid, j, q, w, hd, hq⟩ := armed hs he hf hp
    · obtain rfl := K.copied d e tid (by rw [State.shape, hd]; cases q <;> rfl)
      refine .inl ⟨d, q, hd, ?_⟩
      cases q with
      | setSleep i' =>
        have := hx.tested d e _ i' hd
        rw [hslot, hint] at this
        cases this
      | _ => exact hq
    · have := hx.current t (hcur ▸ hne)
      rw [hint] at this
      cases this
    · obtain ⟨rfl, e', hf', rfl⟩ := hF.read d tid j q w i hd hq hne
      obtain rfl : e = e' := by simpa [hf] using hf'
      exact .inr ⟨d, j, q, hd, hq⟩

/-- The call sleeps, as a check. -/
def Pc.sleeps (t : SlotId) : Pc → Bool
  | .usleep t' .suspended | .usleep t' .clearSleep => t' == t
  | _ => false

/-- The check of a step. -/
def storesInTime (s : State) (x : CallId × Move) : Bool :=
  match s.pc x.1 with
  | .addSleepEvent e tid (.setSleep _) => (s.pc e).sleeps (getSlot tid)
  | _ => true

/-- The check is right. -/
theorem storesInTime_spec {x : CallId × Move} (h : storesInTime s x = true) : StoresInTime s x := by
  intro e tid i hx
  simp only [storesInTime, hx] at h
  unfold Pc.sleeps at h
  split at h
  next t' hp =>
    rw [hp]
    exact beq_iff_eq.mp h
  next t' hp =>
    rw [hp]
    exact beq_iff_eq.mp h
  next => cases h

/-- A sleep whose timer is stored, and then taken by an interrupter. -/
theorem sleepFresh_interruptedSleep : ∃ s : State, s.pc 4 = .interrupt (makeTid 1 0) true
    (.unschedule 1) ∧ ∃ e, s.mem.timerFn 1 = some (.readyToRunFromTimerThread e) ∧
      s.mem.tid e = makeTid 1 0 ∧ s.mem.call 0 = some e := by
  obtain ⟨s, h, hd, hp⟩ : ∃ s, system.exec ⟨.initial, fun _ => .idle⟩ (interruptedSleep.take 27) =
      some s ∧ s.pc 4 = .interrupt (makeTid 1 0) true (.unschedule 1) ∧
        s.mem.timerState 1 = .pending := ⟨_, rfl, rfl, rfl⟩
  have hs : system.ReachableIf StoresInTime s :=
    .of_checked storesInTime (fun _ _ => storesInTime_spec) (.of_init ⟨Mem.initial_initial, rfl⟩) h
      rfl
  obtain ⟨e, hf, ht, hb⟩ := (sleepFresh hs).unschedules 4 _ true 1 hd
  exact ⟨s, hd, e, hf, ht, (hb hp).1⟩

/-- A bthread sleeps and is woken by its timer before its `_add_sleep_event` stores the timer; then
it waits for a butex, and is interrupted. -/
def sleepStoredLate : List (CallId × Move) :=
  startAndRun.take 7 ++
  [(2, .call (.usleep 0)), (2, .next .go), (2, .next .go), (3, .call (.runRemained 2)),
   (3, .next .go), (3, .next .go), (3, .next .go), (3, .next .go),
   (4, .call (.fire 1)), (4, .next .go), (4, .next .go), (5, .call (.schedTo (makeTid 1 0))),
   (2, .next .go), (2, .next .go), (2, .next .go), (2, .next .go), (3, .next .go), (3, .next .go),
   (6, .call (.butexWait ⟨.user 0, 0, 0, false⟩))] ++ List.replicate 11 (6, .next .go) ++
  (7, .call (.interrupt (makeTid 1 0) true)) :: List.replicate 8 (7, .next .go)

/-- **A sleep is stored after it has ended**: the interrupter has taken the waiter of a wait and the
timer of a sleep that is over, and `CHECK(!sleep_id || !w)` fails. -/
theorem not_sleepFresh : ∃ s, system.Reachable s ∧
    s.pc 7 = .interrupt (makeTid 1 0) true (.check (some 6) 1) ∧ ¬SleepFresh s := by
  obtain ⟨s, h, hd⟩ : ∃ s, system.exec ⟨.initial, fun _ => .idle⟩ sleepStoredLate = some s ∧
      s.pc 7 = .interrupt (makeTid 1 0) true (.check (some 6) 1) := ⟨_, rfl, rfl⟩
  refine ⟨s, Conc.Machine.Reachable.exec (.of_init ⟨Mem.initial_initial, rfl⟩) h, hd, fun hF => ?_⟩
  obtain h₀ | h₀ := hF.check 7 _ true _ _ hd <;> cases h₀

end Bthread
