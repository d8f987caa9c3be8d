import Bthread.Origins
import Bthread.Phases

set_option relaxedAutoImplicit false
set_option autoImplicit false

/-!
# Whereabouts

Where the calls say that bthreads are, and what their accesses do to that. An access moves at most
one bthread: one is pushed when it is new, or when it is switched out and its callback has begun; it
is switched out, and ends, when it runs; and its callback begins when it is switched out.

## Main definitions

* `Bthread.Scheduling.Registered` — the callback of a bthread is registered and has not begun.
* `Bthread.Scheduling.Agrees` — the phase of a task fits where its bthread is.

## Main results

* `Bthread.Scheduling.Agrees.keep` — an access leaves the other bthreads where they are.
* `Bthread.Scheduling.start_moves`, `Bthread.Scheduling.push_moves`,
  `Bthread.Scheduling.suspend_moves`, `Bthread.Scheduling.ending_moves`,
  `Bthread.Scheduling.callback_moves`, `Bthread.Scheduling.schedTo_moves` — the bthread it moves.
-/

namespace Bthread.Scheduling

open Function (update update_self update_of_ne)
open Conc (Ensures)

variable {s : Bthread.State} {c d : CallId} {m : Mem} {a : Access} {p q : Pc} {k : Bthread.Move}
  {n i : SlotId} {t : Tid}

/-- The control points of a call whose task has come this far. -/
def At (n : SlotId) (p : Pc) : Phase → Prop
  | .named => p = .startTask (.ready n)
  | .switched => p = .yield n .ready
  | .callback => ∃ b q, p = .butexWait b (.callback q) ∧ b.slot = n
  | _ => True

/-- `unsleep_if_necessary` belongs to the task of the call around it. -/
theorem phase_unsleep (x : Shape) (w : CallId) (u : UnsleepPc) :
    (u.shape x w).phase = x.phase := by
  cases u <;> rfl

/-- So does `erase_from_butex`. -/
theorem phase_erase (x : Shape) (w : CallId) (b : Bool) (e : ErasePc) :
    (e.shape x w b).phase = x.phase := by
  cases e <;> rfl

/-- So does `butex_wake_except`. -/
theorem phase_wakeExcept (x : Shape) (b : ButexId) (t : Tid) (q : WakeExceptPc) :
    (q.shape x b t).phase = x.phase := by
  cases q with
  | unsleep bt w n saved u => exact phase_unsleep _ _ u
  | _ => rfl

/-- The phase of a call tells where it is. -/
theorem at_of_phase {φ : Phase} (hp : (p.shape c).phase = some (n, φ)) : At n p φ := by
  cases p with
  | butexWait b q =>
    cases q with
    | callback q =>
      obtain rfl : b.slot = n := by
        cases q <;> simp [Pc.shape, WaitPc.shape, CallbackPc.shape, phase_unsleep] at hp <;>
          exact hp.1
      cases φ with
      | callback => exact ⟨b, q, rfl, rfl⟩
      | named | switched =>
        cases q <;> simp [Pc.shape, WaitPc.shape, CallbackPc.shape, phase_unsleep] at hp
      | _ => trivial
    | _ =>
      simp only [Pc.shape, WaitPc.shape, phase_unsleep] at hp
      grind [At]
  | startTask q | yield _ q | usleep _ q | endTask _ q | butexWaitFromPthread _ q | initGroup q =>
    cases q <;>
      simp only [Pc.shape, StartPc.shape, YieldPc.shape, UsleepPc.shape, EndPc.shape,
        PthreadWaitPc.shape, InitPc.shape, phase_erase, phase_wakeExcept, Option.map_eq_some_iff,
        Option.some.injEq, Prod.mk.injEq, reduceCtorEq] at hp <;>
      grind [At]
  | butexWake b q =>
    cases q with
    | front w q =>
      cases q <;> simp [Pc.shape, WakePc.shape, FrontPc.shape, phase_unsleep] at hp
    | _ => simp [Pc.shape, WakePc.shape] at hp
  | butexWakeAll _ _ q | butexRequeue _ _ q | interrupt _ _ q | setStopped _ q
  | addSleepEvent _ _ q | timer _ q =>
    cases q <;>
      simp [Pc.shape, WakeAllPc.shape, RequeuePc.shape, InterruptPc.shape, SetStoppedPc.shape,
        AddSleepPc.shape, TimerPc.shape, phase_unsleep, phase_erase] at hp
  | butexWakeExcept b t j q => simp [Pc.shape, phase_wakeExcept] at hp
  | idle | done => simp [Pc.shape, Shape.finished] at hp

/-- `wait_for_butex` begins with the lock. -/
theorem control_lock {b : WaitArgs}
    (hc : control c (.butexWait b (.callback .lock)) k m = some (a, q)) :
    a = .lockButex b.butex ∧ q = .butexWait b (.callback .value) := by
  cases k with
  | call f => simp [control] at hc
  | next o =>
    simp only [control, butexWait, waitForButex] at hc
    split at hc
    · simp only [within, Conc.inside, Conc.goto, Sum.elim_inl, Option.some.injEq,
        Prod.mk.injEq] at hc
      exact ⟨hc.1.symm, hc.2.symm⟩
    · cases hc

/-- `butex_wait` registers its callback and switches out in one access. -/
theorem butexWait_suspends {b : WaitArgs} {w : WaitPc} {o : Outcome} :
    Ensures (butexWait c b w o m) fun a y => a = .suspendWait n → y = .inl (.callback .lock) := by
  fun_cases butexWait c b w o m
  case case10 w =>
    rw [Conc.ensures_inside]
    fun_cases waitForButex c b w m <;>
      first
      | rw [Conc.ensures_inside]; fun_cases unsleepIfNecessary <;> simp
      | simp
  case case13 u =>
    rw [Conc.ensures_inside]
    fun_cases unsleepIfNecessary <;> simp
  all_goals simp

/-- A bthread that waits is switched out with its callback registered. -/
theorem control_suspendWait (hc : control c p k m = some (.suspendWait n, q))
    (hy : (q.shape c).phase = some (n, .callback)) :
    ∃ b, q = .butexWait b (.callback .lock) := by
  obtain ⟨b, q₁, rfl, -⟩ := at_of_phase hy
  obtain ⟨-, hq⟩ | ⟨q₀, o, rfl, hq⟩ := control_wait hc
  · cases hq
  · rw [Sum.inl.inj (butexWait_suspends _ _ hq rfl)]
    exact ⟨b, rfl⟩

/-! ## Where bthreads are -/

/-- The callback of the task of slot `n` is registered and has not begun. -/
def Registered (s : Bthread.State) (n : SlotId) : Prop :=
  ∃ c, s.mem.call n = some c ∧
    (s.mem.remained c = true ∨ ∃ b, s.pc c = .butexWait b (.callback .lock))

/-- The phase of a task fits where its bthread is. -/
def Agrees (registered : Prop) : RunState → Context.Phase → Prop
  | .free, φ | .starting, φ | .main, φ => φ = .free
  | .ready, φ => φ = .ready
  | .running, φ => ∃ g, φ = .running g
  | .switched, φ => ∃ g, φ = .leaving g
  | .blocked, φ => φ = .away ∨ registered ∧ ∃ g, φ = .leaving g
  | .ended, φ => ∃ g, φ = .ended g

/-- The slot of the bthread that an access moves. -/
def Bearing.slot : Bearing → Option SlotId
  | .nothing => none
  | .start t | .push t | .schedTo t => some (getSlot t)
  | .suspend n _ | .ending n | .callback n _ => some n

/-- The push of the callback of `yield`. -/
theorem control_yield {w : YieldPc} (hc : control c (.yield n w) k m = some (.push t, q)) :
    w = .ready ∧ t = m.metaTid n := by
  cases k with
  | call f => simp [control] at hc
  | next o =>
    cases w with
    | ready =>
      simp only [control, yield, within, Conc.goto, Option.some.injEq, Prod.mk.injEq,
        Access.push.injEq] at hc
      exact ⟨rfl, hc.1.symm⟩
    | suspended =>
      simp only [control, yield] at hc
      split at hc <;> simp [within, Conc.goto] at hc
    | _ => simp [control, yield, within, Conc.goto, Conc.ret] at hc

/-- The push of a new bthread. -/
theorem control_startTask {w : StartPc} (hc : control c (.startTask w) k m = some (.push t, q)) :
    ∃ n, w = .ready n ∧ t = m.metaTid n := by
  cases k with
  | call f => simp [control] at hc
  | next o =>
    cases w with
    | ready n =>
      simp only [control, startTask, within, Conc.ret, Option.some.injEq, Prod.mk.injEq,
        Access.push.injEq] at hc
      exact ⟨n, rfl, hc.1.symm⟩
    | getResource =>
      cases o with
      | slot n =>
        simp only [control, startTask] at hc
        split at hc <;> simp [within, Conc.goto] at hc
      | _ => simp [control, startTask, within, Conc.ret] at hc
    | _ => simp [control, startTask, within, Conc.goto] at hc

section Frame

variable (hs : system.Reachable s) (hc : control d (s.pc d) k s.mem = some (a, q))
  (hn : (bearing s.mem (s.pc d) a).slot ≠ some n)
include hs hc hn

/-- **An access moves the bthread of one slot.** Others are taken from the pool, or become the main
task of a group.

**Proof sketch.** Every access that changes where a bthread is has a meaning to the workers. That of
`yield` pushes the identifier of its own slot. -/
theorem run_keep : (a.apply d s.mem).run n = s.mem.run n ∨
    s.mem.run n = .free ∧ (a.apply d s.mem).run n = .starting ∨
    s.mem.run n = .starting ∧ (a.apply d s.mem).run n = .main := by
  have O := owned hs
  have h := step_shape hs hc
  cases a with
  | push t =>
    left
    have hne : n ≠ getSlot t := by
      rintro rfl
      cases hp : s.pc d with
      | startTask w => simp [hp, bearing, Bearing.slot] at hn
      | yield i w =>
        rw [hp] at hc
        obtain ⟨rfl, rfl⟩ := control_yield hc
        have hφ : (s.shape d).phase = some (i, .switched) := by
          simp [State.shape, hp, Pc.shape, YieldPc.shape]
        simp [hp, bearing, Bearing.slot, (O.slot_of_phase hφ (by simp)).1] at hn
      | _ => simp [hp, bearing, Bearing.slot] at hn
    simp [Access.apply, Mem.push, hne]
  | handOff w =>
    left
    have hne : n ≠ getSlot (s.mem.tid w) := by
      rintro rfl
      simp [bearing, Bearing.slot] at hn
    simp [Access.apply, Mem.push, hne]
  | getResource i =>
    by_cases hi : n = i
    · subst hi
      exact .inr (.inl ⟨h.phase.2.1, by simp [Access.apply]⟩)
    · exact .inl (by simp [Access.apply, hi])
  | setMainTid i =>
    by_cases hi : n = i
    · subst hi
      exact .inr (.inr ⟨O.task d n _ h.phase.1, by simp [Access.apply]⟩)
    · exact .inl (by simp [Access.apply, hi])
  | suspendWait i | suspendSleep i | suspendYield i | suspendEnd i | returnResource i =>
    left
    have hi : n ≠ i := by
      rintro rfl
      simp [bearing, Bearing.slot] at hn
    simp [Access.apply, hi]
  | schedTo t =>
    left
    have hne : n ≠ getSlot t := by
      rintro rfl
      simp [bearing, Bearing.slot] at hn
    simp [Access.apply, hne]
  | _ => exact .inl rfl

omit hn in
/-- A bthread that is switched out stays inside its call. -/
theorem call_keep (hb : s.mem.run n = .blocked) (hcall : s.mem.call n = some c) :
    (a.apply d s.mem).call n = some c := by
  have h := step_shape hs hc
  cases a with
  | enter i =>
    have hi : n ≠ i := by
      rintro rfl
      simp [h.phase.2.1] at hcall
    simpa [Access.apply, hi] using hcall
  | leave i =>
    have hi : n ≠ i := by
      rintro rfl
      obtain ⟨hx | hx, -⟩ | ⟨hx, -⟩ := h.phase
      · cases hb.symm.trans ((owned hs).task d n _ hx)
      · obtain hr | hr := (owned hs).task d n _ hx <;> cases hb.symm.trans hr
      · cases hb.symm.trans ((owned hs).task d n _ hx)
    simpa [Access.apply, hi] using hcall
  | _ => exact hcall

omit hc hn in
/-- The callback of a sleep is about the slot of its identifier. -/
theorem slot_of_remained (hr : s.mem.remained c = true) :
    s.mem.custody c = .remained ∧ s.mem.run (getSlot (s.mem.tid c)) = .blocked ∧
      s.mem.call (getSlot (s.mem.tid c)) = some c := by
  have O := owned hs
  have h0 := O.sleeper c (.inl hr)
  have hu := O.sound c _ ((known hs).untainted h0) (.remained hr)
  obtain ⟨i, -, -, hb, -, rfl, hcall⟩ := O.blocked_of_waits (locked hs) h0
    (by simp [hu, Custody.Waits]) (by simp [hu])
  exact ⟨hu, hb, hcall⟩

omit hc hn in
/-- A task is inside one call. -/
theorem slot_eq (hn : s.mem.call n = some c) (hi : s.mem.call i = some c) : n = i := by
  have L := locked hs
  simpa [(L.call n c).mp hn] using (L.call i c).mp hi

omit hc hn in
/-- `wait_for_butex` is about the task that waits. -/
theorem slot_of_lock {b : WaitArgs} (hp : s.pc c = .butexWait b (.callback .lock)) :
    s.mem.custody c = .callback ∧ s.mem.run b.slot = .blocked ∧ s.mem.call b.slot = some c := by
  have hφ : (s.shape c).phase = some (b.slot, .callback) := by
    simp [State.shape, hp, Pc.shape, WaitPc.shape, CallbackPc.shape]
  obtain ⟨hr, hu⟩ := (owned hs).task c _ _ hφ
  exact ⟨hu, hr, ((locked hs).call _ c).mpr (by simp [Shape.owner, hφ])⟩

/-- **A callback stays registered until it begins.**

**Proof sketch.** The bthread stays inside its call. The callback of a sleep begins with
`runRemained`, and `wait_for_butex` with its lock; both mean to the workers that it begins. -/
theorem Registered.keep (hb : s.mem.run n = .blocked) (hR : Registered s n) :
    Registered (s.after d a q) n := by
  obtain ⟨c, hcall, hreg⟩ := hR
  refine ⟨c, call_keep hs hc hb hcall, hreg.imp (fun hr => ?_) ?_⟩
  · cases a with
    | runRemained e =>
      have he : c ≠ e := by
        rintro rfl
        have hs' := slot_eq hs hcall (slot_of_remained hs hr).2.2
        simp [bearing, Bearing.slot, ← hs'] at hn
      simpa [Access.apply, he] using hr
    | suspendSleep i => simp [Access.apply, Function.update_apply, hr]
    | _ => exact hr
  · rintro ⟨b, hp⟩
    have hd : c ≠ d := by
      rintro rfl
      have hs' := slot_eq hs hcall (slot_of_lock hs hp).2.2
      rw [hp] at hc
      obtain ⟨rfl, -⟩ := control_lock hc
      simp [hp, bearing, Bearing.slot, ← hs'] at hn
    exact ⟨b, by simpa [hd] using hp⟩

/-- **An access leaves the other bthreads where they are.** -/
theorem Agrees.keep {φ : Context.Phase} (hA : Agrees (Registered s n) (s.mem.run n) φ) :
    Agrees (Registered (s.after d a q) n) ((s.after d a q).mem.run n) φ := by
  obtain hr | ⟨h₁, h₂⟩ | ⟨h₁, h₂⟩ := run_keep hs hc hn
  · rw [hr]
    cases hb : s.mem.run n with
    | blocked =>
      rw [hb] at hA
      exact hA.imp_right (And.imp_left (Registered.keep hs hc hn hb))
    | _ => rwa [hb] at hA
  all_goals
    rw [h₁] at hA
    rw [h₂]
    exact hA

end Frame

/-! ## The accesses that move bthreads -/

/-- A new bthread is pushed by the call that starts it. -/
theorem bearing_start (h : bearing m p a = .start t) : a = .push t ∧ ∃ w, p = .startTask w := by
  unfold bearing at h
  split at h <;> simp_all

/-- A bthread is pushed, or handed off as a waiter. -/
theorem bearing_push (h : bearing m p a = .push t) :
    (a = .push t ∧ (∀ w, p ≠ .startTask w) ∧ ∀ n w, p ≠ .yield n w) ∨
      ∃ w, a = .handOff w ∧ t = m.tid w := by
  unfold bearing at h
  split at h <;> simp_all

/-- A bthread is switched out. -/
theorem bearing_suspend {j : Context.Suspend} (h : bearing m p a = .suspend n j) :
    (j = .wait ∧ a = .suspendWait n) ∨ (j = .sleep ∧ a = .suspendSleep n) ∨
      j = .yield ∧ a = .suspendYield n := by
  unfold bearing at h
  split at h <;> simp_all

/-- A bthread is switched out for good. -/
theorem bearing_ending (h : bearing m p a = .ending n) : a = .suspendEnd n := by
  unfold bearing at h
  split at h <;> simp_all

/-- A callback begins. -/
theorem bearing_callback {j : Option Context.Suspend} (h : bearing m p a = .callback n j) :
    (j = some .yield ∧ (∃ t, a = .push t) ∧ ∃ w, p = .yield n w) ∨
      (j = some .wait ∧ (∃ b, p = .butexWait b (.callback .lock) ∧ b.slot = n) ∧
        ∃ b, a = .lockButex b) ∨
      (j = some .sleep ∧ ∃ e, a = .runRemained e ∧ n = getSlot (m.tid e)) ∨
      j = none ∧ a = .returnResource n := by
  unfold bearing at h
  split at h <;> simp_all

/-- The identifiers in run queues change when one is pushed or switched to. -/
theorem ready_keep (hp : ∀ t, a ≠ .push t) (hh : ∀ w, a ≠ .handOff w) (ht : ∀ t, a ≠ .schedTo t) :
    (a.apply d m).ready = m.ready := by
  cases a <;> simp_all [Access.apply]

/-- An access that means nothing to the workers leaves the run queues alone. -/
theorem nothing_moves (hb : bearing m p a = .nothing) : (a.apply d m).ready = m.ready := by
  refine ready_keep ?_ ?_ ?_
  · rintro t rfl
    cases p <;> simp [bearing] at hb
  · rintro w rfl
    simp [bearing] at hb
  · rintro t rfl
    simp [bearing] at hb

section Moves

variable (hs : system.Reachable s) (hc : control d (s.pc d) k s.mem = some (a, q))
include hs

/-- What is in a run queue. -/
theorem ready_of_mem (ht : t ∈ s.mem.ready) :
    s.mem.run (getSlot t) = .ready ∧ s.mem.metaTid (getSlot t) = t := by
  have h := (owned hs).ready t
  by_contra hn
  rw [if_neg hn, List.count_eq_zero] at h
  exact h ht

/-- A bthread that somebody holds has no callback registered. -/
theorem not_registered {e : CallId} (hcall : s.mem.call n = some e)
    (hr : s.mem.custody e ≠ .remained) (hl : ∀ b, s.pc e ≠ .butexWait b (.callback .lock)) :
    ¬Registered s n := by
  rintro ⟨c, hc', h⟩
  obtain rfl : e = c := by simpa [hcall] using hc'
  obtain h | ⟨b, h⟩ := h
  · exact hr (slot_of_remained hs h).1
  · exact hl b h

/-- A bthread is switched out while its callback decides about it. -/
theorem run_of_deciding (hp : Deciding s.mem t (s.pc c)) : s.mem.run (getSlot t) = .blocked := by
  have O := owned hs
  unfold Deciding at hp
  split at hp
  next b q hq =>
    obtain ⟨h₁, h₂, rfl⟩ := hp
    have hφ : (s.shape c).phase = some (b.slot, .callback) := by
      rw [State.shape, hq]
      cases q <;> simp_all [Pc.shape, WaitPc.shape, CallbackPc.shape, phase_unsleep]
    rw [(O.slot_of_phase hφ (by simp)).1]
    exact (O.task c _ _ hφ).1
  next e u q hq =>
    obtain ⟨hw, rfl⟩ := hp
    have hx : (s.shape c).wake = some e ∧ (s.shape c).copied = some (e, u) := by
      rw [State.shape, hq]
      obtain rfl | rfl | rfl := hw <;> exact ⟨rfl, rfl⟩
    have K := known hs
    have h0 := O.sleeper e (.inr (K.wakeCalled c e hx.1))
    have hu := O.sound e _ (K.untainted h0) (.wake hx.1)
    obtain ⟨i, -, -, hb, -, rfl, -⟩ := O.blocked_of_waits (locked hs) h0
      (by simp [hu, Custody.Waits]) (by simp [hu])
    rwa [K.copied c e u hx.2]
  next => exact hp.elim

include hc

/-- **A new bthread is pushed** when it is nowhere. -/
theorem start_moves (hb : bearing s.mem (s.pc d) a = .start t) :
    s.mem.run (getSlot t) = .starting ∧ (s.after d a q).mem.run (getSlot t) = .ready ∧
      (s.after d a q).mem.ready = t :: s.mem.ready := by
  obtain ⟨rfl, w, hp⟩ := bearing_start hb
  have hc' := hc
  rw [hp] at hc'
  obtain ⟨n, rfl, rfl⟩ := control_startTask hc'
  have hφ : (s.shape d).phase = some (n, .named) := by
    simp [State.shape, hp, Pc.shape, StartPc.shape]
  have hr : s.mem.run n = .starting := (owned hs).task d n _ hφ
  rw [((owned hs).slot_of_phase hφ (by simp)).1]
  refine ⟨hr, ?_, rfl⟩
  simp [Access.apply, Mem.push, ((owned hs).slot_of_phase hφ (by simp)).1, hr, RunState.pushed]

/-- **A bthread is pushed** when it is switched out and its callback has begun.

**Proof sketch.** Whoever pushes it has its call in custody: `wait_for_butex` itself, past its lock,
a call that is to push a sleep, or one that has removed a waiter. A registered callback has other
custody. -/
theorem push_moves (hb : bearing s.mem (s.pc d) a = .push t) :
    s.mem.run (getSlot t) = .blocked ∧ ¬Registered s (getSlot t) ∧
      (s.after d a q).mem.run (getSlot t) = .ready ∧
      (s.after d a q).mem.ready = t :: s.mem.ready := by
  have O := owned hs
  have L := locked hs
  have h := step_shape hs hc
  obtain ⟨rfl, hstart, hyield⟩ | ⟨w, rfl, rfl⟩ := bearing_push hb
  · obtain ⟨n, hm, rfl, hP⟩ := O.pushes_of L (known hs) (h.push t rfl)
    cases hP with
    | start hx _ _ _ => exact absurd (at_of_phase hx) (hstart _)
    | requeue hx hr hcall hu hy =>
      obtain hx | hx := hx
      · exact absurd (at_of_phase hx) (hyield _ _)
      · have hr : s.mem.run (getSlot t) = .blocked := (O.task d _ _ hx).1
        refine ⟨hr, not_registered hs hcall (by simp [hu]) fun b hp => ?_, ?_, rfl⟩
        · rw [hp] at hc
          simpa using (control_lock hc).1
        · simp [Access.apply, Mem.push, hr, RunState.pushed]
    | wake e hr hcall hu _ _ _ _ =>
      refine ⟨hr, not_registered hs hcall (by simp [hu]) fun b hp => ?_, ?_, rfl⟩
      · simp [(slot_of_lock hs hp).1] at hu
      · simp [Access.apply, Mem.push, hr, RunState.pushed]
  · obtain ⟨n, -, hr, hu, -, hg, hcall⟩ := O.handOff_of L (known hs)
      (h.queue.2.2.2.1.symm.subset List.mem_cons_self) h.queue.2.2.2.2
    rw [hg]
    refine ⟨hr, not_registered hs hcall (by simp [hu]) fun b hp => ?_, ?_, rfl⟩
    · simp [(slot_of_lock hs hp).1] at hu
    · simp [Access.apply, Mem.push, hg, hr, RunState.pushed]

/-- **A bthread is switched out** when it runs, and waits for its callback. -/
theorem suspend_moves {j : Context.Suspend} (hb : bearing s.mem (s.pc d) a = .suspend n j)
    (g : GroupId) : s.mem.run n = .running ∧
      Agrees (Registered (s.after d a q) n) ((s.after d a q).mem.run n) (.leaving g) ∧
        (s.after d a q).mem.ready = s.mem.ready := by
  have h := step_shape hs hc
  have hrun : (s.shape d).phase = some (n, .active) → s.mem.run n = .running ∧
      s.mem.call n = some d := fun hx =>
    ⟨(owned hs).task d n _ hx, ((locked hs).call n d).mpr (by simp [Shape.owner, hx])⟩
  obtain ⟨-, rfl⟩ | ⟨-, rfl⟩ | ⟨-, rfl⟩ := bearing_suspend hb
  · obtain ⟨hx, hy⟩ := h.phase
    obtain ⟨hr, hcall⟩ := hrun hx
    obtain ⟨b, rfl⟩ := control_suspendWait hc hy
    refine ⟨hr, ?_, rfl⟩
    simp only [Access.apply, update_self, Agrees]
    exact .inr ⟨⟨d, hcall, .inr ⟨b, by simp⟩⟩, g, rfl⟩
  · obtain ⟨hr, hcall⟩ := hrun h.phase.1
    refine ⟨hr, ?_, rfl⟩
    simp only [Access.apply, update_self, Agrees]
    exact .inr ⟨⟨d, hcall, .inl (by simp [Access.apply])⟩, g, rfl⟩
  · refine ⟨(hrun h.phase.1).1, ?_, rfl⟩
    simp only [Access.apply, update_self, Agrees]
    exact ⟨g, rfl⟩

/-- **A bthread is switched out for good** when it runs. -/
theorem ending_moves (hb : bearing s.mem (s.pc d) a = .ending n) :
    s.mem.run n = .running ∧ (s.after d a q).mem.run n = .ended ∧
      (s.after d a q).mem.ready = s.mem.ready := by
  obtain rfl := bearing_ending hb
  exact ⟨(owned hs).task d n _ (step_shape hs hc).phase.1, by simp [Access.apply], rfl⟩

/-- **A callback begins** when its bthread is switched out. -/
theorem callback_moves {j : Option Context.Suspend}
    (hb : bearing s.mem (s.pc d) a = .callback n j) :
    (j = some .yield ∧ s.mem.run n = .switched ∧ (s.after d a q).mem.run n = .ready ∧
        (s.after d a q).mem.ready = s.mem.metaTid n :: s.mem.ready ∧
        getSlot (s.mem.metaTid n) = n) ∨
      ((j = some .wait ∨ j = some .sleep) ∧ s.mem.run n = .blocked ∧
        (s.after d a q).mem.run n = .blocked ∧ (s.after d a q).mem.ready = s.mem.ready) ∨
      j = none ∧ s.mem.run n = .ended ∧ (s.after d a q).mem.run n = .free ∧
        (s.after d a q).mem.ready = s.mem.ready := by
  obtain ⟨rfl, ⟨t, rfl⟩, w, hp⟩ | ⟨rfl, ⟨b, hp, rfl⟩, x, rfl⟩ | ⟨rfl, e, rfl, rfl⟩ | ⟨rfl, rfl⟩ :=
    bearing_callback hb
  · left
    have hc' := hc
    rw [hp] at hc'
    obtain ⟨rfl, rfl⟩ := control_yield hc'
    have hφ : (s.shape d).phase = some (n, .switched) := by
      simp [State.shape, hp, Pc.shape, YieldPc.shape]
    have hr : s.mem.run n = .switched := ((owned hs).task d n _ hφ).1
    have hslot := ((owned hs).slot_of_phase hφ (by simp)).1
    exact ⟨rfl, hr, by simp [Access.apply, Mem.push, hslot, hr, RunState.pushed], rfl, hslot⟩
  · exact .inr (.inl ⟨.inl rfl, (slot_of_lock hs hp).2.1, (slot_of_lock hs hp).2.1, rfl⟩)
  · have hr := (slot_of_remained hs (step_shape hs hc).sleep.1).2.1
    exact .inr (.inl ⟨.inr rfl, hr, hr, rfl⟩)
  · exact .inr (.inr ⟨rfl, (owned hs).task d n _ (step_shape hs hc).phase.1,
      by simp [Access.apply], rfl⟩)

omit hc in
/-- **A worker switches to a bthread** that is in a run queue. -/
theorem schedTo_moves (hc : control d (s.pc d) k s.mem = some (.schedTo t, q)) :
    t ∈ s.mem.ready ∧ (s.after d (.schedTo t) q).mem.run (getSlot t) = .running ∧
      (s.after d (.schedTo t) q).mem.ready = s.mem.ready.erase t :=
  ⟨(step_shape hs hc).phase.1, by simp [Access.apply], rfl⟩

end Moves

end Bthread.Scheduling
