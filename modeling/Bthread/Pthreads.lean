import Bthread.Wakeups

set_option relaxedAutoImplicit false
set_option autoImplicit false

/-!
# Waits of pthreads

The waiter of a pthread is on its stack, so `wait_pthread` must not return before the wakers are
done with it. It returns after it has seen that it was signalled, or after it has removed itself; if
somebody else has removed it, it goes on without a timeout.

## Main definitions

* `Bthread.PthreadWaitPc.Early`, `Bthread.PthreadWaitPc.Own`, `Bthread.PthreadWaitPc.Over` — how far
  the wait of a pthread has come.
* `Bthread.Enqueued` — the waiter of a pthread that has been queued.
* `Bthread.OutOfReach` — nobody gets at a waiter any more.
* `Bthread.WaitsOut` — `wait_pthread` returns when its waiter is out of reach.

## Main results

* `Bthread.waitsOut` — it does, if `erase_from_butex` is only about waiters that were queued.
* `Bthread.not_waitsOut` — it does not, otherwise.
-/

namespace Bthread

open Function (update update_self update_of_ne)
open Conc (Ensures)

variable {s : State} {c d w : CallId} {m : Mem} {a : Access} {p : Pc} {k : Move}
  {b : PthreadWaitArgs} {q q₀ : PthreadWaitPc} {o : Outcome}

/-! ## Control points of the wait of a pthread -/

/-- The waiter of the pthread was not queued yet. -/
def PthreadWaitPc.Early : PthreadWaitPc → Prop
  | .start | .init | .publish | .lock | .value | .unlockUnmatched | .interrupted
  | .unlockInterrupted | .clearInterrupted | .append | .setContainer => True
  | _ => False

/-- The waiter of the pthread is constructed and about to be queued. -/
def PthreadWaitPc.Pending : PthreadWaitPc → Prop
  | .publish | .lock | .value | .interrupted | .append | .setContainer => True
  | _ => False

/-- The pthread is inside `wait_pthread`, or about to call it. -/
def PthreadWaitPc.Queued : PthreadWaitPc → Prop
  | .unlockQueued | .futexWait _ | .sig _ _ | .erase _ | .sigAgain => True
  | _ => False

/-- The pthread has removed its waiter and `erase_from_butex` has not returned yet. -/
def PthreadWaitPc.Own : PthreadWaitPc → Prop
  | .erase (.setState _) | .erase (.unlock _) => True
  | _ => False

/-- `wait_pthread` has returned, or the wait was refused. -/
def PthreadWaitPc.Over : PthreadWaitPc → Prop
  | .takeBack _ | .loadInterrupted _ | .clearAfter _ | .ret _ => True
  | _ => False

/-- `wait_pthread` returns where the end of `butex_wait_from_pthread` starts. -/
theorem over_afterWait (t : Option SlotId) (rc : WaitResult) : (afterWait t rc).Over := by
  cases t <;> trivial

/-- `erase_from_butex` has removed the waiter and not returned yet from the access on that clears
the `container`. -/
theorem eraseFromButex_own {e : ErasePc} : Ensures (eraseFromButex c false true .timeout e m)
    fun a r => ∀ e', r = .inl e' → ((PthreadWaitPc.erase e').Own →
      (PthreadWaitPc.erase e).Own ∨ a = .clearContainer c) ∧
      ((PthreadWaitPc.erase e).Own ∨ a = .clearContainer c → (PthreadWaitPc.erase e').Own) := by
  fun_cases eraseFromButex c false true .timeout e m <;> simp_all [PthreadWaitPc.Own]

/-- What one access of the wait of a pthread can do. -/
inductive PthreadStep (m : Mem) (c : CallId) (b : PthreadWaitArgs) :
    PthreadWaitPc → Access → PthreadWaitPc → Prop
  | early {q₀ q : PthreadWaitPc} {a : Access} (h₀ : q₀.Early) (h : q.Early)
      (ha : (∀ b', a ≠ .setContainer b') ∧ ∀ w, a ≠ .clearContainer w)
      (hp : q.Pending → q₀.Pending ∨ ∃ g, a = .initPthreadWaiter g) : PthreadStep m c b q₀ a q
  | refused {q₀ q : PthreadWaitPc} {a : Access} (h₀ : q₀.Early) (h : q.Over) :
      PthreadStep m c b q₀ a q
  | queue : PthreadStep m c b .setContainer (.setContainer b.butex) .unlockQueued
  | unlock : PthreadStep m c b .unlockQueued (.unlockButex b.butex) (.futexWait b.abstime)
  | futex {timed : Bool} {rc : WaitResult} (h : futexReturns (m.sig c) timed rc = true) :
      PthreadStep m c b (.futexWait timed) .nop (.sig timed rc)
  | signalled {timed : Bool} {rc : WaitResult} (h : m.sig c = true) :
      PthreadStep m c b (.sig timed rc) .nop (afterWait b.task rc)
  | timeout {timed : Bool} (h : m.sig c = false) :
      PthreadStep m c b (.sig timed .etimedout) .nop (.erase .load)
  | retry {timed : Bool} {rc : WaitResult} (h : m.sig c = false) (hr : rc ≠ .etimedout) :
      PthreadStep m c b (.sig timed rc) .nop (.futexWait timed)
  | erase {p p' : ErasePc} {a : Access}
      (h : eraseFromButex c false true .timeout p m = some (a, .inl p')) :
      PthreadStep m c b (.erase p) a (.erase p')
  | erased {b' : ButexId} :
      PthreadStep m c b (.erase (.unlock b')) (.unlockButex b') (afterWait b.task .etimedout)
  | lost (h : m.container c = none) : PthreadStep m c b (.erase .load) .nop .sigAgain
  | signalledAgain (h : m.sig c = true) :
      PthreadStep m c b .sigAgain .nop (afterWait b.task .etimedout)
  | untimed (h : m.sig c = false) : PthreadStep m c b .sigAgain .nop (.futexWait false)
  | takeBack {t : SlotId} {rc : WaitResult} {q : PthreadWaitPc}
      (hq : q = .takeBack rc ∨ q = .loadInterrupted rc) :
      PthreadStep m c b (.takeBack rc) (.setCurrentWaiter t none) q
  | interrupted {t : SlotId} {rc : WaitResult} (ht : b.task = some t)
      (h : m.interrupted t = true) : PthreadStep m c b (.loadInterrupted rc) .nop (.clearAfter rc)
  | uninterrupted {t : SlotId} {rc : WaitResult} (ht : b.task = some t)
      (h : m.interrupted t = false) : PthreadStep m c b (.loadInterrupted rc) .nop (.ret rc)
  | clear {t : SlotId} {rc : WaitResult} (ht : b.task = some t) :
      PthreadStep m c b (.clearAfter rc) (.setInterrupted t false)
        (.ret (if rc = .ok then .eintr else rc))

/-- Every access of the wait of a pthread is one of these. -/
theorem butexWaitFromPthread_moves (hok : q₀ ≠ .erase .wakeup) :
    Ensures (butexWaitFromPthread c b q₀ o m) fun a r =>
      ∀ q, r = .inl q → PthreadStep m c b q₀ a q := by
  fun_cases butexWaitFromPthread c b q₀ o m
  case case1 =>
    rintro _ _ ⟨⟩ _ ⟨⟩
    exact .refused trivial trivial
  case case4 g =>
    rintro _ _ ⟨⟩ _ ⟨⟩
    refine .early trivial ?_ (by simp) fun _ => .inr ⟨g, rfl⟩
    split <;> trivial
  case case12 | case17 =>
    rintro _ _ ⟨⟩ _ ⟨⟩
    exact .refused trivial (over_afterWait _ _)
  case case3 | case6 | case8 | case10 | case11 | case13 | case14 | case15 | case16 | case19 =>
    rintro _ _ ⟨⟩ _ ⟨⟩
    exact .early trivial trivial (by simp) (by simp [PthreadWaitPc.Pending])
  case case20 => rintro _ _ ⟨⟩ _ ⟨⟩; exact .queue
  case case21 => rintro _ _ ⟨⟩ _ ⟨⟩; exact .unlock
  case case22 h => rintro _ _ ⟨⟩ _ ⟨⟩; exact .futex h
  case case25 h => rintro _ _ ⟨⟩ _ ⟨⟩; exact .signalled h
  case case26 h => rintro _ _ ⟨⟩ _ ⟨⟩; exact .timeout (by simpa using h)
  case case27 hr h => rintro _ _ ⟨⟩ _ ⟨⟩; exact .retry (by simpa using h) hr
  case case28 p =>
    rw [Conc.ensures_inside]
    intro a r h q hq
    cases r with
    | inl p' =>
      obtain rfl : .erase p' = q := by simpa using hq
      exact .erase h
    | inr erased =>
      obtain rfl : (if erased = true then afterWait b.task .etimedout else .sigAgain) = q := by
        simpa using hq
      cases p with
      | load =>
        cases hcont : m.container c with
        | none =>
          simp only [eraseFromButex, hcont, Conc.ret, Option.some.injEq, Prod.mk.injEq,
            Sum.inr.injEq] at h
          obtain ⟨rfl, rfl⟩ := h
          exact .lost hcont
        | some b' => simp [eraseFromButex, hcont, Conc.goto] at h
      | unlock b' =>
        simp only [eraseFromButex, Bool.false_eq_true, if_false, Conc.ret, Option.some.injEq,
          Prod.mk.injEq, Sum.inr.injEq] at h
        obtain ⟨rfl, rfl⟩ := h
        exact .erased
      | wakeup => exact absurd rfl hok
      | lock b' =>
        by_cases hl : m.waiterLock b' = none <;> simp [eraseFromButex, hl, Conc.goto] at h
      | recheck b' =>
        by_cases hl : m.container c = some b' <;> simp [eraseFromButex, hl, Conc.goto] at h
      | setState b' => by_cases hl : m.tid c = 0 <;> simp [eraseFromButex, hl, Conc.goto] at h
      | _ => simp [eraseFromButex, Conc.goto] at h
  case case29 h => rintro _ _ ⟨⟩ _ ⟨⟩; exact .signalledAgain h
  case case30 h => rintro _ _ ⟨⟩ _ ⟨⟩; exact .untimed (by simpa using h)
  case case31 =>
    rintro _ _ ⟨⟩ _ ⟨⟩
    refine .takeBack ?_
    split
    · exact .inl rfl
    · exact .inr rfl
  case case33 ht h => rintro _ _ ⟨⟩ _ ⟨⟩; exact .interrupted ht h
  case case34 ht h => rintro _ _ ⟨⟩ _ ⟨⟩; exact .uninterrupted ht (by simpa using h)
  case case36 ht => rintro _ _ ⟨⟩ _ ⟨⟩; exact .clear ht
  case case38 | case39 => rintro _ _ ⟨⟩ _ h; cases h
  all_goals exact Conc.ensures_none _

/-- The wait of a pthread goes on by itself. -/
theorem control_pthread (hok : p.Ok) (h : control c p k m = some (a, .butexWaitFromPthread b q)) :
    (p = .idle ∧ q = .start ∧ (a = .nop ∨ ∃ t, a = .enter t)) ∨
      ∃ q₀, p = .butexWaitFromPthread b q₀ ∧ PthreadStep m c b q₀ a q := by
  cases k with
  | call f =>
    cases p with
    | idle =>
      left
      cases f with
      | butexWaitFromPthread a' =>
        cases ht : a'.task with
        | none =>
          simp only [control, begin, ht, Option.some.injEq, Prod.mk.injEq,
            Pc.butexWaitFromPthread.injEq] at h
          exact ⟨rfl, h.2.2.symm, .inl h.1.symm⟩
        | some t =>
          simp only [control, begin, ht, Option.ite_none_right_eq_some, Option.some.injEq,
            Prod.mk.injEq, Pc.butexWaitFromPthread.injEq] at h
          exact ⟨rfl, h.2.2.2.symm, .inr ⟨t, h.2.1.symm⟩⟩
      | fire j => cases ht : m.timerFn j <;> simp [control, begin, ht] at h
      | _ => simp [control, begin] at h
    | _ => simp [control] at h
  | next o =>
    cases p with
    | butexWaitFromPthread b' q₀ =>
      obtain ⟨q', hq, hp⟩ | ⟨v, -, hp⟩ := within_eq h
      · cases hp
        refine .inr ⟨q₀, rfl, butexWaitFromPthread_moves ?_ a _ hq q rfl⟩
        rintro rfl
        exact hok
      · simp at hp
    | idle | done r => simp [control] at h
    | _ =>
      obtain ⟨q', -, hp⟩ | ⟨v, -, hp⟩ := within_eq h
      · simp at hp
      · simp at hp

/-- The wait of a pthread returns at its end. -/
theorem control_pthread_done {r : Result}
    (h : control c (.butexWaitFromPthread b q₀) k m = some (a, .done r)) :
    ∃ rc, q₀ = .ret rc ∧ r = .wait rc := by
  cases k with
  | call f => simp [control] at h
  | next o =>
    have main : Ensures (butexWaitFromPthread c b q₀ o m) fun _ r => ∀ v, r = .inr v →
        q₀ = .ret v := by
      clear h
      fun_cases butexWaitFromPthread c b q₀ o m
      case case28 p =>
        rw [Conc.ensures_inside]
        rintro _ (_ | _) _ _ ⟨⟩
      case case38 | case39 => rintro _ _ ⟨⟩ _ ⟨⟩; rfl
      all_goals
        first
        | exact Conc.ensures_none _
        | rintro _ _ ⟨⟩ _ ⟨⟩
    obtain ⟨q', -, hp⟩ | ⟨v, hv, hp⟩ := within_eq h
    · simp at hp
    · exact ⟨v, main _ _ hv v rfl, by simpa using hp⟩

namespace PthreadStep

variable (h : PthreadStep m c b q₀ a q)
include h

/-- A waiter that was not queued yet was not queued before, and is queued by the access that stores
its `container`. -/
theorem early_of (hq : q.Early) : q₀.Early ∧ ∀ b', a ≠ .setContainer b' := by
  have hne : ∀ rc, ¬(afterWait b.task rc).Early := fun rc => by cases b.task <;> exact id
  cases h with
  | early h₀ _ ha _ => exact ⟨h₀, ha.1⟩
  | refused _ h => cases q <;> first | exact hq.elim | exact h.elim
  | takeBack hq' => obtain rfl | rfl := hq' <;> exact hq.elim
  | signalled | erased | signalledAgain => exact absurd hq (hne _)
  | _ => exact hq.elim

/-- A waiter that is about to be queued was so before, or has just been constructed. -/
theorem pending_of (hq : q.Pending) : q₀.Pending ∨ ∃ g, a = .initPthreadWaiter g := by
  have hne : ∀ rc, ¬(afterWait b.task rc).Pending := fun rc => by cases b.task <;> exact id
  cases h with
  | early _ _ _ hp => exact hp hq
  | refused _ h => cases q <;> first | exact hq.elim | exact h.elim
  | takeBack hq' => obtain rfl | rfl := hq' <;> exact hq.elim
  | signalled | erased | signalledAgain => exact absurd hq (hne _)
  | _ => exact hq.elim

/-- A pthread gets into `wait_pthread` when it has stored the `container`. -/
theorem queued_of (hq : q.Queued) : q₀.Queued ∨ q₀ = .setContainer ∧ a = .setContainer b.butex := by
  have hne : ∀ rc, ¬(afterWait b.task rc).Queued := fun rc => by cases b.task <;> exact id
  cases h with
  | early _ h _ _ => cases q <;> first | exact hq.elim | exact h.elim
  | refused _ h => cases q <;> first | exact hq.elim | exact h.elim
  | queue => exact .inr ⟨rfl, rfl⟩
  | takeBack hq' => obtain rfl | rfl := hq' <;> exact hq.elim
  | interrupted | uninterrupted | clear => exact hq.elim
  | _ => exact .inl trivial

/-- How the wait of a pthread gets to its end: it was refused, it has seen that it was signalled, or
it has removed its own waiter. -/
theorem over_of (hq : q.Over) : q₀.Over ∨ q₀.Early ∨ ∃ rc, q = afterWait b.task rc ∧
    ((∃ timed, q₀ = .sig timed rc) ∧ m.sig c = true ∨
      q₀ = .sigAgain ∧ rc = .etimedout ∧ m.sig c = true ∨ q₀.Own ∧ rc = .etimedout) := by
  cases h with
  | early h₀ => exact .inr (.inl h₀)
  | refused h₀ => exact .inr (.inl h₀)
  | signalled hs => exact .inr (.inr ⟨_, rfl, .inl ⟨⟨_, rfl⟩, hs⟩⟩)
  | erased => exact .inr (.inr ⟨_, rfl, .inr (.inr ⟨trivial, rfl⟩)⟩)
  | signalledAgain hs => exact .inr (.inr ⟨_, rfl, .inr (.inl ⟨rfl, rfl, hs⟩)⟩)
  | takeBack | interrupted | uninterrupted | clear => exact .inl trivial
  | _ => exact hq.elim

/-- A pthread removes its waiter with the access that clears the `container`. -/
theorem own_of (hq : q.Own) : q₀.Own ∨ a = .clearContainer c := by
  have hne : ∀ rc, ¬(afterWait b.task rc).Own := fun rc => by cases b.task <;> exact id
  cases h with
  | early _ h _ _ => cases q <;> first | exact hq.elim | exact h.elim
  | refused _ h => cases q <;> first | exact hq.elim | exact h.elim
  | erase h => exact (eraseFromButex_own a _ h _ rfl).1 hq
  | takeBack hq' => obtain rfl | rfl := hq' <;> exact hq.elim
  | signalled | erased | signalledAgain => exact absurd hq (hne _)
  | _ => exact hq.elim

/-- After it has removed its waiter the pthread gets to its end, and stays there. -/
theorem removed_of (hq : q₀.Own ∨ q₀.Over ∨ a = .clearContainer c) : q.Own ∨ q.Over := by
  cases h with
  | early h₀ _ ha _ =>
    obtain hq | hq | hq := hq
    · cases q₀ <;> first | exact hq.elim | exact h₀.elim
    · cases q₀ <;> first | exact hq.elim | exact h₀.elim
    · exact absurd hq (ha.2 c)
  | refused _ h => exact .inr h
  | erase h =>
    refine .inl ((eraseFromButex_own a _ h _ rfl).2 ?_)
    obtain hq | hq | hq := hq
    · exact .inl hq
    · exact hq.elim
    · exact .inr hq
  | erased => exact .inr (over_afterWait _ _)
  | takeBack hq' => obtain rfl | rfl := hq' <;> exact .inr trivial
  | interrupted | uninterrupted | clear => exact .inr trivial
  | signalled | signalledAgain => exact .inr (over_afterWait _ _)
  | _ =>
    obtain hq | hq | hq := hq
    · exact hq.elim
    · exact hq.elim
    · cases hq

/-- `wait_pthread` looks at `sig` again when `erase_from_butex` has found no `container`. -/
theorem sigAgain_of (hq : q = .sigAgain) :
    q₀ = .erase .load ∧ m.container c = none ∧ a = .nop := by
  have hne : ∀ rc, afterWait b.task rc ≠ .sigAgain := fun rc => by cases b.task <;> simp [afterWait]
  cases h with
  | lost h => exact ⟨rfl, h, rfl⟩
  | early _ h => rw [hq] at h; exact h.elim
  | refused _ h => rw [hq] at h; exact h.elim
  | takeBack hq' => obtain rfl | rfl := hq' <;> cases hq
  | signalled | erased | signalledAgain => exact absurd hq (hne _)
  | _ => cases hq

/-- Without a timeout `futex_wait_private` does not time out. -/
theorem untimed_of {rc : WaitResult} (hq : q = .sig false rc) : rc ≠ .etimedout := by
  have hne : ∀ rc', afterWait b.task rc' ≠ .sig false rc := fun rc' => by
    cases b.task <;> simp [afterWait]
  cases h with
  | futex hf =>
    obtain ⟨rfl, rfl⟩ := PthreadWaitPc.sig.inj hq
    rintro rfl
    simp [futexReturns] at hf
  | early _ h => rw [hq] at h; exact h.elim
  | refused _ h => rw [hq] at h; exact h.elim
  | takeBack hq' => obtain rfl | rfl := hq' <;> cases hq
  | signalled | erased | signalledAgain => exact absurd hq (hne _)
  | _ => cases hq

end PthreadStep

/-! ## The invariant -/

/-- A wait that has been queued has constructed its waiter. -/
theorem built_of_enqueued (hs : system.Reachable s) (hw : s.mem.enqueues w ≠ 0) :
    (s.shape w).built = true := by
  refine shape_invariant (J := Locked)
    (I := fun m sh => ∀ w, m.enqueues w ≠ 0 → (sh w).built = true) (fun _ => locked)
    (fun m hm w hw => absurd (hm.enqueues w) hw) ?_ hs w hw
  intro m sh c a y L _ ih h w hw
  by_cases h0 : m.enqueues w = 0
  · cases a with
    | setContainer b' =>
      by_cases hwc : w = c
      · subst hwc
        simpa using h.ages.built ((L.wf w).queueing b' h.queue.1).2.1
      · exact absurd h0 (by simpa [Access.apply, hwc] using hw)
    | _ => exact absurd h0 hw
  · exact h.built_update (ih w h0)

/-- A call that is about to store its `container` is a wait. -/
theorem Pc.of_queueing {b' : ButexId} (h : (p.shape c).queueing = some b') :
    (p.shape c).self ≠ none ∨ ∃ b, p = .butexWaitFromPthread b .setContainer := by
  cases p with
  | butexWait b q =>
    cases q with
    | callback q =>
      cases q with
      | setContainer => exact .inl (by simp [Pc.shape, WaitPc.shape, CallbackPc.shape])
      | unsleep u => cases u <;> cases h
      | _ => cases h
    | unsleep u => cases u <;> cases h
    | _ => cases h
  | butexWaitFromPthread b q =>
    cases q with
    | setContainer => exact .inr ⟨b, rfl⟩
    | erase e => cases e <;> cases h
    | _ => cases h
  | butexWake b q =>
    cases q with
    | front w f =>
      cases f with
      | unsleep u => cases u <;> cases h
      | _ => cases h
    | _ => cases h
  | butexWakeAll b w q =>
    cases q with
    | unsleepNext next bt n u => cases u <;> cases h
    | unsleep next bt w n saved u => cases u <;> cases h
    | _ => cases h
  | butexWakeExcept b t w q =>
    cases q with
    | unsleep bt w n saved u => cases u <;> cases h
    | _ => cases h
  | endTask t q =>
    cases q with
    | wakeExcept q =>
      cases q with
      | unsleep bt w n saved u => cases u <;> cases h
      | _ => cases h
    | _ => cases h
  | interrupt t w q =>
    cases q with
    | erase w e => cases e <;> cases h
    | _ => cases h
  | timer i q =>
    cases q with
    | erase w e => cases e <;> cases h
    | _ => cases h
  | butexRequeue b d q => cases q <;> cases h
  | setStopped t q => cases q <;> cases h
  | usleep t q => cases q <;> cases h
  | addSleepEvent e t q => cases q <;> cases h
  | startTask q => cases q <;> cases h
  | initGroup q => cases q <;> cases h
  | yield t q => cases q <;> cases h
  | idle | done r => cases h

/-- The waiter of call `w` is a pthread's and has been queued. -/
def Enqueued (m : Mem) (w : CallId) : Prop := m.enqueues w ≠ 0 ∧ m.tid w = 0

/-- Where a queued waiter of a pthread is: in a queue, in the hands of a call, or signalled. -/
def Custody.Pthread (u : Custody) : Prop :=
  (∃ b, u = .linked b) ∨ (∃ d, u = .unlinked d) ∨ (∃ d, u = .held d) ∨ u = .signalled

/-- How far the wait of a pthread has come and where its waiter is. -/
structure PthreadOk (s : State) (w : CallId) : Prop where
  early : ∀ b q, s.pc w = .butexWaitFromPthread b q → q.Early → s.mem.enqueues w = 0
  place : Enqueued s.mem w →
    (∃ b q, s.pc w = .butexWaitFromPthread b q ∧ ¬q.Early) ∨ ∃ r, s.pc w = .done r
  pending : ∀ b q, s.pc w = .butexWaitFromPthread b q → q.Pending →
    s.mem.sig w = false ∧ s.mem.tid w = 0
  queued : ∀ b q, s.pc w = .butexWaitFromPthread b q → q.Queued → Enqueued s.mem w
  custody : Enqueued s.mem w → (s.mem.custody w).Pthread
  sig : Enqueued s.mem w → (s.mem.sig w = true ↔ s.mem.custody w = .signalled)
  own : ∀ b q, s.pc w = .butexWaitFromPthread b q → q.Own → s.mem.custody w = .held w
  held : ∀ b q, s.pc w = .butexWaitFromPthread b q → s.mem.custody w = .held w → q.Own ∨ q.Over
  again : ∀ b, s.pc w = .butexWaitFromPthread b .sigAgain →
    s.mem.custody w = .signalled ∨ ∃ d, d ≠ w ∧ s.mem.custody w = .held d
  returned : Enqueued s.mem w → ∀ b q, s.pc w = .butexWaitFromPthread b q → q.Over →
    s.mem.custody w = .held w ∨ s.mem.custody w = .signalled
  done : Enqueued s.mem w → ∀ r, s.pc w = .done r →
    s.mem.custody w = .held w ∨ s.mem.custody w = .signalled

/-! ## Steps -/

/-- A waiter is held by whoever clears its `container`. -/
theorem eq_clearContainer (h : a.entrust c m = some (w, .held d)) :
    a = .clearContainer w ∧ d = c := by
  cases a with
  | clearContainer w' =>
    simp only [Access.entrust, Option.some.injEq, Prod.mk.injEq, Custody.held.injEq] at h
    exact ⟨by rw [h.1], h.2.symm⟩
  | schedule fn => cases fn <;> simp [Access.entrust] at h
  | unschedule i => by_cases hp : m.timerState i = .pending <;> simp_all [Access.entrust]
  | _ => simp_all [Access.entrust]

/-- `sig` is set by `wakeup_pthread` and cleared by the construction of the waiter. -/
theorem sig_apply (c : CallId) (a : Access) (m : Mem) (w : CallId) :
    (a.apply c m).sig w = m.sig w ∨ (a = .wakeupPthread w ∧ (a.apply c m).sig w = true) ∨
      (∃ g, a = .initPthreadWaiter g) ∧ w = c ∧ (a.apply c m).sig w = false := by
  cases a with
  | wakeupPthread w' =>
    by_cases h : w' = w
    · subst h; simp [Access.apply]
    · exact .inl (by simp [Access.apply, Ne.symm h])
  | initPthreadWaiter g =>
    by_cases h : w = c
    · subst h; simp [Access.apply]
    · exact .inl (by simp [Access.apply, h])
  | _ => exact .inl rfl

section Step

variable {y : Shape} {sh : CallId → Shape}
variable (L : Locked m sh) (K : Known m sh) (O : Owned m sh) (h : Shape.Step c m a (sh c) y)
  (hw : m.tainted w = false)
include L K O h hw

/-- A waiter that a call holds stays with it until that call, which is not the waiter, hands it
off. -/
theorem Owned.held_step (hu : m.custody w = .held d) :
    (a.apply c m).custody w = .held d ∨ (c = d ∧ d ≠ w ∧ a.HandsOff w) := by
  by_cases hn : ∃ v, a.entrust c m = some (w, v)
  · obtain ⟨v, hv⟩ := hn
    have ha := O.handsOff_of_held L K h hw hu hv
    obtain ⟨hc, hne, -⟩ := O.held_of_handsOff L K h hw ha
    rw [hu, Custody.held.injEq] at hc
    exact .inr ⟨hc.symm, hc ▸ hne, ha⟩
  · exact .inl (by rw [custody_of_not_entrust fun v hv => hn ⟨v, hv⟩, hu])

/-- A waiter that was signalled stays signalled. -/
theorem Owned.signalled_step (hu : m.custody w = .signalled) :
    (a.apply c m).custody w = .signalled := by
  rw [custody_of_not_entrust, hu]
  intro v hv
  have hm := (O.handover L K h hw hv).1
  rw [hu] at hm
  cases hm

omit L O in
/-- Handing off the waiter of a pthread is signalling it. -/
theorem eq_of_handsOff (h0 : m.tid w = 0) (ha : a.HandsOff w) : a = .wakeupPthread w := by
  have hq := h.queue
  cases a with
  | wakeupPthread w' => rw [show w' = w from ha]
  | handOff w' | handOffLost w' =>
    obtain rfl : w' = w := ha
    exact absurd h0 (hq.2.2.2.2.elim id (K.bts c w'))
  | _ => exact ha.elim

/-- The waiter of a pthread stays in a queue, in the hands of a call, or signalled. -/
theorem Owned.pthread_step (h0 : m.tid w = 0) (hu : (m.custody w).Pthread) :
    ((a.apply c m).custody w).Pthread := by
  by_cases hn : ∃ v, a.entrust c m = some (w, v)
  · obtain ⟨v, hv⟩ := hn
    have hm := (O.handover L K h hw hv).1
    rw [custody_of_entrust hv]
    have handsOff : ∀ d, m.custody w = .held d → v = .signalled := by
      intro d hd
      have ha := eq_of_handsOff K h hw h0 (O.handsOff_of_held L K h hw hd hv)
      subst ha
      simpa [Access.entrust] using hv.symm
    obtain ⟨b, hu⟩ | ⟨d, hu⟩ | ⟨d, hu⟩ | hu := hu
    · rw [hu] at hm
      cases hm
      exact .inr (.inl ⟨c, rfl⟩)
    · rw [hu] at hm
      cases hm with
      | reappend => exact .inl ⟨_, rfl⟩
      | clear => exact .inr (.inr (.inl ⟨_, rfl⟩))
    · exact .inr (.inr (.inr (handsOff d hu)))
    · rw [hu] at hm
      cases hm
  · rwa [custody_of_not_entrust fun v hv => hn ⟨v, hv⟩]

end Step

/-- How often a waiter was enqueued after an access. -/
theorem enqueues_apply (c : CallId) (a : Access) (m : Mem) (w : CallId) :
    (a.apply c m).enqueues w = m.enqueues w ∨ w = c ∧ ∃ b', a = .setContainer b' := by
  cases a with
  | setContainer b' =>
    by_cases h : w = c
    · exact .inr ⟨h, b', rfl⟩
    · exact .inl (by simp [Access.apply, h])
  | _ => exact .inl rfl

/-- A wait of a pthread after a step: it was there before, it was just called, or it has taken an
access itself. -/
theorem pthread_after (hs : system.Reachable s) (hc : control c (s.pc c) k s.mem = some (a, p))
    (hp : (s.after c a p).pc w = .butexWaitFromPthread b q) :
    (w ≠ c ∧ s.pc w = .butexWaitFromPthread b q) ∨
      w = c ∧ ((s.pc w = .idle ∧ q = .start ∧ (a = .nop ∨ ∃ t, a = .enter t)) ∨
        ∃ q₀, s.pc w = .butexWaitFromPthread b q₀ ∧ PthreadStep s.mem w b q₀ a q) := by
  by_cases hwc : w = c
  · subst hwc
    obtain rfl : p = .butexWaitFromPthread b q := by simpa using hp
    exact .inr ⟨rfl, control_pthread ((ok_and_waiterLock hs).1 w) hc⟩
  · exact .inl ⟨hwc, by simpa [hwc] using hp⟩

section Keep

variable (hs : system.Reachable s) (hc : control c (s.pc c) k s.mem = some (a, p))
include hs hc

/-- A waiter that was enqueued stays so, and its identifier does not change. -/
theorem enqueued_keep (he : Enqueued s.mem w) : Enqueued (s.after c a p).mem w := by
  have hb : (s.shape w).built = true := built_of_enqueued hs he.1
  refine ⟨?_, ((step_shape hs hc).tid_eq hb).trans he.2⟩
  obtain h | ⟨rfl, b', rfl⟩ := enqueues_apply c a s.mem w
  · exact h ▸ he.1
  · simp [Access.apply]

/-- A waiter that is enqueued was so before, or has just stored its `container`. -/
theorem enqueued_of (he : Enqueued (s.after c a p).mem w) :
    Enqueued s.mem w ∨
      w = c ∧ (∃ b, s.pc w = .butexWaitFromPthread b .setContainer ∧
        a = .setContainer b.butex ∧ p = .butexWaitFromPthread b .unlockQueued) ∧
        ∃ b', (s.shape w).queueing = some b' := by
  by_cases h0 : s.mem.enqueues w = 0
  · right
    obtain h | ⟨rfl, b', rfl⟩ := enqueues_apply c a s.mem w
    · exact absurd (h.trans h0) he.1
    · have hq := (step_shape hs hc).queue.1
      refine ⟨rfl, ?_, b', hq⟩
      obtain hself | ⟨b, hp⟩ := Pc.of_queueing hq
      · obtain ⟨t, ht⟩ := Option.ne_none_iff_exists'.mp hself
        exact absurd he.2 ((owned hs).tid_of_self (locked hs) ht).2.2.1
      · refine ⟨b, hp, ?_⟩
        rw [hp] at hc
        cases k with
        | call f => simp [control] at hc
        | next o =>
          simp only [control, butexWaitFromPthread, Conc.goto, within, Sum.elim_inl,
            Option.some.injEq, Prod.mk.injEq] at hc
          exact ⟨hc.1.symm, hc.2.symm⟩
  · left
    have hb : (s.shape w).built = true := built_of_enqueued hs h0
    exact ⟨h0, ((step_shape hs hc).tid_eq hb).symm.trans he.2⟩

section Fields

variable (hw : s.mem.tainted w = false)
include hw

/-- A waiter that the pthread has, or that was signalled, stays so. -/
theorem custody_keep {u : Custody} (hu : s.mem.custody w = u) (hv : u = .held w ∨ u = .signalled) :
    (a.apply c s.mem).custody w = u := by
  have h := step_shape hs hc
  obtain rfl | rfl := hv
  · obtain hk | ⟨-, hne, -⟩ := (owned hs).held_step (locked hs) (known hs) h hw hu
    · exact hk
    · exact absurd rfl hne
  · exact (owned hs).signalled_step (locked hs) (known hs) h hw hu

/-- What `wait_pthread` ends with stays so. -/
theorem over_keep (hu : s.mem.custody w = .held w ∨ s.mem.custody w = .signalled) :
    (a.apply c s.mem).custody w = .held w ∨ (a.apply c s.mem).custody w = .signalled :=
  hu.imp (fun hu => custody_keep hs hc hw hu (.inl rfl))
    fun hu => custody_keep hs hc hw hu (.inr rfl)

/-- Nobody signals a waiter that has not been queued. -/
theorem not_wakeupPthread (hp : s.pc w = .butexWaitFromPthread b q) (hq : q.Pending) :
    a ≠ .wakeupPthread w := by
  rintro rfl
  have O := owned hs
  have h := step_shape hs hc
  have hm : w ∈ (s.shape c).hand := h.queue.2.2.2.1.symm.subset List.mem_cons_self
  have hu := O.sound w _ hw (.held hm)
  have hx : (s.shape w).fresh = true ∨ ∃ b', (s.shape w).queueing = some b' := by
    rw [State.shape, hp]
    cases q <;> simp_all [Pc.shape, PthreadWaitPc.shape, PthreadWaitPc.Pending]
  obtain hf | ⟨b', hf⟩ := hx
  · simp [(O.fresh w hw hf).1] at hu
  · simp [O.queueing w b' hw hf] at hu

variable (I : PthreadOk s w)
include I

omit hw in
/-- A waiter is not queued before its call comes to it. -/
theorem PthreadOk.early_step (hp : (s.after c a p).pc w = .butexWaitFromPthread b q)
    (hq : q.Early) :
    (s.after c a p).mem.enqueues w = 0 := by
  have K := known hs
  obtain ⟨hne, hp₀⟩ | ⟨rfl, ⟨hp₀, rfl, ha⟩ | ⟨q₀, hp₀, hst⟩⟩ := pthread_after hs hc hp
  · obtain he | ⟨rfl, -⟩ := enqueues_apply c a s.mem w
    · exact he.trans (I.early b q hp₀ hq)
    · exact absurd rfl hne
  · have h0 : s.mem.enqueues w = 0 := K.unqueued w (by simp [State.shape, hp₀, Pc.shape])
    obtain rfl | ⟨t, rfl⟩ := ha
    · exact h0
    · exact h0
  · obtain ⟨hq₀, ha⟩ := hst.early_of hq
    obtain he | ⟨-, b', rfl⟩ := enqueues_apply w a s.mem w
    · exact he.trans (I.early b q₀ hp₀ hq₀)
    · exact absurd rfl (ha b')

omit hw in
/-- A call whose waiter was queued is past the start of its wait, or has returned. -/
theorem PthreadOk.place_step (he : Enqueued (s.after c a p).mem w) :
    (∃ b q, (s.after c a p).pc w = .butexWaitFromPthread b q ∧ ¬q.Early) ∨
      ∃ r, (s.after c a p).pc w = .done r := by
  obtain he₀ | ⟨rfl, ⟨b, -, -, rfl⟩, -⟩ := enqueued_of hs hc he
  · by_cases hwc : w = c
    · subst hwc
      obtain ⟨b, q, hp, hq⟩ | ⟨r, hp⟩ := I.place he₀
      · rw [hp] at hc
        cases k with
        | call f => simp [control] at hc
        | next o =>
          obtain ⟨q', -, rfl⟩ | ⟨v, -, rfl⟩ := within_eq hc
          · refine .inl ⟨b, q', by simp, fun hq' => ?_⟩
            obtain ⟨hp₀, -⟩ | ⟨q₀, hp₀, hst⟩ :=
              control_pthread ((ok_and_waiterLock hs).1 w) (hp ▸ hc)
            · simp [hp] at hp₀
            · obtain ⟨-, rfl⟩ : b = b ∧ q = q₀ := by simpa [hp] using hp₀
              exact hq (hst.early_of hq').1
          · exact .inr ⟨_, by simp; rfl⟩
      · rw [hp] at hc
        simp [control] at hc
    · simpa [hwc] using I.place he₀
  · exact .inl ⟨b, .unlockQueued, by simp, id⟩

/-- The waiter that a call is about to queue is not signalled. -/
theorem PthreadOk.pending_step (hp : (s.after c a p).pc w = .butexWaitFromPthread b q)
    (hq : q.Pending) :
    (s.after c a p).mem.sig w = false ∧ (s.after c a p).mem.tid w = 0 := by
  have h := step_shape hs hc
  obtain ⟨hne, hp₀⟩ | ⟨rfl, ⟨hp₀, rfl, ha⟩ | ⟨q₀, hp₀, hst⟩⟩ := pthread_after hs hc hp
  · obtain ⟨h1, h2⟩ := I.pending b q hp₀ hq
    have hb : (s.shape w).built = true := by
      rw [State.shape, hp₀]
      cases q <;> simp_all [Pc.shape, PthreadWaitPc.shape, PthreadWaitPc.Pending]
    refine ⟨?_, (h.tid_eq hb).trans h2⟩
    obtain hsig | ⟨ha, -⟩ | ⟨-, rfl, -⟩ := sig_apply c a s.mem w
    · exact hsig.trans h1
    · exact absurd ha (not_wakeupPthread hs hc hw hp₀ hq)
    · exact absurd rfl hne
  · exact hq.elim
  · obtain hq₀ | ⟨g, rfl⟩ := hst.pending_of hq
    · obtain ⟨h1, h2⟩ := I.pending b q₀ hp₀ hq₀
      have hb : (s.shape w).built = true := by
        rw [State.shape, hp₀]
        cases q₀ <;> simp_all [Pc.shape, PthreadWaitPc.shape, PthreadWaitPc.Pending]
      refine ⟨?_, (h.tid_eq hb).trans h2⟩
      obtain hsig | ⟨ha, -⟩ | ⟨-, -, hsig⟩ := sig_apply w a s.mem w
      · exact hsig.trans h1
      · exact absurd ha (not_wakeupPthread hs hc hw hp₀ hq₀)
      · exact hsig
    · simp [Access.apply]

omit hw in
/-- A call that waits has queued its waiter. -/
theorem PthreadOk.queued_step (hp : (s.after c a p).pc w = .butexWaitFromPthread b q)
    (hq : q.Queued) :
    Enqueued (s.after c a p).mem w := by
  obtain ⟨hne, hp₀⟩ | ⟨rfl, ⟨hp₀, rfl, ha⟩ | ⟨q₀, hp₀, hst⟩⟩ := pthread_after hs hc hp
  · exact enqueued_keep hs hc (I.queued b q hp₀ hq)
  · exact hq.elim
  · obtain hq₀ | ⟨rfl, rfl⟩ := hst.queued_of hq
    · exact enqueued_keep hs hc (I.queued b q₀ hp₀ hq₀)
    · exact ⟨by simp [Access.apply], (I.pending b _ hp₀ trivial).2⟩

/-- A queued waiter stays in a queue, in the hands of a call, or signalled. -/
theorem PthreadOk.custody_step (he : Enqueued (s.after c a p).mem w) :
    ((s.after c a p).mem.custody w).Pthread := by
  have L := locked hs
  have K := known hs
  have O := owned hs
  have h := step_shape hs hc
  obtain he₀ | ⟨rfl, ⟨b, -, rfl, -⟩, b', hq⟩ := enqueued_of hs hc he
  · exact O.pthread_step L K h hw he₀.2 (I.custody he₀)
  · exact .inl ⟨b', O.queueing w b' hw hq⟩

/-- `sig` says whether the waiter was signalled. -/
theorem PthreadOk.sig_step (he : Enqueued (s.after c a p).mem w) :
    (s.after c a p).mem.sig w = true ↔ (s.after c a p).mem.custody w = .signalled := by
  have O := owned hs
  have h := step_shape hs hc
  obtain he₀ | ⟨rfl, ⟨b, hp, rfl, -⟩, b', hq⟩ := enqueued_of hs hc he
  · obtain hsig | ⟨rfl, hsig⟩ | ⟨⟨g, rfl⟩, rfl, -⟩ := sig_apply c a s.mem w
    · change (a.apply c s.mem).sig w = true ↔ (a.apply c s.mem).custody w = .signalled
      rw [hsig, I.sig he₀]
      refine ⟨fun hu => custody_keep hs hc hw hu (.inr rfl), fun hu => ?_⟩
      by_contra hne
      by_cases hn : ∃ v, a.entrust c s.mem = some (w, v)
      · obtain ⟨v, hv⟩ := hn
        rw [custody_of_entrust hv] at hu
        subst hu
        have ha := eq_wakeupPthread hv
        subst ha
        have : s.mem.sig w = true := by simpa [Access.apply] using hsig.symm
        exact hne ((I.sig he₀).mp this)
      · rw [custody_of_not_entrust fun v hv => hn ⟨v, hv⟩] at hu
        exact hne hu
    · exact ⟨fun _ => custody_of_entrust (a := .wakeupPthread w) (c := c) (m := s.mem) rfl,
        fun _ => hsig⟩
    · have hb := (h.ages.initPthread g rfl).1
      rw [built_of_enqueued hs he₀.1] at hb
      cases hb
  · have h1 := (I.pending b _ hp trivial).1
    have h2 := O.queueing w b' hw hq
    simp [Access.apply, h1, h2]

/-- A pthread that has removed its own waiter has it. -/
theorem PthreadOk.own_step (hp : (s.after c a p).pc w = .butexWaitFromPthread b q)
    (hq : q.Own) :
    (s.after c a p).mem.custody w = .held w := by
  obtain ⟨hne, hp₀⟩ | ⟨rfl, ⟨hp₀, rfl, ha⟩ | ⟨q₀, hp₀, hst⟩⟩ := pthread_after hs hc hp
  · exact custody_keep hs hc hw (I.own b q hp₀ hq) (.inl rfl)
  · exact hq.elim
  · obtain hq₀ | rfl := hst.own_of hq
    · exact custody_keep hs hc hw (I.own b q₀ hp₀ hq₀) (.inl rfl)
    · exact custody_of_entrust (a := .clearContainer w) (c := w) (m := s.mem) rfl

/-- A pthread has its own waiter only if it has removed it. -/
theorem PthreadOk.held_step (hp : (s.after c a p).pc w = .butexWaitFromPthread b q)
    (hu : (s.after c a p).mem.custody w = .held w) : q.Own ∨ q.Over := by
  have O := owned hs
  change (a.apply c s.mem).custody w = .held w at hu
  have hold : s.mem.custody w = .held w ∨ a = .clearContainer w ∧ w = c := by
    by_cases hn : ∃ v, a.entrust c s.mem = some (w, v)
    · obtain ⟨v, hv⟩ := hn
      rw [custody_of_entrust hv] at hu
      subst hu
      exact .inr (eq_clearContainer hv)
    · rw [custody_of_not_entrust fun v hv => hn ⟨v, hv⟩] at hu
      exact .inl hu
  obtain ⟨hne, hp₀⟩ | ⟨rfl, ⟨hp₀, rfl, ha⟩ | ⟨q₀, hp₀, hst⟩⟩ := pthread_after hs hc hp
  · exact I.held b q hp₀ (hold.resolve_right fun h => hne h.2)
  · have hf := (O.fresh w hw (by simp [State.shape, hp₀, Pc.shape])).1
    obtain rfl | ⟨t, rfl⟩ := ha
    · simp [hf] at hold
    · simp [hf] at hold
  · refine hst.removed_of ?_
    obtain hold | ⟨ha, -⟩ := hold
    · exact (I.held b q₀ hp₀ hold).imp_right .inl
    · exact .inr (.inr ha)

/-- A pthread that waits for `sig` was signalled, or another call has its waiter. -/
theorem PthreadOk.again_step (hp : (s.after c a p).pc w = .butexWaitFromPthread b .sigAgain) :
    (s.after c a p).mem.custody w = .signalled ∨
      ∃ d, d ≠ w ∧ (s.after c a p).mem.custody w = .held d := by
  have L := locked hs
  have K := known hs
  have O := owned hs
  have h := step_shape hs hc
  obtain ⟨hne, hp₀⟩ | ⟨rfl, ⟨hp₀, hq, ha⟩ | ⟨q₀, hp₀, hst⟩⟩ := pthread_after hs hc hp
  · obtain hu | ⟨d, hd, hu⟩ := I.again b hp₀
    · exact .inl (custody_keep hs hc hw hu (.inr rfl))
    · obtain hk | ⟨rfl, hd, ha⟩ := O.held_step L K h hw hu
      · exact .inr ⟨d, hd, hk⟩
      · obtain rfl := eq_of_handsOff K h hw (I.queued b _ hp₀ trivial).2 ha
        exact .inl (custody_of_entrust (a := .wakeupPthread w) (c := c) (m := s.mem) rfl)
  · cases hq
  · obtain ⟨rfl, hcont, rfl⟩ := hst.sigAgain_of rfl
    have he := I.queued b _ hp₀ trivial
    obtain ⟨b', hu⟩ | ⟨d, hu⟩ | ⟨d, hu⟩ | hu := I.custody he
    · obtain hk | hk := O.linked w b' hw hu
      · simp [hcont] at hk
      · simp [State.shape, hp₀, Pc.shape, PthreadWaitPc.shape, ErasePc.shape] at hk
    · obtain ⟨b', -, hk⟩ := O.unlinked w d hw hu
      simp [hcont] at hk
    · refine .inr ⟨d, ?_, hu⟩
      rintro rfl
      simpa [PthreadWaitPc.Own, PthreadWaitPc.Over] using I.held b _ hp₀ hu
    · exact .inl hu

/-- When the wait is over the pthread has its waiter, or was signalled. -/
theorem PthreadOk.returned_step (he : Enqueued (s.after c a p).mem w)
    (hp : (s.after c a p).pc w = .butexWaitFromPthread b q) (hq : q.Over) :
    (s.after c a p).mem.custody w = .held w ∨ (s.after c a p).mem.custody w = .signalled := by
  obtain he₀ | ⟨rfl, ⟨b₁, -, -, rfl⟩, -⟩ := enqueued_of hs hc he
  · obtain ⟨hne, hp₀⟩ | ⟨rfl, ⟨hp₀, rfl, ha⟩ | ⟨q₀, hp₀, hst⟩⟩ := pthread_after hs hc hp
    · exact over_keep hs hc hw (I.returned he₀ b q hp₀ hq)
    · exact hq.elim
    · obtain hq₀ | hq₀ | ⟨rc, -, hex⟩ := hst.over_of hq
      · exact over_keep hs hc hw (I.returned he₀ b q₀ hp₀ hq₀)
      · exact absurd (I.early b q₀ hp₀ hq₀) he₀.1
      · obtain ⟨-, hsig⟩ | ⟨-, -, hsig⟩ | ⟨hown, -⟩ := hex
        · exact .inr (custody_keep hs hc hw ((I.sig he₀).mp hsig) (.inr rfl))
        · exact .inr (custody_keep hs hc hw ((I.sig he₀).mp hsig) (.inr rfl))
        · exact .inl (custody_keep hs hc hw (I.own b _ hp₀ hown) (.inl rfl))
  · obtain ⟨-, rfl⟩ : b₁ = b ∧ .unlockQueued = q := by simpa using hp
    exact hq.elim

/-- When the call has returned the pthread has its waiter, or was signalled. -/
theorem PthreadOk.done_step {r : Result} (he : Enqueued (s.after c a p).mem w)
    (hp : (s.after c a p).pc w = .done r) :
    (s.after c a p).mem.custody w = .held w ∨ (s.after c a p).mem.custody w = .signalled := by
  obtain he₀ | ⟨rfl, ⟨b₁, -, -, rfl⟩, -⟩ := enqueued_of hs hc he
  · refine over_keep hs hc hw ?_
    by_cases hwc : w = c
    · subst hwc
      obtain rfl : p = .done r := by simpa using hp
      obtain ⟨b, q, hp₀, hq⟩ | ⟨r', hp₀⟩ := I.place he₀
      · rw [hp₀] at hc
        obtain ⟨rc, rfl, -⟩ := control_pthread_done hc
        exact I.returned he₀ b _ hp₀ trivial
      · rw [hp₀] at hc
        simp [control] at hc
    · exact I.done he₀ r (by simpa [hwc] using hp)
  · simp at hp

/-- **Where the waiters of pthreads are** stays as told.

**Proof sketch.** A step of the wait itself leads from one stage to the next, and only the removal
of its own waiter moves the waiter. A step of another call moves it only if that call has it in its
hands, and never away from the pthread that has removed it. -/
theorem PthreadOk.step : PthreadOk (s.after c a p) w where
  early _ _ := I.early_step hs hc
  place := I.place_step hs hc
  pending _ _ := I.pending_step hs hc hw
  queued _ _ := I.queued_step hs hc
  custody := I.custody_step hs hc hw
  sig := I.sig_step hs hc hw
  own _ _ := I.own_step hs hc hw
  held _ _ := I.held_step hs hc hw
  again _ := I.again_step hs hc hw
  returned he _ _ := I.returned_step hs hc hw he
  done he _ := I.done_step hs hc hw he

end Fields

end Keep

/-- Where the waiters of pthreads are in reachable states. -/
theorem pthreadOk (hs : system.ReachableIf ErasesQueued s) (w : CallId) : PthreadOk s w := by
  refine system_invariant (C := ErasesQueued) (I := fun s => ∀ w, PthreadOk s w)
    (fun m hm w => ?_) ?_ hs w
  · constructor <;> simp [Enqueued, hm.enqueues]
  · intro s c k a p hr ih _ hc _ w
    exact (ih w).step hr.reachable hc (untainted hr w)

/-! ## The return of `wait_pthread` -/

/-- Nobody gets at waiter `w` any more: it is in no queue, and no call that has dequeued it has yet
to store its `sig`. -/
structure OutOfReach (s : State) (w : CallId) : Prop where
  queue : ∀ b, w ∉ s.mem.waiters b
  store : ∀ d, w ∉ (s.shape d).unl ∧ w ∉ (s.shape d).hand

/-- The `wait_pthread` of call `w` has returned. -/
def Returned (s : State) (w : CallId) : Prop :=
  Enqueued s.mem w ∧
    ((∃ b q, s.pc w = .butexWaitFromPthread b q ∧ q.Over) ∨ ∃ r, s.pc w = .done r)

/-- `wait_pthread` returns when its waiter is out of reach, after it has seen the signal or removed
the waiter itself. Where `erase_from_butex` has failed another call has removed the waiter; unless
it was signalled in between, `wait_pthread` goes on without a timeout, and then it does not time out
again. -/
structure WaitsOut (s : State) : Prop where
  out : ∀ w, Returned s w →
    OutOfReach s w ∧ (s.mem.sig w = true ∨ s.mem.removedBy w = [w])
  lost : ∀ w b, s.pc w = .butexWaitFromPthread b .sigAgain →
    ∃ d, d ≠ w ∧ s.mem.removedBy w = [d]
  again : ∀ w b k a p, s.pc w = .butexWaitFromPthread b .sigAgain → s.mem.sig w = false →
    control w (s.pc w) k s.mem = some (a, p) → p = .butexWaitFromPthread b (.futexWait false)
  untimed : ∀ w b rc, s.pc w = .butexWaitFromPthread b (.sig false rc) → rc ≠ .etimedout

/-- Nobody has a waiter that is held by its own call or signalled. -/
theorem outOfReach (hs : system.Reachable s) (hw : s.mem.tainted w = false)
    (hb : (s.shape w).built = true)
    (hu : s.mem.custody w = .held w ∨ s.mem.custody w = .signalled) : OutOfReach s w := by
  have O := owned hs
  refine ⟨fun b hm => ?_, fun d => ⟨fun hm => ?_, fun hm => ?_⟩⟩
  · have := O.sound w _ hw (.linked hm)
    simp [this] at hu
  · have := O.sound w _ hw (.unlinked hm)
    simp [this] at hu
  · have := O.sound w _ hw (.held hm)
    obtain rfl : d = w := by simpa [this] using hu
    have := ((locked hs).wf d).hand (List.ne_nil_of_mem hm)
    simp [hb] at this

/-- **`wait_pthread` returns when its waiter is out of reach** in every run in which
`erase_from_butex` is only about waiters that were queued.

**Proof sketch.** When `wait_pthread` returns its waiter was signalled or is held by its own call,
and there is no other claim to it. When `erase_from_butex` has found no `container` the waiter was
neither in a queue nor being taken out of one. -/
theorem waitsOut (hs : system.ReachableIf ErasesQueued s) : WaitsOut s where
  out := by
    intro w ⟨he, hr⟩
    have I := pthreadOk hs w
    have hu : s.mem.custody w = .held w ∨ s.mem.custody w = .signalled := by
      obtain ⟨b, q, hp, hq⟩ | ⟨r, hp⟩ := hr
      · exact I.returned he b q hp hq
      · exact I.done he r hp
    have hb : (s.shape w).built = true := built_of_enqueued hs.reachable he.1
    refine ⟨outOfReach hs.reachable (untainted hs w) hb hu, ?_⟩
    obtain hu | hu := hu
    · obtain ⟨-, -, hd, -⟩ | ⟨d, -, h2, hd⟩ | ⟨d, -, -, -, hd⟩ := (handed hs w).1
      · exact absurd hu (hd w)
      · obtain rfl : w = d := by simpa [hu] using hd
        exact .inr h2
      · simp [hu] at hd
    · exact .inl ((I.sig he).mpr hu)
  lost := by
    intro w b hp
    obtain ⟨-, -, hd, hns, -⟩ | ⟨d, -, h2, hd⟩ | ⟨d, -, h2, hne, -⟩ := (handed hs w).1
    · obtain hu | ⟨d, -, hu⟩ := (pthreadOk hs w).again b hp
      · exact absurd hu hns
      · exact absurd hu (hd d)
    · obtain hu | ⟨d', hd', hu⟩ := (pthreadOk hs w).again b hp
      · simp [hu] at hd
      · obtain rfl : d' = d := by simpa [hu] using hd
        exact ⟨d', hd', h2⟩
    · exact ⟨d, hne, h2⟩
  again := by
    intro w b k a p hp hsig hc
    rw [hp] at hc
    cases k with
    | call f => simp [control] at hc
    | next o =>
      simp only [control, butexWaitFromPthread, hsig, Bool.false_eq_true, if_false, Conc.goto,
        within, Sum.elim_inl, Option.some.injEq, Prod.mk.injEq] at hc
      exact hc.2.symm
  untimed := by
    refine system_invariant (C := ErasesQueued) (I := fun s => ∀ w b rc,
      s.pc w = .butexWaitFromPthread b (.sig false rc) → rc ≠ .etimedout) (fun m hm => by simp)
      ?_ hs
    intro s c k a p hr ih _ hc _ w b rc hp
    obtain ⟨-, hp₀⟩ | ⟨rfl, ⟨-, hq, -⟩ | ⟨q₀, hp₀, hst⟩⟩ := pthread_after hr.reachable hc hp
    · exact ih w b rc hp₀
    · cases hq
    · exact hst.untimed_of rfl

/-- A check that a step of `erase_from_butex` is about a waiter that was queued. -/
def erasesQueued (s : State) (x : CallId × Move) : Bool :=
  match control x.1 (s.pc x.1) x.2 s.mem with
  | some (.matchContainer w, _) => s.mem.enqueues w != 0
  | _ => true

/-- The check is about the condition. -/
theorem erasesQueued_spec {x : CallId × Move} (h : erasesQueued s x = true) : ErasesQueued s x := by
  intro w p hc
  simpa [erasesQueued, hc] using h

/-- A pthread waits until its timeout and removes its waiter itself. -/
def timedOut : List (CallId × Move) :=
  [(1, .call (.butexWaitFromPthread ⟨.user 0, 0, none, true⟩)), (1, .next .go),
   (1, .next (.garbage none)), (1, .next .go), (1, .next .go), (1, .next .go), (1, .next .go),
   (1, .next .go), (1, .next .go), (1, .next (.futex .etimedout)), (1, .next .go), (1, .next .go),
   (1, .next .go), (1, .next .go), (1, .next .go), (1, .next .go), (1, .next .go), (1, .next .go)]

/-- The waiter that has timed out is in no queue. -/
theorem waitsOut_timedOut : ∃ s : State, Returned s 1 ∧ s.mem.removedBy 1 = [1] ∧
    OutOfReach s 1 := by
  obtain ⟨s, h, hp, he, ht, hr⟩ : ∃ s,
      system.exec ⟨.initial, fun _ => .idle⟩ timedOut = some s ∧
        s.pc 1 = .butexWaitFromPthread ⟨.user 0, 0, none, true⟩ (.ret .etimedout) ∧
        s.mem.enqueues 1 = 1 ∧ s.mem.tid 1 = 0 ∧ s.mem.removedBy 1 = [1] :=
    ⟨_, rfl, rfl, rfl, rfl, rfl⟩
  have hs : system.ReachableIf ErasesQueued s :=
    .of_checked erasesQueued (fun _ _ => erasesQueued_spec)
      (.of_init ⟨Mem.initial_initial, rfl⟩) h rfl
  have hret : Returned s 1 := ⟨⟨by simp [he], ht⟩, .inl ⟨_, _, hp, trivial⟩⟩
  exact ⟨s, hret, hr, ((waitsOut hs).out 1 hret).1⟩

/-- The waiter that was signalled before it was queued goes on. -/
def earlySignal : List (CallId × Move) :=
  earlyErase ++ [(2, .next (.futex .ok)), (2, .next .go)]

/-- **`wait_pthread` can return while its waiter is queued**: after that run the waiter is in the
queue of butex `0`. -/
theorem not_waitsOut : ∃ s, system.Reachable s ∧ ¬WaitsOut s := by
  obtain ⟨s, h, hp, he, ht, hm⟩ : ∃ s,
      system.exec ⟨.initial, fun _ => .idle⟩ earlySignal = some s ∧
        s.pc 2 = .butexWaitFromPthread ⟨.user 0, 0, some 0, false⟩ (.takeBack .ok) ∧
        s.mem.enqueues 2 = 1 ∧ s.mem.tid 2 = 0 ∧ 2 ∈ s.mem.waiters (.user 0) :=
    ⟨_, rfl, rfl, rfl, rfl, .head _⟩
  refine ⟨s, Conc.Machine.Reachable.exec (.of_init ⟨Mem.initial_initial, rfl⟩) h, fun hn => ?_⟩
  exact (hn.out 2 ⟨⟨by simp [he], ht⟩, .inl ⟨_, _, hp, trivial⟩⟩).1.queue (.user 0) hm

end Bthread
