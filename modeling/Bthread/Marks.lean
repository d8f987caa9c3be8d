import Bthread.Lib.Trace
import Bthread.Origins

set_option relaxedAutoImplicit false
set_option autoImplicit false

/-!
# The marks of waiters

Whoever removes the waiter of a bthread is to leave its mark in `waiter_state`, from which the
resumed bthread tells how its wait has ended. The timer callback leaves the mark of an
interrupter.

## Main definitions

* `Bthread.TimerRemoved`, `Bthread.InterrupterRemoved`, `Bthread.Unmatched` — what has happened to a
  waiter in a run.
* `Bthread.HandedOver` — a waiter is handed over to be resumed, or the bthread has been resumed.
* `Bthread.Marked` — the mark of a waiter is right.

## Main results

* `Bthread.handedOver_of_resumed` — the waiter of a resumed bthread was handed over.
* `Bthread.marked_iff` — its mark is right, exactly if the timer callback has not removed the
  waiter.
* `Bthread.not_marked` — the mark of a wait that has timed out tells something else.
-/

namespace Bthread

open Function (update update_self update_of_ne)
open Conc (Ensures)

variable {s s' s₀ : State} {c d w : CallId} {m : Mem} {a : Access} {p p' : Pc} {k : Move}
  {b : WaitArgs} {q q₀ : WaitPc} {o : Outcome} {e : ErasePc}
  {tr : List (State × (CallId × Move))}

/-! ## What has happened to a waiter -/

/-- The timer callback has removed waiter `w`. -/
def TimerRemoved (tr : List (State × (CallId × Move))) (w : CallId) : Prop :=
  ∃ e ∈ tr, ∃ i b, e.1.pc e.2.1 = .timer i (.erase w (.clear b))

/-- An interrupter has removed waiter `w`. -/
def InterrupterRemoved (tr : List (State × (CallId × Move))) (w : CallId) : Prop :=
  ∃ e ∈ tr, ∃ t k b, e.1.pc e.2.1 = .interrupt t k (.erase w (.clear b))

/-- `wait_for_butex` has found that the value of the butex differs from the expected one. -/
def Unmatched (tr : List (State × (CallId × Move))) (w : CallId) : Prop :=
  ∃ e ∈ tr, e.2.1 = w ∧ ∃ a, e.1.pc w = .butexWait a (.callback .value) ∧
    e.1.mem.value a.butex ≠ a.expectedValue

/-- The waiter of the wait is not constructed yet. -/
def WaitPc.Early : WaitPc → Prop
  | .check | .init => True
  | _ => False

/-- The waiter of the wait is constructed, and the wait has not returned its mark yet. -/
def WaitPc.Built : WaitPc → Prop
  | .check | .init | .ret _ => False
  | _ => True

/-- Waiter `w` of a bthread was handed over to be resumed, or the bthread has been resumed and has
not returned its mark yet. -/
def HandedOver (s : State) (w : CallId) : Prop :=
  (∃ b q, s.pc w = .butexWait b q ∧ q.Built) ∧
    (s.mem.custody w = .pushed ∨ s.mem.custody w = .lost)

/-- The mark of waiter `w` is right: `waiter_state` tells who has removed it or that it was never
queued, nobody changes it while the wait goes on, and a wait that was ended by its deadline returns
`ETIMEDOUT`. -/
structure Marked (tr : List (State × (CallId × Move))) (s : State) (w : CallId) : Prop where
  timeout : s.mem.waiterState w = .timeout ↔ TimerRemoved tr w
  interrupted : s.mem.waiterState w = .interrupted ↔ InterrupterRemoved tr w
  unmatched : s.mem.waiterState w = .unmatchedValue ↔ Unmatched tr w
  ready : ¬TimerRemoved tr w → ¬InterrupterRemoved tr w → ¬Unmatched tr w →
    s.mem.waiterState w = .ready
  kept : ∀ s', system.Along (fun s => ∃ b q, s.pc w = .butexWait b q ∧ q.Built) s s' →
    s'.mem.waiterState w = s.mem.waiterState w
  deadline : TimerRemoved tr w → ∀ i, waitResult (s.mem.waiterState w) i = .etimedout

/-! ## Erasing a waiter -/

/-- The waiter a timer callback or an interrupter is erasing, and where in `erase_from_butex` it
is. -/
def Pc.erasing : Pc → Option (CallId × ErasePc)
  | .timer _ (.erase w e) | .interrupt _ _ (.erase w e) => some (w, e)
  | _ => none

/-- The call is about to take waiter `w` away, as a timer callback or an interrupter. -/
def Pc.Clears (w : CallId) (p : Pc) : Prop := ∃ b, p.erasing = some (w, .clear b)

/-- The call is about to leave the mark of an interrupter on waiter `w`. -/
def Pc.Marks (w : CallId) (p : Pc) : Prop := ∃ b, p.erasing = some (w, .setState b)

/-- `erase_from_butex` of a timer callback or of an interrupter goes on by itself. -/
theorem control_erasing : Ensures (control c p k m) fun a p' =>
    (∀ w e, p'.erasing = some (w, e) → e = .load ∨ ∃ e₀ worker, p.erasing = some (w, e₀) ∧
      eraseFromButex w true worker .interrupted e₀ m = some (a, .inl e)) ∧
    ∀ w e, p.erasing = some (w, e) → ∃ worker r,
      eraseFromButex w true worker .interrupted e m = some (a, r) ∧
        ∀ e', r = .inl e' → p'.erasing = some (w, e') := by
  fun_cases control c p k m
  case case1 f =>
    fun_cases begin f m
    case case23 fn _ _ =>
      rw [Conc.ensures_some]
      refine ⟨fun w e h => ?_, fun w e h => by cases h⟩
      rcases fn with bw | x
      · cases h
        exact .inl rfl
      · cases h
    all_goals first
      | exact Conc.ensures_none _
      | rw [Conc.ensures_some]
        exact ⟨fun w e h => (by cases h), fun w e h => by cases h⟩
  case case8 tid j q _ =>
    rw [ensures_within]
    fun_cases interrupt tid j true q m
    case case16 w' e₀ =>
      rw [Conc.ensures_inside]
      intro a r hr
      refine ⟨fun w e h => ?_, fun w e h => ?_⟩
      · rcases r with e' | v
        · cases h
          exact .inr ⟨e₀, j, rfl, hr⟩
        · cases h
      · cases h
        exact ⟨j, r, hr, fun e' he => by subst he; rfl⟩
    all_goals first
      | exact Conc.ensures_none _
      | rw [Conc.ensures_goto]
      | rw [Conc.ensures_ret]
    all_goals
      refine ⟨fun w e h => ?_, fun w e h => by cases h⟩
      cases h
    exact .inl rfl
  case case12 i q _ =>
    rw [ensures_within]
    cases q with
    | erase w' e₀ =>
      rw [timerCallback, Conc.ensures_inside]
      intro a r hr
      refine ⟨fun w e h => ?_, fun w e h => ?_⟩
      · rcases r with e' | v
        · cases h
          exact .inr ⟨e₀, false, rfl, hr⟩
        · cases h
      · cases h
        exact ⟨false, r, hr, fun e' he => by subst he; rfl⟩
    | ready x =>
      exact (Conc.ensures_goto ..).mpr ⟨fun w e h => (by cases h), fun w e h => by cases h⟩
    | finish =>
      exact (Conc.ensures_ret ..).mpr ⟨fun w e h => (by cases h), fun w e h => by cases h⟩
  case case17 => exact Conc.ensures_none _
  all_goals
    rw [ensures_within]
    intro a r _
    exact ⟨fun w e h => (by cases r <;> cases h), fun w e h => by cases h⟩

/-- The access that takes a waiter away. -/
theorem Pc.Clears.access (h : p.Clears w) (hc : control c p k m = some (a, p')) :
    a = .clearContainer w ∧ p'.Marks w := by
  obtain ⟨b, hb⟩ := h
  obtain ⟨worker, r, hr, hp⟩ := (control_erasing _ _ hc).2 w _ hb
  simp only [eraseFromButex, Conc.goto, Option.some.injEq, Prod.mk.injEq] at hr
  obtain ⟨rfl, rfl⟩ := hr
  exact ⟨rfl, b, hp _ rfl⟩

/-- The access that leaves a mark. -/
theorem Pc.Marks.access (h : p.Marks w) (hc : control c p k m = some (a, p'))
    (hw : m.tid w ≠ 0) : a = .setState w .interrupted := by
  obtain ⟨b, hb⟩ := h
  obtain ⟨worker, r, hr, -⟩ := (control_erasing _ _ hc).2 w _ hb
  simp only [eraseFromButex, hw, if_false, Conc.goto, Option.some.injEq, Prod.mk.injEq] at hr
  exact hr.1.symm

/-- A mark is left by who has taken the waiter away. -/
theorem Pc.Marks.clears (h : p'.Marks w) (hc : control c p k m = some (a, p')) : p.Clears w := by
  obtain ⟨b, hb⟩ := h
  obtain he | ⟨e₀, worker, h₀, he⟩ := (control_erasing _ _ hc).1 w _ hb
  · cases he
  · refine ⟨b, ?_⟩
    rw [h₀]
    cases e₀ with
    | clear b' =>
      simp only [eraseFromButex, Conc.goto, Option.some.injEq, Prod.mk.injEq, Sum.inl.injEq,
        ErasePc.setState.injEq] at he
      rw [he.2]
    | load => cases hm : m.container w <;> simp [eraseFromButex, hm, Conc.goto, Conc.ret] at he
    | lock b' | recheck b' =>
      simp only [eraseFromButex] at he
      split at he <;> simp [Conc.goto] at he
    | unlock b' => simp [eraseFromButex, Conc.goto] at he
    | setState b' =>
      simp only [eraseFromButex] at he
      split at he <;> simp [Conc.goto] at he
    | wakeup =>
      simp only [eraseFromButex] at he
      split at he
      · simp [Conc.ret] at he
      · split at he <;> simp [Conc.ret] at he
    | _ => simp [eraseFromButex, Conc.goto] at he

/-- A waiter is erased where the call refers to it. -/
theorem refers_of_erasing (h : p.erasing = some (w, e)) : (p.shape c).target = some w := by
  unfold Pc.erasing at h
  split at h
  · cases h
    cases e <;> rfl
  · cases h
    cases e <;> rfl
  · cases h

/-! ## The invariant -/

/-- The waiter has been taken away and handed on, or is about to be. -/
def Custody.Gone : Custody → Prop
  | .held _ | .pushed | .signalled | .lost => True
  | _ => False

/-- A waiter that was taken away is not put back. -/
theorem Custody.Moves.gone {u v : Custody} (h : Custody.Moves c u v) (hu : u.Gone) : v.Gone := by
  cases h <;> trivial

/-- `wait_for_butex` has found a different value and refuses the wait. -/
def WaitPc.Refusing : WaitPc → Prop
  | .callback .setUnmatched | .callback .unlockRefused | .callback (.unsleep _)
  | .callback .ready => True
  | _ => False

/-- A timer callback or an interrupter has taken waiter `w` away. -/
def Taken (tr : List (State × (CallId × Move))) (w : CallId) : Prop :=
  ∃ e ∈ tr, (e.1.pc e.2.1).Clears w

/-- Who takes waiters away. -/
theorem taken_iff : Taken tr w ↔ TimerRemoved tr w ∨ InterrupterRemoved tr w := by
  constructor
  · rintro ⟨e, he, b, hb⟩
    unfold Pc.erasing at hb
    split at hb
    case h_1 i w' e' hp =>
      cases hb
      exact .inl ⟨e, he, i, b, hp⟩
    case h_2 t j w' e' hp =>
      cases hb
      exact .inr ⟨e, he, t, j, b, hp⟩
    case h_3 => cases hb
  · rintro (⟨e, he, i, b, hp⟩ | ⟨e, he, t, j, b, hp⟩)
    all_goals exact ⟨e, he, b, by rw [hp]; rfl⟩

/-- A waiter is taken away by the step that clears its `container`. -/
theorem taken_snoc : Taken (tr ++ [(s, c, k)]) w ↔ Taken tr w ∨ (s.pc c).Clears w := by
  simp [Taken, or_and_right, exists_or]

/-- A wait is refused by the step that compares the values. -/
theorem unmatched_snoc : Unmatched (tr ++ [(s, c, k)]) w ↔ Unmatched tr w ∨
    c = w ∧ ∃ a, s.pc w = .butexWait a (.callback .value) ∧
      s.mem.value a.butex ≠ a.expectedValue := by
  simp [Unmatched, or_and_right, exists_or]

/-- What has happened to waiter `w`, which is at `q`, and its mark. -/
structure MarkOk (tr : List (State × (CallId × Move))) (s : State) (w : CallId) (q : WaitPc) :
    Prop where
  kinds : s.mem.waiterState w ≠ .none ∧ s.mem.waiterState w ≠ .timeout
  one : ¬(Taken tr w ∧ Unmatched tr w)
  taken : Taken tr w → (s.mem.custody w).Gone
  refused : Unmatched tr w → q.Refusing ∨ s.mem.custody w = .pushed
  unmatched : s.mem.waiterState w = .unmatchedValue ∨ q = .callback .setUnmatched ↔ Unmatched tr w
  interrupted : s.mem.waiterState w = .interrupted ∨ (∃ d, (s.pc d).Marks w) ↔ Taken tr w

/-- The waiter of a wait has an identifier. -/
theorem tid_of_built (hs : system.Reachable s) (hp : s.pc w = .butexWait b q) (hq : q.Built) :
    s.mem.tid w ≠ 0 := by
  by_cases hr : q.Resumed
  · exact (pushed_of_resumed hs hp hr).2
  have hself : (s.shape w).self = some b.slot := by
    rw [State.shape, hp]
    cases q with
    | callback q =>
      cases q with
      | unsleep u => cases u <;> rfl
      | _ => rfl
    | check | init | ret => exact hq.elim
    | unsleep | takeBack | loadInterrupted | clearInterrupted | result => exact absurd trivial hr
    | _ => rfl
  exact ((owned hs).tid_of_self (locked hs) hself).2.2.1

/-- `wait_for_butex` runs as a callback. -/
theorem phase_of_deciding (hp : s.pc w = .butexWait b q)
    (hq : q.Refusing ∨ q = .callback .value) :
    (s.shape w).phase = some (b.slot, .callback) := by
  rw [State.shape, hp]
  obtain hq | rfl := hq
  · unfold WaitPc.Refusing at hq
    split at hq
    case h_3 u => cases u <;> rfl
    case h_5 => exact hq.elim
    all_goals rfl
  · rfl

/-- While `wait_for_butex` decides about the wait, nobody else has the waiter. -/
theorem custody_of_deciding (hs : system.Reachable s) (hp : s.pc w = .butexWait b q)
    (hq : q.Refusing ∨ q = .callback .value) : s.mem.custody w = .callback :=
  ((owned hs).task w _ _ (phase_of_deciding hp hq)).2

/-- Who marks a waiter has it. -/
theorem Pc.Marks.held (h : (s.pc d).Marks w) (hs : system.Reachable s) (hw : s.mem.tid w ≠ 0) :
    s.mem.custody w = .held d := by
  obtain ⟨b, hb⟩ := h
  refine held_of_marks hs ((known hs).untainted hw) ?_
  unfold Pc.erasing at hb
  split at hb
  case h_1 i w' e' hp =>
    cases hb
    exact .inr ⟨i, b, hp⟩
  case h_2 t j w' e' hp =>
    cases hb
    exact .inl ⟨t, j, b, hp⟩
  case h_3 => cases hb

/-- The waiter is constructed. -/
theorem shape_built (hp : s.pc w = .butexWait b q) (hq : q.Built) :
    (s.shape w).built = true := by
  rw [State.shape, hp]
  cases q with
  | callback q =>
    cases q with
    | unsleep u => cases u <;> rfl
    | _ => rfl
  | check | init | ret => exact hq.elim
  | unsleep u => cases u <;> rfl
  | _ => rfl

/-- How `wait_for_butex` refuses a wait. -/
theorem waitForButex_refuses (q : CallbackPc) : Ensures (waitForButex c b q m) fun a r =>
    (r = .inl .setUnmatched ↔ q = .value ∧ m.value b.butex ≠ b.expectedValue) ∧
      ((WaitPc.callback q).Refusing →
        (∃ q', r = .inl q' ∧ (WaitPc.callback q').Refusing) ∨ a = .push (m.tid c)) := by
  fun_cases waitForButex c b q m
  case case14 u =>
    rw [Conc.ensures_inside]
    intro a r _
    refine ⟨by cases r <;> simp, fun _ => .inl ?_⟩
    cases r with
    | inl u' => exact ⟨_, rfl, trivial⟩
    | inr v => exact ⟨_, rfl, trivial⟩
  all_goals simp_all [WaitPc.Refusing]

/-- A wait goes to no other place outside its callback. -/
theorem butexWait_outside (q₀ : WaitPc) : Ensures (butexWait c b q₀ o m) fun _ r =>
    (∀ q', q₀ ≠ .callback q') → ∀ q, r = .inl q →
      (q.Early → q₀ = .check) ∧ q ≠ .callback .setUnmatched := by
  fun_cases butexWait c b q₀ o m
  case case10 q' =>
    intro a r _ h
    exact absurd rfl (h q')
  case case13 u =>
    rw [Conc.ensures_inside]
    rintro a (u' | ok) - - q hq
    · cases hq
      exact ⟨False.elim, by simp⟩
    · cases ok
      all_goals
        cases hq
        exact ⟨False.elim, by simp⟩
  case case3 => cases hab : b.abstime <;> simp [WaitPc.Early]
  case case14 =>
    by_cases hn : m.currentWaiter b.slot = none <;> simp [WaitPc.Early, hn]
  all_goals simp [WaitPc.Early]

/-- How a wait goes on when its value differs. -/
theorem wait_own (h : butexWait c b q₀ o m = some (a, .inl q)) :
    (q = .callback .setUnmatched ↔
      q₀ = .callback .value ∧ m.value b.butex ≠ b.expectedValue) ∧
    (q₀.Refusing → q.Refusing ∨ a = .push (m.tid c)) := by
  cases q₀ with
  | callback q₀ =>
    rw [butexWait] at h
    have hw := waitForButex_refuses (c := c) (b := b) (m := m) q₀
    generalize waitForButex c b q₀ m = r at h hw
    rcases r with _ | ⟨x, q' | v⟩
    · simp [Conc.inside] at h
    · simp only [Conc.inside, Sum.elim_inl, Option.some.injEq, Prod.mk.injEq, Sum.inl.injEq] at h
      obtain ⟨rfl, rfl⟩ := h
      obtain ⟨h1, h2⟩ := (Conc.ensures_some ..).mp hw
      refine ⟨by simpa using h1, fun hq => (h2 hq).imp_left ?_⟩
      rintro ⟨q'', hq'', hr⟩
      cases hq''
      exact hr
    · simp only [Conc.inside, Sum.elim_inr, Option.some.injEq, Prod.mk.injEq, Sum.inl.injEq] at h
      obtain ⟨rfl, rfl⟩ := h
      obtain ⟨h1, h2⟩ := (Conc.ensures_some ..).mp hw
      refine ⟨by simpa using h1, fun hq => (h2 hq).imp_left ?_⟩
      rintro ⟨q'', hq'', -⟩
      cases hq''
  | _ =>
    have hq := (butexWait_outside _ _ _ h (by simp) q rfl).2
    simp [hq, WaitPc.Refusing]

/-- Who is about to mark a waiter after a step. -/
theorem marks_after (hc : control c (s.pc c) k s.mem = some (a, p)) :
    (∃ d, ((s.after c a p).pc d).Marks w) ↔
      (∃ d, d ≠ c ∧ (s.pc d).Marks w) ∨ (s.pc c).Clears w := by
  constructor
  · rintro ⟨d, hd⟩
    by_cases hdc : d = c
    · subst hdc
      exact .inr (Pc.Marks.clears (by simpa using hd) hc)
    · exact .inl ⟨d, hdc, by simpa [hdc] using hd⟩
  · rintro (⟨d, hdc, hd⟩ | hC)
    · exact ⟨d, by simpa [hdc] using hd⟩
    · exact ⟨c, by simpa using (hC.access hc).2⟩

section Step

variable (hs : system.Reachable s) (hc : control c (s.pc c) k s.mem = some (a, p))
  (hp₀ : s.pc w = .butexWait b q₀) (hq₀ : q₀.Built)
include hs hc hp₀ hq₀

/-- How the mark of a waiter changes. -/
theorem mark_cases :
    (a.apply c s.mem).waiterState w = s.mem.waiterState w ∧ ¬(s.pc c).Marks w ∧
        (c = w → q₀ ≠ .callback .setUnmatched) ∨
      (c = w ∧ q₀ = .callback .setUnmatched ∧
        (a.apply c s.mem).waiterState w = .unmatchedValue) ∨
      (s.pc c).Marks w ∧ (a.apply c s.mem).waiterState w = .interrupted := by
  by_cases hM : (s.pc c).Marks w
  · have ha := hM.access hc (tid_of_built hs hp₀ hq₀)
    exact .inr (.inr ⟨hM, by simp [ha, Access.apply]⟩)
  by_cases hS : c = w ∧ q₀ = .callback .setUnmatched
  · obtain ⟨rfl, rfl⟩ := hS
    rw [hp₀] at hc
    cases k with
    | call f => simp [control] at hc
    | next o =>
      simp only [control, butexWait, waitForButex, Conc.goto, Conc.inside, within, Sum.elim_inl,
        Option.some.injEq, Prod.mk.injEq] at hc
      obtain ⟨rfl, -⟩ := hc
      exact .inr (.inl ⟨rfl, rfl, by simp [Access.apply]⟩)
  refine .inl ⟨?_, hM, fun hcw hq => hS ⟨hcw, hq⟩⟩
  obtain h | ⟨st, rfl, -⟩ | ⟨rfl, ⟨t, rfl⟩, -⟩ := waiterState_apply (c := c) (a := a) (m := s.mem)
    (w := w)
  · exact h
  · obtain ⟨rfl, -, x, hx⟩ | ⟨-, t, j, y, hx⟩ | ⟨-, i, y, hx⟩ | ⟨rfl, x, y, hx⟩ :=
      (control_origin _ p hc : Origin c (s.pc c) (.setState w st))
    · rw [hp₀] at hx
      exact absurd ⟨rfl, (Pc.butexWait.inj hx).2⟩ hS
    · exact absurd ⟨y, by rw [hx]; rfl⟩ hM
    · exact absurd ⟨y, by rw [hx]; rfl⟩ hM
    · simp [hp₀] at hx
  · have hb := ((step_shape hs hc).ages.init t (.inl rfl)).1
    simp [shape_built hp₀ hq₀] at hb

/-- A waiter that is taken away was unlinked before, and is held then. -/
theorem custody_of_clears (h : (s.pc c).Clears w) :
    s.mem.custody w = .unlinked c ∧ (a.apply c s.mem).custody w = .held c := by
  have hw := (known hs).untainted (tid_of_built hs hp₀ hq₀)
  obtain ⟨rfl, -⟩ := h.access hc
  have hm := ((owned hs).handover (locked hs) (known hs) (step_shape hs hc) hw
    (u := .held c) rfl).1
  refine ⟨?_, custody_of_entrust rfl⟩
  generalize s.mem.custody w = u at hm
  cases hm
  rfl

omit hq₀ hs hc in
/-- A bthread does not take its own waiter away. -/
theorem not_clears_self : ¬(s.pc w).Clears w := by
  rintro ⟨y, hy⟩
  rw [hp₀] at hy
  cases hy

omit hc hq₀ in
/-- A waiter that somebody has taken out of its queue was queued. -/
theorem MarkOk.not_unmatched (h : MarkOk tr s w q₀) (hu : s.mem.custody w = .held d ∨
    s.mem.custody w = .unlinked d) : ¬Unmatched tr w := by
  intro hU
  obtain hr | hr := h.refused hU
  · simp [custody_of_deciding hs hp₀ (.inl hr)] at hu
  · simp [hr] at hu

/-- **The mark of a waiter**, over one step. -/
theorem MarkOk.step (h : MarkOk tr s w q₀)
    (hq : c ≠ w ∧ q = q₀ ∨ c = w ∧ ∃ o, butexWait w b q₀ o s.mem = some (a, .inl q)) :
    MarkOk (tr ++ [(s, c, k)]) (s.after c a p) w q := by
  have ht := tid_of_built hs hp₀ hq₀
  have hw := (known hs).untainted ht
  have hstep := step_shape hs hc
  have O := owned hs
  have L := locked hs
  have K := known hs
  have hcustody : (s.after c a p).mem.custody w = (a.apply c s.mem).custody w := rfl
  have hstate : (s.after c a p).mem.waiterState w = (a.apply c s.mem).waiterState w := rfl
  have hnew : (∃ x, s.pc w = .butexWait x (.callback .value) ∧
      s.mem.value x.butex ≠ x.expectedValue) ↔
        q₀ = .callback .value ∧ s.mem.value b.butex ≠ b.expectedValue := by
    simp [hp₀, and_assoc]
  refine ⟨?_, ?_, ?_, ?_, ?_, ?_⟩
  · obtain ⟨hst, -⟩ | ⟨-, -, hst⟩ | ⟨-, hst⟩ := mark_cases hs hc hp₀ hq₀
    all_goals rw [hstate, hst]
    · exact h.kinds
    · simp
    · simp
  · rw [taken_snoc, unmatched_snoc, hnew]
    rintro ⟨hT | hC, hU | ⟨hcw, hV, -⟩⟩
    · exact h.one ⟨hT, hU⟩
    · have hg := h.taken hT
      rw [custody_of_deciding hs hp₀ (.inr hV)] at hg
      exact hg.elim
    · have hu := (custody_of_clears hs hc hp₀ hq₀ hC).1
      exact h.not_unmatched hs hp₀ (.inr hu) hU
    · subst hcw
      exact not_clears_self hp₀ hC
  · rw [taken_snoc, hcustody]
    rintro (hT | hC)
    · by_cases hn : ∃ v, a.entrust c s.mem = some (w, v)
      · obtain ⟨v, hv⟩ := hn
        rw [custody_of_entrust hv]
        exact (O.handover L K hstep hw hv).1.gone (h.taken hT)
      · rw [custody_of_not_entrust fun v hv => hn ⟨v, hv⟩]
        exact h.taken hT
    · rw [(custody_of_clears hs hc hp₀ hq₀ hC).2]
      trivial
  · rw [unmatched_snoc, hnew, hcustody]
    rintro (hU | ⟨hcw, hV⟩)
    · obtain hr | hr := h.refused hU
      · obtain ⟨-, rfl⟩ | ⟨rfl, o, hst⟩ := hq
        · exact .inl hr
        · refine ((wait_own hst).2 hr).imp_right ?_
          rintro rfl
          have hself := ((L.wf c).callback _ (phase_of_deciding hp₀ (.inl hr))).1
          obtain ⟨-, h2, -, h4⟩ := O.tid_of_self L hself
          exact custody_of_entrust (by simp [Access.entrust, h2, h4])
      · exact .inr (O.pushed_keep L K hstep hw hr)
    · obtain ⟨hne, -⟩ | ⟨-, o, hst⟩ := hq
      · exact absurd hcw hne
      · rw [(wait_own hst).1.mpr hV]
        exact .inl trivial
  · rw [unmatched_snoc, hnew, hstate]
    obtain ⟨hst, -, hn⟩ | ⟨rfl, rfl, hst⟩ | ⟨hM, hst⟩ := mark_cases hs hc hp₀ hq₀
    · rw [hst]
      obtain ⟨hne, rfl⟩ | ⟨rfl, o, hown⟩ := hq
      · simpa [hne] using h.unmatched
      · have hun := h.unmatched
        simp only [hn rfl, or_false] at hun
        simp [hun, (wait_own hown).1]
    · have hU := h.unmatched.mp (.inr rfl)
      simp [hst, hU]
    · have hu := hM.held hs ht
      have hU := h.not_unmatched hs hp₀ (.inl hu)
      have hne : c ≠ w := by
        rintro rfl
        obtain ⟨y, hy⟩ := hM
        rw [hp₀] at hy
        cases hy
      obtain ⟨-, rfl⟩ | ⟨rfl, -⟩ := hq
      · have hun := h.unmatched
        simp only [hU, iff_false, not_or] at hun
        simp [hst, hU, hne, hun.2]
      · exact absurd rfl hne
  · rw [taken_snoc, marks_after hc, hstate]
    have hin := h.interrupted
    obtain ⟨hst, hM, -⟩ | ⟨rfl, rfl, hst⟩ | ⟨hM, hst⟩ := mark_cases hs hc hp₀ hq₀
    · have hd : (∃ d, d ≠ c ∧ (s.pc d).Marks w) ↔ ∃ d, (s.pc d).Marks w := by
        constructor
        · rintro ⟨d, -, hd⟩
          exact ⟨d, hd⟩
        · rintro ⟨d, hd⟩
          refine ⟨d, ?_, hd⟩
          rintro rfl
          exact hM hd
      rw [hst, hd, ← or_assoc, hin]
    · have hT : ¬Taken tr c := fun hT => h.one ⟨hT, h.unmatched.mp (.inr rfl)⟩
      have hM : ∀ d, ¬(s.pc d).Marks c := fun d hd => hT (hin.mp (.inr ⟨d, hd⟩))
      simp [hst, hT, hM]
    · have hT := hin.mp (.inr ⟨c, hM⟩)
      simp [hst, hT]

end Step

/-! ## Runs -/

/-- A call that was made does not become idle again. -/
theorem control_ne_idle : Ensures (control c p k m) fun _ p' => p' ≠ .idle := by
  fun_cases control c p k m
  case case1 f => fun_cases begin f m <;> simp
  case case17 => exact Conc.ensures_none _
  all_goals
    rw [ensures_within]
    intro a r _
    cases r <;> simp

/-- What a wait does before its waiter is constructed. -/
theorem early_of (h : butexWait c b q₀ o m = some (a, .inl q)) (hq : q.Early) : q₀ = .check := by
  cases q₀ with
  | check => rfl
  | callback q' =>
    rw [butexWait] at h
    generalize waitForButex c b q' m = r at h
    rcases r with _ | ⟨x, p' | v⟩
    all_goals
      simp only [Conc.inside, Sum.elim_inl, Sum.elim_inr, Option.some.injEq, Prod.mk.injEq,
        Sum.inl.injEq, reduceCtorEq] at h
    all_goals
      rw [← h.2] at hq
      exact hq.elim
  | _ => exact (butexWait_outside _ _ _ h (by simp) q rfl).1 hq

/-- The mark of a waiter that was just constructed. -/
theorem MarkOk.init (hs : system.Reachable s) (hc : control w (s.pc w) k s.mem = some (a, p))
    (hp₀ : s.pc w = .butexWait b .init) (hst : butexWait w b .init o s.mem = some (a, .inl q))
    (hp : (s.after w a p).pc w = .butexWait b q) (hT : ¬Taken tr w) (hU : ¬Unmatched tr w) :
    MarkOk (tr ++ [(s, w, k)]) (s.after w a p) w q := by
  have hM : ∀ d, ¬((s.after w a p).pc d).Marks w := by
    rintro d ⟨y, hy⟩
    by_cases hd : d = w
    · subst hd
      rw [hp] at hy
      cases hy
    · have hd' : (s.pc d).erasing = some (w, .setState y) := by simpa [hd] using hy
      have hb := (known hs).callBuilt d w (.inl (refers_of_erasing hd'))
      simp [State.shape, hp₀, Pc.shape, WaitPc.shape] at hb
  have hT' : ¬Taken (tr ++ [(s, w, k)]) w := by
    rw [taken_snoc]
    rintro (h | ⟨y, hy⟩)
    · exact hT h
    · rw [hp₀] at hy
      cases hy
  have hU' : ¬Unmatched (tr ++ [(s, w, k)]) w := by
    rw [unmatched_snoc]
    rintro (h | ⟨-, x, hx, -⟩)
    · exact hU h
    · simp [hp₀] at hx
  simp only [butexWait, Conc.goto, Option.some.injEq, Prod.mk.injEq, Sum.inl.injEq] at hst
  obtain ⟨rfl, rfl⟩ := hst
  have hst : (s.after w (.initBthreadWaiter b.slot) p).mem.waiterState w = .ready := by
    simp [Access.apply]
  exact
    { kinds := by rw [hst]; simp
      one := fun h => hT' h.1
      taken := fun h => absurd h hT'
      refused := fun h => absurd h hU'
      unmatched := by rw [hst]; split <;> simp [hU']
      interrupted := by rw [hst]; simp [hT', hM] }

/-- The marks of all waiters, over whole runs. -/
theorem markOk (h₀ : system.init s₀) (h : system.Trace (fun _ _ => True) s₀ tr s) : ∀ w,
    ((s.pc w = .idle ∨ ∃ b q, s.pc w = .butexWait b q ∧ q.Early) →
      ¬Taken tr w ∧ ¬Unmatched tr w) ∧
    ∀ b q, s.pc w = .butexWait b q → q.Built → MarkOk tr s w q := by
  refine h.invariant (I := fun tr s => ∀ w,
    ((s.pc w = .idle ∨ ∃ b q, s.pc w = .butexWait b q ∧ q.Early) →
      ¬Taken tr w ∧ ¬Unmatched tr w) ∧
    ∀ b q, s.pc w = .butexWait b q → q.Built → MarkOk tr s w q) (.of_init h₀) ?_ ?_
  · intro w
    have hidle : s₀.pc w = .idle := by rw [h₀.2]
    refine ⟨fun _ => ⟨?_, ?_⟩, fun b q hp => ?_⟩
    · rintro ⟨e, he, -⟩
      cases he
    · rintro ⟨e, he, -⟩
      cases he
    · simp [hidle] at hp
  rintro tr u ⟨c, k⟩ v hu ih - hn w
  obtain ⟨a, p, hc, rfl⟩ := system_next hn
  have hs := hu.reachable
  constructor
  · intro he
    rw [taken_snoc, unmatched_snoc]
    by_cases hwc : w = c
    · subst hwc
      have hold : u.pc w = .idle ∨ ∃ b, u.pc w = .butexWait b .check := by
        obtain he | ⟨b, q, hp, hq⟩ := he
        · exact absurd (by simpa using he) (control_ne_idle _ _ hc)
        · obtain ⟨hne, -⟩ | ⟨-, ⟨hp₀, -⟩ | ⟨q₀, o, hp₀, hst⟩⟩ := wait_after hc hp
          · exact absurd rfl hne
          · exact .inl hp₀
          · exact .inr ⟨b, by rw [hp₀, early_of hst hq]⟩
      obtain ⟨hT, hU⟩ := (ih w).1 (hold.imp_right fun ⟨b, hb⟩ => ⟨b, .check, hb, trivial⟩)
      refine ⟨not_or.mpr ⟨hT, ?_⟩, not_or.mpr ⟨hU, ?_⟩⟩
      · rintro ⟨y, hy⟩
        obtain h | ⟨b, h⟩ := hold
        all_goals
          rw [h] at hy
          cases hy
      · rintro ⟨-, x, hx, -⟩
        obtain h | ⟨b, h⟩ := hold
        · simp [h] at hx
        · simp [h] at hx
    · have he : u.pc w = .idle ∨ ∃ b q, u.pc w = .butexWait b q ∧ q.Early := by
        simpa [hwc] using he
      obtain ⟨hT, hU⟩ := (ih w).1 he
      refine ⟨not_or.mpr ⟨hT, ?_⟩, not_or.mpr ⟨hU, fun h => hwc h.1.symm⟩⟩
      rintro ⟨y, hy⟩
      have hb := (known hs).callBuilt c w (.inl (refers_of_erasing hy))
      obtain h | ⟨b, q, h, hq⟩ := he
      · simp [State.shape, h, Pc.shape] at hb
      · rw [State.shape, h] at hb
        cases q <;> first | exact hq.elim | cases hb
  · intro b q hp hq
    obtain ⟨hne, hp₀⟩ | ⟨rfl, ⟨-, rfl⟩ | ⟨q₀, o, hp₀, hst⟩⟩ := wait_after hc hp
    · exact ((ih w).2 b q hp₀ hq).step hs hc hp₀ hq (.inl ⟨Ne.symm hne, rfl⟩)
    · exact hq.elim
    · by_cases hq₀ : q₀.Built
      · exact ((ih w).2 b q₀ hp₀ hq₀).step hs hc hp₀ hq₀ (.inr ⟨rfl, o, hst⟩)
      · cases q₀ <;> first | exact absurd trivial hq₀ | skip
        case check =>
          by_cases hv : u.mem.value b.butex = b.expectedValue
          all_goals
            simp only [butexWait, hv, if_true, if_false, Conc.goto, Option.some.injEq,
              Prod.mk.injEq, Sum.inl.injEq] at hst
            rw [← hst.2] at hq
            exact hq.elim
        case init =>
          obtain ⟨hT, hU⟩ := (ih w).1 (.inr ⟨b, .init, hp₀, trivial⟩)
          exact .init hs hc hp₀ hst hp hT hU
        case ret r => simp [butexWait, Conc.ret] at hst

/-- The waiter of a resumed bthread was handed over. -/
theorem handedOver_of_resumed (hs : system.Reachable s) (hp : s.pc w = .butexWait b q)
    (hq : q.Resumed) : HandedOver s w := by
  refine ⟨⟨b, q, hp, ?_⟩, .inl (pushed_of_resumed hs hp hq).1⟩
  cases q <;> trivial

/-- Nobody takes or marks a waiter that was handed over. -/
theorem HandedOver.step (hs : system.Reachable s)
    (hc : control c (s.pc c) k s.mem = some (a, p)) (h : HandedOver s w)
    (hp : ∃ b q, (s.after c a p).pc w = .butexWait b q ∧ q.Built) :
    HandedOver (s.after c a p) w ∧
      (s.after c a p).mem.waiterState w = s.mem.waiterState w := by
  obtain ⟨⟨b, q, hp₀, hq₀⟩, hu⟩ := h
  have ht := tid_of_built hs hp₀ hq₀
  constructor
  · refine ⟨hp, ?_⟩
    change (a.apply c s.mem).custody w = .pushed ∨ (a.apply c s.mem).custody w = .lost
    rwa [custody_of_not_entrust]
    intro v hv
    have hm := ((owned hs).handover (locked hs) (known hs) (step_shape hs hc)
      ((known hs).untainted ht) hv).1
    obtain hu | hu := hu
    all_goals
      rw [hu] at hm
      cases hm
  · obtain ⟨hst, -⟩ | ⟨-, rfl, -⟩ | ⟨hM, -⟩ := mark_cases hs hc hp₀ hq₀
    · exact hst
    · rw [custody_of_deciding hs hp₀ (.inl trivial)] at hu
      simp at hu
    · rw [hM.held hs ht] at hu
      simp at hu

/-- **Waiters have the right mark** when they are handed over, exactly if they were not removed by
their timer callback.

**Proof sketch.** Whoever takes a waiter out of its queue marks it before it hands it over, and
`wait_for_butex` marks it only if it was never queued. The timer callback leaves the mark of an
interrupter. -/
theorem marked_iff (h₀ : system.init s₀) (h : system.Trace (fun _ _ => True) s₀ tr s)
    (hw : HandedOver s w) : Marked tr s w ↔ ¬TimerRemoved tr w := by
  have hs : system.Reachable s := h.reachableIf (.of_init h₀)
  obtain ⟨⟨b, q, hp, hq⟩, hu⟩ := id hw
  have M := (markOk h₀ h w).2 b q hp hq
  have hM : ¬∃ d, (s.pc d).Marks w := by
    rintro ⟨d, hd⟩
    rw [hd.held hs (tid_of_built hs hp hq)] at hu
    simp at hu
  have hself : q ≠ .callback .setUnmatched := by
    rintro rfl
    rw [custody_of_deciding hs hp (.inl trivial)] at hu
    simp at hu
  have hI : s.mem.waiterState w = .interrupted ↔ TimerRemoved tr w ∨ InterrupterRemoved tr w := by
    rw [← taken_iff, ← M.interrupted, or_iff_left hM]
  have hU : s.mem.waiterState w = .unmatchedValue ↔ Unmatched tr w := by
    rw [← M.unmatched, or_iff_left hself]
  constructor
  · intro hm hT
    exact M.kinds.2 (hm.timeout.mpr hT)
  · intro hT
    refine
      { timeout := iff_of_false M.kinds.2 hT
        interrupted := hI.trans (or_iff_right hT)
        unmatched := hU
        ready := fun _ hI' hU' => ?_
        kept := fun s' hr => ?_
        deadline := fun h => absurd h hT }
    · have h1 := M.kinds
      have h2 : s.mem.waiterState w ≠ .interrupted := fun h => (hI.mp h).elim hT hI'
      have h3 : s.mem.waiterState w ≠ .unmatchedValue := fun h => hU' (hU.mp h)
      cases hst : s.mem.waiterState w <;> simp_all
    · exact (hr.stable (I := fun v => HandedOver v w ∧
        v.mem.waiterState w = s.mem.waiterState w) (fun u x v hs hp ih hn => by
          obtain ⟨a, p, hc, rfl⟩ := system_next (c := x.1) (k := x.2) hn
          obtain ⟨h1, h2⟩ := ih.1.step hs hc hp
          exact ⟨h1, h2.trans ih.2⟩) hs ⟨hw, rfl⟩).2

/-- A check that a step is not taken by the timer thread. -/
def notTimer (s : State) (x : CallId × Move) : Bool :=
  match s.pc x.1 with
  | .timer _ _ => false
  | _ => true

/-- A bthread waits without a deadline and is queued, and then it is interrupted. -/
def waitAndErase : List (CallId × Move) :=
  startAndRun.take 7 ++ (2, .call (.butexWait ⟨.user 0, 0, 0, false⟩)) ::
    List.replicate 11 (2, .next .go) ++ (3, .call (.interrupt (makeTid 1 0) true)) ::
    List.replicate 17 (3, .next .go)

/-- The mark of the waiter tells that it was interrupted. -/
theorem marked_waitAndErase : ∃ tr s,
    system.Trace (fun _ _ => True) ⟨.initial, fun _ => .idle⟩ tr s ∧ HandedOver s 2 ∧
      s.mem.waiterState 2 = .interrupted ∧ Marked tr s 2 := by
  obtain ⟨s, h, hc, b, hp, hu, hst⟩ : ∃ s,
      system.exec ⟨.initial, fun _ => .idle⟩ waitAndErase = some s ∧
        system.checked notTimer ⟨.initial, fun _ => .idle⟩ waitAndErase = true ∧
          ∃ b, s.pc 2 = .butexWait b .suspended ∧ s.mem.custody 2 = .pushed ∧
            s.mem.waiterState 2 = .interrupted :=
    ⟨_, rfl, rfl, _, rfl, rfl, rfl⟩
  obtain ⟨tr, ht, -, hch⟩ := Conc.Machine.Trace.of_checked (C := fun _ _ => True) notTimer
    (fun _ _ _ => trivial) h hc
  have hw : HandedOver s 2 := ⟨⟨b, _, hp, trivial⟩, .inl hu⟩
  refine ⟨tr, s, ht, hw, hst, (marked_iff ⟨Mem.initial_initial, rfl⟩ ht hw).mpr ?_⟩
  rintro ⟨e, he, i, b', hi⟩
  simpa [notTimer, hi] using hch e he

/-- A bthread waits with a deadline and is queued, and then the timer thread runs the callback, up
to where it takes the waiter out of the queue. -/
def waitAndExpire : List (CallId × Move) :=
  startAndRun.take 7 ++ (2, .call (.butexWait ⟨.user 0, 0, 0, true⟩)) ::
    List.replicate 13 (2, .next .go) ++ (3, .call (.fire 1)) :: List.replicate 4 (3, .next .go)

/-- **The timer callback leaves the wrong mark**: this waiter was removed by its timer, and its mark
tells that it was interrupted. -/
theorem not_marked : ∃ s₀ tr s w, system.init s₀ ∧ system.Trace (fun _ _ => True) s₀ tr s ∧
    HandedOver s w ∧ TimerRemoved tr w ∧ s.mem.waiterState w = .interrupted ∧
      ¬Marked tr s w := by
  obtain ⟨s, h, i, b', hi, s₁, hn, s', h', hc, b, hp, hu, hst⟩ : ∃ s,
      system.exec ⟨.initial, fun _ => .idle⟩ waitAndExpire = some s ∧
        ∃ i b', s.pc 3 = .timer i (.erase 2 (.clear b')) ∧
          ∃ s₁, system.next s (3, .next .go) = some s₁ ∧
            ∃ s', system.exec s₁ (List.replicate 3 (3, .next .go)) = some s' ∧
              system.checked (fun _ _ => true) s₁ (List.replicate 3 (3, .next .go)) = true ∧
                ∃ b, s'.pc 2 = .butexWait b .suspended ∧ s'.mem.custody 2 = .lost ∧
                  s'.mem.waiterState 2 = .interrupted :=
    ⟨_, rfl, _, _, rfl, _, rfl, _, rfl, rfl, _, rfl, rfl, rfl⟩
  obtain ⟨tr, ht, -⟩ := Conc.Machine.Trace.of_checked (C := fun _ _ => True) (fun _ _ => true)
    (fun _ _ _ => trivial) h rfl
  obtain ⟨tr', ht', -⟩ := Conc.Machine.Trace.of_checked (C := fun _ _ => True)
    (fun _ _ => true) (fun _ _ _ => trivial) h' hc
  have hT : TimerRemoved (tr ++ (s, 3, .next .go) :: tr') 2 :=
    ⟨(s, 3, .next .go), by simp, i, b', hi⟩
  refine ⟨_, _, s', 2, ⟨Mem.initial_initial, rfl⟩, ht.trans (.head trivial hn ht'),
    ⟨⟨b, _, hp, trivial⟩, .inr hu⟩, hT, hst, fun hm => ?_⟩
  have := hm.timeout.mpr hT
  simp [hst] at this

end Bthread
