import Bthread.Wakeups

set_option relaxedAutoImplicit false
set_option autoImplicit false

/-!
# Timed waits

The timer callback of a timed wait takes the waiter out of its queue. It does nothing when the
waiter has no `container`, and leaves no trace of having been there, so a waiter that is queued
after that stays queued without a timer.

## Main definitions

* `Bthread.Pc.Decided` — `wait_for_butex` has queued the waiter or has refused to.
* `Bthread.InTime` — a timer callback looks at the `container` of a waiter when that is decided.
* `Bthread.NotOutlived` — no waiter is queued whose timer callback has completed.

## Main results

* `Bthread.notOutlived` — none is, if all timer callbacks look in time.
* `Bthread.not_notOutlived` — some are, otherwise.
-/

namespace Bthread

open Function (update update_self update_of_ne)
open Conc (Ensures)

variable {s : State} {c d w : CallId} {m : Mem} {sh : CallId → Shape} {a : Access} {y : Shape}
  {i : TimerId}

/-! ## Timer callbacks -/

/-- The callback that erases a waiter goes on by itself. -/
theorem control_timer {p : Pc} {k : Move} {q : TimerPc}
    (h : control c p k m = some (a, .timer i q)) :
    (∃ f, m.timerFn i = some f ∧ q = f.entry) ∨
      ∃ q₀, p = .timer i q₀ ∧ timerCallback i q₀ m = some (a, .inl q) := by
  cases k with
  | call f =>
    cases p with
    | idle =>
      left
      cases f with
      | butexWaitFromPthread a' =>
        cases ht : a'.task <;> simp [control, begin, ht] at h
      | fire j =>
        cases ht : m.timerFn j with
        | none => simp [control, begin, ht] at h
        | some f =>
          simp only [control, begin, ht, Option.ite_none_right_eq_some, Option.some.injEq,
            Prod.mk.injEq, Pc.timer.injEq] at h
          obtain ⟨-, -, rfl, rfl⟩ := h
          exact ⟨f, ht, rfl⟩
      | _ => simp [control, begin] at h
    | _ => simp [control] at h
  | next o =>
    cases p with
    | timer j q₀ =>
      obtain ⟨q', hq, hp⟩ | ⟨v, -, hp⟩ := within_eq h
      · cases hp
        exact .inr ⟨q₀, rfl, hq⟩
      · simp at hp
    | idle | done r => simp [control] at h
    | _ =>
      obtain ⟨q', -, hp⟩ | ⟨v, -, hp⟩ := within_eq h
      · simp at hp
      · simp at hp

/-- The callback that erases a waiter is done with the queues. -/
def TimerPc.Past : TimerPc → Prop
  | .finish => True
  | .erase _ (.setState _) | .erase _ (.unlock _) | .erase _ .wakeup => True
  | _ => False

/-- How the callback of a timed wait gets done with the queues: it has found no `container`, or it
clears the `container`. -/
theorem TimerPc.Past.of_step {q₀ q : TimerPc} (h : timerCallback i q₀ m = some (a, .inl q))
    (hq : q.Past) :
    q₀.Past ∨ (∃ e, q₀ = .ready e) ∨
      (∃ w, q₀ = .erase w .load ∧ m.container w = none ∧ a = .nop) ∨
      ∃ w b, q₀ = .erase w (.clear b) ∧ a = .clearContainer w := by
  cases q₀ with
  | finish => exact .inl trivial
  | ready e => exact .inr (.inl ⟨e, rfl⟩)
  | erase w p =>
    have : Ensures (timerCallback i (.erase w p) m) fun a r => ∀ q, r = .inl q → q.Past →
        (TimerPc.erase w p).Past ∨ (p = .load ∧ m.container w = none ∧ a = .nop) ∨
          ∃ b, p = .clear b ∧ a = .clearContainer w := by
      rw [timerCallback, Conc.ensures_inside]
      fun_cases eraseFromButex w true false .interrupted p m <;> simp_all [TimerPc.Past]
    obtain h | ⟨rfl, hc, ha⟩ | ⟨b, rfl, ha⟩ := this a _ h q rfl hq
    · exact .inl h
    · exact .inr (.inr (.inl ⟨w, rfl, hc, ha⟩))
    · exact .inr (.inr (.inr ⟨w, b, rfl, ha⟩))

/-- A callback is completed at its end. -/
theorem eq_of_finishTimer {k : Move} {q : TimerPc} {p : Pc}
    (h : control c (.timer i q) k m = some (.finishTimer i, p)) : q = .finish := by
  cases k with
  | call f => simp [control] at h
  | next o =>
    cases q with
    | finish => rfl
    | ready e => simp [control, within, timerCallback, Conc.goto] at h
    | erase w q =>
      have : Ensures (timerCallback i (.erase w q) m) fun a _ => a ≠ .finishTimer i := by
        rw [timerCallback, Conc.ensures_inside]
        fun_cases eraseFromButex w true false .interrupted q m <;> simp
      obtain ⟨q', hq, -⟩ | ⟨v, hq, -⟩ := within_eq h
      · exact absurd rfl (this _ _ hq)
      · exact absurd rfl (this _ _ hq)

/-- The callback that erases a waiter has looked at its `container`. -/
def TimerPc.Looked : TimerPc → Prop
  | .ready _ | .erase _ .load => False
  | _ => True

/-- A callback that is done with the queues has looked. -/
theorem TimerPc.Past.looked {q : TimerPc} (hq : q.Past) : q.Looked := by
  unfold Past at hq
  split at hq <;> trivial

/-- The callback of timer `i` has completed, or is at a control point that satisfies `P`. -/
def Reached (P : TimerPc → Prop) (s : State) (i : TimerId) : Prop :=
  s.mem.timerState i = .finished ∨ ∃ d q, s.pc d = .timer i q ∧ P q

/-- A weaker property of control points. -/
theorem Reached.mono {P Q : TimerPc → Prop} (h : Reached P s i) (hPQ : ∀ q, P q → Q q) :
    Reached Q s i := by
  obtain hf | ⟨d, q, hd, hq⟩ := h
  · exact .inl hf
  · exact .inr ⟨d, q, hd, hPQ q hq⟩

/-- A callback gets to control points that satisfy `P` by a step of its own. -/
theorem Reached.of_after {P : TimerPc → Prop} {k : Move} {p : Pc} {f : TimerFn}
    (hs : system.Reachable s) (hc : control c (s.pc c) k s.mem = some (a, p))
    (hi : s.mem.timerFn i = some f) (hP : P .finish) (hf : ¬P f.entry)
    (hp : Reached P (s.after c a p) i) :
    Reached P s i ∨ ∃ q₀ q, s.pc c = .timer i q₀ ∧
      timerCallback i q₀ s.mem = some (a, .inl q) ∧ P q := by
  have K := known hs
  have h := step_shape hs hc
  obtain hfin | ⟨d, q, hd, hq⟩ := hp
  · have hold : s.mem.timerState i = .finished ∨ a = .finishTimer i := by
      cases a with
      | schedule fn =>
        have := (K.timerFn i _ hi).2.ne
        exact .inl (by simpa [Access.apply, this] using hfin)
      | unschedule j =>
        left
        by_cases hpj : s.mem.timerState j = .pending <;> by_cases hij : i = j <;>
          simp_all [Access.apply]
      | fire j =>
        left
        by_cases hij : i = j <;> simp_all [Access.apply]
      | finishTimer j =>
        by_cases hij : i = j
        · exact .inr (by rw [hij])
        · exact .inl (by simpa [Access.apply, hij] using hfin)
      | _ => exact .inl hfin
    obtain hold | rfl := hold
    · exact .inl (.inl hold)
    · refine .inl (.inr ⟨c, .finish, ?_, hP⟩)
      obtain ⟨q, hq⟩ := eq_of_running (p := s.pc c) h.sleep.1
      rw [hq] at hc
      rw [hq, eq_of_finishTimer hc]
  · by_cases hdc : d = c
    · subst hdc
      obtain rfl : p = .timer i q := by simpa using hd
      obtain ⟨f', hf', rfl⟩ | ⟨q₀, hp, hstep⟩ := control_timer hc
      · obtain rfl : f = f' := by simpa [hi] using hf'
        exact absurd hq hf
      · exact .inr ⟨q₀, q, hp, hstep, hq⟩
    · exact .inl (.inr ⟨d, q, by simpa [hdc] using hd, hq⟩)

/-- The callback of a timer that is just being made has not run. -/
theorem not_reached_of_schedule {P : TimerPc → Prop} {k : Move} {p : Pc} {fn : TimerFn}
    (hs : system.Reachable s) (hc : control c (s.pc c) k s.mem = some (.schedule fn, p)) :
    ¬Reached P (s.after c (.schedule fn) p) s.mem.nextTimer := by
  have hnone : s.mem.timerFn s.mem.nextTimer = none := by
    by_contra hf
    obtain ⟨f, hf⟩ := Option.ne_none_iff_exists'.mp hf
    exact absurd rfl ((known hs).timerFn _ f hf).2.ne
  rintro (hf | ⟨d, q, hd, -⟩)
  · simp [Access.apply] at hf
  · have hmade : ∀ d q, s.pc d = .timer s.mem.nextTimer q → False := fun d q hd =>
      (running hs).made d _ (by
        cases q <;> simp [State.shape, hd, Pc.shape, TimerPc.shape, ErasePc.shape_sleep]) hnone
    by_cases hdc : d = c
    · subst hdc
      obtain rfl : p = .timer s.mem.nextTimer q := by simpa using hd
      obtain ⟨f, hf, -⟩ | ⟨q₀, hp, -⟩ := control_timer hc
      · simp [hnone] at hf
      · exact hmade d q₀ hp
    · exact hmade d q (by simpa [hdc] using hd)

/-! ## The condition -/

/-- Whether the waiter of a `butex_wait` is queued is decided: its `container` is stored, or
`wait_for_butex` refuses to queue it, or the wait does not come to that. -/
def WaitPc.Decided : WaitPc → Prop
  | .callback .setUnmatched | .callback .unlockQueued | .callback .unlockRefused => True
  | .callback (.unsleep _) | .callback .ready => True
  | .suspended | .unsleep _ | .takeBack | .loadInterrupted | .clearInterrupted => True
  | .result _ | .ret _ => True
  | _ => False

/-- The wait of a call is decided, or has returned. -/
def Pc.Decided : Pc → Prop
  | .butexWait _ p => p.Decided
  | .done _ => True
  | _ => False

/-- A step is in time: a timer callback looks at the `container` of a waiter when it is decided
whether the waiter is queued. -/
def InTime (s : State) (x : CallId × Move) : Prop :=
  ∀ i w, s.pc x.1 = .timer i (.erase w .load) → (s.pc w).Decided

/-- No waiter is in the queue of a butex after its timer callback has completed. -/
def NotOutlived (s : State) : Prop :=
  ∀ i w, s.mem.timerFn i = some (.eraseFromButexAndWakeup w) → s.mem.timerState i = .finished →
    ∀ b, w ∉ s.mem.waiters b

/-! ## In time -/

/-- A timed waiter has an identifier. -/
theorem tid_of_timed (hs : system.Reachable s)
    (hi : s.mem.timerFn i = some (.eraseFromButexAndWakeup w)) : s.mem.tid w ≠ 0 := by
  have main := shape_invariant
    (J := fun m sh => Locked m sh ∧ Known m sh ∧ Owned m sh)
    (I := fun m _ => ∀ i w, m.timerFn i = some (.eraseFromButexAndWakeup w) → m.tid w ≠ 0)
    (fun s hs => ⟨locked hs, known hs, owned hs⟩)
    (fun m hm i w hi => by simp [hm.timerFn] at hi) ?_ hs
  · exact main i w hi
  intro m sh c a y ⟨L, K, O⟩ _ ih h i w hi
  obtain hold | ⟨rfl, -⟩ := timerFn_of_apply hi
  · rw [h.tid_eq (K.memBuilt w (.inr (.inr (.inl ⟨i, _, hold, rfl⟩))))]
    exact ih i w hold
  · obtain ⟨-, -, ⟨hf, ⟨-, hself⟩, -⟩ | ⟨e, hf, -⟩⟩ := h.sleep
    · obtain rfl : w = c := by simpa using hf
      obtain ⟨t, ht⟩ := Option.ne_none_iff_exists'.mp hself
      exact (O.tid_of_self L ht).2.2.1
    · simp at hf

/-- The waiter is neither in a queue nor about to be put back into one. -/
def Custody.Off (u : Custody) : Prop := (∀ b, u ≠ .linked b) ∧ ∀ d, u ≠ .unlinked d

/-- `unsleep_if_necessary` appends nothing. -/
theorem unsleepIfNecessary_ne_append (u : UnsleepPc) :
    Ensures (unsleepIfNecessary w u m) fun x _ => ∀ b v, x ≠ .append b v := by
  fun_cases unsleepIfNecessary w u m <;> simp

/-- What is decided stays decided, and nothing is appended for it any more. -/
theorem WaitPc.Decided.step {b : WaitArgs} {q : WaitPc} {o : Outcome} (hq : q.Decided) :
    Ensures (butexWait c b q o m) fun x r =>
      (∀ b' w, x ≠ .append b' w) ∧ ∀ q', r = .inl q' → q'.Decided := by
  cases q with
  | callback q =>
    rw [butexWait, Conc.ensures_inside]
    cases q with
    | unsleep u =>
      rw [waitForButex, Conc.ensures_inside]
      exact (unsleepIfNecessary_ne_append u).mono fun x r h => by
        rcases r with u' | v <;> simp [h, WaitPc.Decided]
    | setUnmatched | unlockQueued | unlockRefused | ready => simp [waitForButex, WaitPc.Decided]
    | _ => exact hq.elim
  | unsleep u =>
    rw [butexWait, Conc.ensures_inside]
    exact (unsleepIfNecessary_ne_append u).mono fun x r h => by
      rcases r with u' | _ | _ <;> simp [h, WaitPc.Decided]
  | suspended => by_cases hr : m.run b.slot = .running <;> simp [butexWait, hr, WaitPc.Decided]
  | takeBack =>
    by_cases hn : m.currentWaiter b.slot = none <;> simp [butexWait, hn, WaitPc.Decided]
  | loadInterrupted =>
    by_cases hi : m.interrupted b.slot <;> simp [butexWait, hi, WaitPc.Decided]
  | clearInterrupted | result | ret => simp [butexWait, WaitPc.Decided]
  | _ => exact hq.elim

/-- What is decided stays decided, and nothing is appended for it any more. -/
theorem Pc.Decided.step {p p' : Pc} {k : Move} (hp : p.Decided)
    (h : control c p k m = some (a, p')) : p'.Decided ∧ ∀ b w, a ≠ .append b w := by
  cases p with
  | butexWait b q =>
    cases k with
    | call f => simp [control] at h
    | next o =>
      have hq : q.Decided := hp
      obtain ⟨q', hr, rfl⟩ | ⟨v, hr, rfl⟩ := within_eq h
      · obtain ⟨h1, h2⟩ := hq.step _ _ hr
        exact ⟨h2 q' rfl, h1⟩
      · exact ⟨trivial, (hq.step _ _ hr).1⟩
  | done r => cases k <;> simp [control] at h
  | _ => exact hp.elim

/-- Where it is decided, nothing is being queued. -/
theorem Pc.Decided.queueing {p : Pc} (hp : p.Decided) : (p.shape w).queueing = none := by
  cases p with
  | butexWait b q =>
    cases q with
    | callback q =>
      cases q with
      | setContainer => exact hp.elim
      | unsleep u => cases u <;> rfl
      | _ => rfl
    | unsleep u => cases u <;> rfl
    | _ => rfl
  | done r => rfl
  | _ => exact hp.elim

/-- **A callback that has looked has looked in time**: it is decided whether the waiter is
queued. -/
theorem decided_of_looked (hs : system.ReachableIf InTime s)
    (hi : s.mem.timerFn i = some (.eraseFromButexAndWakeup w))
    (hl : Reached TimerPc.Looked s i) : (s.pc w).Decided := by
  refine system_invariant (C := InTime) (I := fun s => ∀ i w,
    s.mem.timerFn i = some (.eraseFromButexAndWakeup w) → Reached TimerPc.Looked s i →
      (s.pc w).Decided)
    (fun m hm i w hi => by simp [hm.timerFn] at hi) ?_ hs i w hi hl
  intro s c k a p hr ih hC hc _ i w hi hl
  have hs := hr.reachable
  obtain hold | ⟨ha, hnew⟩ := timerFn_of_apply hi
  · have hd : (s.pc w).Decided := by
      obtain hl | ⟨q₀, q, hpc, -, -⟩ := hl.of_after hs hc hold trivial id
      · exact ih i w hold hl
      · by_cases hq₀ : q₀.Looked
        · exact ih i w hold (.inr ⟨c, q₀, hpc, hq₀⟩)
        · cases q₀ with
          | finish => exact absurd trivial hq₀
          | ready e =>
            have := (known hs).timer c i (.readyToRunFromTimerThread e)
              (by simp [State.shape, hpc, Pc.shape, TimerPc.shape])
            simp [hold] at this
          | erase w' q =>
            cases q with
            | load =>
              have := (known hs).timer c i (.eraseFromButexAndWakeup w')
                (by simp [State.shape, hpc, Pc.shape, TimerPc.shape, ErasePc.shape])
              obtain rfl : w = w' := by simpa [hold] using this
              exact hC i w hpc
            | _ => exact absurd trivial hq₀
    by_cases hwc : w = c
    · subst hwc
      simpa using (hd.step hc).1
    · simpa [hwc] using hd
  · subst ha
    rw [hnew] at hl
    exact absurd hl (not_reached_of_schedule hs hc)

/-- A waiter whose timer callback is done is in no queue and is not put into one. -/
theorem off_of_past (hs : system.ReachableIf InTime s)
    (hi : s.mem.timerFn i = some (.eraseFromButexAndWakeup w)) (hp : Reached TimerPc.Past s i) :
    (s.mem.custody w).Off := by
  refine system_invariant (C := InTime) (I := fun s => ∀ i w,
    s.mem.timerFn i = some (.eraseFromButexAndWakeup w) → Reached TimerPc.Past s i →
      (s.mem.custody w).Off)
    (fun m hm i w hi => by simp [hm.timerFn] at hi) ?_ hs i w hi hp
  intro s c k a p hr ih hC hc h i w hi hp
  have hs := hr.reachable
  have L := locked hs
  have K := known hs
  have O := owned hs
  obtain hold | ⟨ha, hnew⟩ := timerFn_of_apply hi
  · have hw := K.untainted (tid_of_timed hs hold)
    have kept : Reached TimerPc.Past s i → ((a.apply c s.mem).custody w).Off := by
      -- it was out of all queues, and it is decided that it is not appended any more
      intro hpast
      have hoff := ih i w hold hpast
      have hd := decided_of_looked hr hold (hpast.mono fun q hq => hq.looked)
      by_cases hn : ∃ v, a.entrust c s.mem = some (w, v)
      · obtain ⟨v, hv⟩ := hn
        have hm := (O.handover L K h hw hv).1
        rw [custody_of_entrust hv]
        refine ⟨?_, ?_⟩
        · rintro b rfl
          obtain rfl := eq_append hv
          obtain ⟨-, -, -, -, -, ⟨rfl, -⟩ | ⟨hx, -⟩⟩ := h.queue
          · exact (hd.step hc).2 b w rfl
          · exact hoff.2 c (O.sound w _ hw (.unlinked (d := c) (by simp [hx])))
        · rintro d rfl
          generalize s.mem.custody w = u at hm hoff
          cases hm
          exact hoff.1 _ rfl
      · rwa [custody_of_not_entrust fun v hv => hn ⟨v, hv⟩]
    obtain hpast | ⟨q₀, q, hpc, hstep, hq⟩ := hp.of_after hs hc hold trivial id
    · exact kept hpast
    · obtain hq₀ | ⟨e, rfl⟩ | ⟨w', rfl, hnone, rfl⟩ | ⟨w', b, rfl, rfl⟩ := hq.of_step hstep
      · exact kept (.inr ⟨c, q₀, hpc, hq₀⟩)
      · have := K.timer c i (.readyToRunFromTimerThread e)
          (by simp [State.shape, hpc, Pc.shape, TimerPc.shape])
        simp [hold] at this
      · -- the callback has found no `container`, when it was decided that there will be none
        have := K.timer c i (.eraseFromButexAndWakeup w')
          (by simp [State.shape, hpc, Pc.shape, TimerPc.shape, ErasePc.shape])
        obtain rfl : w = w' := by simpa [hold] using this
        have hq : (s.shape w).queueing = none := (hC i w hpc).queueing
        change ((Access.nop.apply c s.mem).custody w).Off
        rw [custody_of_not_entrust (by simp [Access.entrust])]
        refine ⟨fun b hb => ?_, fun d hd => ?_⟩
        · obtain hcb | hqb := O.linked w b hw hb
          · simp [hnone] at hcb
          · simp [hq] at hqb
        · obtain ⟨b, -, hcb⟩ := O.unlinked w d hw hd
          simp [hnone] at hcb
      · have := K.timer c i (.eraseFromButexAndWakeup w')
          (by simp [State.shape, hpc, Pc.shape, TimerPc.shape, ErasePc.shape])
        obtain rfl : w = w' := by simpa [hold] using this
        change (((Access.clearContainer w).apply c s.mem).custody w).Off
        rw [custody_of_entrust (w := w) (u := .held c) rfl]
        simp [Custody.Off]
  · subst ha
    rw [hnew] at hp
    exact absurd hp (not_reached_of_schedule hs hc)

/-- **A timed wait does not outlive its timer** in a run whose timer callbacks all look in time.

**Proof sketch.** When the callback is done the waiter is in no queue: it has just been removed, or
it has no `container` and is not being queued. After that it is not appended any more, since it was
decided whether it is queued when the callback looked. -/
theorem notOutlived (hs : system.ReachableIf InTime s) : NotOutlived s := by
  intro i w hi hf b hm
  have hw := (known hs.reachable).untainted (tid_of_timed hs.reachable hi)
  have hu := (owned hs.reachable).sound w _ hw (.linked hm)
  exact (off_of_past hs hi (.inl hf)).1 b hu

instance (p : Pc) : Decidable p.Decided := by
  unfold Pc.Decided WaitPc.Decided
  repeat' split
  all_goals infer_instance

/-- A check that a step is in time. -/
def inTime (s : State) (x : CallId × Move) : Bool :=
  match s.pc x.1 with
  | .timer _ (.erase w .load) => decide (s.pc w).Decided
  | _ => true

/-- The check is about the condition. -/
theorem inTime_spec {x : CallId × Move} (h : inTime s x = true) : InTime s x := by
  intro i w hp
  simpa [inTime, hp] using h

/-- A bthread is switched out and queued with a timer; the timer fires, and its callback takes the
waiter out of its queue, makes the bthread runnable and completes. -/
def timeout : List (CallId × Move) :=
  startAndRun.take 7 ++ (2, .call (.butexWait ⟨.user 0, 0, 0, true⟩)) ::
    List.replicate 13 (2, .next .go) ++ (3, .call (.fire 1)) :: List.replicate 9 (3, .next .go)

/-- The waiter was queued, the callback of its timer has removed it and has completed, and the
waiter is in no queue. -/
theorem notOutlived_timeout : ∃ s : State,
    s.mem.timerFn 1 = some (.eraseFromButexAndWakeup 2) ∧ s.mem.timerState 1 = .finished ∧
      s.mem.enqueues 2 = 1 ∧ s.mem.removedBy 2 = [3] ∧ ∀ b, 2 ∉ s.mem.waiters b := by
  obtain ⟨s, h, hi, hf, he, hr⟩ : ∃ s, system.exec ⟨.initial, fun _ => .idle⟩ timeout = some s ∧
      s.mem.timerFn 1 = some (.eraseFromButexAndWakeup 2) ∧ s.mem.timerState 1 = .finished ∧
        s.mem.enqueues 2 = 1 ∧ s.mem.removedBy 2 = [3] :=
    ⟨_, rfl, rfl, rfl, rfl, rfl⟩
  have hs : system.ReachableIf InTime s :=
    .of_checked inTime (fun _ _ => inTime_spec) (.of_init ⟨Mem.initial_initial, rfl⟩) h rfl
  exact ⟨s, hi, hf, he, hr, notOutlived hs 1 2 hi hf⟩

/-- The timer of a wait fires before the bthread is switched out. -/
def earlyTimeout : List (CallId × Move) :=
  startAndRun.take 7 ++
  [(2, .call (.butexWait ⟨.user 0, 0, 0, true⟩)), (2, .next .go), (2, .next .go), (2, .next .go),
   (2, .next .go), (3, .call (.fire 1)), (3, .next .go), (3, .next .go), (2, .next .go),
   (2, .next .go), (2, .next .go), (2, .next .go), (2, .next .go), (2, .next .go), (2, .next .go),
   (2, .next .go), (2, .next .go)]

/-- **A timed wait can outlive its timer**: after that run the bthread is queued without a
timer. -/
theorem not_notOutlived : ∃ s, system.Reachable s ∧ ¬NotOutlived s := by
  obtain ⟨s, h, hi, hf, hm⟩ : ∃ s, system.exec ⟨.initial, fun _ => .idle⟩ earlyTimeout = some s ∧
      s.mem.timerFn 1 = some (.eraseFromButexAndWakeup 2) ∧ s.mem.timerState 1 = .finished ∧
        2 ∈ s.mem.waiters (.user 0) :=
    ⟨_, rfl, rfl, rfl, .head _⟩
  exact ⟨s, Conc.Machine.Reachable.exec (.of_init ⟨Mem.initial_initial, rfl⟩) h,
    fun hn => hn 1 2 hi hf (.user 0) hm⟩

end Bthread
