import Bthread.Lib.Trace
import Bthread.Origins

set_option relaxedAutoImplicit false
set_option autoImplicit false

/-!
# Persistent interruptions

`TaskGroup::interrupt` sets the `interrupted` flag of the task. The flag is to stay set until a
blocking call of the task reports the interruption. `butex_wait_from_pthread` and `butex_wait` clear
it on their way out even if they fail for another reason.

## Main definitions

* `Bthread.Result.Reports` — the results that report an interruption.
* `Bthread.Reporting` — a call has cleared the flag and will report it.
* `Bthread.ClearsReported` — a step clears a flag only if its call will report it.
* `Bthread.InterruptionsPersist` — flags that were set in a run stay set until they are reported.

## Main results

* `Bthread.interruptionsPersist` — they do, if all steps clear only flags that are reported.
* `Bthread.not_interruptionsPersist` — they do not, otherwise.
-/

namespace Bthread

open Function (update update_self update_of_ne)
open Conc (Ensures)

variable {s s' : State} {c d w : CallId} {m : Mem} {a : Access} {p : Pc} {k : Move} {t : SlotId}
  {tr : List (State × (CallId × Move))}

/-! ## Reporting an interruption -/

/-- The results with which a blocking call reports an interruption: `-1` with `EINTR` or `ESTOP`. -/
def Result.Reports : Result → Prop
  | .wait .eintr | .wait .estop | .sleep .eintr | .sleep .estop => True
  | _ => False

/-- A call at this control point, with this mark on its waiter, has reported an interruption or will
report it. -/
def Pc.Reporting (st : WaiterState) : Pc → Prop
  | .usleep _ .loadStop | .usleep _ (.ret (some _)) => True
  | .butexWaitFromPthread _ (.takeBack .eintr) | .butexWaitFromPthread _ (.loadInterrupted .eintr)
  | .butexWaitFromPthread _ (.clearAfter .eintr) | .butexWaitFromPthread _ (.ret .eintr) => True
  | .butexWait _ (.result true) => st ≠ .timeout ∧ st ≠ .unmatchedValue
  | .butexWait _ (.ret .eintr) => True
  | .done r => r.Reports
  | _ => False

/-- Call `c` has reported an interruption or will report it. -/
def Reporting (s : State) (c : CallId) : Prop := (s.pc c).Reporting (s.mem.waiterState c)

/-- The mark matters only where the wait reads it. -/
theorem Pc.Reporting.congr {st st' : WaiterState} (h : p.Reporting st)
    (hst : (∃ b i, p = .butexWait b (.result i)) → st' = st) : p.Reporting st' := by
  unfold Pc.Reporting at *
  split at h
  case h_7 b => rwa [hst ⟨b, true, rfl⟩]
  case h_10 => exact h.elim
  all_goals exact h

/-- A step clears a flag only if its call reports the interruption: at the end of
`butex_wait_from_pthread` the wait has not failed for another reason, and in `butex_wait` the
`waiter_state` tells neither a timeout nor a different value. -/
def ClearsReported (s : State) (x : CallId × Move) : Prop :=
  (∀ b rc, s.pc x.1 = .butexWaitFromPthread b (.clearAfter rc) → rc = .ok ∨ rc = .eintr) ∧
    ∀ b, s.pc x.1 = .butexWait b .clearInterrupted →
      s.mem.waiterState x.1 ≠ .timeout ∧ s.mem.waiterState x.1 ≠ .unmatchedValue

/-- A call that will report an interruption goes on to do so. -/
theorem Reporting.own (h : Reporting s c) (hc : control c (s.pc c) k s.mem = some (a, p)) :
    Reporting (s.after c a p) c := by
  cases k with
  | call f =>
    cases hp : s.pc c with
    | idle => simp [Reporting, Pc.Reporting, hp] at h
    | _ => simp [control, hp] at hc
  | next o =>
    cases hp : s.pc c with
    | usleep t q =>
      rw [hp] at hc
      cases q with
      | loadStop =>
        simp only [control, usleep, Conc.goto, within, Sum.elim_inl, Option.some.injEq,
          Prod.mk.injEq] at hc
        obtain ⟨rfl, rfl⟩ := hc
        simp [Reporting, Pc.Reporting]
      | ret r =>
        cases r with
        | none => simp [Reporting, Pc.Reporting, hp] at h
        | some stop =>
          simp only [control, usleep, Conc.ret, within, Sum.elim_inr, Option.some.injEq,
            Prod.mk.injEq] at hc
          obtain ⟨rfl, rfl⟩ := hc
          cases stop <;> simp [Reporting, Pc.Reporting, sleepResult, Result.Reports]
      | _ => simp [Reporting, Pc.Reporting, hp] at h
    | butexWaitFromPthread b q =>
      rw [hp] at hc
      cases q with
      | takeBack rc =>
        obtain rfl : rc = .eintr := by cases rc <;> simp [Reporting, Pc.Reporting, hp] at h ⊢
        cases ht : b.task with
        | none => simp [control, butexWaitFromPthread, ht, within] at hc
        | some t =>
          simp only [control, butexWaitFromPthread, ht, Conc.goto, within, Sum.elim_inl,
            Option.some.injEq, Prod.mk.injEq] at hc
          obtain ⟨rfl, rfl⟩ := hc
          by_cases hn : s.mem.currentWaiter t = none <;> simp [Reporting, Pc.Reporting, hn]
      | loadInterrupted rc =>
        obtain rfl : rc = .eintr := by cases rc <;> simp [Reporting, Pc.Reporting, hp] at h ⊢
        cases ht : b.task with
        | none => simp [control, butexWaitFromPthread, ht, within] at hc
        | some t =>
          by_cases hi : s.mem.interrupted t = true
          all_goals
            simp only [control, butexWaitFromPthread, ht, hi, Bool.false_eq_true, if_true, if_false,
              Conc.goto, within, Sum.elim_inl, Option.some.injEq, Prod.mk.injEq] at hc
            obtain ⟨rfl, rfl⟩ := hc
            simp [Reporting, Pc.Reporting]
      | clearAfter rc =>
        obtain rfl : rc = .eintr := by cases rc <;> simp [Reporting, Pc.Reporting, hp] at h ⊢
        cases ht : b.task with
        | none => simp [control, butexWaitFromPthread, ht, within] at hc
        | some t =>
          simp only [control, butexWaitFromPthread, ht, Conc.goto, within, Sum.elim_inl,
            Option.some.injEq, Prod.mk.injEq] at hc
          obtain ⟨rfl, rfl⟩ := hc
          simp [Reporting, Pc.Reporting]
      | ret rc =>
        obtain rfl : rc = .eintr := by cases rc <;> simp [Reporting, Pc.Reporting, hp] at h ⊢
        obtain ⟨x, hx⟩ : ∃ x, butexWaitFromPthread c b (.ret .eintr) o s.mem =
            Conc.ret x .eintr := by
          cases ht : b.task <;> exact ⟨_, by simp [butexWaitFromPthread, ht]; rfl⟩
        simp only [control, hx, Conc.ret, within, Sum.elim_inr, Option.some.injEq,
          Prod.mk.injEq] at hc
        obtain ⟨rfl, rfl⟩ := hc
        simp [Reporting, Pc.Reporting, Result.Reports]
      | _ => simp [Reporting, Pc.Reporting, hp] at h
    | butexWait b q =>
      rw [hp] at hc
      cases q with
      | result i =>
        cases i with
        | false => simp [Reporting, Pc.Reporting, hp] at h
        | true =>
          obtain ⟨h1, h2⟩ : s.mem.waiterState c ≠ .timeout ∧
              s.mem.waiterState c ≠ .unmatchedValue := by
            simpa [Reporting, Pc.Reporting, hp] using h
          simp only [control, butexWait, Conc.goto, within, Sum.elim_inl, Option.some.injEq,
            Prod.mk.injEq] at hc
          obtain ⟨rfl, rfl⟩ := hc
          cases hst : s.mem.waiterState c <;> simp_all [Reporting, Pc.Reporting, waitResult]
      | ret rc =>
        obtain rfl : rc = .eintr := by cases rc <;> simp [Reporting, Pc.Reporting, hp] at h ⊢
        simp only [control, butexWait, Conc.ret, within, Sum.elim_inr, Option.some.injEq,
          Prod.mk.injEq] at hc
        obtain ⟨rfl, rfl⟩ := hc
        simp [Reporting, Pc.Reporting, Result.Reports]
      | _ => simp [Reporting, Pc.Reporting, hp] at h
    | done r => simp [control, hp] at hc
    | _ => simp [Reporting, Pc.Reporting, hp] at h

/-- A call that will report an interruption will do so after every step. -/
theorem Reporting.step (hs : system.Reachable s) (h : Reporting s w)
    (hc : control c (s.pc c) k s.mem = some (a, p)) : Reporting (s.after c a p) w := by
  by_cases hwc : w = c
  · subst hwc
    exact h.own hc
  · have hpc : (s.after c a p).pc w = s.pc w := by simp [hwc]
    rw [Reporting, hpc]
    exact Pc.Reporting.congr h fun ⟨b, i, hp⟩ => Resumed.waiterState hs hc hp trivial

/-- A call that will report an interruption reports it, whatever happens. -/
theorem Reporting.reports (hs : system.Reachable s) (h : Reporting s c)
    (hr : system.Along (fun _ => True) s s') {r : Result} (hp : s'.pc c = .done r) : r.Reports := by
  have := hr.stable (I := fun s => Reporting s c) (fun s x s' hs _ h hn => by
    obtain ⟨a, p, hc, rfl⟩ := system_next (c := x.1) (k := x.2) hn
    exact h.step hs hc) hs h
  simpa [Reporting, Pc.Reporting, hp] using this

/-! ## Flags -/

/-- The flag of a task after an access. -/
theorem interrupted_apply : (a.apply c m).interrupted t = m.interrupted t ∨
    (∃ v, a = .setInterrupted t v ∧ (a.apply c m).interrupted t = v) ∨ a = .initTask t := by
  cases a with
  | setInterrupted t' v =>
    by_cases h : t = t'
    · subst h
      exact .inr (.inl ⟨v, rfl, by simp [Access.apply]⟩)
    · exact .inl (by simp [Access.apply, h])
  | initTask t' =>
    by_cases h : t = t'
    · exact .inr (.inr (by rw [h]))
    · exact .inl (by simp [Access.apply, h])
  | _ => exact .inl rfl

/-- The step of an `interrupt` that sets the flag of the task of slot `t`. -/
def Sets (e : State × (CallId × Move)) (t : SlotId) : Prop :=
  ∃ tid k w sl, e.1.pc e.2.1 = .interrupt tid k (.setInterrupted w sl) ∧ getSlot tid = t

/-- The step prepares a new task in slot `t`. -/
def Recycles (e : State × (CallId × Move)) (t : SlotId) : Prop :=
  e.1.pc e.2.1 = .startTask (.init t) ∨ e.1.pc e.2.1 = .initGroup (.init t)

/-- The step clears the flag of the task of slot `t`; it belongs to a blocking call of that task,
which, once it has returned, has reported an interruption. -/
def Takes (e : State × (CallId × Move)) (t : SlotId) (s' : State) : Prop :=
  e.1.mem.interrupted t = true ∧
    (∃ s₁, system.next e.1 e.2 = some s₁ ∧ s₁.mem.interrupted t = false) ∧
    e.1.mem.call t = some e.2.1 ∧
    ∀ s'', system.Along (fun _ => True) s' s'' → ∀ r, s''.pc e.2.1 = .done r → r.Reports

/-- The flag of the task of slot `t` is set in `s'`; or in the steps `tr` before it a blocking call
of the task has reported it, or the slot was given to a new task. -/
def StaysSet (tr : List (State × (CallId × Move))) (s' : State) (t : SlotId) : Prop :=
  s'.mem.interrupted t = true ∨ ∃ e ∈ tr, Recycles e t ∨ Takes e t s'

/-- How a flag is cleared. -/
theorem clear_cases (hs : system.Reachable s) (hC : ClearsReported s (c, k))
    (hc : control c (s.pc c) k s.mem = some (a, p)) (h : s.mem.interrupted t = true)
    (h' : (a.apply c s.mem).interrupted t = false) :
    Recycles (s, c, k) t ∨ s.mem.call t = some c ∧ Reporting (s.after c a p) c := by
  have horigin : Origin c (s.pc c) a := control_origin a p hc
  have hcall : ∀ {t}, (s.shape c).owner = some t → s.mem.call t = some c := fun ho =>
    ((locked hs).call _ c).mpr ho
  obtain hk | ⟨v, rfl, hv⟩ | rfl := interrupted_apply (c := c) (a := a) (m := s.mem) (t := t)
  · simp [hk, h] at h'
  · obtain rfl : v = false := hv.symm.trans h'
    right
    obtain ⟨hv, -⟩ | ⟨-, hp | ⟨b, hp, rfl⟩ | ⟨b, ht, hp | ⟨rc, hp⟩⟩⟩ := horigin
    · cases hv
    · refine ⟨hcall (by simp [State.shape, hp, Pc.shape, UsleepPc.shape, Shape.owner]), ?_⟩
      rw [hp] at hc
      cases k with
      | call f => simp [control] at hc
      | next o =>
        simp only [control, usleep, Conc.goto, within, Sum.elim_inl, Option.some.injEq,
          Prod.mk.injEq] at hc
        obtain ⟨-, rfl⟩ := hc
        simp [Reporting, Pc.Reporting]
    · refine ⟨hcall (by simp [State.shape, hp, Pc.shape, WaitPc.shape, Shape.owner]), ?_⟩
      have hst := hC.2 b hp
      rw [hp] at hc
      cases k with
      | call f => simp [control] at hc
      | next o =>
        simp only [control, butexWait, Conc.goto, within, Sum.elim_inl, Option.some.injEq,
          Prod.mk.injEq] at hc
        obtain ⟨-, rfl⟩ := hc
        simpa [Reporting, Pc.Reporting, Access.apply] using hst
    · refine ⟨hcall (by simp [State.shape, hp, Pc.shape, PthreadWaitPc.shape, ht, Shape.owner]), ?_⟩
      rw [hp] at hc
      cases k with
      | call f => simp [control] at hc
      | next o =>
        simp only [control, butexWaitFromPthread, ht, Conc.goto, within, Sum.elim_inl,
          Option.some.injEq, Prod.mk.injEq] at hc
        obtain ⟨-, rfl⟩ := hc
        simp [Reporting, Pc.Reporting, afterWait]
    · refine ⟨hcall (by simp [State.shape, hp, Pc.shape, PthreadWaitPc.shape, ht, Shape.owner]), ?_⟩
      have hrc := hC.1 b rc hp
      rw [hp] at hc
      cases k with
      | call f => simp [control] at hc
      | next o =>
        simp only [control, butexWaitFromPthread, ht, Conc.goto, within, Sum.elim_inl,
          Option.some.injEq, Prod.mk.injEq] at hc
        obtain ⟨-, rfl⟩ := hc
        obtain rfl | rfl := hrc <;> simp [Reporting, Pc.Reporting]
  · exact .inl horigin

/-- A flag that is set stays set until it is reported, over one step. -/
theorem StaysSet.step {x : CallId × Move} (hs : system.Reachable s) (hC : ClearsReported s x)
    (hn : system.next s x = some s') (h : StaysSet tr s t) : StaysSet (tr ++ [(s, x)]) s' t := by
  obtain h | ⟨e, he, hr | ⟨h1, h2, h3, h4⟩⟩ := h
  · obtain ⟨a, p, hc, rfl⟩ := system_next (c := x.1) (k := x.2) hn
    by_cases h' : (a.apply x.1 s.mem).interrupted t = true
    · exact .inl h'
    · refine .inr ⟨(s, x), by simp, ?_⟩
      obtain hr | ⟨hcall, hrep⟩ := clear_cases hs hC hc h (by simpa using h')
      · exact .inl hr
      · exact .inr ⟨h, ⟨_, hn, by simpa using h'⟩, hcall,
          fun s'' hr r hp => hrep.reports (hs.step hn) hr hp⟩
  · exact .inr ⟨e, by simp [he], .inl hr⟩
  · exact .inr ⟨e, by simp [he], .inr ⟨h1, h2, h3, fun s'' hr =>
      h4 s'' (.head ⟨⟨x, hn⟩, trivial⟩ hr)⟩⟩

/-! ## Interrupters -/

/-- An `interrupt` that has set the flag, or that has returned `0`. -/
def Pc.Flagged : Pc → Prop
  | .interrupt _ _ (.unlock _ _) | .interrupt _ _ (.check _ _) | .interrupt _ _ (.erase _ _)
  | .interrupt _ _ (.lockAgain _) | .interrupt _ _ (.versionAgain _)
  | .interrupt _ _ (.setWaiter _) | .interrupt _ _ .unlockSet | .interrupt _ _ .unlockUnset
  | .interrupt _ _ (.unschedule _) | .interrupt _ _ (.ready _) | .done (.interrupt .ok) => True
  | _ => False

/-- A call that begins has set no flag. -/
theorem begin_flagged (f : Call) : Ensures (begin f m) fun _ p => ¬p.Flagged := by
  fun_cases begin f m
  case case23 fn _ _ =>
    rw [Conc.ensures_some]
    cases fn <;> exact id
  all_goals first
    | exact Conc.ensures_none _
    | exact (Conc.ensures_some ..).mpr id

/-- An `interrupt` that returns `0` has set the flag. -/
theorem interrupt_flagged {tid : Tid} {j : Bool} (q : InterruptPc) :
    Ensures (interrupt tid j true q m) fun a r =>
      Pc.Flagged (r.elim (Pc.interrupt tid j) fun v => Pc.done (.interrupt v)) →
        (Pc.interrupt tid j q).Flagged ∨
          ∃ w sl, q = .setInterrupted w sl ∧ a = .setInterrupted (getSlot tid) true := by
  fun_cases interrupt tid j true q m
  case case10 w sl => exact (Conc.ensures_goto ..).mpr fun _ => .inr ⟨w, sl, rfl, rfl⟩
  case case16 w e =>
    rw [Conc.ensures_inside]
    intro a r _ _
    exact .inl trivial
  all_goals first
    | exact Conc.ensures_none _
    | rw [Conc.ensures_goto]
    | rw [Conc.ensures_ret]
  all_goals
    intro h
    first
    | exact .inl trivial
    | exact False.elim h

/-- An `interrupt` that returns `0` has set the flag. -/
theorem control_flagged : Ensures (control c p k m) fun a p' => p'.Flagged → p.Flagged ∨
    ∃ tid j w sl, p = .interrupt tid j (.setInterrupted w sl) ∧
      a = .setInterrupted (getSlot tid) true := by
  fun_cases control c p k m
  case case1 f => exact (begin_flagged f).mono fun _ _ h hf => (h hf).elim
  case case8 tid j q _ =>
    rw [ensures_within]
    refine (interrupt_flagged q).mono fun a r h hf => (h hf).imp_right ?_
    rintro ⟨w, sl, rfl, rfl⟩
    exact ⟨tid, j, w, sl, rfl, rfl⟩
  case case17 => exact Conc.ensures_none _
  all_goals
    rw [ensures_within]
    intro a r _ h
    cases r <;> exact h.elim

/-! ## Runs -/

/-- Every `interrupt` that was made in the run `tr` from `s` to `s'` and has returned `0` has set
the flag of the task, and the flag has stayed set until it was reported. -/
def InterruptionsPersist (s : State) (tr : List (State × (CallId × Move))) (s' : State) : Prop :=
  ∀ i, s.pc i = .idle → s'.pc i = .done (.interrupt .ok) →
    ∃ t tr₁ e tr₂, tr = tr₁ ++ e :: tr₂ ∧ e.2.1 = i ∧ Sets e t ∧ StaysSet tr₂ s' t

/-- **Interruptions are persistent** in every run in which no flag is cleared by a call that does
not report it.

**Proof sketch.** The step of an `interrupt` that sets the flag comes before it returns. A step that
clears the flag belongs to a blocking call of the task, and that call reports the interruption. -/
theorem interruptionsPersist (hs : system.ReachableIf ClearsReported s)
    (h : system.Trace ClearsReported s tr s') : InterruptionsPersist s tr s' := by
  suffices main : ∀ i, s.pc i = .idle → (s'.pc i).Flagged →
      ∃ t tr₁ e tr₂, tr = tr₁ ++ e :: tr₂ ∧ e.2.1 = i ∧ Sets e t ∧ StaysSet tr₂ s' t from
    fun i hi hp => main i hi (by rw [hp]; trivial)
  refine h.invariant (I := fun tr s' => ∀ i, s.pc i = .idle → (s'.pc i).Flagged →
      ∃ t tr₁ e tr₂, tr = tr₁ ++ e :: tr₂ ∧ e.2.1 = i ∧ Sets e t ∧ StaysSet tr₂ s' t) hs ?_ ?_
  · intro i hi hf
    rw [hi] at hf
    exact hf.elim
  rintro tr u ⟨c, k⟩ v hu ih hC hn i hi hf
  have keep : (u.pc i).Flagged →
      ∃ t tr₁ e tr₂, tr ++ [(u, c, k)] = tr₁ ++ e :: tr₂ ∧ e.2.1 = i ∧ Sets e t ∧
        StaysSet tr₂ v t := by
    intro hf
    obtain ⟨t, tr₁, e, tr₂, rfl, he, hset, hst⟩ := ih i hi hf
    exact ⟨t, tr₁, e, tr₂ ++ [(u, c, k)], by simp, he, hset, hst.step hu.reachable hC hn⟩
  obtain ⟨a, p, hc, rfl⟩ := system_next hn
  by_cases hic : i = c
  · subst hic
    obtain hf | ⟨tid, j, w, sl, hp, rfl⟩ := control_flagged a p hc (by simpa using hf)
    · exact keep hf
    · exact ⟨getSlot tid, tr, (u, i, k), [], rfl, rfl, ⟨tid, j, w, sl, hp, rfl⟩,
        .inl (by simp [Access.apply])⟩
  · exact keep (by simpa [hic] using hf)

/-- A check that a step clears a flag only if its call reports it. -/
def clearsReported (s : State) (x : CallId × Move) : Bool :=
  match s.pc x.1 with
  | .butexWaitFromPthread _ (.clearAfter rc) => rc = .ok || rc = .eintr
  | .butexWait _ .clearInterrupted =>
    s.mem.waiterState x.1 ≠ .timeout && s.mem.waiterState x.1 ≠ .unmatchedValue
  | _ => true

/-- The check is about the condition. -/
theorem clearsReported_spec {x : CallId × Move} (h : clearsReported s x = true) :
    ClearsReported s x := by
  refine ⟨fun b rc hp => ?_, fun b hp => ?_⟩
  · simpa [clearsReported, hp] using h
  · simpa [clearsReported, hp] using h

/-- A task waits as a pthread, is interrupted, and goes on. -/
def waitAndInterrupt : List (CallId × Move) :=
  [(2, .call (.butexWaitFromPthread ⟨.user 0, 0, some 0, false⟩)), (2, .next .go),
   (2, .next (.garbage none)), (2, .next .go), (2, .next .go), (2, .next .go), (2, .next .go),
   (2, .next .go), (2, .next .go), (2, .next .go),
   (3, .call (.interrupt (makeTid 1 0) true)), (3, .next .go), (3, .next .go), (3, .next .go),
   (3, .next .go), (3, .next .go), (3, .next .go), (3, .next .go), (3, .next .go), (3, .next .go),
   (3, .next .go), (3, .next .go), (3, .next .go), (3, .next .go), (3, .next .go), (3, .next .go),
   (3, .next .go), (3, .next .go), (3, .next .go), (3, .next .go), (3, .next .go), (3, .next .go),
   (2, .next (.futex .ok)), (2, .next .go), (2, .next .go), (2, .next .go), (2, .next .go),
   (2, .next .go)]

/-- The wait reports the interruption, and the flag is cleared. -/
theorem interruptionsPersist_waitAndInterrupt : ∃ s tr s',
    system.ReachableIf ClearsReported s ∧ system.Trace ClearsReported s tr s' ∧
      s.pc 3 = .idle ∧ s'.pc 3 = .done (.interrupt .ok) ∧ s'.pc 2 = .done (.wait .eintr) ∧
        s'.mem.interrupted 0 = false ∧ InterruptionsPersist s tr s' := by
  obtain ⟨s, h, hi, s', h', hc, h3, h2, hf⟩ : ∃ s,
      system.exec ⟨.initial, fun _ => .idle⟩ (startAndRun.take 7) = some s ∧ s.pc 3 = .idle ∧
        ∃ s', system.exec s waitAndInterrupt = some s' ∧
          system.checked clearsReported s waitAndInterrupt = true ∧
            s'.pc 3 = .done (.interrupt .ok) ∧ s'.pc 2 = .done (.wait .eintr) ∧
              s'.mem.interrupted 0 = false :=
    ⟨_, rfl, rfl, _, rfl, rfl, rfl, rfl, rfl⟩
  have hs : system.ReachableIf ClearsReported s :=
    .of_checked clearsReported (fun _ _ => clearsReported_spec)
      (.of_init ⟨Mem.initial_initial, rfl⟩) h rfl
  obtain ⟨tr, ht, -⟩ := Conc.Machine.Trace.of_checked clearsReported
    (fun _ _ => clearsReported_spec) h' hc
  exact ⟨s, tr, s', hs, ht, hi, h3, h2, hf, interruptionsPersist hs ht⟩

/-- A task waits as a pthread for a value that the butex does not have, and is interrupted just
before it takes its waiter back. -/
def interruptLate : List (CallId × Move) :=
  [(2, .call (.butexWaitFromPthread ⟨.user 0, 1, some 0, false⟩)), (2, .next .go),
   (2, .next (.garbage none)), (2, .next .go), (2, .next .go), (2, .next .go), (2, .next .go),
   (3, .call (.interrupt (makeTid 1 0) true)), (3, .next .go), (3, .next .go), (3, .next .go),
   (3, .next .go), (3, .next .go), (3, .next .go), (3, .next .go), (3, .next .go), (3, .next .go),
   (3, .next .go), (3, .next .go), (3, .next .go), (3, .next .go), (3, .next .go),
   (2, .next .go), (2, .next .go), (2, .next .go), (2, .next .go)]

/-- A check that a step prepares no new task, and sets no flag but that of slot `0`. -/
def interruptsSlot0 (s : State) (x : CallId × Move) : Bool :=
  match s.pc x.1 with
  | .startTask _ | .initGroup _ => false
  | .interrupt tid _ (.setInterrupted _ _) => getSlot tid = 0
  | _ => true

/-- **Interruptions are lost**: this wait fails with `EWOULDBLOCK` and clears the flag. -/
theorem not_interruptionsPersist : ∃ s tr s', system.Reachable s ∧
    system.Trace (fun _ _ => True) s tr s' ∧ ¬InterruptionsPersist s tr s' := by
  obtain ⟨s, h, hi, s', h', hc, h3, h2, hf⟩ : ∃ s,
      system.exec ⟨.initial, fun _ => .idle⟩ (startAndRun.take 7) = some s ∧ s.pc 3 = .idle ∧
        ∃ s', system.exec s interruptLate = some s' ∧
          system.checked interruptsSlot0 s interruptLate = true ∧
            s'.pc 3 = .done (.interrupt .ok) ∧ s'.pc 2 = .done (.wait .ewouldblock) ∧
              s'.mem.interrupted 0 = false :=
    ⟨_, rfl, rfl, _, rfl, rfl, rfl, rfl, rfl⟩
  obtain ⟨tr, ht, hm, hch⟩ := Conc.Machine.Trace.of_checked (C := fun _ _ => True) interruptsSlot0
    (fun _ _ _ => trivial) h' hc
  refine ⟨s, tr, s', Conc.Machine.Reachable.exec (.of_init ⟨Mem.initial_initial, rfl⟩) h, ht,
    fun hp => ?_⟩
  obtain ⟨t, tr₁, e, tr₂, rfl, -, ⟨tid, j, w, sl, hpc, rfl⟩, hst⟩ := hp 3 hi h3
  have h0 : getSlot tid = 0 := by simpa [interruptsSlot0, hpc] using hch e (by simp)
  rw [h0] at hst
  obtain hst | ⟨e', he', hst⟩ := hst
  · simp [hf] at hst
  have hmem : e' ∈ tr₁ ++ e :: tr₂ := by simp [he']
  have hch' := hch e' hmem
  obtain (hr | hr) | ⟨-, -, -, hr⟩ := hst
  · simp [interruptsSlot0, hr] at hch'
  · simp [interruptsSlot0, hr] at hch'
  -- the calls of the run have returned without reporting an interruption
  have hcall : ∀ x ∈ interruptLate, x.1 = 2 ∨ x.1 = 3 := by decide
  obtain hx | hx := hcall e'.2 (hm ▸ List.mem_map_of_mem hmem)
  · exact hr s' .refl _ (by rw [hx, h2])
  · exact hr s' .refl _ (by rw [hx, h3])

end Bthread
