import Bthread.Sleeps
import Bthread.Lib.Run

set_option relaxedAutoImplicit false
set_option autoImplicit false

/-!
# Queries

The functions that tell by an identifier whether its bthread is alive, each with its own copy of the
lookup: `exists`, `get_attr`, `is_stopped`, `print_task` and `interrupt_and_consume_waiters`. All
but `exists` read under `version_lock`, and `none` is a query that waits for it. `get_attr` compares
the version with `*m->version_lock` where the others compare with `*m->version_butex`; what it reads
there is a parameter.

## Main definitions

* `Bthread.getAttr`, `Bthread.printTask`, `Bthread.interruptAndConsumeWaiters`,
  `Bthread.lockedIsStopped` — the queries.
* `Bthread.attributed` — the system with the attributes of its tasks.
* `Bthread.QueriesAgree` — the queries agree with `exists`.

## Main results

* `Bthread.attr_eq` — a `TaskMeta` has the attributes of the bthread that owns it.
* `Bthread.queriesAgree_iff` — the queries agree if `get_attr` reads a word that tells the version.
-/

namespace Bthread

open Function (update update_self update_of_ne)
open Conc (Ensures Machine Reaches Returns)

variable {α : Type} {s : State} {c d : CallId} {m : Mem} {sh : CallId → Shape} {a : Access}
  {y : Shape} {t : SlotId}

/-! ## The queries -/

/-- `TaskGroup::get_attr(tid, out)`: whether it returns `0`, and what `*out` is then. `word` is what
`*m->version_lock` reads. -/
def getAttr (word : SlotId → UInt32) (m : Mem) (attr : SlotId → α) (tid : Tid) (out : α) :
    Option (Bool × α) :=
  if m.allocated (getSlot tid) then
    if m.versionLock (getSlot tid) = none then
      if getVersion tid = word (getSlot tid) then some (true, attr (getSlot tid))
      else some (false, out)
    else none
  else some (false, out)

/-- What `print_task` prints. -/
inductive Printed (α : Type)
  | neverExisted
  | notExistNow
  | fields (f : TaskFields) (attr : α)

/-- `print_task(os, tid)`. -/
def printTask (m : Mem) (attr : SlotId → α) (tid : Tid) : Option (Printed α) :=
  if m.allocated (getSlot tid) then
    if m.versionLock (getSlot tid) = none then
      if getVersion tid = m.value (.version (getSlot tid)) then
        some (.fields (m.fields (getSlot tid)) (attr (getSlot tid)))
      else some .notExistNow
    else none
  else some .neverExisted

/-- `print_task` has found the bthread. -/
def Printed.Matched : Printed α → Prop
  | .fields _ _ => True
  | _ => False

/-- `interrupt_and_consume_waiters(tid, &w, &sleep_id)`: `none` for `EINVAL`, else `w` and
`sleep_id`. -/
def interruptAndConsumeWaiters (m : Mem) (tid : Tid) :
    Option (Option (Option CallId × TimerId)) :=
  if m.allocated (getSlot tid) then
    if m.versionLock (getSlot tid) = none then
      if getVersion tid = m.value (.version (getSlot tid)) then
        some (some (m.currentWaiter (getSlot tid), m.currentSleep (getSlot tid)))
      else some none
    else none
  else some none

/-- `TaskGroup::is_stopped(tid)`, with the lock. -/
def lockedIsStopped (m : Mem) (tid : Tid) : Option Bool :=
  if m.allocated (getSlot tid) ∧ m.versionLock (getSlot tid) ≠ none then none
  else some (m.isStopped tid)

section Interrupt

variable {tid : Tid} (worker control : Bool) (ha : m.allocated (getSlot tid) = true)
  (hl : m.versionLock (getSlot tid) = none)
include ha hl

/-- `interrupt` comes to the comparison of the versions. -/
theorem interrupt_version : Reaches (interrupt tid worker control) (Access.apply c) .addressMeta m
    [(.addressMeta, .nop), (.lock, .lockVersion (getSlot tid))] .version
    ((Access.lockVersion (getSlot tid)).apply c m) := by
  have h₁ : interrupt tid worker control .addressMeta m = Conc.goto .nop .lock := by
    simp [interrupt, ha]
  have h₂ : interrupt tid worker control .lock m =
      Conc.goto (.lockVersion (getSlot tid)) .version := by
    simp [interrupt, hl]
  exact .head h₁ (.single h₂)

end Interrupt

/-- The beginning of `interrupt` is `interrupt_and_consume_waiters`: it goes on with the waiter and
the sleep that this takes. -/
theorem interrupt_reaches {tid : Tid} {w : Option CallId} {sl : TimerId} (worker control : Bool)
    (h : interruptAndConsumeWaiters m tid = some (some (w, sl))) :
    ∃ tr m', Reaches (interrupt tid worker control) (Access.apply c) .addressMeta m tr
      (.check w sl) m' := by
  unfold interruptAndConsumeWaiters at h
  split_ifs at h with ha hl hv
  · obtain ⟨rfl, rfl⟩ := by simpa using h
    have hv' : interrupt tid worker control .version
        ((Access.lockVersion (getSlot tid)).apply c m) = Conc.goto .nop .exchange := by
      simp [interrupt, hv, Access.apply]
    -- `exchange`, `current_sleep`, `interrupted` and the unlock
    exact ⟨_, _, (interrupt_version worker control ha hl).trans <| .head hv' <|
      .head rfl <| .head rfl <| .head rfl <| .head rfl <| .single rfl⟩
  · simp at h
  · simp at h

/-- If the version is another one, `interrupt` returns `EINVAL`. -/
theorem interrupt_returns {tid : Tid} (worker control : Bool)
    (h : interruptAndConsumeWaiters m tid = some none) :
    ∃ tr m', Returns (interrupt tid worker control) (Access.apply c) .addressMeta m tr .einval
      m' := by
  unfold interruptAndConsumeWaiters at h
  split_ifs at h with ha hl hv
  · simp at h
  · have hv' : interrupt tid worker control .version
        ((Access.lockVersion (getSlot tid)).apply c m) = Conc.goto .nop .unlockInvalid := by
      simp [interrupt, Ne.symm hv, Access.apply]
    exact ⟨_, _, ((interrupt_version worker control ha hl).trans (.single hv')).returns
      (.single rfl)⟩
  · exact ⟨_, _, .single (a := .nop) (by simp [interrupt, ha])⟩

/-! ## Phases -/

/-- Knowing a timer does not matter for the phase. -/
theorem UnsleepPc.shape_phase (base : Shape) (w : CallId) (p : UnsleepPc) :
    (p.shape base w).phase = base.phase := by
  cases p <;> rfl

/-- Nor does `erase_from_butex`. -/
theorem ErasePc.shape_phase (base : Shape) (w : CallId) (wakeup : Bool) (p : ErasePc) :
    (p.shape base w wakeup).phase = base.phase := by
  cases p <;> rfl

/-- Nor does `butex_wake_except`. -/
theorem WakeExceptPc.shape_phase (base : Shape) (b : ButexId) (t : Tid) (p : WakeExceptPc) :
    (p.shape base b t).phase = base.phase := by
  cases p with
  | unsleep bt w _ _ u => exact UnsleepPc.shape_phase _ w u
  | drain bt pt ex | reappend bt pt ex | remove bt pt ex w | clear bt pt ex w =>
    cases ex <;> rfl
  | _ => rfl

/-- Who makes a task, or advances its version past `0`. -/
theorem Pc.eq_of_phase {p : Pc} {c : CallId} {t : SlotId} {φ : Phase}
    (h : (p.shape c).phase = some (t, φ)) (hφ : φ = .starting ∨ φ = .wrapping) :
    (∃ q, p = .startTask q) ∨ (∃ q, p = .initGroup q) ∨ p = .endTask t .bumpAgain := by
  cases p with
  | startTask q => exact .inl ⟨q, rfl⟩
  | initGroup q => exact .inr (.inl ⟨q, rfl⟩)
  | endTask s p =>
    cases p with
    | bumpAgain =>
      obtain ⟨rfl, -⟩ := by simpa [Pc.shape, EndPc.shape] using h
      exact .inr (.inr rfl)
    | wakeExcept p =>
      simp [Pc.shape, EndPc.shape, WakeExceptPc.shape_phase] at h
      grind
    | _ => simp [Pc.shape, EndPc.shape] at h; grind
  | butexWait a p =>
    cases p with
    | callback p =>
      cases p with
      | unsleep u =>
        simp [Pc.shape, WaitPc.shape, CallbackPc.shape, UnsleepPc.shape_phase] at h
        grind
      | _ => simp [Pc.shape, WaitPc.shape, CallbackPc.shape] at h; grind
    | unsleep u => simp [Pc.shape, WaitPc.shape, UnsleepPc.shape_phase] at h; grind
    | _ => simp [Pc.shape, WaitPc.shape] at h; grind
  | butexWaitFromPthread a p =>
    cases p with
    | erase p => simp [Pc.shape, PthreadWaitPc.shape, ErasePc.shape_phase] at h; grind
    | _ => simp [Pc.shape, PthreadWaitPc.shape] at h; grind
  | butexWake b p =>
    cases p with
    | front w p =>
      cases p with
      | unsleep u => simp [Pc.shape, WakePc.shape, FrontPc.shape, UnsleepPc.shape_phase] at h
      | _ => simp [Pc.shape, WakePc.shape, FrontPc.shape] at h
    | _ => simp [Pc.shape, WakePc.shape] at h
  | butexWakeAll b _ p => cases p <;> simp [Pc.shape, WakeAllPc.shape, UnsleepPc.shape_phase] at h
  | butexWakeExcept b t _ p => simp [Pc.shape, WakeExceptPc.shape_phase] at h
  | butexRequeue b d p =>
    cases p with
    | _ => simp [Pc.shape, RequeuePc.shape] at h
  | interrupt t _ p => cases p <;> simp [Pc.shape, InterruptPc.shape, ErasePc.shape_phase] at h
  | timer i p => cases p <;> simp [Pc.shape, TimerPc.shape, ErasePc.shape_phase] at h
  | setStopped t p => cases p <;> simp [Pc.shape, SetStoppedPc.shape] at h
  | usleep s p => cases p <;> simp [Pc.shape, UsleepPc.shape] at h <;> grind
  | addSleepEvent e t p => cases p <;> simp [Pc.shape, AddSleepPc.shape] at h
  | yield s p => cases p <;> simp [Pc.shape, YieldPc.shape] at h <;> grind
  | idle => simp [Pc.shape] at h
  | done r => simp [Pc.shape, Shape.finished] at h

/-- A bthread whose version has become `0` holds its `version_lock`. -/
theorem Pc.vlock_of_wrapping {p : Pc} {c : CallId} {t : SlotId}
    (h : (p.shape c).phase = some (t, .wrapping)) : (p.shape c).vlock = some t := by
  obtain ⟨q, rfl⟩ | ⟨q, rfl⟩ | rfl := Pc.eq_of_phase h (.inr rfl)
  · cases q <;> simp [Pc.shape, StartPc.shape] at h
  · cases q <;> simp [Pc.shape, InitPc.shape] at h
  · rfl

/-! ## Attributes -/

/-- The system with the attributes of its tasks. -/
structure Attributed (α : Type) where
  /-- The system. -/
  state : State
  /-- `TaskMeta::attr`. -/
  attr : SlotId → α
  /-- The attributes that were passed to the call that gave this identifier last, and what
  `sched_to` has made of them. -/
  given : Tid → α
  /-- `using_attr` of a call of `start_foreground` or `start_background`. -/
  usingAttr : CallId → α

/-- A step, the attributes that are passed where it makes a call of `start_foreground` or
`start_background`, and whether `sched_to` gets a stack. -/
structure AttributedMove (α : Type) where
  /-- The call. -/
  call : CallId
  /-- What it does. -/
  move : Move
  /-- The attributes that are passed. -/
  passed : α
  /-- `get_stack` returns a stack, or the task has one. -/
  stack : Bool

/-- A call keeps the attributes that it was passed. -/
def AttributedMove.pass (x : AttributedMove α) (usingAttr : CallId → α) : CallId → α :=
  match x.move with
  | .call _ => update usingAttr x.call x.passed
  | .next _ => usingAttr

/-- What an access of a call with `using_attr` `v` does to `TaskMeta::attr`; `forcePthread` sets
`stack_type` to `BTHREAD_STACKTYPE_PTHREAD`. -/
def Access.writeAttr (forcePthread : α → α) (x : AttributedMove α) (v : α) (attr : SlotId → α) :
    Access → SlotId → α
  | .initTask t => update attr t v
  | .schedTo tid =>
    if x.stack then attr else update attr (getSlot tid) (forcePthread (attr (getSlot tid)))
  | _ => attr

/-- The attributes of the bthreads after an access of a call that was passed `v`. A bthread has
those that its starter was passed, and what `sched_to` makes of them. -/
def Access.give (forcePthread : α → α) (x : AttributedMove α) (v : α) (m : Mem)
    (given : Tid → α) : Access → Tid → α
  | .setTid t | .setMainTid t => update given (makeTid (m.value (.version t)) t) v
  | .schedTo tid => if x.stack then given else update given tid (forcePthread (given tid))
  | _ => given

/-- The system with the attributes of its tasks. -/
def attributed (forcePthread : α → α) : Machine (Attributed α) (AttributedMove α) where
  init s := system.init s.state
  next s x := (control x.call (s.state.pc x.call) x.move s.state.mem).map fun r =>
    ⟨s.state.after x.call r.1 r.2, r.1.writeAttr forcePthread x (s.usingAttr x.call) s.attr,
      r.1.give forcePthread x (s.usingAttr x.call) s.state.mem s.given, x.pass s.usingAttr⟩

/-- The system moves on its own. -/
theorem attributed_state {forcePthread : α → α} {s : Attributed α}
    (h : (attributed forcePthread).Reachable s) : system.Reachable s.state := by
  refine Machine.ReachableIf.invariant (M := attributed forcePthread) (C := fun _ _ => True)
    (I := fun s => system.Reachable s.state) (fun s hs => .of_init hs) ?_ h
  intro s x s' _ hs _ hn
  obtain ⟨⟨a, p⟩, hc, rfl⟩ := Option.map_eq_some_iff.mp hn
  exact reachable_after hs hc

/-- A slot that is being started has no identifier. -/
theorem Owned.not_identified_of_starting (O : Owned m sh)
    (hx : (sh c).phase = some (t, .starting)) : ¬Identified m sh t := by
  rintro (⟨-, hr⟩ | ⟨d, hd⟩)
  · exact hr (O.task c t _ hx)
  · obtain rfl := O.unique c d t _ _ hx hd
    simp [hx] at hd

/-- The attributes of a task with an identifier are those of the bthread of this identifier. -/
theorem attr_step (L : Locked m sh) (K : Known m sh) (O : Owned m sh)
    (h : Shape.Step c m a (sh c) y) {forcePthread : α → α} (x : AttributedMove α) {v : α}
    {attr : SlotId → α} {given : Tid → α}
    (ih : ∀ t, Identified m sh t → attr t = given (m.metaTid t)) (t : SlotId)
    (hv : (sh c).phase = some (t, .starting) → a = .setTid t ∨ a = .setMainTid t → attr t = v)
    (hi : Identified (a.apply c m) (update sh c y) t) :
    a.writeAttr forcePthread x v attr t =
      a.give forcePthread x v m given ((a.apply c m).metaTid t) := by
  obtain hi | ⟨hx, rfl | rfl⟩ := O.identified_of L K h hi
  · have hne : (sh c).phase ≠ some (t, .starting) := fun hx => O.not_identified_of_starting hx hi
    obtain ⟨hs, -⟩ := O.identified t hi
    rw [h.metaTid_keep hne]
    have ht := ih t hi
    have hph := h.phase
    cases a with
    | initTask t' =>
      have hn : t ≠ t' := fun e => hne (e ▸ hph.1)
      simpa [Access.writeAttr, Access.give, hn] using ht
    | setTid t' | setMainTid t' =>
      have hn : m.metaTid t ≠ makeTid (m.value (.version t')) t' := fun e => by
        rw [e, getSlot_makeTid] at hs
        exact hne (hs ▸ hph.1)
      simpa [Access.writeAttr, Access.give, hn] using ht
    | schedTo tid =>
      -- the identifier in a run queue is that of its slot
      have hr : m.metaTid (getSlot tid) = tid := by
        have hc := O.ready tid
        have hpos := List.count_pos_iff.mpr hph.1
        by_contra hn
        rw [if_neg fun e => hn e.2] at hc
        omega
      cases hst : x.stack with
      | true => simpa [Access.writeAttr, Access.give, hst] using ht
      | false =>
        by_cases hn : t = getSlot tid
        · subst hn
          rw [hr] at ht ⊢
          simp [Access.writeAttr, Access.give, hst, ht]
        · have hn' : m.metaTid t ≠ tid := fun e => hn (by rw [← hs, e])
          simpa [Access.writeAttr, Access.give, hst, hn, hn'] using ht
    | _ => exact ht
  · simp [Access.writeAttr, Access.give, Access.apply, hv hx (.inl rfl)]
  · simp [Access.writeAttr, Access.give, Access.apply, hv hx (.inr rfl)]

/-- A call has stored the attributes of the task of slot `t` and is about to make its identifier. -/
def Pc.Inited (t : SlotId) (p : Pc) : Prop :=
  p = .startTask (.setTid t) ∨ p = .initGroup (.setTid t)

/-- The call makes the task of the slot. -/
theorem Pc.Inited.phase {p : Pc} (h : p.Inited t) (c : CallId) :
    (p.shape c).phase = some (t, .starting) := by
  obtain rfl | rfl := h <;> rfl

/-- The attributes are stored before the identifier is made. -/
theorem inited_of_setTid {p p' : Pc} {k : Move} (hc : control c p k m = some (a, p'))
    (hx : (p.shape c).phase = some (t, .starting)) (ha : a = .setTid t ∨ a = .setMainTid t) :
    p.Inited t := by
  obtain ⟨q, rfl⟩ | ⟨q, rfl⟩ | rfl := Pc.eq_of_phase hx (.inl rfl)
  · cases k with
    | call f => simp [control] at hc
    | next o =>
      cases q with
      | setTid s =>
        obtain rfl : s = t := by simpa [Pc.shape, StartPc.shape] using hx
        exact .inl rfl
      | getResource => simp [Pc.shape, StartPc.shape] at hx
      | _ => simp [control, within, startTask, Conc.goto, Conc.ret] at hc; grind
  · cases k with
    | call f => simp [control] at hc
    | next o =>
      cases q with
      | setTid s =>
        obtain rfl : s = t := by simpa [Pc.shape, InitPc.shape] using hx
        exact .inr rfl
      | getResource => simp [Pc.shape, InitPc.shape] at hx
      | init s => simp [control, within, initGroup, Conc.goto] at hc; grind
  · simp [Pc.shape, EndPc.shape] at hx

/-- They are stored by the access before. -/
theorem initTask_of_inited {p p' : Pc} {k : Move} (hc : control c p k m = some (a, p'))
    (hp : p'.Inited t) : a = .initTask t ∧ ∃ o, k = .next o := by
  cases k with
  | call f =>
    cases p with
    | idle =>
      have hne : Ensures (begin f m) fun _ p' => ¬p'.Inited t := by
        cases f with
        | butexWaitFromPthread b => cases hb : b.task <;> simp [begin, hb, Pc.Inited]
        | fire i => cases hi : m.timerFn i <;> simp [begin, hi, Pc.Inited]
        | _ => simp [begin, Pc.Inited]
      exact absurd hp (hne _ _ hc)
    | _ => simp [control] at hc
  | next o =>
    refine ⟨?_, o, rfl⟩
    cases p with
    | idle | done r => simp [control] at hc
    | startTask q =>
      obtain ⟨q', hq, rfl⟩ | ⟨v, -, rfl⟩ := within_eq hc
      · obtain rfl : q' = .setTid t := by simpa [Pc.Inited] using hp
        cases q with
        | getResource => cases o <;> simp [startTask, Conc.goto, Conc.ret] at hq
        | init s =>
          obtain ⟨rfl, rfl⟩ := by simpa [startTask, Conc.goto] using hq
          rfl
        | _ => simp [startTask, Conc.goto, Conc.ret] at hq
      · simp [Pc.Inited] at hp
    | initGroup q =>
      obtain ⟨q', hq, rfl⟩ | ⟨v, -, rfl⟩ := within_eq hc
      · obtain rfl : q' = .setTid t := by simpa [Pc.Inited] using hp
        cases q with
        | getResource => cases o <;> simp [initGroup, Conc.goto, Conc.ret] at hq
        | init s =>
          obtain ⟨rfl, rfl⟩ := by simpa [initGroup, Conc.goto] using hq
          rfl
        | setTid s => simp [initGroup, Conc.ret] at hq
      · simp [Pc.Inited] at hp
    | _ =>
      obtain ⟨q', -, rfl⟩ | ⟨v, -, rfl⟩ := within_eq hc <;> simp [Pc.Inited] at hp

/-- The attributes of a slot whose task is being made are changed by nobody else. -/
theorem writeAttr_of_starting (O : Owned m sh) (h : Shape.Step c m a (sh c) y) (hd : d ≠ c)
    (hx : (sh d).phase = some (t, .starting)) (forcePthread : α → α) (x : AttributedMove α) (v : α)
    (attr : SlotId → α) : a.writeAttr forcePthread x v attr t = attr t := by
  have hph := h.phase
  cases a with
  | initTask t' =>
    have hn : t ≠ t' := by
      rintro rfl
      exact hd (O.unique d c t _ _ hx hph.1)
    simp [Access.writeAttr, hn]
  | schedTo tid =>
    -- what is in a run queue is not being made
    have hn : t ≠ getSlot tid := by
      rintro rfl
      have hr : m.run (getSlot tid) = .starting := O.task d _ _ hx
      have hpos := List.count_pos_iff.mpr hph.1
      rw [O.ready tid, if_neg fun e => by simp [hr] at e] at hpos
      cases hpos
    cases hst : x.stack <;> simp [Access.writeAttr, hst, hn]
  | _ => rfl

/-- **A `TaskMeta` has the attributes of the bthread that owns it**, from `make_tid` on: those that
its starter was passed.

**Proof sketch.** From the store of `attr` to `make_tid` the slot belongs to the call that makes the
task, and the call keeps its `using_attr`. -/
theorem attr_eq {forcePthread : α → α} {s : Attributed α}
    (h : (attributed forcePthread).Reachable s) (t : SlotId)
    (hi : Identified s.state.mem s.state.shape t) :
    s.attr t = s.given (s.state.mem.metaTid t) := by
  have main : (∀ t, Identified s.state.mem s.state.shape t →
      s.attr t = s.given (s.state.mem.metaTid t)) ∧
      ∀ c t, (s.state.pc c).Inited t → s.attr t = s.usingAttr c := by
    refine Machine.ReachableIf.invariant (M := attributed forcePthread) (C := fun _ _ => True)
      (I := fun s => (∀ t, Identified s.state.mem s.state.shape t →
        s.attr t = s.given (s.state.mem.metaTid t)) ∧
        ∀ c t, (s.state.pc c).Inited t → s.attr t = s.usingAttr c) ?_ ?_ h
    · intro s hs
      refine ⟨fun t hi => ?_, fun c t hp => ?_⟩
      · obtain ⟨hr, -⟩ | ⟨c, hc⟩ := hi
        · exact absurd (hs.1.run t) hr
        · rw [State.shape, hs.2] at hc
          simp [Pc.shape] at hc
      · rw [hs.2] at hp
        simp [Pc.Inited] at hp
    · rintro s x s' hr ⟨ih, ih'⟩ - hn
      have hs := attributed_state hr.reachable
      obtain ⟨⟨a, p⟩, hc, rfl⟩ := Option.map_eq_some_iff.mp hn
      have hstep := step_shape hs hc
      refine ⟨fun t hi => ?_, fun d t hp => ?_⟩
      · rw [shape_after] at hi
        exact attr_step (locked hs) (known hs) (owned hs) hstep x ih t
          (fun hx ha => ih' x.call t (inited_of_setTid hc hx ha)) hi
      · by_cases hd : d = x.call
        · subst hd
          obtain ⟨rfl, o, ho⟩ := initTask_of_inited hc (by simpa using hp)
          simp [Access.writeAttr, AttributedMove.pass, ho]
        · have hp' : (s.state.pc d).Inited t := by simpa [hd] using hp
          have hpass : x.pass s.usingAttr d = s.usingAttr d := by
            cases hm : x.move <;> simp [AttributedMove.pass, hm, hd]
          change _ = x.pass s.usingAttr d
          rw [hpass, ← ih' d t hp']
          exact writeAttr_of_starting (owned hs) hstep hd (hp'.phase d) _ _ _ _
  exact main.1 t hi

/-! ## Version locks -/

/-- While nobody holds the `version_lock` of a slot, its version is not `0`. -/
theorem version_ne_zero (hs : system.Reachable s) (hl : s.mem.versionLock t = none) :
    s.mem.value (.version t) ≠ 0 := by
  refine ((owned hs).versionNe t).resolve_right ?_
  rintro ⟨c, hc⟩
  have hv := (versionLock_iff hs t c).mpr (Pc.vlock_of_wrapping hc)
  rw [hl] at hv
  cases hv

/-- So `exists` is whether the version is current. -/
theorem exists_iff (hs : system.Reachable s) {tid : Tid}
    (hl : s.mem.versionLock (getSlot tid) = none) : s.mem.exists tid = true ↔
      s.mem.allocated (getSlot tid) = true ∧
        getVersion tid = s.mem.value (.version (getSlot tid)) := by
  have hne := version_ne_zero hs hl
  simp only [Mem.exists, Bool.and_eq_true, decide_eq_true_eq, beq_iff_eq]
  constructor
  · rintro ⟨⟨-, ha⟩, hv⟩
    exact ⟨ha, hv.symm⟩
  · rintro ⟨ha, hv⟩
    refine ⟨⟨?_, ha⟩, hv.symm⟩
    rintro rfl
    exact hne (by rw [← hv]; decide)

/-- The bthread that owns a version that is current is the one with this identifier. -/
theorem metaTid_of_live (hs : system.Reachable s) {tid : Tid}
    (hl : Live s.mem s.shape (getSlot tid))
    (hv : getVersion tid = s.mem.value (.version (getSlot tid))) :
    s.mem.metaTid (getSlot tid) = tid := by
  obtain ⟨hi, hr, ht⟩ := hl
  have O := owned hs
  have hver := (O.version _ hi hr).resolve_right ht
  have hslot := (O.identified _ hi).1
  rw [← makeTid_getVersion_getSlot (s.mem.metaTid (getSlot tid)), ← hver, ← hv, hslot,
    makeTid_getVersion_getSlot]

/-- A slot that was never handed out has no bthread. -/
theorem not_exists_of_not_allocated {tid : Tid} (ha : ¬m.allocated (getSlot tid) = true) :
    ¬m.exists tid = true := by
  simp [Mem.exists, ha]

/-! ## Agreement -/

/-- The queries with identifier `tid` agree with `exists`. -/
structure QueriesAgree (word : SlotId → UInt32) (s : Attributed α) (tid : Tid) : Prop where
  /-- `get_attr` returns `0` for an identifier that exists, with the attributes of the bthread that
  owns the version if there is one; otherwise it leaves `*out`. -/
  getAttr : ∀ out ok out', getAttr word s.state.mem s.attr tid out = some (ok, out') →
    (ok = true ↔ s.state.mem.exists tid = true) ∧ (ok = false → out' = out) ∧
      (ok = true → Live s.state.mem s.state.shape (getSlot tid) → out' = s.given tid)
  printTask : ∀ r, printTask s.state.mem s.attr tid = some r →
    (r.Matched ↔ s.state.mem.exists tid = true)
  interrupt : ∀ r, interruptAndConsumeWaiters s.state.mem tid = some r →
    (r ≠ none ↔ s.state.mem.exists tid = true)
  isStopped : lockedIsStopped s.state.mem tid = some false → s.state.mem.exists tid = true

/-- **The queries agree** exactly when the word that `get_attr` compares with tells whether the
version is current, whenever `get_attr` comes to the comparison. -/
theorem queriesAgree_iff {forcePthread : α → α} {s : Attributed α}
    (h : (attributed forcePthread).Reachable s) (word : SlotId → UInt32) (tid : Tid) :
    QueriesAgree word s tid ↔ (s.state.mem.allocated (getSlot tid) = true →
      s.state.mem.versionLock (getSlot tid) = none →
        (getVersion tid = word (getSlot tid) ↔
          getVersion tid = s.state.mem.value (.version (getSlot tid)))) := by
  have hs := attributed_state h
  constructor
  · intro hq ha hl
    have hg := hq.getAttr (s.attr (getSlot tid))
    have he := exists_iff hs hl
    by_cases hw : getVersion tid = word (getSlot tid)
    · have hok := (hg true (s.attr (getSlot tid)) (by simp [getAttr, ha, hl, hw])).1.mp rfl
      exact iff_of_true hw (he.mp hok).2
    · have hok := (hg false (s.attr (getSlot tid)) (by simp [getAttr, ha, hl, hw])).1
      refine iff_of_false hw fun hv => ?_
      cases hok.mpr (he.mpr ⟨ha, hv⟩)
  · intro hw
    refine ⟨fun out ok out' hg => ?_, fun r hr => ?_, fun r hr => ?_, fun hr => ?_⟩
    · unfold getAttr at hg
      split_ifs at hg with ha hl hv
      · obtain ⟨rfl, rfl⟩ := by simpa using hg
        have hcur := (hw ha hl).mp hv
        refine ⟨iff_of_true rfl ((exists_iff hs hl).mpr ⟨ha, hcur⟩), by simp, fun _ hlive => ?_⟩
        rw [attr_eq h _ hlive.1, metaTid_of_live hs hlive hcur]
      · obtain ⟨rfl, rfl⟩ := by simpa using hg
        refine ⟨iff_of_false (by simp) fun he => ?_, fun _ => rfl, by simp⟩
        exact hv ((hw ha hl).mpr ((exists_iff hs hl).mp he).2)
      · obtain ⟨rfl, rfl⟩ := by simpa using hg
        exact ⟨iff_of_false (by simp) (not_exists_of_not_allocated ha), fun _ => rfl, by simp⟩
    · unfold Bthread.printTask at hr
      split_ifs at hr with ha hl hv
      all_goals obtain rfl := Option.some.inj hr
      · exact iff_of_true trivial ((exists_iff hs hl).mpr ⟨ha, hv⟩)
      · exact iff_of_false id fun he => hv ((exists_iff hs hl).mp he).2
      · exact iff_of_false id (not_exists_of_not_allocated ha)
    · unfold interruptAndConsumeWaiters at hr
      split_ifs at hr with ha hl hv
      all_goals obtain rfl := Option.some.inj hr
      · exact iff_of_true (by simp) ((exists_iff hs hl).mpr ⟨ha, hv⟩)
      · exact iff_of_false (by simp) fun he => hv ((exists_iff hs hl).mp he).2
      · exact iff_of_false (by simp) (not_exists_of_not_allocated ha)
    · unfold lockedIsStopped at hr
      split_ifs at hr with hl
      have hst := Option.some.inj hr
      unfold Mem.isStopped at hst
      split_ifs at hst with hv
      obtain ⟨ha, hv⟩ := by simpa using hv
      exact (exists_iff hs (by simpa [ha] using hl)).mpr ⟨ha, hv.symm⟩

/-- The first moves of `startAndRun`, with a bthread that is started with attributes `2`. -/
def startWithAttr : List (AttributedMove ℕ) :=
  (startAndRun.take 7).map fun x => ⟨x.1, x.2, 2, true⟩

/-- A bthread that runs, if `get_attr` read its version. -/
theorem queriesAgree_startWithAttr : ∃ s : Attributed ℕ, s.state.mem.exists (makeTid 1 0) = true ∧
    s.attr 0 = 2 ∧ QueriesAgree (fun t => s.state.mem.value (.version t)) s (makeTid 1 0) := by
  obtain ⟨s, h, he, ha⟩ : ∃ s, (attributed fun _ => 1).exec
      ⟨⟨.initial, fun _ => .idle⟩, fun _ => 0, fun _ => 0, fun _ => 0⟩ startWithAttr = some s ∧
        s.state.mem.exists (makeTid 1 0) = true ∧ s.attr 0 = 2 := ⟨_, rfl, rfl, rfl⟩
  have hs : (attributed fun _ => 1).Reachable s := .exec (.of_init ⟨Mem.initial_initial, rfl⟩) h
  exact ⟨s, he, ha, (queriesAgree_iff hs _ _).mpr fun _ _ => Iff.rfl⟩

/-- The same bthread, where the lock word reads `0`: it exists, and `get_attr` fails. -/
theorem not_queriesAgree : ∃ s : Attributed ℕ, (attributed fun _ => 1).Reachable s ∧
    s.state.mem.exists (makeTid 1 0) = true ∧
      getAttr (fun _ => 0) s.state.mem s.attr (makeTid 1 0) 5 = some (false, 5) ∧
        ¬QueriesAgree (fun _ => 0) s (makeTid 1 0) := by
  obtain ⟨s, h, he, hg⟩ : ∃ s, (attributed fun _ => 1).exec
      ⟨⟨.initial, fun _ => .idle⟩, fun _ => 0, fun _ => 0, fun _ => 0⟩ startWithAttr = some s ∧
        s.state.mem.exists (makeTid 1 0) = true ∧
          getAttr (fun _ => 0) s.state.mem s.attr (makeTid 1 0) 5 = some (false, 5) :=
    ⟨_, rfl, rfl, rfl⟩
  refine ⟨s, .exec (.of_init ⟨Mem.initial_initial, rfl⟩) h, he, hg, fun hq => ?_⟩
  have hok := (hq.getAttr 5 false 5 hg).1.mpr he
  cases hok

end Bthread
