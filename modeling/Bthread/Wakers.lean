import Bthread.Lib.Run
import Bthread.Slots

set_option relaxedAutoImplicit false
set_option autoImplicit false

/-!
# Waking in bulk

`butex_wake_all`, `butex_wake_except` and `butex_requeue` from the first access to the last, on a
queue of any length. The two bulk wakes keep the removed waiters in two local lists, which no other
thread can reach, so their runs are followed undisturbed.

## Main definitions

* `Bthread.WakeEvent` — the calls with which a bulk wake hands its waiters on.
* `Bthread.Mem.HandsOver` — their effect on the waiters and on the run queues.
* `Bthread.WakesAll`, `Bthread.WakesExcept` — what the two bulk wakes do.
* `Bthread.Requeues` — what `butex_requeue` should do.

## Main results

* `Bthread.bulkWakes` — bulk wakes lose and duplicate nothing.
* `Bthread.not_requeues` — `butex_requeue` never returns.
-/

namespace Bthread

open Conc (goto ret inside Reaches Returns)
open Function (update)

variable {c w e : CallId} {b : ButexId} {m m₁ m' : Mem} {worker : Bool} {x : Tid}

/-! ## The calls of a bulk wake -/

/-- A call with which a bulk wake hands a waiter on, or signals what it has pushed. -/
inductive WakeEvent
  /-- `wakeup_pthread(w)`. -/
  | wakeupPthread (w : CallId)
  /-- `g->ready_to_run_general(w->tid, nosignal)`. -/
  | readyToRunGeneral (w : CallId) (nosignal : Bool)
  /-- `g->flush_nosignal_tasks_general()`. -/
  | flush
  /-- `TaskGroup::exchange(&g, w->tid)`, or `g->ready_to_run_remote(w->tid)` when `g` is not the
  group of the caller. -/
  | exchange (w : CallId)
  deriving DecidableEq

/-- The waiter that a call hands on. -/
def WakeEvent.waiter : WakeEvent → Option CallId
  | .wakeupPthread w | .readyToRunGeneral w _ | .exchange w => some w
  | .flush => none

/-- The call that `butex_wake_all` makes with an access. -/
def WakeAllPc.event : WakeAllPc × Access → Option WakeEvent
  | (_, .wakeupPthread w) => some (.wakeupPthread w)
  | (_, .flush) => some .flush
  | (.exchange _ _, .handOff w) => some (.exchange w)
  | (_, .handOff w) | (_, .handOffLost w) => some (.readyToRunGeneral w true)
  | _ => none

/-- The call that `butex_wake_except` makes with an access. -/
def WakeExceptPc.event : WakeExceptPc × Access → Option WakeEvent
  | (_, .wakeupPthread w) => some (.wakeupPthread w)
  | (_, .flush) => some .flush
  | (_, .handOff w) | (_, .handOffLost w) => some (.readyToRunGeneral w true)
  | _ => none

/-- The bthread waiters of a queue. -/
def Mem.bthreads (m : Mem) (l : List CallId) : List CallId := l.filter fun w => m.tid w ≠ 0

/-- The pthread waiters of a queue. -/
def Mem.pthreads (m : Mem) (l : List CallId) : List CallId := l.filter fun w => m.tid w = 0

/-- The bthread waiters of a queue whose `tid` is not `x`. -/
def Mem.others (m : Mem) (x : Tid) (l : List CallId) : List CallId :=
  l.filter fun w => m.tid w ≠ 0 ∧ m.tid w ≠ x

/-- The waiter of bthread `x` in a queue. -/
def Mem.excluded (m : Mem) (x : Tid) (l : List CallId) : List CallId :=
  l.filter fun w => m.tid w ≠ 0 ∧ m.tid w = x

/-- The last calls of `butex_wake_all` for the bthread waiters `bt`: all but the first one in
reverse order, one flush if there were any, and the first one. -/
def lastCalls : List CallId → List WakeEvent
  | [] => []
  | next :: bt => bt.reverse.map (.readyToRunGeneral · true) ++
      (if bt = [] then [] else [.flush]) ++ [.exchange next]

/-- Call `c` hands the waiters `ws` over, each as often as it is in the list: of these it signals
`pts`, and it pushes the identifiers `ts` to run queues. Nothing else is handed over. -/
structure Mem.HandsOver (c : CallId) (ws pts : List CallId) (ts : List Tid) (m m' : Mem) :
    Prop where
  handedBy : ∀ w, m'.handedBy w = List.replicate (ws.count w) c ++ m.handedBy w
  sig : ∀ w, m'.sig w = (m.sig w || decide (w ∈ pts))
  ready : m'.ready = ts ++ m.ready
  pushes : ∀ w, m'.pushes w = m.pushes w + ts.countP fun t => m.call (getSlot t) = some w
  call : m'.call = m.call

/-- The identifiers that `ready_to_run_general` pushes for the waiters `bt`: off the workers it
pushes none. -/
def Mem.generalPushes (m : Mem) (worker : Bool) (bt : List CallId) : List Tid :=
  if worker then bt.map m.tid else []

/-- The identifiers that `butex_wake_all` pushes for the bthread waiters `bt`. -/
def Mem.allPushes (m : Mem) (worker : Bool) : List CallId → List Tid
  | [] => []
  | next :: bt => m.tid next :: m.generalPushes worker bt

/-- `butex_wake_all(b)` empties the queue, signals every pthread waiter in queue order, hands every
bthread waiter over, and returns the number of waiters. -/
def WakesAll (c : CallId) (b : ButexId) (worker : Bool) (m : Mem) : Prop :=
  ∃ tr m', Returns (butexWakeAll b worker) (Access.apply c) .lock m tr (m.waiters b).length m' ∧
    tr.filterMap WakeAllPc.event =
      (m.pthreads (m.waiters b)).map .wakeupPthread ++ lastCalls (m.bthreads (m.waiters b)) ∧
    m.HandsOver c (m.waiters b) (m.pthreads (m.waiters b))
      (m.allPushes worker (m.bthreads (m.waiters b))) m' ∧
    m'.waiters b = [] ∧ ∀ w ∈ m.waiters b, m'.container w = none

/-- `butex_wake_except(b, x)` leaves exactly the waiter of `x` queued, hands every other waiter
over, and returns the number of these. -/
def WakesExcept (c : CallId) (b : ButexId) (x : Tid) (worker : Bool) (m : Mem) : Prop :=
  ∃ tr m', Returns (butexWakeExcept b x worker) (Access.apply c) .lock m tr
      ((m.waiters b).length - (m.excluded x (m.waiters b)).length) m' ∧
    tr.filterMap WakeExceptPc.event =
      (m.pthreads (m.waiters b)).map .wakeupPthread ++
        (m.others x (m.waiters b)).reverse.map (.readyToRunGeneral · true) ++
        (if m.others x (m.waiters b) = [] then [] else [.flush]) ∧
    m.HandsOver c (m.pthreads (m.waiters b) ++ m.others x (m.waiters b))
      (m.pthreads (m.waiters b)) (m.generalPushes worker (m.others x (m.waiters b))) m' ∧
    m'.waiters b = m.excluded x (m.waiters b) ∧
    ∀ w ∈ m.waiters b, m'.container w = if w ∈ m'.waiters b then m.container w else none

/-- Both bulk wakes dequeue and hand over the same waiters and return the same number. -/
def WakesAlike (c : CallId) (b : ButexId) (x : Tid) (worker : Bool) (m : Mem) : Prop :=
  ∀ tr n m₁ tr' n' m₂,
    Returns (butexWakeAll b worker) (Access.apply c) .lock m tr n m₁ →
    Returns (butexWakeExcept b x worker) (Access.apply c) .lock m tr' n' m₂ →
    n = n' ∧ m₁.waiters b = m₂.waiters b ∧ m₁.handedBy = m₂.handedBy ∧ m₁.sig = m₂.sig ∧
      ((tr.filterMap WakeAllPc.event).filterMap WakeEvent.waiter).Perm
        ((tr'.filterMap WakeExceptPc.event).filterMap WakeEvent.waiter)

/-! ## Handing over -/

namespace Mem.HandsOver

variable {ws ws' pts pts' : List CallId} {ts ts' : List Tid}

/-- Nothing is handed over where nothing is changed. -/
theorem of_eq (hh : m'.handedBy = m.handedBy) (hs : m'.sig = m.sig) (hr : m'.ready = m.ready)
    (hp : m'.pushes = m.pushes) (hc : m'.call = m.call) : m.HandsOver c [] [] [] m' :=
  ⟨by simp [hh], by simp [hs], by simp [hr], by simp [hp], hc⟩

/-- `wakeup_pthread`. -/
theorem wakeupPthread (c w : CallId) (m : Mem) :
    m.HandsOver c [w] [w] [] ((Access.wakeupPthread w).apply c m) where
  handedBy v := by
    by_cases hv : v = w
    · subst hv; simp [Access.apply]
    · simp [Access.apply, hv, Ne.symm hv]
  sig v := by by_cases hv : v = w <;> simp [Access.apply, hv]
  ready := rfl
  pushes _ := rfl
  call := rfl

/-- Handing a bthread over with a push. -/
theorem handOff (c w : CallId) (m : Mem) :
    m.HandsOver c [w] [] [m.tid w] ((Access.handOff w).apply c m) where
  handedBy v := by
    by_cases hv : v = w
    · subst hv; simp [Access.apply, Mem.push]
    · simp [Access.apply, Mem.push, hv, Ne.symm hv]
  sig v := by simp [Access.apply, Mem.push]
  ready := rfl
  pushes v := by
    cases hc : m.call (getSlot (m.tid w)) with
    | none => simp [Access.apply, Mem.push, hc]
    | some u =>
      by_cases hv : u = v
      · subst hv; simp [Access.apply, Mem.push, hc]
      · simp [Access.apply, Mem.push, hc, hv, Ne.symm hv]
  call := rfl

/-- Handing a bthread over without a push. -/
theorem handOffLost (c w : CallId) (m : Mem) :
    m.HandsOver c [w] [] [] ((Access.handOffLost w).apply c m) where
  handedBy v := by
    by_cases hv : v = w
    · subst hv; simp [Access.apply]
    · simp [Access.apply, hv, Ne.symm hv]
  sig v := by simp [Access.apply]
  ready := rfl
  pushes _ := rfl
  call := rfl

/-- Handing over first some waiters and then others. -/
theorem trans (h : m.HandsOver c ws pts ts m₁) (h' : m₁.HandsOver c ws' pts' ts' m') :
    m.HandsOver c (ws ++ ws') (pts ++ pts') (ts' ++ ts) m' where
  handedBy w := by
    rw [h'.handedBy, h.handedBy, List.count_append, Nat.add_comm, List.replicate_add,
      List.append_assoc]
  sig w := by simp only [h'.sig, h.sig, List.mem_append, Bool.decide_or, Bool.or_assoc]
  ready := by rw [h'.ready, h.ready, List.append_assoc]
  pushes w := by
    rw [h'.pushes, h.pushes, h.call, List.countP_append, Nat.add_assoc,
      Nat.add_comm (List.countP _ ts)]
  call := h'.call.trans h.call

/-- In which order the waiters are listed does not matter. -/
theorem perm (h : m.HandsOver c ws pts ts m') (hw : ws.Perm ws') :
    m.HandsOver c ws' pts ts m' :=
  { h with handedBy := fun w => by rw [h.handedBy, hw.count_eq] }

end Mem.HandsOver

/-! ## What the accesses outside the critical section keep -/

/-- The queues, the containers and the identifiers of the waiters are the same. -/
structure Mem.SameQueues (m m' : Mem) : Prop where
  waiters : m'.waiters = m.waiters
  container : m'.container = m.container
  tid : m'.tid = m.tid

/-- Nothing changes nothing. -/
theorem Mem.SameQueues.refl (m : Mem) : m.SameQueues m := ⟨rfl, rfl, rfl⟩

/-- Two parts of a run that change no queue. -/
theorem Mem.SameQueues.trans (h : m.SameQueues m₁) (h' : m₁.SameQueues m') : m.SameQueues m' :=
  ⟨h'.waiters.trans h.waiters, h'.container.trans h.container, h'.tid.trans h.tid⟩

/-- The accesses of `unsleep_if_necessary(w)`. -/
def Access.Unsleeps (w : CallId) (a : Access) : Prop :=
  a = .nop ∨ (∃ i, a = .unschedule i) ∨ a = .clearSleepId w

/-- `unsleep_if_necessary` returns, changes no queue and hands nothing over. -/
theorem returns_unsleepIfNecessary (w : CallId) (m : Mem) : ∃ tr v m',
    Returns (unsleepIfNecessary w) (Access.apply c) .load m tr v m' ∧
      (∀ p ∈ tr, p.2.Unsleeps w) ∧ m.SameQueues m' ∧ m.HandsOver c [] [] [] m' := by
  by_cases h0 : m.sleepId w = 0
  · have hl : unsleepIfNecessary w .load m = ret .nop true := if_pos h0
    exact ⟨_, _, _, .single hl, by simp [Access.Unsleeps], ⟨rfl, rfl, rfl⟩,
      .of_eq rfl rfl rfl rfl rfl⟩
  · have hl : unsleepIfNecessary w .load m = goto .nop (.unschedule (m.sleepId w)) := if_neg h0
    by_cases hu : 0 < unscheduleResult (m.sleepId w) m
    · have hr : unsleepIfNecessary w (.unschedule (m.sleepId w)) m =
          ret (.unschedule (m.sleepId w)) false := if_pos hu
      exact ⟨_, _, _, (Reaches.single hl).returns (.single hr), by simp [Access.Unsleeps],
        ⟨rfl, rfl, rfl⟩, .of_eq rfl rfl rfl rfl rfl⟩
    · have hc : unsleepIfNecessary w (.unschedule (m.sleepId w)) m =
          goto (.unschedule (m.sleepId w)) .clear := if_neg hu
      have hr : ∀ m', unsleepIfNecessary w .clear m' = ret (.clearSleepId w) true := fun _ => rfl
      exact ⟨_, _, _, ((Reaches.single hl).trans (.single hc)).returns (.single (hr _)),
        by simp [Access.Unsleeps], ⟨rfl, rfl, rfl⟩, .of_eq rfl rfl rfl rfl rfl⟩

/-- `unsleep_if_necessary` inside `butex_wake_all` is no call that hands a waiter on. -/
theorem wakeAll_events {k : UnsleepPc → WakeAllPc} {tr : List (UnsleepPc × Access)}
    (h : ∀ p ∈ tr, p.2.Unsleeps w) : (tr.map (Prod.map k id)).filterMap WakeAllPc.event = [] := by
  rw [List.filterMap_map, List.filterMap_eq_nil_iff]
  rintro ⟨p, a⟩ hp
  obtain rfl | ⟨i, rfl⟩ | rfl : a.Unsleeps w := h _ hp
  all_goals simp [WakeAllPc.event]

/-- `unsleep_if_necessary` inside `butex_wake_except` is no call that hands a waiter on. -/
theorem wakeExcept_events {k : UnsleepPc → WakeExceptPc} {tr : List (UnsleepPc × Access)}
    (h : ∀ p ∈ tr, p.2.Unsleeps w) :
    (tr.map (Prod.map k id)).filterMap WakeExceptPc.event = [] := by
  rw [List.filterMap_map, List.filterMap_eq_nil_iff]
  rintro ⟨p, a⟩ hp
  obtain rfl | ⟨i, rfl⟩ | rfl : a.Unsleeps w := h _ hp
  all_goals simp [WakeExceptPc.event]

/-- `flush_nosignal_tasks_general` changes no queue and hands nothing over. -/
theorem flush_handsOver (p : Prop) [Decidable p] (m : Mem) :
    m.HandsOver c [] [] [] ((if p then Access.flush else .nop).apply c m) ∧
    m.SameQueues ((if p then Access.flush else .nop).apply c m) := by
  by_cases hp : p <;> simp only [hp, if_true, if_false] <;>
    exact ⟨.of_eq rfl rfl rfl rfl rfl, rfl, rfl, rfl⟩

/-- `ready_to_run_general` changes no queue; on a worker it pushes the bthread. -/
theorem readyToRunGeneral_handsOver (worker : Bool) (w : CallId) (m : Mem) :
    m.HandsOver c [w] [] (m.generalPushes worker [w])
      ((if worker then Access.handOff w else .handOffLost w).apply c m) ∧
    m.SameQueues ((if worker then Access.handOff w else .handOffLost w).apply c m) := by
  cases worker
  · exact ⟨.handOffLost c w m, rfl, rfl, rfl⟩
  · exact ⟨.handOff c w m, rfl, rfl, rfl⟩

/-- Pushing the last waiter first. -/
theorem generalPushes_append (worker : Bool) (bt : List CallId) (w : CallId) (ht : m'.tid = m.tid)
    (ht₁ : m₁.tid = m.tid) :
    m'.generalPushes worker bt ++ m₁.generalPushes worker [w] =
      m.generalPushes worker (bt ++ [w]) := by
  cases worker <;> simp [Mem.generalPushes, ht, ht₁]

/-! ## `butex_wake_all` -/

section WakeAll

variable {bt pt : List CallId} {n saved : ℕ} {next : CallId}

variable (c b worker) in
/-- The loop in the critical section moves the whole queue into the two local lists.

**Proof sketch.** Induction on the queue; a round moves its head. -/
theorem wakeAll_drain (m : Mem) (bt pt : List CallId) : ∃ tr m',
    Reaches (butexWakeAll b worker) (Access.apply c) (.drain bt pt) m tr
      (.unlock (bt ++ m.bthreads (m.waiters b)) (pt ++ m.pthreads (m.waiters b))) m' ∧
    tr.filterMap WakeAllPc.event = [] ∧ m.HandsOver c [] [] [] m' ∧ m'.tid = m.tid ∧
    m'.waiters b = [] ∧
    ∀ w, m'.container w = if w ∈ m.waiters b then none else m.container w := by
  induction hq : m.waiters b generalizing m bt pt with
  | nil =>
    have h₁ : butexWakeAll b worker (.drain bt pt) m = goto .nop (.unlock bt pt) := by
      simp only [butexWakeAll, hq]
    have hr : Reaches (butexWakeAll b worker) (Access.apply c) (.drain bt pt) m
        [(.drain bt pt, .nop)] (.unlock bt pt) m := .single h₁
    exact ⟨_, m, by simpa [Mem.bthreads, Mem.pthreads] using hr, rfl,
      .of_eq rfl rfl rfl rfl rfl, rfl, hq, by simp⟩
  | cons w l ih =>
    have h₁ : butexWakeAll b worker (.drain bt pt) m = goto .nop (.remove bt pt w) := by
      simp only [butexWakeAll, hq]
    let m₁ := (Access.removeFromList w).apply c m
    have h₂ : butexWakeAll b worker (.remove bt pt w) m =
        goto (.removeFromList w) (.clear bt pt w) := rfl
    let m₂ := (Access.clearContainer w).apply c m₁
    have hq₂ : m₂.waiters b = l := by simp [m₂, m₁, Access.apply, hq]
    have hc₂ : ∀ v, m₂.container v = if v = w then none else m.container v := by
      intro v
      simp [m₂, m₁, Access.apply, Function.update_apply]
    have hh₂ : m.HandsOver c [] [] [] m₂ := .of_eq rfl rfl rfl rfl rfl
    by_cases hw : m.tid w = 0
    · have h₃ : butexWakeAll b worker (.clear bt pt w) m₁ =
          goto (.clearContainer w) (.drain bt (pt ++ [w])) := if_pos hw
      obtain ⟨tr, m', hr, htr, hh, ht, hq', hc'⟩ := ih m₂ bt (pt ++ [w]) hq₂
      have hr' : Reaches (butexWakeAll b worker) (Access.apply c) (.drain bt (pt ++ [w])) m₂ tr
          (.unlock (bt ++ m.bthreads (w :: l)) (pt ++ m.pthreads (w :: l))) m' := by
        have ht₂ : m₂.tid = m.tid := rfl
        simpa [Mem.bthreads, Mem.pthreads, ht₂, hw] using hr
      refine ⟨_, m', .head h₁ (.head h₂ (.head h₃ hr')), ?_, hh₂.trans hh, ht, hq', ?_⟩
      · simpa [WakeAllPc.event] using htr
      · intro v
        rw [hc', hc₂]
        by_cases hv : v = w <;> simp [hv]
    · have h₃ : butexWakeAll b worker (.clear bt pt w) m₁ =
          goto (.clearContainer w) (.drain (bt ++ [w]) pt) := if_neg hw
      obtain ⟨tr, m', hr, htr, hh, ht, hq', hc'⟩ := ih m₂ (bt ++ [w]) pt hq₂
      have hr' : Reaches (butexWakeAll b worker) (Access.apply c) (.drain (bt ++ [w]) pt) m₂ tr
          (.unlock (bt ++ m.bthreads (w :: l)) (pt ++ m.pthreads (w :: l))) m' := by
        have ht₂ : m₂.tid = m.tid := rfl
        simpa [Mem.bthreads, Mem.pthreads, ht₂, hw] using hr
      refine ⟨_, m', .head h₁ (.head h₂ (.head h₃ hr')), ?_, hh₂.trans hh, ht, hq', ?_⟩
      · simpa [WakeAllPc.event] using htr
      · intro v
        rw [hc', hc₂]
        by_cases hv : v = w <;> simp [hv]

variable (c b worker) in
/-- The pthread waiters are signalled in order. -/
theorem wakeAll_pthreads (m : Mem) (bt pt : List CallId) (n : ℕ) : ∃ tr m',
    Reaches (butexWakeAll b worker) (Access.apply c) (.pthreads bt pt n) m tr
      (.pthreads bt [] (n + pt.length)) m' ∧
    tr.filterMap WakeAllPc.event = pt.map .wakeupPthread ∧ m.HandsOver c pt pt [] m' ∧
    m.SameQueues m' := by
  induction pt generalizing m n with
  | nil => exact ⟨[], m, .refl _ _, rfl, .of_eq rfl rfl rfl rfl rfl, .refl m⟩
  | cons w pt ih =>
    have h₁ : butexWakeAll b worker (.pthreads bt (w :: pt) n) m =
        goto (.wakeupPthread w) (.pthreads bt pt (n + 1)) := by cases bt <;> rfl
    obtain ⟨tr, m', hr, htr, hh, hs⟩ := ih ((Access.wakeupPthread w).apply c m) (n + 1)
    refine ⟨(.pthreads bt (w :: pt) n, .wakeupPthread w) :: tr, m', .head h₁ ?_, ?_,
      (Mem.HandsOver.wakeupPthread c w m).trans hh, ⟨hs.1, hs.2, hs.3⟩⟩
    · simpa [Nat.add_assoc, Nat.add_comm 1] using hr
    · simpa [WakeAllPc.event] using htr

variable (c b worker) in
/-- The other bthread waiters are made runnable in reverse order.

**Proof sketch.** Induction on the list from its end, where the loop takes its next waiter. -/
theorem wakeAll_bthreads (m : Mem) (next : CallId) (bt : List CallId) (n saved : ℕ) : ∃ tr m',
    Reaches (butexWakeAll b worker) (Access.apply c) (.bthreads next bt n saved) m tr
      (.flush next (n + bt.length) saved) m' ∧
    tr.filterMap WakeAllPc.event = bt.reverse.map (.readyToRunGeneral · true) ∧
    m.HandsOver c bt [] (m.generalPushes worker bt) m' ∧ m.SameQueues m' := by
  induction bt using List.reverseRecOn generalizing m n with
  | nil =>
    have h₁ : butexWakeAll b worker (.bthreads next [] n saved) m =
        goto .nop (.flush next n saved) := rfl
    exact ⟨[(.bthreads next [] n saved, .nop)], m, .single h₁, rfl,
      by cases worker <;> exact .of_eq rfl rfl rfl rfl rfl, .refl m⟩
  | append_singleton bt w ih =>
    have h₁ : butexWakeAll b worker (.bthreads next (bt ++ [w]) n saved) m =
        goto .nop (.unsleep next bt w n saved .load) := by simp [butexWakeAll]
    obtain ⟨tr₂, v, m₂, h₂, htr₂, hs₂, hh₂⟩ := returns_unsleepIfNecessary (c := c) w m
    have h₂' := h₂.inside (f := butexWakeAll b worker) (k := .unsleep next bt w n saved)
      (g := fun _ => .inl (.ready next bt w n saved)) (fun _ _ => rfl) rfl
    have h₃ : butexWakeAll b worker (.ready next bt w n saved) m₂ =
        goto (if worker then .handOff w else .handOffLost w)
          (.bthreads next bt (n + 1) saved) := rfl
    obtain ⟨hh₃, hs₃⟩ := readyToRunGeneral_handsOver (c := c) worker w m₂
    obtain ⟨tr, m', hr, htr, hh, hs⟩ :=
      ih ((if worker then Access.handOff w else .handOffLost w).apply c m₂) (n + 1)
    have hr' : Reaches (butexWakeAll b worker) (Access.apply c) (.bthreads next bt (n + 1) saved)
        ((if worker then Access.handOff w else .handOffLost w).apply c m₂) tr
        (.flush next (n + (bt ++ [w]).length) saved) m' := by
      simpa [Nat.add_assoc, Nat.add_comm 1] using hr
    have hev : WakeAllPc.event (.ready next bt w n saved,
        if worker then Access.handOff w else .handOffLost w) =
        some (.readyToRunGeneral w true) := by cases worker <;> rfl
    refine ⟨_, m', .head h₁ (h₂'.trans (.head h₃ hr')), ?_, ?_, hs₂.trans (hs₃.trans hs)⟩
    · rw [List.filterMap_cons_none (by rfl), List.filterMap_append, wakeAll_events htr₂,
        List.filterMap_cons, hev]
      simp [htr]
    · have hp := (hh₂.trans (hh₃.trans hh)).perm (@List.perm_append_comm _ [w] _)
      simpa [generalPushes_append worker bt w (hs₃.tid.trans hs₂.tid) hs₂.tid] using hp

variable (c worker) in
/-- **`butex_wake_all`.** -/
theorem wakesAll (hl : m.waiterLock b = none) : WakesAll c b worker m := by
  let m₀ := (Access.lockButex b).apply c m
  have h₀ : butexWakeAll b worker .lock m = goto (.lockButex b) (.drain [] []) := if_pos hl
  obtain ⟨tr₁, m₁, hr₁, htr₁, hh₁, ht₁, hq₁, hc₁⟩ := wakeAll_drain c b worker m₀ [] []
  let m₂ := (Access.unlockButex b).apply c m₁
  obtain ⟨tr₃, m₃, hr₃, htr₃, hh₃, hs₃⟩ := wakeAll_pthreads c b worker m₂
    (m.bthreads (m.waiters b)) (m.pthreads (m.waiters b)) 0
  have hlen : (m.waiters b).length =
      (m.pthreads (m.waiters b)).length + (m.bthreads (m.waiters b)).length := by
    have := (List.length_eq_length_filter_add (l := m.waiters b) fun w => decide (m.tid w = 0))
    simpa [Mem.pthreads, Mem.bthreads] using this
  have hunlock : butexWakeAll b worker (.unlock (m.bthreads (m.waiters b))
      (m.pthreads (m.waiters b))) m₁ = goto (.unlockButex b)
        (.pthreads (m.bthreads (m.waiters b)) (m.pthreads (m.waiters b)) 0) := rfl
  have hstart : Reaches (butexWakeAll b worker) (Access.apply c) .lock m
      ((.lock, .lockButex b) :: (tr₁ ++
        (.unlock (m.bthreads (m.waiters b)) (m.pthreads (m.waiters b)), .unlockButex b) :: tr₃))
      (.pthreads (m.bthreads (m.waiters b)) [] (0 + (m.pthreads (m.waiters b)).length)) m₃ :=
    .head h₀ (hr₁.trans (.head hunlock hr₃))
  have hcont : ∀ m', m₃.SameQueues m' →
      m'.waiters b = [] ∧ ∀ w ∈ m.waiters b, m'.container w = none := by
    intro m' hs
    refine ⟨by rw [hs.waiters, hs₃.waiters]; exact hq₁, fun w hw => ?_⟩
    rw [hs.container, hs₃.container]
    exact (hc₁ w).trans (if_pos hw)
  have hev : ((WakeAllPc.lock, Access.lockButex b) :: (tr₁ ++ (.unlock (m.bthreads (m.waiters b))
      (m.pthreads (m.waiters b)), .unlockButex b) :: tr₃)).filterMap WakeAllPc.event =
      (m.pthreads (m.waiters b)).map .wakeupPthread := by
    simp [List.filterMap_cons, WakeAllPc.event, htr₁, htr₃]
  -- up to here only the pthread waiters are handed over
  have hh : m.HandsOver c (m.pthreads (m.waiters b)) (m.pthreads (m.waiters b)) [] m₃ := by
    have h₀₁ : m.HandsOver c [] [] [] m₀ := .of_eq rfl rfl rfl rfl rfl
    have h₁₂ : m₁.HandsOver c [] [] [] m₂ := .of_eq rfl rfl rfl rfl rfl
    simpa using h₀₁.trans (hh₁.trans (h₁₂.trans hh₃))
  have ht₃ : m₃.tid = m.tid := hs₃.tid.trans ht₁
  have hperm : (m.pthreads (m.waiters b) ++ m.bthreads (m.waiters b)).Perm (m.waiters b) := by
    simpa [Mem.pthreads, Mem.bthreads] using
      List.filter_append_perm (fun w => decide (m.tid w = 0)) (m.waiters b)
  cases hbt : m.bthreads (m.waiters b) with
  | nil =>
    rw [hbt] at hstart hev hlen
    have hret : butexWakeAll b worker
        (.pthreads [] [] (0 + (m.pthreads (m.waiters b)).length)) m₃ =
        ret .nop (m.waiters b).length := by simp [butexWakeAll, hlen]
    refine ⟨_, _, hstart.returns (.single hret), ?_, ?_, hcont _ ⟨rfl, rfl, rfl⟩⟩
    · rw [hbt, List.filterMap_append, hev]
      rfl
    · rw [hbt] at hperm ⊢
      exact hh.perm (by simpa using hperm)
  | cons next bt =>
    rw [hbt] at hstart hev hlen
    obtain ⟨tr₄, v, m₄, h₄, htr₄, hs₄, hh₄⟩ := returns_unsleepIfNecessary (c := c) next m₃
    have h₄' := h₄.inside (f := butexWakeAll b worker)
      (k := .unsleepNext next bt (m.pthreads (m.waiters b)).length)
      (g := fun _ => .inl (.bthreads next bt ((m.pthreads (m.waiters b)).length + 1)
        ((m.pthreads (m.waiters b)).length + 1))) (fun _ _ => rfl) rfl
    obtain ⟨tr₅, m₅, h₅, htr₅, hh₅, hs₅⟩ := wakeAll_bthreads c b worker m₄ next bt
      ((m.pthreads (m.waiters b)).length + 1) ((m.pthreads (m.waiters b)).length + 1)
    have hret : butexWakeAll b worker
        (.exchange next ((m.pthreads (m.waiters b)).length + 1 + bt.length)) m₅ =
        ret (.handOff next) (m.waiters b).length := by
      rw [hlen, List.length_cons, Nat.add_assoc, Nat.add_comm 1]
      rfl
    rw [Nat.zero_add] at hstart
    have h₃ : butexWakeAll b worker (.pthreads (next :: bt) [] (m.pthreads (m.waiters b)).length)
        m₃ = goto .nop (.unsleepNext next bt (m.pthreads (m.waiters b)).length .load) := rfl
    have h₆ : butexWakeAll b worker (.flush next ((m.pthreads (m.waiters b)).length + 1 + bt.length)
        ((m.pthreads (m.waiters b)).length + 1)) m₅ =
        goto (if (m.pthreads (m.waiters b)).length + 1 ≠
            (m.pthreads (m.waiters b)).length + 1 + bt.length then .flush else .nop)
          (.exchange next ((m.pthreads (m.waiters b)).length + 1 + bt.length)) := rfl
    obtain ⟨hh₆, hs₆⟩ := flush_handsOver (c := c) ((m.pthreads (m.waiters b)).length + 1 ≠
      (m.pthreads (m.waiters b)).length + 1 + bt.length) m₅
    refine ⟨_, _, hstart.returns ((Reaches.head h₃ (h₄'.trans (h₅.trans (.single h₆)))).returns
      (.single hret)), ?_, ?_, hcont _ (hs₄.trans (hs₅.trans (hs₆.trans ⟨rfl, rfl, rfl⟩)))⟩
    · rw [hbt, List.filterMap_append, hev]
      by_cases hb : bt = []
      · subst hb
        simp [List.filterMap_cons, lastCalls, WakeAllPc.event, wakeAll_events htr₄, htr₅]
      · simp [List.filterMap_cons, lastCalls, WakeAllPc.event, wakeAll_events htr₄, htr₅, hb]
    · -- the first bthread waiter is handed over last
      have hlast := hh.trans (hh₄.trans (hh₅.trans (hh₆.trans (.handOff c next _))))
      have hgen : m₄.generalPushes worker bt = m.generalPushes worker bt := by
        simp [Mem.generalPushes, hs₄.tid, ht₃]
      rw [hbt] at hperm
      rw [hbt, Mem.allPushes]
      have htid := hs₆.tid.trans (hs₅.tid.trans (hs₄.tid.trans ht₃))
      simp only [List.nil_append, List.append_nil, hgen, htid, List.singleton_append] at hlast
      exact hlast.perm (((List.perm_append_singleton next bt).append_left _).trans hperm)

end WakeAll

/-! ## `butex_wake_except` -/

section WakeExcept

variable {bt pt : List CallId} {n saved : ℕ}

variable (c b worker x) in
/-- The loop in the critical section moves the queue into the two local lists and keeps the last
waiter of `x` apart.

**Proof sketch.** Induction on the queue; a round moves its head. -/
theorem wakeExcept_drain (m : Mem) (bt pt : List CallId) (ex : Option CallId) : ∃ tr m',
    Reaches (butexWakeExcept b x worker) (Access.apply c) (.drain bt pt ex) m tr
      (.reappend (bt ++ m.others x (m.waiters b)) (pt ++ m.pthreads (m.waiters b))
        ((m.excluded x (m.waiters b)).foldl (fun _ w => some w) ex)) m' ∧
    tr.filterMap WakeExceptPc.event = [] ∧ m.HandsOver c [] [] [] m' ∧ m'.tid = m.tid ∧
    m'.waiters b = [] ∧ ∀ w, m'.container w =
      if w ∈ m.waiters b ∧ w ∉ m.excluded x (m.waiters b) then none else m.container w := by
  induction hq : m.waiters b generalizing m bt pt ex with
  | nil =>
    have h₁ : butexWakeExcept b x worker (.drain bt pt ex) m = goto .nop (.reappend bt pt ex) := by
      simp only [butexWakeExcept, hq]
    have hr : Reaches (butexWakeExcept b x worker) (Access.apply c) (.drain bt pt ex) m
        [(.drain bt pt ex, .nop)] (.reappend bt pt ex) m := .single h₁
    exact ⟨_, m, by simpa [Mem.others, Mem.pthreads, Mem.excluded] using hr, rfl,
      .of_eq rfl rfl rfl rfl rfl, rfl, hq, by simp⟩
  | cons w l ih =>
    have h₁ : butexWakeExcept b x worker (.drain bt pt ex) m = goto .nop (.remove bt pt ex w) := by
      simp only [butexWakeExcept, hq]
    let m₁ := (Access.removeFromList w).apply c m
    have h₂ : butexWakeExcept b x worker (.remove bt pt ex w) m =
        goto (.removeFromList w) (.clear bt pt ex w) := rfl
    have hq₁ : m₁.waiters b = l := by simp [m₁, Access.apply, hq]
    have hh₁ : m.HandsOver c [] [] [] m₁ := .of_eq rfl rfl rfl rfl rfl
    let m₂ := (Access.clearContainer w).apply c m₁
    have hc₂ : ∀ v, m₂.container v = if v = w then none else m.container v := by
      intro v
      simp [m₂, m₁, Access.apply, Function.update_apply]
    have hh₂ : m.HandsOver c [] [] [] m₂ := .of_eq rfl rfl rfl rfl rfl
    by_cases hw : m.tid w = 0
    · have h₃ : butexWakeExcept b x worker (.clear bt pt ex w) m₁ =
          goto (.clearContainer w) (.drain bt (pt ++ [w]) ex) := if_pos hw
      obtain ⟨tr, m', hr, htr, hh, ht, hq', hc'⟩ := ih m₂ bt (pt ++ [w]) ex hq₁
      have hl : m.others x (w :: l) = m₂.others x l ∧ m.pthreads (w :: l) = w :: m₂.pthreads l ∧
          m.excluded x (w :: l) = m₂.excluded x l := by
        simp [Mem.others, Mem.pthreads, Mem.excluded, hw, m₂, m₁, Access.apply]
      rw [hl.1, hl.2.1, hl.2.2]
      have hr' : Reaches (butexWakeExcept b x worker) (Access.apply c) (.drain bt (pt ++ [w]) ex) m₂
          tr (.reappend (bt ++ m₂.others x l) (pt ++ w :: m₂.pthreads l)
            ((m₂.excluded x l).foldl (fun _ w => some w) ex)) m' := by simpa using hr
      refine ⟨_, m', .head h₁ (.head h₂ (.head h₃ hr')), ?_, hh₂.trans hh, ht, hq', fun v => ?_⟩
      · simpa [WakeExceptPc.event] using htr
      · have hv : w ∉ m₂.excluded x l := by simp [Mem.excluded, m₂, m₁, Access.apply, hw]
        rw [hc', hc₂]
        by_cases hvw : v = w <;> simp [hvw, hv]
    · by_cases hx : m.tid w = x
      · have h₃ : butexWakeExcept b x worker (.clear bt pt ex w) m₁ =
            goto .nop (.drain bt pt (some w)) := (if_neg hw).trans (if_pos hx)
        obtain ⟨tr, m', hr, htr, hh, ht, hq', hc'⟩ := ih m₁ bt pt (some w) hq₁
        have hl : m.others x (w :: l) = m₁.others x l ∧ m.pthreads (w :: l) = m₁.pthreads l ∧
            m.excluded x (w :: l) = w :: m₁.excluded x l := by
          subst hx
          simp [Mem.others, Mem.pthreads, Mem.excluded, hw, m₁, Access.apply]
        rw [hl.1, hl.2.1, hl.2.2]
        refine ⟨_, m', .head h₁ (.head h₂ (.head h₃ hr)), ?_, hh₁.trans hh, ht, hq', fun v => ?_⟩
        · simpa [WakeExceptPc.event] using htr
        · rw [hc']
          by_cases hvw : v = w
          · subst hvw
            simp only [List.mem_cons_self, not_true_eq_false, and_false, if_false]
            refine if_neg fun hv => hv.2 ?_
            simpa [Mem.excluded, hx, m₁, Access.apply] using ⟨hv.1, hx ▸ hw⟩
          · simp [hvw, m₁, Access.apply]
      · have h₃ : butexWakeExcept b x worker (.clear bt pt ex w) m₁ =
            goto (.clearContainer w) (.drain (bt ++ [w]) pt ex) := (if_neg hw).trans (if_neg hx)
        obtain ⟨tr, m', hr, htr, hh, ht, hq', hc'⟩ := ih m₂ (bt ++ [w]) pt ex hq₁
        have hl : m.others x (w :: l) = w :: m₂.others x l ∧ m.pthreads (w :: l) = m₂.pthreads l ∧
            m.excluded x (w :: l) = m₂.excluded x l := by
          simp [Mem.others, Mem.pthreads, Mem.excluded, hw, hx, m₂, m₁, Access.apply]
        rw [hl.1, hl.2.1, hl.2.2]
        have hr' : Reaches (butexWakeExcept b x worker) (Access.apply c) (.drain (bt ++ [w]) pt ex)
            m₂ tr (.reappend (bt ++ w :: m₂.others x l) (pt ++ m₂.pthreads l)
              ((m₂.excluded x l).foldl (fun _ w => some w) ex)) m' := by simpa using hr
        refine ⟨_, m', .head h₁ (.head h₂ (.head h₃ hr')), ?_, hh₂.trans hh, ht, hq', fun v => ?_⟩
        · simpa [WakeExceptPc.event] using htr
        · have hv : w ∉ m₂.excluded x l := by simp [Mem.excluded, m₂, m₁, Access.apply, hx]
          rw [hc', hc₂]
          by_cases hvw : v = w <;> simp [hvw, hv]

variable (c b worker x) in
/-- The pthread waiters are signalled in order. -/
theorem wakeExcept_pthreads (m : Mem) (bt pt : List CallId) (n : ℕ) : ∃ tr m',
    Reaches (butexWakeExcept b x worker) (Access.apply c) (.pthreads bt pt n) m tr
      (.pthreads bt [] (n + pt.length)) m' ∧
    tr.filterMap WakeExceptPc.event = pt.map .wakeupPthread ∧ m.HandsOver c pt pt [] m' ∧
    m.SameQueues m' := by
  induction pt generalizing m n with
  | nil => exact ⟨[], m, .refl _ _, rfl, .of_eq rfl rfl rfl rfl rfl, .refl m⟩
  | cons w pt ih =>
    have h₁ : butexWakeExcept b x worker (.pthreads bt (w :: pt) n) m =
        goto (.wakeupPthread w) (.pthreads bt pt (n + 1)) := by cases bt <;> rfl
    obtain ⟨tr, m', hr, htr, hh, hs⟩ := ih ((Access.wakeupPthread w).apply c m) (n + 1)
    refine ⟨(.pthreads bt (w :: pt) n, .wakeupPthread w) :: tr, m', .head h₁ ?_, ?_,
      (Mem.HandsOver.wakeupPthread c w m).trans hh, ⟨hs.1, hs.2, hs.3⟩⟩
    · simpa [Nat.add_assoc, Nat.add_comm 1] using hr
    · simpa [WakeExceptPc.event] using htr

variable (c b worker x) in
/-- The bthread waiters are made runnable in reverse order.

**Proof sketch.** Induction on the list from its end, where the loop takes its next waiter. -/
theorem wakeExcept_bthreads (m : Mem) (bt : List CallId) (n saved : ℕ) : ∃ tr m',
    Reaches (butexWakeExcept b x worker) (Access.apply c) (.bthreads bt n saved) m tr
      (.flush (n + bt.length) saved) m' ∧
    tr.filterMap WakeExceptPc.event = bt.reverse.map (.readyToRunGeneral · true) ∧
    m.HandsOver c bt [] (m.generalPushes worker bt) m' ∧ m.SameQueues m' := by
  induction bt using List.reverseRecOn generalizing m n with
  | nil =>
    have h₁ : butexWakeExcept b x worker (.bthreads [] n saved) m = goto .nop (.flush n saved) :=
      rfl
    exact ⟨[(.bthreads [] n saved, .nop)], m, .single h₁, rfl,
      by cases worker <;> exact .of_eq rfl rfl rfl rfl rfl, .refl m⟩
  | append_singleton bt w ih =>
    have h₁ : butexWakeExcept b x worker (.bthreads (bt ++ [w]) n saved) m =
        goto .nop (.unsleep bt w n saved .load) := by simp [butexWakeExcept]
    obtain ⟨tr₂, v, m₂, h₂, htr₂, hs₂, hh₂⟩ := returns_unsleepIfNecessary (c := c) w m
    have h₂' := h₂.inside (f := butexWakeExcept b x worker) (k := .unsleep bt w n saved)
      (g := fun _ => .inl (.ready bt w n saved)) (fun _ _ => rfl) rfl
    have h₃ : butexWakeExcept b x worker (.ready bt w n saved) m₂ =
        goto (if worker then .handOff w else .handOffLost w) (.bthreads bt (n + 1) saved) := rfl
    obtain ⟨hh₃, hs₃⟩ := readyToRunGeneral_handsOver (c := c) worker w m₂
    obtain ⟨tr, m', hr, htr, hh, hs⟩ :=
      ih ((if worker then Access.handOff w else .handOffLost w).apply c m₂) (n + 1)
    have hr' : Reaches (butexWakeExcept b x worker) (Access.apply c) (.bthreads bt (n + 1) saved)
        ((if worker then Access.handOff w else .handOffLost w).apply c m₂) tr
        (.flush (n + (bt ++ [w]).length) saved) m' := by
      simpa [Nat.add_assoc, Nat.add_comm 1] using hr
    have hev : WakeExceptPc.event (.ready bt w n saved,
        if worker then Access.handOff w else .handOffLost w) =
        some (.readyToRunGeneral w true) := by cases worker <;> rfl
    refine ⟨_, m', .head h₁ (h₂'.trans (.head h₃ hr')), ?_, ?_, hs₂.trans (hs₃.trans hs)⟩
    · rw [List.filterMap_cons_none (by rfl), List.filterMap_append, wakeExcept_events htr₂,
        List.filterMap_cons, hev]
      simp [htr]
    · have hp := (hh₂.trans (hh₃.trans hh)).perm (@List.perm_append_comm _ [w] _)
      simpa [generalPushes_append worker bt w (hs₃.tid.trans hs₂.tid) hs₂.tid] using hp

/-- Among waiters with different identifiers at most one is that of `x`. -/
theorem excluded_cases {l : List CallId} (hd : ((m.bthreads l).map m.tid).Nodup) :
    m.excluded x l = [] ∨ ∃ w, m.excluded x l = [w] := by
  have hs : (m.excluded x l).Sublist (m.bthreads l) := by
    have he : m.excluded x l = (m.bthreads l).filter fun w => m.tid w = x := by
      simp [Mem.excluded, Mem.bthreads, List.filter_filter, Bool.and_comm]
    rw [he]
    exact List.filter_sublist
  have hx : ∀ w ∈ m.excluded x l, m.tid w = x := by
    intro w hw
    simp only [Mem.excluded, List.mem_filter, decide_eq_true_eq] at hw
    exact hw.2.2
  have hn : ((m.excluded x l).map m.tid).Nodup := (hs.map m.tid).nodup hd
  match he : m.excluded x l with
  | [] => exact .inl rfl
  | [w] => exact .inr ⟨w, rfl⟩
  | w :: w' :: l' =>
    rw [he] at hn hx
    simp [hx w (by simp), hx w' (by simp)] at hn

/-- The waiters of a queue are its pthread waiters, the waiter of `x` and the others. -/
theorem length_waiters (m : Mem) (x : Tid) (l : List CallId) :
    l.length = (m.pthreads l).length + (m.others x l).length + (m.excluded x l).length := by
  induction l with
  | nil => rfl
  | cons w l ih =>
    by_cases h0 : m.tid w = 0
    · simp [Mem.pthreads, Mem.others, Mem.excluded, h0] at ih ⊢
      omega
    · by_cases hx : m.tid w = x
      · subst hx
        simp [Mem.pthreads, Mem.others, Mem.excluded, h0] at ih ⊢
        omega
      · simp [Mem.pthreads, Mem.others, Mem.excluded, h0, hx] at ih ⊢
        omega

variable (c worker x) in
/-- Once the queue is drained, the waiter of `x` is queued again. -/
theorem wakeExcept_reappend {ex : List CallId} (h : ex = [] ∨ ∃ w, ex = [w])
    (hq : m.waiters b = []) (bt pt : List CallId) : ∃ a,
    butexWakeExcept b x worker (.reappend bt pt (ex.foldl (fun _ w => some w) none)) m =
      goto a (.unlock bt pt) ∧
    (∀ bt, WakeExceptPc.event (bt, a) = none) ∧ m.HandsOver c [] [] [] (a.apply c m) ∧
    (a.apply c m).tid = m.tid ∧ (a.apply c m).waiters b = ex ∧
    (a.apply c m).container = m.container := by
  rcases h with rfl | ⟨w, rfl⟩
  · exact ⟨.nop, rfl, fun _ => by simp [WakeExceptPc.event], .of_eq rfl rfl rfl rfl rfl, rfl, hq,
      rfl⟩
  · exact ⟨.append b w, rfl, fun _ => by simp [WakeExceptPc.event], .of_eq rfl rfl rfl rfl rfl, rfl,
      by simp [Access.apply, hq], rfl⟩

variable (c worker x) in
/-- **`butex_wake_except`.** -/
theorem wakesExcept (hl : m.waiterLock b = none)
    (hd : ((m.bthreads (m.waiters b)).map m.tid).Nodup) : WakesExcept c b x worker m := by
  let m₀ := (Access.lockButex b).apply c m
  have h₀ : butexWakeExcept b x worker .lock m = goto (.lockButex b) (.drain [] [] none) :=
    if_pos hl
  obtain ⟨tr₁, m₁, hr₁, htr₁, hh₁, ht₁, hq₁, hc₁⟩ := wakeExcept_drain c b worker x m₀ [] [] none
  obtain ⟨a, h₂, hev₂, hh₂, ht₂, hq₂, hc₂⟩ := wakeExcept_reappend c worker x
    (excluded_cases (x := x) hd) hq₁ (m.others x (m.waiters b)) (m.pthreads (m.waiters b))
  let m₂ := a.apply c m₁
  obtain ⟨tr₃, m₃, hr₃, htr₃, hh₃, hs₃⟩ := wakeExcept_pthreads c b worker x
    ((Access.unlockButex b).apply c m₂) (m.others x (m.waiters b))
    (m.pthreads (m.waiters b)) 0
  rw [Nat.zero_add] at hr₃
  have h₃ : butexWakeExcept b x worker (.unlock (m.others x (m.waiters b))
      (m.pthreads (m.waiters b))) m₂ = goto (.unlockButex b)
        (.pthreads (m.others x (m.waiters b)) (m.pthreads (m.waiters b)) 0) := rfl
  have hstart := Reaches.head h₀ (hr₁.trans (.head h₂ (.head h₃ hr₃)))
  -- up to here only the pthread waiters are handed over
  have hh : m.HandsOver c (m.pthreads (m.waiters b)) (m.pthreads (m.waiters b)) [] m₃ := by
    have h₀₁ : m.HandsOver c [] [] [] m₀ := .of_eq rfl rfl rfl rfl rfl
    have hunlock : m₂.HandsOver c [] [] [] ((Access.unlockButex b).apply c m₂) :=
      .of_eq rfl rfl rfl rfl rfl
    simpa using h₀₁.trans (hh₁.trans (hh₂.trans (hunlock.trans hh₃)))
  have ht₃ : m₃.tid = m.tid := hs₃.tid.trans (ht₂.trans ht₁)
  have hev : ∀ q q', ((WakeExceptPc.lock, Access.lockButex b) ::
      (tr₁ ++ (q, a) :: (q', .unlockButex b) :: tr₃)).filterMap WakeExceptPc.event =
      (m.pthreads (m.waiters b)).map .wakeupPthread := by
    intro q q'
    rw [List.filterMap_cons_none rfl, List.filterMap_append, htr₁,
      List.filterMap_cons_none (hev₂ q), List.filterMap_cons_none rfl, htr₃, List.nil_append]
  have hlen := length_waiters m x (m.waiters b)
  have hcont : ∀ m', m₃.SameQueues m' → m'.waiters b = m.excluded x (m.waiters b) ∧
      ∀ w ∈ m.waiters b, m'.container w = if w ∈ m'.waiters b then m.container w else none := by
    intro m' hs
    have hq : m'.waiters b = m.excluded x (m.waiters b) := by
      rw [hs.waiters, hs₃.waiters]
      exact hq₂
    refine ⟨hq, fun w hw => ?_⟩
    have hcw : m'.container w = m₁.container w := by
      rw [hs.container, hs₃.container]
      exact congrFun hc₂ w
    rw [hcw, hc₁ w, hq]
    by_cases he : w ∈ m.excluded x (m.waiters b)
    · exact (if_neg fun h => h.2 he).trans (if_pos he).symm
    · exact (if_pos ⟨hw, he⟩).trans (if_neg he).symm
  unfold WakesExcept
  cases hbt : m.others x (m.waiters b) with
  | nil =>
    rw [hbt] at hstart hlen
    have hret : butexWakeExcept b x worker (.pthreads [] [] (m.pthreads (m.waiters b)).length) m₃ =
        ret .nop ((m.waiters b).length - (m.excluded x (m.waiters b)).length) := by
      rw [hlen, List.length_nil, Nat.add_zero, Nat.add_sub_cancel]
      rfl
    refine ⟨_, _, hstart.returns (.single hret), ?_, ?_, hcont _ ⟨rfl, rfl, rfl⟩⟩
    · rw [List.filterMap_append, hev]
      simp [WakeExceptPc.event]
    · cases worker <;> exact hh.perm (by simp)
  | cons w bt =>
    rw [hbt] at hstart hlen
    obtain ⟨tr₄, m₄, h₄, htr₄, hh₄, hs₄⟩ := wakeExcept_bthreads c b worker x m₃ (w :: bt)
      (m.pthreads (m.waiters b)).length (m.pthreads (m.waiters b)).length
    have h₅ : butexWakeExcept b x worker (.pthreads (w :: bt) [] (m.pthreads (m.waiters b)).length)
        m₃ = goto .nop (.bthreads (w :: bt) (m.pthreads (m.waiters b)).length
          (m.pthreads (m.waiters b)).length) := rfl
    have hflush : (m.pthreads (m.waiters b)).length ≠
        (m.pthreads (m.waiters b)).length + (w :: bt).length := by simp
    have hret : butexWakeExcept b x worker (.flush ((m.pthreads (m.waiters b)).length +
        (w :: bt).length) (m.pthreads (m.waiters b)).length) m₄ =
        ret .flush ((m.waiters b).length - (m.excluded x (m.waiters b)).length) := by
      rw [hlen, Nat.add_sub_cancel, butexWakeExcept, if_pos hflush]
    refine ⟨_, _, (hstart.trans (.head h₅ h₄)).returns (.single hret), ?_, ?_,
      hcont _ (hs₄.trans ⟨rfl, rfl, rfl⟩)⟩
    · rw [List.filterMap_append, List.filterMap_append, hev, List.filterMap_cons_none rfl, htr₄,
        if_neg (List.cons_ne_nil w bt)]
      rfl
    · have hgen : m₃.generalPushes worker (w :: bt) = m.generalPushes worker (w :: bt) := by
        simp [Mem.generalPushes, ht₃]
      have hlast : m₄.HandsOver c [] [] [] (Access.flush.apply c m₄) := .of_eq rfl rfl rfl rfl rfl
      simpa [hgen] using hh.trans (hh₄.trans hlast)

end WakeExcept

/-! ## Bulk wakes -/

/-- The waiters that `butex_wake_all` hands on are the ones it has removed. -/
theorem waiters_lastCalls (bt : List CallId) :
    ((lastCalls bt).filterMap WakeEvent.waiter).Perm bt := by
  cases bt with
  | nil => exact .refl _
  | cons next bt =>
    have hm : (bt.reverse.map (WakeEvent.readyToRunGeneral · true)).filterMap WakeEvent.waiter =
        bt.reverse := by
      simp [List.filterMap_map, Function.comp_def, WakeEvent.waiter]
    have hf : (if bt = [] then [] else [WakeEvent.flush]).filterMap WakeEvent.waiter = [] := by
      split <;> rfl
    simp only [lastCalls, List.filterMap_append, hm, hf, List.append_nil]
    exact (List.perm_append_comm).trans (List.reverse_perm bt |>.cons next)

/-- **Bulk wakes lose and duplicate nothing**: for every queue whose bthread waiters have different
identifiers and every excluded identifier.

**Proof sketch.** Follow each run through its loops. Where the excluded bthread does not wait, the
two functions move the same waiters into their local lists, and each run is the only one. -/
theorem bulkWakes (c : CallId) (b : ButexId) (x : Tid) (worker : Bool) (m : Mem)
    (hl : m.waiterLock b = none) (hd : ((m.bthreads (m.waiters b)).map m.tid).Nodup) :
    WakesAll c b worker m ∧ WakesExcept c b x worker m ∧
      (m.excluded x (m.waiters b) = [] → WakesAlike c b x worker m) := by
  refine ⟨wakesAll c worker hl, wakesExcept c worker x hl hd, fun hx tr n m₁ tr' n' m₂ h h' => ?_⟩
  obtain ⟨_, _, hr, he, hh, hq, -⟩ := wakesAll c worker hl
  obtain ⟨_, _, hr', he', hh', hq', -⟩ := wakesExcept c worker x hl hd
  obtain ⟨rfl, rfl, rfl⟩ := h.unique hr
  obtain ⟨rfl, rfl, rfl⟩ := h'.unique hr'
  have ho : m.others x (m.waiters b) = m.bthreads (m.waiters b) := by
    refine List.filter_congr fun w hw => ?_
    have hne : ¬(m.tid w ≠ 0 ∧ m.tid w = x) := by
      simpa using List.filter_eq_nil_iff.mp hx w hw
    by_cases h0 : m.tid w = 0
    · simp [h0]
    · simpa [h0] using fun h => hne ⟨h0, h⟩
  have hperm : (m.pthreads (m.waiters b) ++ m.bthreads (m.waiters b)).Perm (m.waiters b) := by
    simpa [Mem.pthreads, Mem.bthreads] using
      List.filter_append_perm (fun w => decide (m.tid w = 0)) (m.waiters b)
  refine ⟨by rw [hx]; rfl, by rw [hq, hq', hx], funext fun w => ?_, funext fun w => ?_, ?_⟩
  · rw [hh.handedBy, hh'.handedBy, ho, hperm.count_eq]
  · rw [hh.sig, hh'.sig]
  rw [he, he', ho]
  have hp : ((m.pthreads (m.waiters b)).map WakeEvent.wakeupPthread).filterMap WakeEvent.waiter =
      m.pthreads (m.waiters b) := by
    simp [List.filterMap_map, Function.comp_def, WakeEvent.waiter]
  have hb : ((m.bthreads (m.waiters b)).reverse.map (WakeEvent.readyToRunGeneral · true)).filterMap
      WakeEvent.waiter = (m.bthreads (m.waiters b)).reverse := by
    simp [List.filterMap_map, Function.comp_def, WakeEvent.waiter]
  have hf : (if m.bthreads (m.waiters b) = [] then [] else [WakeEvent.flush]).filterMap
      WakeEvent.waiter = [] := by
    split <;> rfl
  simp only [List.filterMap_append, hp, hb, hf, List.append_nil]
  exact ((waiters_lastCalls _).trans (List.reverse_perm _).symm).append_left _

/-- A queue with two bthread waiters and a pthread waiter. -/
theorem bulkWakes_mixed :
    let m := { Mem.initial with
      waiters := fun b => if b = .user 0 then [1, 2, 3] else []
      tid := fun w => if w = 1 then 11 else if w = 3 then 13 else 0 }
    WakesAll 9 (.user 0) true m ∧ WakesExcept 9 (.user 0) 13 true m ∧
      (m.excluded 13 (m.waiters (.user 0)) = [] → WakesAlike 9 (.user 0) 13 true m) :=
  bulkWakes 9 (.user 0) 13 true _ rfl (by decide)

/-! ## `butex_requeue` -/

/-- `butex_requeue(b₁, b₂)` returns and does what `butex.h` says: it wakes the first waiter of `b₁`
and lets the others wait on `b₂`. -/
def Requeues (c : CallId) (b₁ b₂ : ButexId) (m : Mem) : Prop :=
  ∃ tr r m', Returns (butexRequeue (requeueButexes b₁ b₂).1 (requeueButexes b₁ b₂).2)
      (Access.apply c) .lock1 m tr r m' ∧
    match m.waiters b₁ with
    | [] => r = 0 ∧ m' = m
    | f :: l => r = 1 ∧ m'.handedBy = update m.handedBy f (c :: m.handedBy f) ∧
        m'.waiters b₁ = [] ∧ m'.waiters b₂ = m.waiters b₂ ++ l ∧
        m'.container f = none ∧ ∀ w ∈ l, m'.container w = some b₂

/-- With one butex for both, `butex_requeue` gets no further than the lock it already holds. -/
theorem requeue_stuck {tr : List (RequeuePc × Access)} {p : RequeuePc}
    (h : Reaches (butexRequeue b b) (Access.apply c) .lock1 m tr p m') :
    p = .lock1 ∨ p = .lock2 ∧ m'.waiterLock b = some c := by
  refine h.invariant (I := fun p m => p = .lock1 ∨ p = .lock2 ∧ m.waiterLock b = some c)
    (.inl rfl) ?_
  rintro p m a q (rfl | ⟨rfl, hl⟩) hc
  · by_cases hl : m.waiterLock b = none
    · simp only [butexRequeue, if_pos hl, goto, Option.some.injEq, Prod.mk.injEq,
        Sum.inl.injEq] at hc
      obtain ⟨rfl, rfl⟩ := hc
      exact .inr ⟨rfl, by simp [Access.apply]⟩
    · simp [butexRequeue, if_neg hl, goto] at hc
  · simp [butexRequeue, hl, goto] at hc

/-- A function that stays before its second lock does not return. -/
theorem not_returns_requeue {tr : List (RequeuePc × Access)} {r : ℕ} :
    ¬Returns (butexRequeue b b) (Access.apply c) .lock1 m tr r m' := by
  rintro ⟨p, m₁, tr₁, a, hr, hc, -, -⟩
  rcases requeue_stuck hr with rfl | ⟨rfl, hl⟩
  · by_cases hl : m₁.waiterLock b = none
    · simp [butexRequeue, if_pos hl, goto, ret] at hc
    · simp [butexRequeue, if_neg hl, ret] at hc
  · simp [butexRequeue, hl, ret] at hc

/-- **`butex_requeue` never returns**: both of its local pointers are computed from its first
argument, and `double_lock` waits for the lock it has just taken. -/
theorem not_requeues (c : CallId) (b₁ b₂ : ButexId) (m : Mem) : ¬Requeues c b₁ b₂ m := by
  rintro ⟨tr, r, m', h, -⟩
  exact not_returns_requeue h

/-- Two butexes and three waiters. -/
theorem not_requeues_two : ¬Requeues 9 (.user 0) (.user 1) { Mem.initial with
    waiters := fun b => if b = .user 0 then [1, 2] else if b = .user 1 then [3] else [] } := by
  rintro ⟨tr, r, m', h, -⟩
  exact not_returns_requeue h

end Bthread
