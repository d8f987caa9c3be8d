import Bthread.Control

set_option relaxedAutoImplicit false
set_option autoImplicit false

/-!
# Locks

Mutual exclusion of `waiter_lock` and `version_lock`, and the same for tasks and the blocking calls
they are inside. With it every access of a reachable state is a step of the shape of its call.

## Main definitions

* `Bthread.State.shape` — the shape of a call in a state.
* `Bthread.Shape.Wf` — what holds of the shape of every control point.

## Main results

* `Bthread.waiterLock_iff`, `Bthread.versionLock_iff`, `Bthread.call_iff` — mutual exclusion.
* `Bthread.step_shape` — the accesses of reachable states.
-/

namespace Bthread

open Conc (Config LockStep)

/-- The shape of call `c`. -/
def State.shape (s : State) (c : CallId) : Shape := (s.pc c).shape c

/-- What holds of the shape of every control point that can be reached. -/
@[mk_iff]
structure Shape.Wf (x : Shape) : Prop where
  matched : ∀ t, x.matched = some t → x.vlock = some (getSlot t) ∧ x.phase = none
  sel : ∀ b w, x.sel = some (b, w) → x.lock = some b
  unl : x.unl ≠ [] → x.lock ≠ none
  queueing : ∀ b, x.queueing = some b →
    x.lock = some b ∧ x.built = true ∧ x.unqueued = true ∧ x.sel = none
  hand : x.hand ≠ [] → x.built = false
  bts : x.bts ⊆ x.hand
  pts : x.pts ⊆ x.hand
  ex : ∀ w t, x.ex = some (w, t) → w ∈ x.unl
  wake : ∀ e, x.wake = some e → x.phase = none ∧ x.rescue = none ∧ x.target = some e
  rescue : ∀ i, x.rescue = some i → x.phase = none ∧ x.wake = none ∧ ∃ t, x.sleepId = some (t, i)
  copied : ∀ e t, x.copied = some (e, t) → x.target = some e
  self : ∀ s, x.self = some s → x.built = true ∧
    (x.phase = some (s, .active) ∨ x.phase = some (s, .callback) ∨ x.phase = some (s, .suspended))
  callback : ∀ s, x.phase = some (s, .callback) → x.self = some s ∧ x.unqueued = true
  switched : ∀ s, x.phase = some (s, .switched) → x.built = false
  suspended : ∀ s, x.phase = some (s, .suspended) → x.built = false ∨ x.self = some s

attribute [local simp] Shape.wf_iff

/-- Knowing a timer does not matter. -/
theorem UnsleepPc.shape_wf {base : Shape} (h : base.Wf) (w : CallId) (p : UnsleepPc) :
    (p.shape base w).Wf := by
  cases p <;> first | exact h | exact { h with }

/-- Inside `erase_from_butex`; the call owns a waiter itself only if it does not wake anybody. -/
theorem ErasePc.shape_wf {φ : Option (SlotId × Phase)}
    (hφ : ∀ s, φ ≠ some (s, .callback) ∧ φ ≠ some (s, .switched) ∧ φ ≠ some (s, .suspended))
    (unqueued fresh : Bool) (timer : Option (TimerId × TimerFn)) (running : Option TimerId)
    (bw : CallId) (wakeup : Bool) {p : ErasePc} (hp : wakeup = false → p ≠ .wakeup) :
    (p.shape { phase := φ, built := !wakeup, unqueued := unqueued, timer := timer
               running := running, fresh := fresh } bw wakeup).Wf := by
  cases wakeup <;> cases p <;> simp_all [ErasePc.shape]

/-- Inside `butex_wake_except`, alone or at the end of a bthread. -/
theorem WakeExceptPc.shape_wf {φ : Option (SlotId × Phase)} (hφ : ∀ s, φ ≠ some (s, .callback))
    (b : ButexId) (t : Tid) (p : WakeExceptPc) :
    (p.shape { phase := φ } b t).Wf := by
  cases p with
  | unsleep bt w _ _ u => exact UnsleepPc.shape_wf (by simp [hφ]) w u
  | drain bt pt ex | reappend bt pt ex | remove bt pt ex w | clear bt pt ex w =>
    cases ex <;> simp [WakeExceptPc.shape, hφ]
  | _ => simp [WakeExceptPc.shape, hφ]

/-- The shapes of control points are well formed. -/
theorem Pc.shape_wf {p : Pc} (c : CallId) (hok : p.Ok) : (p.shape c).Wf := by
  cases p with
  | butexWait a p =>
    cases p with
    | callback p =>
      cases p with
      | unsleep u => exact UnsleepPc.shape_wf (by simp) c u
      | _ => simp [Pc.shape, WaitPc.shape, CallbackPc.shape]
    | unsleep u => exact UnsleepPc.shape_wf (by simp) c u
    | _ => simp [Pc.shape, WaitPc.shape]
  | butexWaitFromPthread a p =>
    cases p with
    | erase p =>
      refine ErasePc.shape_wf (by simp) false false none none c false fun _ h => ?_
      subst h; exact hok
    | _ => simp [Pc.shape, PthreadWaitPc.shape]
  | butexWake b p =>
    cases p with
    | front w p =>
      cases p with
      | unsleep u => exact UnsleepPc.shape_wf (by simp) w u
      | _ => simp [Pc.shape, WakePc.shape, FrontPc.shape]
    | _ => simp [Pc.shape, WakePc.shape]
  | butexWakeAll b _ p =>
    cases p with
    | unsleepNext next bt _ u => exact UnsleepPc.shape_wf (by simp) next u
    | unsleep next bt w _ _ u => exact UnsleepPc.shape_wf (by simp) w u
    | _ => simp [Pc.shape, WakeAllPc.shape]
  | butexWakeExcept b t _ p => exact WakeExceptPc.shape_wf (by simp) b t p
  | butexRequeue b d p => cases p <;> simp [Pc.shape, RequeuePc.shape]
  | interrupt t _ p =>
    cases p with
    | erase w p => exact ErasePc.shape_wf (φ := none) (by simp) true true none none w true (by simp)
    | _ => simp [Pc.shape, InterruptPc.shape]
  | timer i p =>
    cases p with
    | erase bw p => exact ErasePc.shape_wf (φ := none) (by simp) true true _ _ bw true (by simp)
    | _ => simp [Pc.shape, TimerPc.shape]
  | endTask s p =>
    cases p with
    | wakeExcept p => exact WakeExceptPc.shape_wf (by simp) _ _ p
    | _ => simp [Pc.shape, EndPc.shape]
  | setStopped t p => cases p <;> simp [Pc.shape, SetStoppedPc.shape]
  | usleep s p => cases p <;> simp [Pc.shape, UsleepPc.shape]
  | addSleepEvent e t p => cases p <;> simp [Pc.shape, AddSleepPc.shape]
  | startTask p => cases p <;> simp [Pc.shape, StartPc.shape]
  | initGroup p => cases p <;> simp [Pc.shape, InitPc.shape]
  | yield s p => cases p <;> simp [Pc.shape, YieldPc.shape]
  | idle => simp [Pc.shape]
  | done r => simp [Pc.shape, Shape.finished]

/-! ## Mutual exclusion -/

/-- The effect of an access on the `waiter_lock` of `b`. -/
theorem LockChange.lockStep {c : CallId} {m : Mem} {x y : Option ButexId} {a : Access}
    (h : LockChange m x y a) (b : ButexId) :
    LockStep c (m.waiterLock b) ((a.apply c m).waiterLock b) (x = some b) (y = some b) := by
  cases a with
  | lockButex b' =>
    obtain ⟨hl, rfl, rfl⟩ := h
    by_cases hb : b' = b
    · subst hb; exact .acquire hl (by simp [Access.apply]) rfl
    · exact .keep (by simp [Access.apply, Ne.symm hb]) (by simp [hb])
  | unlockButex b' =>
    obtain ⟨rfl, rfl⟩ := h
    by_cases hb : b' = b
    · subst hb; exact .release rfl (by simp [Access.apply]) (by simp)
    · exact .keep (by simp [Access.apply, Ne.symm hb]) (by simp [hb])
  | _ =>
    obtain rfl : y = x := h
    exact .keep rfl Iff.rfl

/-- The effect of an access on the `version_lock` of `s`. -/
theorem VlockChange.lockStep {c : CallId} {m : Mem} {x y : Option SlotId} {a : Access}
    (h : VlockChange m x y a) (s : SlotId) :
    LockStep c (m.versionLock s) ((a.apply c m).versionLock s) (x = some s) (y = some s) := by
  cases a with
  | lockVersion s' =>
    obtain ⟨hl, rfl, rfl⟩ := h
    by_cases hs : s' = s
    · subst hs; exact .acquire hl (by simp [Access.apply]) rfl
    · exact .keep (by simp [Access.apply, Ne.symm hs]) (by simp [hs])
  | unlockVersion s' =>
    obtain ⟨rfl, rfl⟩ := h
    by_cases hs : s' = s
    · subst hs; exact .release rfl (by simp [Access.apply]) (by simp)
    · exact .keep (by simp [Access.apply, Ne.symm hs]) (by simp [hs])
  | bumpVersion s' | skipVersion s' =>
    obtain ⟨rfl, rfl⟩ := h
    exact .keep rfl Iff.rfl
  | _ =>
    obtain rfl : y = x := h
    exact .keep rfl Iff.rfl

/-- The slot whose task is inside the call. -/
def Shape.owner (x : Shape) : Option SlotId :=
  match x.phase with
  | none | some (_, .starting) | some (_, .named) | some (_, .released) => none
  | some (s, _) => some s

/-- Only entering and leaving changes the owner. -/
theorem Shape.Step.owner_eq {c : CallId} {m : Mem} {x y : Shape} {a : Access}
    (h : Shape.Step c m a x y) (he : ∀ s, a ≠ .enter s) (hl : ∀ s, a ≠ .leave s) :
    y.owner = x.owner := by
  have hp := h.phase
  cases a with
  | push t =>
    obtain ⟨-, -, s, h | h | h⟩ | ⟨h, -, -⟩ | ⟨h, -, -⟩ := h.push t rfl
    all_goals simp [Shape.owner, h]
  | enter s => exact absurd rfl (he s)
  | leave s => exact absurd rfl (hl s)
  | nop =>
    obtain hp | ⟨s, hx, -, hy⟩ := hp
    · simp [Shape.owner, hp]
    · simp [Shape.owner, hx, hy]
  | append b w =>
    obtain ⟨-, s, hx, hy⟩ | ⟨-, hp⟩ := hp
    · simp [Shape.owner, hx, hy]
    · simp [Shape.owner, hp]
  | bumpVersion s =>
    obtain ⟨hx, hy⟩ := hp
    simp only [Shape.owner, hx, hy]
    split_ifs <;> rfl
  | initBthreadWaiter s | initSleepArgs s | suspendWait s | suspendSleep s | suspendYield s
  | suspendEnd s | skipVersion s | initTask s | setTid s | setMainTid s
  | returnResource s =>
    obtain ⟨hx, hy⟩ := hp
    simp [Shape.owner, hx, hy]
  | getResource s =>
    obtain ⟨hx, -, hy⟩ := hp
    simp [Shape.owner, hx, hy]
  | schedTo t => simp only [Shape.owner, hp.2]
  | _ =>
    have hp' : y.phase = x.phase := hp
    simp only [Shape.owner, hp']

/-- The effect of an access on the call that the task of `s` is inside. -/
theorem PhaseChange.lockStep {c : CallId} {m : Mem} {x y : Shape} {a : Access}
    (h : Shape.Step c m a x y) (s : SlotId) :
    LockStep c (m.call s) ((a.apply c m).call s) (x.owner = some s) (y.owner = some s) := by
  have hp := h.phase
  cases a with
  | enter s' =>
    obtain ⟨hx, hc, hy⟩ := hp
    have hx' : x.owner = none := by simp [Shape.owner, hx]
    have hy' : y.owner = some s' := by obtain ⟨-, hy⟩ | ⟨-, hy⟩ := hy <;> simp [Shape.owner, hy]
    by_cases hs : s' = s
    · subst hs; exact .acquire hc (by simp [Access.apply]) hy'
    · exact .keep (by simp [Access.apply, Ne.symm hs]) (by simp [hx', hy', hs])
  | leave s' =>
    have hx : x.owner = some s' := by
      obtain ⟨hx | hx, -⟩ | ⟨hx, -⟩ := hp <;> simp [Shape.owner, hx]
    have hy : y.owner = none := by
      obtain ⟨-, hy⟩ | ⟨-, hy⟩ := hp <;> simp [Shape.owner, hy]
    by_cases hs : s' = s
    · subst hs; exact .release hx (by simp [Access.apply]) (by simp [hy])
    · exact .keep (by simp [Access.apply, Ne.symm hs]) (by simp [hx, hy, hs])
  | _ => exact .keep rfl (by rw [h.owner_eq (by simp) (by simp)])

/-- A piece of the program is an access. -/
theorem program_code {c : CallId} {p q : Pc} {k : Move} {m m' : Mem}
    (h : program.code c p k m = some (m', q)) :
    ∃ a, control c p k m = some (a, q) ∧ m' = a.apply c m := by
  obtain ⟨⟨a, q'⟩, ha, hm⟩ := Option.map_eq_some_iff.mp h
  simp only [Prod.mk.injEq] at hm
  obtain ⟨rfl, rfl⟩ := hm
  exact ⟨a, ha, rfl⟩

variable {s s' : State} {c : CallId} {k : Move}

/-- Only control points that can be reached are reached, and a call is in the word of a
`waiter_lock` exactly when it holds it. -/
theorem ok_and_waiterLock (hs : system.Reachable s) :
    (∀ c, (s.pc c).Ok) ∧
      ∀ b c, s.mem.waiterLock b = some c ↔ (s.shape c).lock = some b := by
  refine Conc.Program.mutex (fun m b => m.waiterLock b)
    (fun c p b => (p.shape c).lock = some b) (fun s => ∀ c, (s.pc c).Ok)
    (fun m hm => ⟨fun _ => trivial, hm.waiterLock⟩) (by simp [Pc.shape]) ?_ hs
  intro s c k m p _ hok ih hc
  obtain ⟨a, ha, rfl⟩ := program_code hc
  have hown : ∀ b, ((s.pc c).shape c).lock = some b → s.mem.waiterLock b ≠ none :=
    fun b hb => by rw [(ih b c).mpr hb]; simp
  refine ⟨fun d => ?_, (control_step k (hok c) hown a p ha).lock.lockStep⟩
  by_cases hd : d = c
  · subst hd; simpa using control_ok k (hok d) hown a p ha
  · simpa [hd] using hok d

/-- **Mutual exclusion of `waiter_lock`.** -/
theorem waiterLock_iff (hs : system.Reachable s) (b : ButexId) (c : CallId) :
    s.mem.waiterLock b = some c ↔ (s.shape c).lock = some b :=
  (ok_and_waiterLock hs).2 b c

/-- The shapes of reachable states are well formed. -/
theorem shape_wf (hs : system.Reachable s) (c : CallId) : (s.shape c).Wf :=
  Pc.shape_wf c ((ok_and_waiterLock hs).1 c)

/-- **The steps of the system**: an access of a call changes the shape of the call as `Shape.Step`
says. -/
theorem step_shape {a : Access} {p : Pc} (hs : system.Reachable s)
    (h : control c (s.pc c) k s.mem = some (a, p)) :
    Shape.Step c s.mem a (s.shape c) (p.shape c) := by
  refine control_step k ((ok_and_waiterLock hs).1 c) (fun b hb => ?_) a p h
  rw [(waiterLock_iff hs b c).mpr hb]
  simp

/-- **Mutual exclusion of `version_lock`.** -/
theorem versionLock_iff (hs : system.Reachable s) (t : SlotId) (c : CallId) :
    s.mem.versionLock t = some c ↔ (s.shape c).vlock = some t := by
  refine (Conc.Program.mutex (fun m t => m.versionLock t)
    (fun c p t => (p.shape c).vlock = some t) (fun _ => True)
    (fun m hm => ⟨trivial, hm.versionLock⟩) (by simp [Pc.shape]) ?_ hs).2 t c
  intro s c k m p hr _ _ hc
  obtain ⟨a, ha, rfl⟩ := program_code hc
  exact ⟨trivial, (step_shape hr ha).vlock.lockStep⟩

/-- **A task is inside one blocking call.** -/
theorem call_iff (hs : system.Reachable s) (t : SlotId) (c : CallId) :
    s.mem.call t = some c ↔ (s.shape c).owner = some t := by
  refine (Conc.Program.mutex (fun m t => m.call t)
    (fun c p t => (p.shape c).owner = some t) (fun _ => True)
    (fun m hm => ⟨trivial, hm.call⟩) (by simp [Pc.shape, Shape.owner]) ?_ hs).2 t c
  intro s c k m p hr _ _ hc
  obtain ⟨a, ha, rfl⟩ := program_code hc
  exact ⟨trivial, PhaseChange.lockStep (step_shape hr ha)⟩

/-! ## Invariants -/

/-- The state after call `c` has made access `a` and gone on at `p`. -/
abbrev State.after (s : State) (c : CallId) (a : Access) (p : Pc) : State :=
  ⟨a.apply c s.mem, Function.update s.pc c p⟩

/-- The shape of the call that has moved. -/
@[simp]
theorem shape_after_self (s : State) (c : CallId) (a : Access) (p : Pc) :
    (s.after c a p).shape c = p.shape c := by
  simp [State.shape]

/-- The shapes of the other calls. -/
@[simp]
theorem shape_after_of_ne {d : CallId} (s : State) {c : CallId} (a : Access) (p : Pc)
    (h : d ≠ c) : (s.after c a p).shape d = s.shape d := by
  simp [State.shape, h]

/-- **The invariant rule of the system**: what holds initially and is kept by every access holds
in every state reached. -/
theorem system_invariant {C : State → CallId × Move → Prop} {I : State → Prop}
    (h₀ : ∀ m, m.Initial → I ⟨m, fun _ => .idle⟩)
    (hstep : ∀ s c k a p, system.ReachableIf C s → I s → C s (c, k) →
      control c (s.pc c) k s.mem = some (a, p) →
      Shape.Step c s.mem a (s.shape c) (p.shape c) → I (s.after c a p))
    (hs : system.ReachableIf C s) : I s := by
  refine Conc.Program.invariant h₀ (fun s c k m p hr hi hC hc => ?_) hs
  obtain ⟨a, ha, rfl⟩ := program_code hc
  exact hstep s c k a p hr hi hC ha (step_shape hr.reachable ha)

/-- The state after a step is reachable. -/
theorem reachable_after {a : Access} {p : Pc} (hs : system.Reachable s)
    (h : control c (s.pc c) k s.mem = some (a, p)) : system.Reachable (s.after c a p) :=
  hs.step (a := (c, k)) <| Conc.Program.next_eq_some.mpr
    ⟨_, _, by simp [program, h], rfl⟩

/-- The shapes after a step. -/
theorem shape_after (s : State) (c : CallId) (a : Access) (p : Pc) :
    (s.after c a p).shape = Function.update s.shape c (p.shape c) := by
  funext d
  by_cases hd : d = c
  · subst hd; simp
  · simp [hd]

/-- **The invariant rule for shapes**: an invariant of the memory and the shapes of the calls needs
to be kept by the steps of shapes, which may use an invariant `J` that is known already. -/
theorem shape_invariant {J I : Mem → (CallId → Shape) → Prop}
    (hJ : ∀ s : State, system.Reachable s → J s.mem s.shape)
    (h₀ : ∀ m, m.Initial → I m fun _ => {})
    (hstep : ∀ m sh c a y, J m sh → J (a.apply c m) (Function.update sh c y) → I m sh →
      Shape.Step c m a (sh c) y → I (a.apply c m) (Function.update sh c y))
    (hs : system.Reachable s) : I s.mem s.shape := by
  refine system_invariant (C := fun _ _ => True) (I := fun s => I s.mem s.shape) h₀ ?_ hs
  intro s c k a p hr hi _ hc hst
  have hr' := reachable_after hr hc
  have hj := hJ _ hr'
  rw [shape_after] at hj ⊢
  exact hstep s.mem s.shape c a (p.shape c) (hJ s hr) hj hi hst

/-- What mutual exclusion says of the memory and the shapes of the calls. -/
structure Locked (m : Mem) (sh : CallId → Shape) : Prop where
  wf : ∀ c, (sh c).Wf
  waiterLock : ∀ b c, m.waiterLock b = some c ↔ (sh c).lock = some b
  versionLock : ∀ t c, m.versionLock t = some c ↔ (sh c).vlock = some t
  call : ∀ t c, m.call t = some c ↔ (sh c).owner = some t

/-- **Mutual exclusion.** -/
theorem locked (hs : system.Reachable s) : Locked s.mem s.shape where
  wf := shape_wf hs
  waiterLock := waiterLock_iff hs
  versionLock := versionLock_iff hs
  call := call_iff hs

end Bthread
