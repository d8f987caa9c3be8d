import Bthread.Isolation
import Bthread.Whereabouts

set_option relaxedAutoImplicit false
set_option autoImplicit false

/-!
# Exclusion

A bthread is the current task of one group, or in one run queue once, or away from all workers: no
two workers execute it. A run of calls, workers and run queues is a run of the calls and one of the
workers, so that the invariants of both are at hand; the phases of the tasks agree with where the
calls say that the bthreads are, and what is in a queue is what the calls have pushed.

All of it fails once `task_runner` goes on after `return_keytable` with a `g` that is not the group
of its worker any more: the group of the worker keeps a `_cur_meta` that was given back.

## Main definitions

* `Bthread.Scheduling.Queued` — run queues hold what was pushed, once.
* `Bthread.Scheduling.Linked` — the invariant.

## Main results

* `Bthread.Scheduling.linked` — the invariant holds in every run whose steps are in their own group.
* `Bthread.Scheduling.oneOwner` — bthreads have one owner in these runs.
* `Bthread.Scheduling.not_oneOwner` — they do not in all runs.
-/

namespace Bthread.Scheduling

open Function (update update_self update_of_ne)
open Context (Suspend)

variable {s s' : State} {c d : CallId} {k : Bthread.Move} {n : SlotId} {t : Tid} {w : GroupId}
  {p : Place} {o : Option ℕ}

/-! ## Queues -/

/-- The places hold identifiers that are in run queues, each once. -/
structure Queued (ready : List Tid) (place : Place → List Tid) : Prop where
  /-- No place holds one twice. -/
  nodup : ∀ p, (place p).Nodup
  /-- No two places hold the same. -/
  apart : ∀ p q t, t ∈ place p → t ∈ place q → p = q
  /-- What they hold was pushed and not taken yet. -/
  ready : ∀ p, ∀ t ∈ place p, t ∈ ready

variable {ready : List Tid} {place : Place → List Tid}

/-- An identifier is put somewhere. -/
theorem Queued.cons (h : Queued ready place) (ht : t ∉ ready) :
    Queued (t :: ready) (update place p (t :: place p)) := by
  have hn : ∀ q, t ∉ place q := fun q hq => ht (h.ready q t hq)
  refine ⟨fun q => ?_, fun q r u hq hr => ?_, fun q u hq => ?_⟩
  · by_cases hqp : q = p
    · subst hqp
      simp [hn, h.nodup]
    · simpa [hqp] using h.nodup q
  · have hmem : ∀ {q}, u ∈ update place p (t :: place p) q → u = t ∧ q = p ∨ u ∈ place q := by
      intro q hq
      by_cases hqp : q = p
      · subst hqp
        rw [update_self] at hq
        exact (List.mem_cons.mp hq).imp_left fun h => ⟨h, rfl⟩
      · exact .inr (by simpa [hqp] using hq)
    obtain ⟨hu, hqp⟩ | hq := hmem hq
    · obtain ⟨-, hrp⟩ | hr := hmem hr
      · rw [hqp, hrp]
      · exact absurd (hu ▸ hr) (hn r)
    · obtain ⟨hu, -⟩ | hr := hmem hr
      · exact absurd (hu ▸ hq) (hn q)
      · exact h.apart q r u hq hr
  · by_cases hqp : q = p
    · subst hqp
      rw [update_self] at hq
      obtain rfl | hq := List.mem_cons.mp hq
      · exact List.mem_cons_self
      · exact List.mem_cons_of_mem _ (h.ready q u hq)
    · exact List.mem_cons_of_mem _ (h.ready q u (by simpa [hqp] using hq))

/-- An identifier is taken out. -/
theorem Queued.erase (h : Queued ready place) (ht : t ∈ place p) :
    Queued (ready.erase t) (update place p ((place p).erase t)) := by
  have hsub : ∀ {q u}, u ∈ update place p ((place p).erase t) q → u ∈ place q ∧ u ≠ t := by
    intro q u hq
    by_cases hqp : q = p
    · subst hqp
      rw [update_self, (h.nodup q).mem_erase_iff] at hq
      exact ⟨hq.2, hq.1⟩
    · have hq : u ∈ place q := by simpa [hqp] using hq
      exact ⟨hq, fun hu => hqp (h.apart q p t (hu ▸ hq) ht)⟩
  refine ⟨fun q => ?_, fun q r u hq hr => h.apart q r u (hsub hq).1 (hsub hr).1, fun q u hq => ?_⟩
  · by_cases hqp : q = p
    · subst hqp
      simpa using (h.nodup q).erase t
    · simpa [hqp] using h.nodup q
  · exact (List.mem_erase_of_ne (hsub hq).2).mpr (h.ready q u (hsub hq).1)

/-- The places hold no more than before. -/
theorem Queued.mono {ready' : List Tid} (h : Queued ready place) (hr : ready ⊆ ready') :
    Queued ready' place :=
  ⟨h.nodup, h.apart, fun p t ht => hr (h.ready p t ht)⟩

/-- An identifier is put somewhere, where a worker holds one at a time. -/
theorem put_queued (hp : s.put p t = some s') (h : Queued ready s.place) (ht : t ∉ ready) :
    Queued (t :: ready) s'.place ∧ s'.calls = s.calls ∧ s'.switch = s.switch := by
  have hq := h.cons (p := p) ht
  cases p with
  | next w =>
    simp only [State.put, Option.ite_none_right_eq_some, Option.some.injEq] at hp
    obtain ⟨hw, rfl⟩ := hp
    rw [hw] at hq
    exact ⟨hq, rfl, rfl⟩
  | _ =>
    obtain rfl := Option.some.inj hp
    exact ⟨hq, rfl, rfl⟩

/-! ## The invariant -/

/-- What holds of calls, workers and run queues together. -/
structure Linked (s : State) : Prop where
  /-- The calls are in a state that they reach alone. -/
  calls : system.Reachable s.calls
  /-- So are the workers: no step of theirs needed a phase to be forced. -/
  switch : Context.machine.ReachableIf Context.InOwnGroup s.switch
  /-- Both have the same bthreads running, switched out and ready. -/
  agrees : ∀ n, Agrees (Registered s.calls n) (s.calls.mem.run n) (s.switch.task (slot n)).phase
  /-- The places hold bthreads that are ready. -/
  queued : Queued s.calls.mem.ready s.place

/-- An access is a step of the system. -/
theorem access_eq (h : s.access c k = some s') : ∃ a q,
    control c (s.calls.pc c) k s.calls.mem = some (a, q) ∧
      s' = { s with calls := s.calls.after c a q } := by
  obtain ⟨z, hz, rfl⟩ := Option.map_eq_some_iff.mp h
  obtain ⟨a, q, hc, rfl⟩ := system_next hz
  exact ⟨a, q, hc, rfl⟩

/-- What the next access means to the workers. -/
theorem bearing_eq {b : Bearing} {a : Access} {q : Pc}
    (hc : control c (s.calls.pc c) k s.calls.mem = some (a, q)) (h : s.bearing c k = some b) :
    bearing s.calls.mem (s.calls.pc c) a = b := by
  simpa [State.bearing, hc] using h

/-- Slots and tasks. -/
theorem slot_inj {i : SlotId} : slot i = slot n ↔ i = n := by
  simp [slot, UInt32.toNat_inj]

/-- Nothing is forced on a task in the right phase. -/
theorem inPhase_eq {x : Context.State} {i : ℕ} {φ : Context.Phase}
    (h : (x.task (.slot i)).phase = φ) : inPhase i φ x = x := by
  subst h
  simp [inPhase, Context.State.setTask]

/-- A step of the workers: one of the machine of contexts, if the phases are right. -/
theorem step_eq {x : Context.State} {y : Context.Move} (h : force y x = x) :
    step x y = Context.next x y := by
  rw [step, h]

/-- Switching to a bthread is an access of its own. -/
theorem control_schedTo {q q' : Pc} {m : Mem} {a : Access}
    (hc : control d q (.call (.schedTo t)) m = some (a, q')) : a = .schedTo t := by
  cases q with
  | idle =>
    simp only [control, begin, Option.ite_none_right_eq_some, Option.some.injEq,
      Prod.mk.injEq] at hc
    exact hc.2.1.symm
  | _ => simp [control] at hc

/-- **A worker goes on** with the task it has taken: if the phases fit after its step for all
bthreads but that one, then all is well. -/
theorem goTo_linked {x : Context.Move} {g v : GroupId} {u : Option Tid}
    (hs : system.Reachable s.calls) (hq : Queued s.calls.mem.ready s.place)
    (hx : (∀ t, u = some t → t ∈ s.calls.mem.ready) → ∀ y, step s.switch x = some y →
      Context.machine.ReachableIf Context.InOwnGroup y ∧
        (y.task (taskOf g u)).phase = .running v ∧
        ∀ n, slot n ≠ taskOf g u →
          Agrees (Registered s.calls n) (s.calls.mem.run n) (y.task (slot n)).phase)
    (hn : s.goTo w d x u = some s') : Linked s' := by
  cases u with
  | none =>
    simp only [State.goTo, Option.ite_none_right_eq_some] at hn
    obtain ⟨y, hy, rfl⟩ := Option.map_eq_some_iff.mp hn.2
    obtain ⟨hr, -, ha⟩ := hx (by simp) y hy
    exact ⟨hs, hr, fun n => ha n (by simp [slot, taskOf]), hq⟩
  | some t =>
    simp only [State.goTo, Option.ite_none_right_eq_some] at hn
    obtain ⟨ht, hn⟩ := hn
    obtain ⟨s₁, h₁, hn⟩ := Option.bind_eq_some_iff.mp hn
    obtain ⟨y, hy, rfl⟩ := Option.map_eq_some_iff.mp h₁
    obtain ⟨s₂, h₂, rfl⟩ := Option.map_eq_some_iff.mp hn
    obtain ⟨a, q, hc, rfl⟩ := access_eq h₂
    obtain rfl := control_schedTo hc
    obtain ⟨hr, hp, ha⟩ := hx (fun t' ht' => Option.some.inj ht' ▸ hq.ready _ t ht) y hy
    obtain ⟨-, hrun, hready⟩ := schedTo_moves hs hc
    refine ⟨reachable_after hs hc, hr, fun n => ?_, ?_⟩
    · by_cases hnt : n = getSlot t
      · subst hnt
        simp only
        rw [hrun]
        exact ⟨v, hp⟩
      · exact Agrees.keep hs hc (by simpa [bearing, Bearing.slot] using Ne.symm hnt)
          (ha n (by simpa [taskOf, slot_inj] using hnt))
    · simp only
      rw [hready]
      exact hq.erase ht

namespace Linked

variable (h : Linked s)
include h

/-- The invariant of the workers. -/
theorem good : Context.Good s.switch := Context.good h.switch

/-- A bthread in a run queue is ready. -/
theorem phase_of_mem (ht : t ∈ s.calls.mem.ready) :
    (s.switch.task (slot (getSlot t))).phase = .ready := by
  have := h.agrees (getSlot t)
  rwa [(ready_of_mem h.calls ht).1] at this

/-- A step of the workers. -/
theorem reach {x : Context.Move} {y : Context.State} (hx : Context.InOwnGroup s.switch x)
    (hy : Context.next s.switch x = some y) : Context.machine.ReachableIf Context.InOwnGroup y :=
  h.switch.step (a := x) hx hy

/-- A step that a worker takes alone. -/
theorem alone {x : Context.Move} (hn : next s (.alone x) = some s') : Linked s' := by
  simp only [next, Option.ite_none_right_eq_some] at hn
  obtain ⟨hx, hn⟩ := hn
  obtain ⟨y, hy, rfl⟩ := Option.map_eq_some_iff.mp hn
  have hf : force x s.switch = s.switch := by cases x <;> first | rfl | cases hx
  rw [step_eq hf] at hy
  refine ⟨h.calls, h.reach ?_ hy, fun n => ?_, h.queued⟩
  · rintro w t o rfl
    cases hx
  · rw [Context.phase_alone hx hy]
    exact h.agrees n

/-- A worker takes an identifier from a run queue. -/
theorem take (hn : next s (.take w p t) = some s') : Linked s' := by
  simp only [next, Option.ite_none_right_eq_some] at hn
  obtain ⟨⟨hp, ht⟩, hn⟩ := hn
  have hm := h.queued.ready p t ht
  have hnot : t ∉ s.calls.mem.ready.erase t := by
    have hc := (owned h.calls).ready t
    rw [if_pos (ready_of_mem h.calls hm)] at hc
    rw [← List.count_eq_zero, List.count_erase_self, hc]
  obtain ⟨hq, hcalls, hswitch⟩ := put_queued hn (h.queued.erase ht) hnot
  have hsub : t :: s.calls.mem.ready.erase t ⊆ s.calls.mem.ready :=
    List.cons_subset.mpr ⟨hm, List.erase_subset⟩
  have h' : Queued s.calls.mem.ready s'.place := hq.mono hsub
  simp only at hcalls hswitch
  refine ⟨hcalls ▸ h.calls, hswitch ▸ h.switch, ?_, hcalls ▸ h'⟩
  rw [hcalls, hswitch]
  exact h.agrees

/-- An access that means nothing to the workers. -/
theorem access (hn : next s (.access c k) = some s') : Linked s' := by
  simp only [next, Option.ite_none_right_eq_some] at hn
  obtain ⟨hb, hn⟩ := hn
  obtain ⟨a, q, hc, rfl⟩ := access_eq hn
  have hb := bearing_eq hc hb
  refine ⟨reachable_after h.calls hc, h.switch, fun n => ?_, ?_⟩
  · exact Agrees.keep h.calls hc (by simp [hb, Bearing.slot]) (h.agrees n)
  · simpa [nothing_moves hb] using h.queued

/-- An access about slot `n` and what a worker makes of it: only that task moves. -/
theorem agrees_after {a : Access} {q : Pc} {y : Context.State} {i : SlotId}
    (hc : control c (s.calls.pc c) k s.calls.mem = some (a, q))
    (hb : (bearing s.calls.mem (s.calls.pc c) a).slot = some n)
    (hself : i = n → Agrees (Registered (s.calls.after c a q) n)
      ((s.calls.after c a q).mem.run n) (y.task (slot n)).phase)
    (hother : i ≠ n → (y.task (slot i)).phase = (s.switch.task (slot i)).phase) :
    Agrees (Registered (s.calls.after c a q) i) ((s.calls.after c a q).mem.run i)
      (y.task (slot i)).phase := by
  by_cases hi : i = n
  · exact hi ▸ hself hi
  · rw [hother hi]
    exact Agrees.keep h.calls hc (by simpa [hb] using Ne.symm hi) (h.agrees i)

/-- A bthread is pushed, and its task is ready. -/
theorem pushed {x : Context.Move} {a : Access} {q : Pc}
    (hc : control c (s.calls.pc c) k s.calls.mem = some (a, q))
    (hb : (bearing s.calls.mem (s.calls.pc c) a).slot = some (getSlot t))
    (hrun : s.calls.mem.run (getSlot t) ≠ .ready)
    (hrun' : (s.calls.after c a q).mem.run (getSlot t) = .ready)
    (hready : (s.calls.after c a q).mem.ready = t :: s.calls.mem.ready)
    (hx : ∀ y, step s.switch x = some y →
      Context.machine.ReachableIf Context.InOwnGroup y ∧ ∀ i, (y.task i).phase =
        if i = slot (getSlot t) then .ready else (s.switch.task i).phase)
    (hn : (State.turn { s with calls := s.calls.after c a q } x).bind (·.put p t) = some s') :
    Linked s' := by
  obtain ⟨s₁, h₁, hn⟩ := Option.bind_eq_some_iff.mp hn
  obtain ⟨y, hy, rfl⟩ := Option.map_eq_some_iff.mp h₁
  obtain ⟨hreach, hφ⟩ := hx y hy
  obtain ⟨hq, hcalls, hswitch⟩ := put_queued hn h.queued
    fun ht => hrun (ready_of_mem h.calls ht).1
  refine ⟨hcalls ▸ reachable_after h.calls hc, hswitch ▸ hreach, fun i => ?_, ?_⟩
  · rw [hcalls, hswitch]
    refine h.agrees_after hc hb (fun _ => ?_) fun hi => ?_
    · rw [hrun', hφ, if_pos rfl]
      exact rfl
    · rw [hφ, if_neg (by simpa [slot_inj] using hi)]
  · rw [hcalls]
    simp only
    rw [hready]
    exact hq

/-- A bthread is made runnable. -/
theorem push {ty : Context.StackType} (hn : next s (.push c k p ty) = some s') : Linked s' := by
  simp only [next] at hn
  split at hn
  next t hb =>
    obtain ⟨s₁, h₁, hn⟩ := Option.bind_eq_some_iff.mp hn
    obtain ⟨a, q, hc, rfl⟩ := access_eq h₁
    have hb := bearing_eq hc hb
    obtain ⟨hr, hr', hready⟩ := start_moves h.calls hc hb
    have hf := h.agrees (getSlot t)
    rw [hr] at hf
    refine h.pushed hc (by simp [hb, Bearing.slot]) (by simp [hr]) hr' hready (fun y hy => ?_) hn
    have hforce : force (.start none (getSlot t).toNat ty) s.switch = s.switch := inPhase_eq hf
    rw [step_eq hforce] at hy
    exact ⟨h.reach (by rintro _ _ _ ⟨⟩) hy, Context.phase_start hy⟩
  next t hb =>
    obtain ⟨s₁, h₁, hn⟩ := Option.bind_eq_some_iff.mp hn
    obtain ⟨a, q, hc, rfl⟩ := access_eq h₁
    have hb := bearing_eq hc hb
    obtain ⟨hr, hreg, hr', hready⟩ := push_moves h.calls hc hb
    have hf := h.agrees (getSlot t)
    rw [hr] at hf
    have hf := hf.resolve_right fun hf => hreg hf.1
    refine h.pushed hc (by simp [hb, Bearing.slot]) (by simp [hr]) hr' hready (fun y hy => ?_) hn
    have hforce : force (.wake none (getSlot t).toNat) s.switch = s.switch := inPhase_eq hf
    rw [step_eq hforce] at hy
    exact ⟨h.reach (by rintro _ _ _ ⟨⟩) hy, Context.phase_wake hy⟩
  next => cases hn

/-- The callback of the last task is run, and what it makes runnable is put somewhere. -/
theorem callback (hn : next s (.callback c k w p) = some s') : Linked s' := by
  simp only [next] at hn
  split at hn
  next n j r hb hr =>
    rw [Option.ite_none_right_eq_some] at hn
    obtain ⟨⟨htask, hhow⟩, hn⟩ := hn
    obtain ⟨s₁, h₁, hn⟩ := Option.bind_eq_some_iff.mp hn
    obtain ⟨a, q, hc, rfl⟩ := access_eq h₁
    have hb := bearing_eq hc hb
    obtain ⟨s₂, h₂, hn⟩ := Option.bind_eq_some_iff.mp hn
    obtain ⟨y, hy, rfl⟩ := Option.map_eq_some_iff.mp h₂
    have hforce : force (.remained w false) s.switch = s.switch := rfl
    rw [step_eq hforce] at hy
    obtain ⟨g, hl, hr⟩ := Option.bind_eq_some_iff.mp hr
    have hφ := Context.phase_remained hl hr hy
    have hreach : Context.machine.ReachableIf Context.InOwnGroup y :=
      h.reach (by rintro _ _ _ ⟨⟩) hy
    have hself := hφ (slot n)
    rw [if_pos htask.symm] at hself
    have hagrees : Agrees (Registered (s.calls.after c a q) n)
        ((s.calls.after c a q).mem.run n) (y.task (slot n)).phase →
        ∀ i, Agrees (Registered (s.calls.after c a q) i)
          ((s.calls.after c a q).mem.run i) (y.task (slot i)).phase := by
      refine fun hn i => h.agrees_after hc (by simp [hb, Bearing.slot]) (fun _ => hn) fun hi => ?_
      rw [hφ, htask, if_neg (by simpa [slot_inj] using hi)]
    obtain ⟨rfl, hrun, hrun', hready, hslot⟩ | ⟨hj, hrun, hrun', hready⟩ |
      ⟨rfl, hrun, hrun', hready⟩ := callback_moves h.calls hc hb
    · rw [if_pos rfl] at hn
      obtain ⟨hq, hcalls, hswitch⟩ := put_queued hn h.queued fun ht => by
        have := (ready_of_mem h.calls ht).1
        rw [hslot, hrun] at this
        cases this
      have hphase : (y.task (slot n)).phase = .ready := by
        cases r <;> first | exact hself | cases hhow
      refine ⟨hcalls ▸ reachable_after h.calls hc, hswitch ▸ hreach, ?_, ?_⟩
      · rw [hcalls, hswitch]
        refine hagrees ?_
        rw [hrun', hphase]
        exact rfl
      · rw [hcalls]
        simp only
        rw [hready]
        exact hq
    · rw [if_neg (by obtain rfl | rfl := hj <;> simp)] at hn
      obtain rfl := Option.some.inj hn
      have hphase : (y.task (slot n)).phase = .away := by
        obtain rfl | rfl := hj
        · cases r <;> first | exact hself | cases hhow
        · cases r <;> first | exact hself | cases hhow
      refine ⟨reachable_after h.calls hc, hreach, hagrees ?_, ?_⟩
      · rw [hrun', hphase]
        exact .inl rfl
      · simp only
        rw [hready]
        exact h.queued
    · rw [if_neg (by simp)] at hn
      obtain rfl := Option.some.inj hn
      have hphase : (y.task (slot n)).phase = .free := by
        cases r <;> first | exact hself | cases hhow
      refine ⟨reachable_after h.calls hc, hreach, hagrees ?_, ?_⟩
      · rw [hrun', hphase]
        exact rfl
      · simp only
        rw [hready]
        exact h.queued
  next => cases hn

/-- `run_main_task` switches to a bthread. -/
theorem runTask (hn : next s (.runTask w d t o) = some s') : Linked s' := by
  have hn : s.goTo w d (.runTask w (getSlot t).toNat o) (some t) = some s' := hn
  refine goTo_linked (g := w) (v := w) h.calls h.queued (fun ht y hy => ?_) hn
  have hf := h.phase_of_mem (ht t rfl)
  have hforce : force (.runTask w (getSlot t).toNat o) s.switch = s.switch := inPhase_eq hf
  rw [step_eq hforce] at hy
  have hφ : ∀ i, (y.task i).phase =
      if i = taskOf w (some t) then .running w else (s.switch.task i).phase :=
    Context.phase_runTask h.good hy
  refine ⟨h.reach (by rintro _ _ _ ⟨⟩) hy, ?_, fun n hn => ?_⟩
  · rw [hφ]
    exact if_pos rfl
  · rw [hφ, if_neg hn]
    exact h.agrees n

/-- The task to run next is not the one that is switched out. -/
theorem taskOf_ne {u : Option Tid} (ht : ∀ t, u = some t → t ∈ s.calls.mem.ready)
    (hw : s.switch.cur w = slot n) : taskOf w u ≠ s.switch.cur w := by
  cases u with
  | none => simp [taskOf, hw, slot]
  | some t =>
    have hf : (s.switch.task (slot (getSlot t))).phase ≠ .running w := by
      simp [h.phase_of_mem (ht t rfl)]
    exact (h.good.cur_ne hf).symm

/-- Nothing is forced on the task to run next. -/
theorem force_taskOf {u : Option Tid} (ht : ∀ t, u = some t → t ∈ s.calls.mem.ready)
    (g : GroupId) (j : Suspend) :
    force (.suspend w j (taskOf g u) o) s.switch = s.switch ∧
      force (.endTask w (taskOf g u) o) s.switch = s.switch := by
  cases u with
  | none => exact ⟨rfl, rfl⟩
  | some t =>
    have hf := inPhase_eq (h.phase_of_mem (ht t rfl))
    exact ⟨hf, hf⟩

/-- The current task of a worker is switched out. -/
theorem suspend {u : Option Tid} (hn : next s (.suspend c k w d u o) = some s') : Linked s' := by
  simp only [next] at hn
  split at hn
  next n j hb =>
    rw [Option.ite_none_right_eq_some] at hn
    obtain ⟨hw, hn⟩ := hn
    obtain ⟨s₁, h₁, hn⟩ := Option.bind_eq_some_iff.mp hn
    obtain ⟨a, q, hc, rfl⟩ := access_eq h₁
    have hb := bearing_eq hc hb
    obtain ⟨hrun, ha, hready⟩ := suspend_moves h.calls hc hb w
    have hq : Queued (s.calls.after c a q).mem.ready s.place := hready ▸ h.queued
    refine goTo_linked (g := w) (v := w) (reachable_after h.calls hc) hq (fun ht y hy => ?_) hn
    have ht : ∀ t, u = some t → t ∈ s.calls.mem.ready := fun t hu => hready ▸ ht t hu
    rw [step_eq (h.force_taskOf ht w j).1] at hy
    have hφ := Context.phase_suspend (h.taskOf_ne ht hw) hy
    refine ⟨h.reach (by rintro _ _ _ ⟨⟩) hy, ?_, fun i hi => ?_⟩
    · rw [hφ]
      exact if_pos rfl
    · refine h.agrees_after (n := n) hc (by simp [hb, Bearing.slot]) (fun hin => ?_) fun hin => ?_
      · subst hin
        rw [hφ, if_neg hi, hw, if_pos rfl]
        exact ha
      · rw [hφ, if_neg hi, hw, if_neg (by simpa [slot_inj] using hin)]
  next => cases hn

/-- The current task of a worker ends. -/
theorem endTask {u : Option Tid} (hown : InOwnGroup s (.endTask c k w d u o))
    (hn : next s (.endTask c k w d u o) = some s') : Linked s' := by
  simp only [next] at hn
  split at hn
  next n b m g hb hk =>
    obtain rfl := hown c k w d u o rfl _ _ _ hk
    rw [Option.ite_none_right_eq_some] at hn
    obtain ⟨rfl, hn⟩ := hn
    obtain ⟨s₁, h₁, hn⟩ := Option.bind_eq_some_iff.mp hn
    obtain ⟨a, q, hc, rfl⟩ := access_eq h₁
    have hb := bearing_eq hc hb
    obtain ⟨hrun, hrun', hready⟩ := ending_moves h.calls hc hb
    have hq : Queued (s.calls.after c a q).mem.ready s.place := hready ▸ h.queued
    refine goTo_linked (g := g) (v := g) (reachable_after h.calls hc) hq (fun ht y hy => ?_) hn
    have ht : ∀ t, u = some t → t ∈ s.calls.mem.ready := fun t hu => hready ▸ ht t hu
    rw [step_eq (h.force_taskOf ht g .yield).2] at hy
    have hcur : s.switch.cur g = slot n := by
      obtain ⟨x, -, hx⟩ := (h.good.worker g).cont
      rw [hk] at hx
      exact hx.2.1.symm
    have hφ := Context.phase_endTask hk (h.taskOf_ne ht hcur) hy
    refine ⟨h.reach ?_ hy, ?_, fun i hi => ?_⟩
    · rintro w' t' o' he b' m' g' hk'
      obtain ⟨rfl, -, -⟩ := Context.Move.endTask.inj he
      rw [hk] at hk'
      cases hk'
      rfl
    · rw [hφ]
      exact if_pos rfl
    · refine h.agrees_after (n := n) hc (by simp [hb, Bearing.slot]) (fun hin => ?_) fun hin => ?_
      · subst hin
        rw [hφ, if_neg hi, if_pos rfl, hrun']
        exact ⟨g, rfl⟩
      · rw [hφ, if_neg hi, if_neg (by simpa [slot_inj] using hin)]
  next => cases hn

/-- **One step** in its own group keeps the invariant. -/
theorem next {x : Move} (hown : InOwnGroup s x) (hn : next s x = some s') : Linked s' := by
  cases x with
  | alone x => exact h.alone hn
  | take w p t => exact h.take hn
  | runTask w d t o => exact h.runTask hn
  | access c k => exact h.access hn
  | push c k p ty => exact h.push hn
  | suspend c k w d t o => exact h.suspend hn
  | endTask c k w d t o => exact h.endTask hown hn
  | callback c k w p => exact h.callback hn

end Linked

/-- **Calls, workers and run queues agree** in every run whose steps are in their own group.

**Proof sketch.** Induction on the run, by the lemma for each step. -/
theorem linked (hs : machine.ReachableIf InOwnGroup s) : Linked s := by
  refine hs.invariant (fun s hi => ?_) fun _ _ _ _ ih hC hn => ih.next hC hn
  obtain ⟨⟨hm, hp⟩, hx, hq⟩ := hi
  refine ⟨.of_init ⟨hm, hp⟩, .of_init hx, fun n => ?_, ?_⟩
  · rw [hm.run]
    exact (hx.slot _).2.1
  · constructor <;> simp [hq]

/-! ## Owners of bthreads -/

namespace Linked

variable (h : Linked s)
include h

/-- A task that is not in the pool has the identifier of its slot. -/
theorem slot_eq (hφ : (s.switch.task (slot n)).phase ≠ .free) :
    getSlot (s.calls.mem.metaTid n) = n := by
  have ha := h.agrees n
  refine ((owned h.calls).identified n (.inl ?_)).1
  cases hr : s.calls.mem.run n <;> simp_all [Agrees]

/-- The current task of a group is running in it. -/
theorem phase_of_isCur {g : GroupId} (hc : s.IsCur g t) :
    (s.switch.task (slot (getSlot t))).phase = .running g := by
  obtain ⟨n, hn, rfl⟩ := hc
  have hφ : (s.switch.task (slot n)).phase = .running g := by
    by_contra hφ
    exact h.good.cur_ne hφ hn
  rwa [h.slot_eq (by simp [hφ])]

/-- A bthread that is captured by a callback is not in a run queue. -/
theorem phase_of_captured (hc : s.Captured t) :
    (s.switch.task (slot (getSlot t))).phase ≠ .ready := by
  obtain ⟨g, r, n, hr, hn, rfl⟩ | ⟨c, hc⟩ := hc
  · obtain ⟨i, hi, hφ, -⟩ := (h.good.worker g).remained r hr
    have hφ : (s.switch.task (slot n)).phase = .leaving g ∨
        (s.switch.task (slot n)).phase = .ended g := by
      rw [← hn, hi]
      exact hφ.imp And.left And.left
    rw [h.slot_eq (by obtain hφ | hφ := hφ <;> simp [hφ])]
    obtain hφ | hφ := hφ <;> simp [hφ]
  · have ha := h.agrees (getSlot t)
    rw [run_of_deciding h.calls hc] at ha
    obtain hφ | ⟨-, g, hφ⟩ := ha <;> simp [hφ]

end Linked

/-- **One owner**: in every run whose steps are in their own group, a bthread is the current task of
one group, or in one run queue, or away.

**Proof sketch.** The task of a bthread in a run queue is ready, that of a current one is running in
its group, and a callback that has not begun is about a task that is neither. -/
theorem oneOwner (hs : machine.ReachableIf InOwnGroup s) : OneOwner s := by
  have h := linked hs
  have hready : ∀ {t p}, t ∈ s.place p → (s.switch.task (slot (getSlot t))).phase = .ready :=
    fun ht => h.phase_of_mem (h.queued.ready _ _ ht)
  refine ⟨fun t g g' _ hg hg' => ?_,
    fun t p _ => List.nodup_iff_count_le_one.mp (h.queued.nodup p) t,
    fun t p q _ hp hq => h.queued.apart p q t hp hq, fun t p g _ hp hg => ?_,
    fun t p _ hp hc => h.phase_of_captured hc (hready hp)⟩
  · simpa using (h.phase_of_isCur hg).symm.trans (h.phase_of_isCur hg')
  · cases (hready hp).symm.trans (h.phase_of_isCur hg)

/-! ## Runs -/

/-- The first state. -/
def State.initial : State := ⟨⟨.initial, fun _ => .idle⟩, .initial, fun _ => []⟩

/-- It is initial. -/
theorem State.initial_initial : machine.init .initial :=
  ⟨⟨Mem.initial_initial, rfl⟩, Context.State.initial_initial, fun _ => rfl⟩

/-- A check that a step is in its own group. -/
def inOwnGroup (s : State) : Move → Bool
  | .endTask _ _ w _ _ _ =>
    match (s.switch.thread w).cont with
    | .code (.returnKeytable _ _ g) => g == w
    | _ => true
  | _ => true

/-- What the check says. -/
theorem inOwnGroup_spec {x : Move} (h : inOwnGroup s x = true) : InOwnGroup s x := by
  rintro c k w d t o rfl b m g hk
  simpa [inOwnGroup, hk] using h

/-- A run whose steps are in their own group. -/
theorem reachableIf_of_exec {as : List Move} (h : machine.exec .initial as = some s)
    (hc : machine.checked inOwnGroup .initial as = true) : machine.ReachableIf InOwnGroup s :=
  .of_checked inOwnGroup (fun _ _ => inOwnGroup_spec) (.of_init State.initial_initial) h hc

/-- Accesses of a call. -/
def goes (c : CallId) (i : ℕ) : List Move := List.replicate i (.access c (.next .go))

/-- Call `c` starts a bthread in slot `n`, which goes to `p`. -/
def starts (c : CallId) (n : SlotId) (p : Place) (ty : Context.StackType) : List Move :=
  .access c (.call .startTask) :: .access c (.next (.slot n)) :: goes c 3 ++
    [.push c (.next .go) p ty]

/-- A bthread is started and runs on worker `0`. -/
def begun : List Move :=
  starts 0 0 (.remoteRq 0) .small ++
    [.take 0 (.remoteRq 0) (makeTid 1 0), .runTask 0 1 (makeTid 1 0) (some 0), .alone (.leave 0),
     .alone (.call 0)]

/-- It waits on a butex, and is woken by another thread. -/
def woken : List Move :=
  begun ++ .access 2 (.call (.butexWait ⟨.user 0, 0, 0, false⟩)) :: goes 2 3 ++
    [.suspend 2 (.next .go) 0 3 none none, .callback 2 (.next .go) 0 (.rq 0)] ++ goes 2 6 ++
      .alone (.leave 0) :: .access 4 (.call (.butexWake (.user 0))) :: goes 4 7 ++
        [.push 4 (.next .go) (.remoteRq 1) .small]

/-- It goes on on worker `1`. -/
def resumed : List Move :=
  woken ++ [.take 1 (.remoteRq 1) (makeTid 1 0), .runTask 1 3 (makeTid 1 0) none,
    .alone (.leave 1)] ++ goes 2 6

/-- It ends there, and its slot goes to the next bthread. -/
def reused : List Move :=
  resumed ++ .alone (.return 1) :: .access 5 (.call (.endTask 0)) :: goes 5 10 ++
    [.endTask 5 (.next .go) 1 6 none none, .access 5 (.next .go), .callback 5 (.next .go) 1 (.rq 1),
     .alone (.leave 1)] ++ starts 7 0 (.remoteRq 1) .small

/-- A bthread that was woken is in one queue and is no current task; when it is current it is in no
queue; and so is the one that gets its slot. -/
theorem oneOwner_reused : ∃ s s' s'' : State,
    (machine.exec .initial woken = some s ∧ makeTid 1 0 ∈ s.place (.remoteRq 1) ∧
      (∀ p, makeTid 1 0 ∈ s.place p → p = .remoteRq 1) ∧ ∀ g, ¬s.IsCur g (makeTid 1 0)) ∧
    (machine.exec .initial resumed = some s' ∧ s'.IsCur 1 (makeTid 1 0) ∧
      (∀ g, s'.IsCur g (makeTid 1 0) → g = 1) ∧ ∀ p, makeTid 1 0 ∉ s'.place p) ∧
    (machine.exec .initial reused = some s'' ∧ makeTid 2 0 ∈ s''.place (.remoteRq 1) ∧
      ¬s''.Captured (makeTid 2 0)) := by
  obtain ⟨s, h, he, hp⟩ : ∃ s, machine.exec .initial woken = some s ∧
      s.calls.mem.exists (makeTid 1 0) = true ∧ s.place (.remoteRq 1) = [makeTid 1 0] :=
    ⟨_, rfl, rfl, rfl⟩
  obtain ⟨s', h', he', hc, ht⟩ : ∃ s', machine.exec .initial resumed = some s' ∧
      s'.calls.mem.exists (makeTid 1 0) = true ∧ s'.switch.cur 1 = slot 0 ∧
        s'.calls.mem.metaTid 0 = makeTid 1 0 := ⟨_, rfl, rfl, rfl, rfl⟩
  obtain ⟨s'', h'', he'', hp''⟩ : ∃ s'', machine.exec .initial reused = some s'' ∧
      s''.calls.mem.exists (makeTid 2 0) = true ∧ s''.place (.remoteRq 1) = [makeTid 2 0] :=
    ⟨_, rfl, rfl, rfl⟩
  have hs := oneOwner (reachableIf_of_exec h rfl)
  have hs' := oneOwner (reachableIf_of_exec h' rfl)
  have hs'' := oneOwner (reachableIf_of_exec h'' rfl)
  have hm : makeTid 1 0 ∈ s.place (.remoteRq 1) := by simp [hp]
  have hm'' : makeTid 2 0 ∈ s''.place (.remoteRq 1) := by simp [hp'']
  have hc' : s'.IsCur 1 (makeTid 1 0) := ⟨0, hc, ht⟩
  exact ⟨s, s', s'', ⟨h, hm, fun p hp => hs.one _ p _ he hp hm, fun g => hs.notCurrent _ _ g he hm⟩,
    ⟨h', hc', fun g hg => hs'.current _ g 1 he' hg hc',
      fun p hp => hs'.notCurrent _ p 1 he' hp hc'⟩,
    h'', hm'', hs''.notCaptured _ _ he'' hm''⟩

/-- A bthread yields while its keytable is being returned, and goes on there on worker `1`; it ends
in the group it was in before, which runs a bthread of its `_main_stack`. Its slot goes to the next
bthread, which worker `0` takes. -/
def endedElsewhere : List Move :=
  begun ++ .alone (.return 0) :: .access 2 (.call (.yield 0)) ::
    [.suspend 2 (.next .go) 0 3 none none, .callback 2 (.next .go) 0 (.rq 0), .alone (.leave 0),
     .take 1 (.rq 0) (makeTid 1 0), .runTask 1 3 (makeTid 1 0) none, .alone (.leave 1)] ++
    goes 2 2 ++ starts 4 1 (.remoteRq 0) .pthread ++
      .access 5 (.call (.endTask 0)) :: goes 5 10 ++
        [.take 1 (.remoteRq 0) (makeTid 1 1),
         .endTask 5 (.next .go) 1 6 (some (makeTid 1 1)) none, .access 5 (.next .go),
         .callback 5 (.next .go) 1 (.rq 0)] ++ starts 7 0 (.remoteRq 0) .small ++
          [.take 0 (.remoteRq 0) (makeTid 2 0), .runTask 0 8 (makeTid 2 0) (some 1)]

/-- **A bthread can be the current task of two groups**: the group in which the bthread before it
has not ended, and the one that runs it. -/
theorem not_oneOwner : ∃ s, machine.Reachable s ∧ ¬OneOwner s := by
  obtain ⟨s, h, he, h₀, h₁, ht⟩ : ∃ s, machine.exec .initial endedElsewhere = some s ∧
      s.calls.mem.exists (makeTid 2 0) = true ∧ s.switch.cur 0 = slot 0 ∧
        s.switch.cur 1 = slot 0 ∧ s.calls.mem.metaTid 0 = makeTid 2 0 :=
    ⟨_, rfl, rfl, rfl, rfl, rfl⟩
  refine ⟨s, Conc.Machine.Reachable.exec (.of_init State.initial_initial) h, fun hO => ?_⟩
  have := hO.current _ 0 1 he ⟨0, h₀, ht⟩ ⟨0, h₁, ht⟩
  simp at this

end Bthread.Scheduling
