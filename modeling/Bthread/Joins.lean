import Bthread.Slots
import Bthread.Visibility
import Bthread.Lending

set_option relaxedAutoImplicit false
set_option autoImplicit false

/-!
# Joining bthreads

`TaskGroup::join` waits on the version word of the slot until it is not the version in the
identifier. The word belongs to the bthreads that use the slot one after the other, and so does the
queue of its butex.

## Main definitions

* `Bthread.join`, `Bthread.joins` — `TaskGroup::join`, and any number of joiners over the system.
* `Bthread.EndOk`, `Bthread.Joined`, `Bthread.Settled` — the invariants.
* `Bthread.JoinsRight` — when a join returns, and who is in the queue of the version word.

## Main results

* `Bthread.joinsRight` — joins are right in every run.
-/

namespace Bthread

open Function (update update_self update_of_ne)
open Conc (Ensures)

variable {s : State} {c d w : CallId} {m : Mem} {a : Access} {p p' : Pc} {k : Move} {t : SlotId}
  {tid : Tid} {b : ButexId}

/-! ## `TaskGroup::join` -/

/-- The thread that joins: a bthread on its own stack, or a pthread with the task it runs. -/
inductive Joiner
  | bthread (slot : SlotId)
  | pthread (task : Option SlotId)
  deriving DecidableEq

/-- `g ? g->current_task() : NULL`. -/
def Joiner.task : Joiner → Option SlotId
  | .bthread s => some s
  | .pthread o => o

/-- `butex_wait(m->version_butex, expected_version, NULL)`. -/
def Joiner.wait (tid : Tid) : Joiner → Call
  | .bthread s => .butexWait ⟨.version (getSlot tid), getVersion tid, s, false⟩
  | .pthread o => .butexWaitFromPthread ⟨.version (getSlot tid), getVersion tid, o, false⟩

/-- What `TaskGroup::join` returns: `0`, `EINVAL`, or the `errno` of the wait. -/
inductive JoinResult
  | ok
  | einval
  | errno (r : WaitResult)
  deriving DecidableEq

/-- Control points of `TaskGroup::join`. -/
inductive JoinPc
  | start
  | addressMeta
  | self
  | load
  | wait
  | waiting (c : CallId)
  deriving DecidableEq

/-- A joiner: not joining, inside `join(tid)`, or returned from it. -/
inductive Joining
  | idle
  | inside (tid : Tid) (who : Joiner) (q : JoinPc)
  | done (tid : Tid) (r : JoinResult)
  deriving DecidableEq

/-- `TaskGroup::join(tid)` up to its call of `butex_wait`, and from the return of that on. -/
def join (tid : Tid) (who : Joiner) (s : State) : JoinPc → Option Joining
  | .start => some (if tid = 0 then .done tid .einval else .inside tid who .addressMeta)
  | .addressMeta =>
    some (if s.mem.allocated (getSlot tid) then .inside tid who .self else .done tid .einval)
  | .self =>
    some (if who.task.map s.mem.metaTid = some tid then .done tid .einval
      else .inside tid who .load)
  | .load =>
    some (if s.mem.value (.version (getSlot tid)) = getVersion tid then .inside tid who .wait
      else .done tid .ok)
  | .wait => none
  | .waiting c =>
    match s.pc c with
    | .done (.wait r) =>
      some (if r = .ok ∨ r = .ewouldblock ∨ r = .eintr then .inside tid who .load
        else .done tid (.errno r))
    | _ => none

/-- The system with joiners; `made` tells which join has made a wait. -/
structure Joins where
  state : State
  joining : ℕ → Joining
  made : CallId → Option Tid

/-- How the system with joiners moves. -/
inductive JoinMove
  | system (x : CallId × Move)
  | join (j : ℕ) (tid : Tid) (who : Joiner)
  | next (j : ℕ)
  | wait (j : ℕ) (c : CallId)

/-- **The system with joiners** of identifiers that were handed out. -/
def joins : Conc.Machine Joins JoinMove where
  init x := system.init x.state ∧ x.joining = (fun _ => .idle) ∧ x.made = fun _ => none
  next x
    | .system y => (system.next x.state y).map fun s => { x with state := s }
    | .join j tid who =>
      if x.joining j = .idle ∧ x.state.mem.handedOut tid = true then
        some { x with joining := update x.joining j (.inside tid who .start) }
      else none
    | .next j =>
      match x.joining j with
      | .inside tid who q =>
        (join tid who x.state q).map fun r => { x with joining := update x.joining j r }
      | _ => none
    | .wait j c =>
      match x.joining j with
      | .inside tid who .wait =>
        (system.next x.state (c, .call (who.wait tid))).map fun s =>
          ⟨s, update x.joining j (.inside tid who (.waiting c)), update x.made c (some tid)⟩
      | _ => none

/-! ## The end of `task_runner` -/

/-- Who makes keytables and advances versions: user code that can block, and the end of
`task_runner`. -/
structure TaskStep (m : Mem) (p : Pc) (a : Access) (p' : Pc) : Prop where
  setKeytable : ∀ t, a = .setKeytable t → m.CanBlock t
  bumpVersion : ∀ t, a = .bumpVersion t →
    p = .endTask t .bump ∧ (p' = .endTask t .bumpAgain ∨ p' = .endTask t .unlock)

/-- A plain access does neither. -/
theorem TaskStep.of_plain (h : a.Plain) : TaskStep m p a p' :=
  ⟨fun t ha => absurd ha (h.2.1 t), fun t ha => absurd ha (h.2.2 t)⟩

/-- **Who makes keytables and advances versions.** -/
theorem control_task : Ensures (control c p k m) (TaskStep m p) := by
  intro a p' hc
  obtain h | rfl | ⟨tid, worker, q, rfl⟩ | ⟨t, q, rfl⟩ | ⟨e, tid, q, rfl⟩ | ⟨t, q, rfl⟩ :=
    control_plain _ _ hc
  · exact .of_plain h
  all_goals
    revert a p'
    change Ensures _ _
    cases k
  case inr.inl.call f =>
    simp only [control]
    fun_cases begin f m
    all_goals first
      | exact Conc.ensures_none _
      | rw [Conc.ensures_some]
    case case21 t hb => exact ⟨fun t' ht => by cases ht; exact hb, by simp⟩
    all_goals exact ⟨by simp, by simp⟩
  all_goals first
    | exact Conc.ensures_none _
    | rw [control, ensures_within]
  case inr.inr.inl.next o =>
    fun_cases interrupt tid worker true q m
    case case16 w e =>
      rw [Conc.ensures_inside]
      exact eraseFromButex_keepsMeta.mono fun a r h => .of_plain h.2
    all_goals first
      | exact Conc.ensures_none _
      | rw [Conc.ensures_goto]; exact ⟨by simp, by simp⟩
      | rw [Conc.ensures_ret]; exact ⟨by simp, by simp⟩
  case inr.inr.inr.inl.next o =>
    fun_cases usleep t q m
    all_goals first
      | exact Conc.ensures_none _
      | rw [Conc.ensures_goto]; exact ⟨by simp, by simp⟩
      | rw [Conc.ensures_ret]; exact ⟨by simp, by simp⟩
  case inr.inr.inr.inr.inl.next o =>
    fun_cases addSleepEvent e tid q o m
    all_goals first
      | exact Conc.ensures_none _
      | rw [Conc.ensures_goto]; exact ⟨by simp, by simp⟩
      | rw [Conc.ensures_ret]; exact ⟨by simp, by simp⟩
  case inr.inr.inr.inr.inr.next o =>
    fun_cases endTask t q m
    case case5 =>
      rw [Conc.ensures_goto]
      refine ⟨by simp, fun t' ht => ?_⟩
      cases ht
      refine ⟨rfl, ?_⟩
      by_cases hv : m.value (.version t) + 1 = 0 <;> simp [hv]
    case case8 q =>
      rw [Conc.ensures_inside]
      exact butexWakeExcept_keepsMeta.mono fun a r h => .of_plain h.2
    all_goals first
      | exact Conc.ensures_none _
      | rw [Conc.ensures_goto]; exact ⟨by simp, by simp⟩
      | rw [Conc.ensures_ret]; exact ⟨by simp, by simp⟩

/-- The end of `task_runner` goes on by itself. -/
theorem control_endTask {q : EndPc} (h : control c p k m = some (a, .endTask t q)) :
    q = .finishFn ∨ ∃ q₀, p = .endTask t q₀ ∧ endTask t q₀ m = some (a, .inl q) := by
  cases k with
  | call f =>
    left
    cases p with
    | idle =>
      cases f with
      | butexWaitFromPthread y =>
        cases ht : y.task <;> simp [control, begin, ht] at h
      | fire i =>
        cases ht : m.timerFn i <;> simp [control, begin, ht] at h
      | endTask t' =>
        simp only [control, begin, Option.ite_none_right_eq_some, Option.some.injEq,
          Prod.mk.injEq, Pc.endTask.injEq] at h
        exact h.2.2.2.symm
      | _ => simp [control, begin] at h
    | _ => simp [control] at h
  | next o =>
    right
    cases p with
    | endTask t' q₀ =>
      obtain ⟨q', hq, hp⟩ | ⟨v, -, hp⟩ := within_eq h
      · cases hp
        exact ⟨q₀, rfl, hq⟩
      · cases hp
    | idle | done r => simp [control] at h
    | _ =>
      obtain ⟨q', -, hp⟩ | ⟨v, -, hp⟩ := within_eq h
      · cases hp
      · cases hp

/-- `fn` has returned. -/
def EndPc.finished : EndPc → Bool
  | .finishFn => false
  | _ => true

/-- The keytable is returned. -/
def EndPc.returned : EndPc → Bool
  | .finishFn | .returnKeytable => false
  | _ => true

/-- What the end of `task_runner` does first. -/
theorem endTask_first {q₀ q : EndPc} (h : endTask t q₀ m = some (a, .inl q)) :
    (q.finished = true → q₀.finished = true ∨ a = .finishFn t) ∧
      (q.returned = true → q₀.returned = true ∨ a = .returnKeytable t) := by
  cases q₀ with
  | finishFn =>
    simp only [endTask, Conc.goto, Option.some.injEq, Prod.mk.injEq, Sum.inl.injEq] at h
    obtain ⟨rfl, rfl⟩ := h
    exact ⟨fun _ => .inr rfl, fun h => (by cases h)⟩
  | returnKeytable =>
    simp only [endTask, Conc.goto, Option.some.injEq, Prod.mk.injEq, Sum.inl.injEq] at h
    obtain ⟨rfl, rfl⟩ := h
    exact ⟨fun _ => .inl rfl, fun _ => .inr rfl⟩
  | _ => exact ⟨fun _ => .inl rfl, fun _ => .inl rfl⟩

/-- The end of `task_runner` is a call of its task. -/
theorem phase_of_endTask {q : EndPc} (h : s.pc c = .endTask t q) :
    ∃ φ, (s.shape c).phase = some (t, φ) ∧ φ ≠ .starting ∧ φ ≠ .named := by
  rw [State.shape, h]
  cases q with
  | wakeExcept q =>
    cases q with
    | unsleep bt w n l u => cases u <;> exact ⟨_, rfl, by simp, by simp⟩
    | _ => exact ⟨_, rfl, by simp, by simp⟩
  | _ => exact ⟨_, rfl, by simp, by simp⟩

/-- `fnFinished` is reset for a new identifier. -/
theorem fnFinished_apply {x : Tid} (hx : m.fnFinished x = true) :
    (a.apply c m).fnFinished x = true ∨
      ∃ t, a = .setTid t ∧ x = makeTid (m.value (.version t)) t := by
  cases a with
  | setTid t =>
    by_cases h : x = makeTid (m.value (.version t)) t
    · exact .inr ⟨t, rfl, h⟩
    · exact .inl (by simpa [Access.apply, h] using hx)
  | finishFn t =>
    by_cases h : x = m.metaTid t
    · exact .inl (by simp [Access.apply, h])
    · exact .inl (by simpa [Access.apply, h] using hx)
  | _ => exact .inl hx

/-- A keytable is made by user code. -/
theorem keytable_apply {x : Tid} (hx : m.keytable x = false) :
    (a.apply c m).keytable x = false ∨ ∃ t, a = .setKeytable t ∧ x = m.metaTid t := by
  cases a with
  | setTid t =>
    by_cases h : x = makeTid (m.value (.version t)) t
    · exact .inl (by simp [Access.apply, h])
    · exact .inl (by simpa [Access.apply, h] using hx)
  | returnKeytable t =>
    by_cases h : x = m.metaTid t
    · exact .inl (by simp [Access.apply, h])
    · exact .inl (by simpa [Access.apply, h] using hx)
  | setKeytable t =>
    by_cases h : x = m.metaTid t
    · exact .inr ⟨t, rfl, h⟩
    · exact .inl (by simpa [Access.apply, h] using hx)
  | _ => exact .inl hx

/-- A version word is written at the end of a bthread. -/
theorem version_apply : (a.apply c m).value (.version t) = m.value (.version t) ∨
    a = .bumpVersion t ∨ a = .skipVersion t := by
  cases a with
  | bumpVersion t' =>
    by_cases h : t = t'
    · exact .inr (.inl (by rw [h]))
    · exact .inl (by simp [Access.apply, h])
  | skipVersion t' =>
    by_cases h : t = t'
    · exact .inr (.inr (by rw [h]))
    · exact .inl (by simp [Access.apply, h])
  | store n v => exact .inl (by simp [Access.apply])
  | _ => exact .inl rfl

/-- Terminations are counted up. -/
theorem terminations_mono : m.terminations t ≤ (a.apply c m).terminations t := by
  rw [terminations_apply]
  omega

/-- What the end of `task_runner` has done. -/
structure EndOk (s : State) : Prop where
  finished : ∀ c t q, s.pc c = .endTask t q → q.finished = true →
    s.mem.fnFinished (s.mem.metaTid t) = true
  returned : ∀ c t q, s.pc c = .endTask t q → q.returned = true →
    s.mem.keytable (s.mem.metaTid t) = false
  ended : ∀ tid, s.mem.handedOut tid = true → s.mem.terminations (getSlot tid) < 2 ^ 32 - 1 →
    s.mem.value (.version (getSlot tid)) ≠ getVersion tid →
      s.mem.fnFinished tid = true ∧ s.mem.keytable tid = false

/-- A task that can block is inside no call and has its version. -/
theorem version_of_canBlock (hs : system.Reachable s) (ht : s.mem.CanBlock t) :
    getSlot (s.mem.metaTid t) = t ∧ s.mem.value (.version t) = getVersion (s.mem.metaTid t) := by
  obtain ⟨hr, hc⟩ := ht
  have O := owned hs
  have hi : Identified s.mem s.shape t := .inl (by simp [hr])
  refine ⟨(O.identified t hi).1, (O.version t hi (by simp [hr])).resolve_right ?_⟩
  rintro ⟨d, hd⟩
  have hcall : s.mem.call t = some d := by
    rw [(locked hs).call]
    obtain hd | hd := hd <;> simp [Shape.owner, hd]
  rw [hc] at hcall
  cases hcall

/-- Every access keeps what the end of `task_runner` has done. -/
theorem EndOk.step (hi : EndOk s) (hs : system.Reachable s)
    (hc : control c (s.pc c) k s.mem = some (a, p))
    (h : Shape.Step c s.mem a (s.shape c) (p.shape c)) : EndOk (s.after c a p) := by
  have L := locked hs
  have K := known hs
  have O := owned hs
  have N := numbered hs
  -- a task that ends is not started
  have starting {d : CallId} {t : SlotId} {q : EndPc} (hd : s.pc d = .endTask t q) :
      (s.shape c).phase ≠ some (t, .starting) := by
    intro hx
    obtain ⟨φ, hφ, hn, -⟩ := phase_of_endTask hd
    obtain rfl := O.unique d c t φ _ hφ hx
    rw [hφ] at hx
    simp only [Option.some.injEq, Prod.mk.injEq] at hx
    exact hn hx.2
  have metaTid {d : CallId} {t : SlotId} {q : EndPc} (hd : s.pc d = .endTask t q) :
      (s.after c a p).mem.metaTid t = s.mem.metaTid t := h.metaTid_keep (starting hd)
  have slot {d : CallId} {t : SlotId} {q : EndPc} (hd : s.pc d = .endTask t q) :
      getSlot (s.mem.metaTid t) = t := by
    obtain ⟨φ, hφ, hn, -⟩ := phase_of_endTask hd
    exact (O.slot_of_phase hφ hn).1
  have finished {d : CallId} {t : SlotId} {q : EndPc} (hd : s.pc d = .endTask t q)
      (hf : s.mem.fnFinished (s.mem.metaTid t) = true) :
      (s.after c a p).mem.fnFinished ((s.after c a p).mem.metaTid t) = true := by
    rw [metaTid hd]
    obtain hf | ⟨t', rfl, ht⟩ := fnFinished_apply (a := a) (c := c) hf
    · exact hf
    · have ht' := slot hd
      rw [ht, getSlot_makeTid] at ht'
      exact absurd (ht' ▸ h.phase.1) (starting hd)
  have returned {d : CallId} {t : SlotId} {q : EndPc} (hd : s.pc d = .endTask t q)
      (hf : s.mem.keytable (s.mem.metaTid t) = false) :
      (s.after c a p).mem.keytable ((s.after c a p).mem.metaTid t) = false := by
    rw [metaTid hd]
    obtain hf | ⟨t', rfl, ht⟩ := keytable_apply (a := a) (c := c) hf
    · exact hf
    · have hb := (control_task _ _ hc).setKeytable _ rfl
      have ht' := slot hd
      rw [ht, (version_of_canBlock hs hb).1] at ht'
      obtain ⟨hr, hn⟩ := ht' ▸ hb
      obtain ⟨φ, hφ, h₁, h₂⟩ := phase_of_endTask hd
      have ho := O.task d t φ hφ
      have hcall := L.call t d
      rw [hn] at hcall
      cases φ <;> simp_all [Shape.owner, TaskOk]
  refine ⟨fun d t q hd hq => ?_, fun d t q hd hq => ?_, fun tid ht hb hv => ?_⟩
  · by_cases hdc : d = c
    · subst hdc
      obtain rfl : p = .endTask t q := by simpa using hd
      obtain rfl | ⟨q₀, hp, hstep⟩ := control_endTask hc
      · cases hq
      · obtain hq₀ | rfl := (endTask_first hstep).1 hq
        · exact finished hp (hi.finished d t q₀ hp hq₀)
        · simp [Access.apply]
    · have hd : s.pc d = .endTask t q := by simpa [hdc] using hd
      exact finished hd (hi.finished d t q hd hq)
  · by_cases hdc : d = c
    · subst hdc
      obtain rfl : p = .endTask t q := by simpa using hd
      obtain rfl | ⟨q₀, hp, hstep⟩ := control_endTask hc
      · cases hq
      · obtain hq₀ | rfl := (endTask_first hstep).2 hq
        · exact returned hp (hi.returned d t q₀ hp hq₀)
        · simp [Access.apply]
    · have hd : s.pc d = .endTask t q := by simpa [hdc] using hd
      exact returned hd (hi.returned d t q hd hq)
  · have hb₀ : s.mem.terminations (getSlot tid) < 2 ^ 32 - 1 :=
      lt_of_le_of_lt (terminations_mono (a := a) (c := c)) hb
    obtain ht₀ | ⟨t', rfl, rfl⟩ := handedOut_apply ht
    · by_cases hv₀ : s.mem.value (.version (getSlot tid)) = getVersion tid
      · obtain he | rfl | rfl := version_apply (c := c) (m := s.mem) (a := a) (t := getSlot tid)
        · exact absurd (he.trans hv₀) hv
        · obtain ⟨hp, -⟩ := (control_task _ _ hc).bumpVersion _ rfl
          have hm := (N.live tid ht₀ hb₀ (by rw [← hv₀]; exact N.value _ hb₀)).2
          have h₁ := hi.finished c _ .bump hp rfl
          have h₂ := hi.returned c _ .bump hp rfl
          rw [hm] at h₁ h₂
          exact ⟨h₁, h₂⟩
        · have h₀ := (O.task c _ _ h.phase.1).2
          have h₁ := N.value _ hb₀
          rw [h₀, UInt32.toNat_zero] at h₁
          omega
      · obtain ⟨hf, hk⟩ := hi.ended tid ht₀ hb₀ hv₀
        refine ⟨?_, ?_⟩
        · obtain hf | ⟨t', rfl, rfl⟩ := fnFinished_apply (a := a) (c := c) hf
          · exact hf
          · simp at hv₀
        · obtain hk | ⟨t', rfl, rfl⟩ := keytable_apply (a := a) (c := c) hk
          · exact hk
          · obtain ⟨h₁, h₂⟩ := version_of_canBlock hs ((control_task _ _ hc).setKeytable _ rfl)
            rw [h₁] at hv₀
            exact absurd h₂ hv₀
    · simp [Access.apply] at hv

/-- A wait for the end of the bthread `tid`. -/
def Pc.Awaits (tid : Tid) : Pc → Prop
  | .butexWait y _ => y.butex = .version (getSlot tid) ∧ y.expectedValue = getVersion tid
  | .butexWaitFromPthread y _ => y.butex = .version (getSlot tid) ∧ y.expectedValue = getVersion tid
  | _ => False

/-- A call waits for the end of the bthread `tid`, or has returned. -/
def Pc.AwaitsOrDone (tid : Tid) (p : Pc) : Prop := p.Awaits tid ∨ ∃ r, p = .done r

/-- A wait of a joiner goes on until it returns. -/
theorem control_awaits (h : control c p k m = some (a, p')) (hp : p.AwaitsOrDone tid) :
    p'.AwaitsOrDone tid := by
  obtain hp | ⟨r, rfl⟩ := hp
  · unfold Pc.Awaits at hp
    split at hp
    next y q =>
      cases k with
      | call f => simp [control] at h
      | next o =>
        obtain ⟨q', -, rfl⟩ | ⟨v, -, rfl⟩ := within_eq h
        · exact .inl hp
        · exact .inr ⟨_, rfl⟩
    next y q =>
      cases k with
      | call f => simp [control] at h
      | next o =>
        obtain ⟨q', -, rfl⟩ | ⟨v, -, rfl⟩ := within_eq h
        · exact .inl hp
        · exact .inr ⟨_, rfl⟩
    next => exact hp.elim
  · cases k <;> simp [control] at h

/-- A joiner starts to wait. -/
theorem control_joinerWait {who : Joiner}
    (h : control c p (.call (who.wait tid)) m = some (a, p')) : p = .idle ∧ p'.Awaits tid := by
  cases p with
  | idle =>
    refine ⟨rfl, ?_⟩
    cases who with
    | bthread s =>
      simp only [control, Joiner.wait, begin, Option.ite_none_right_eq_some, Option.some.injEq,
        Prod.mk.injEq] at h
      obtain ⟨-, -, rfl⟩ := h
      exact ⟨rfl, rfl⟩
    | pthread o =>
      cases o with
      | none =>
        simp only [control, Joiner.wait, begin, Option.some.injEq, Prod.mk.injEq] at h
        obtain ⟨-, rfl⟩ := h
        exact ⟨rfl, rfl⟩
      | some s =>
        simp only [control, Joiner.wait, begin, Option.ite_none_right_eq_some, Option.some.injEq,
          Prod.mk.injEq] at h
        obtain ⟨-, -, rfl⟩ := h
        exact ⟨rfl, rfl⟩
  | _ => simp [control] at h

/-- After the version was advanced, the value differs from what a joiner expects. -/
theorem Pc.AwaitsOrDone.differs (h : (s.pc w).AwaitsOrDone tid)
    (hv : s.mem.value (.version (getSlot tid)) ≠ getVersion tid) :
    Differs (.version (getSlot tid)) w s := by
  obtain h | ⟨r, h⟩ := h
  · refine ⟨fun y q hp hb he => hv ?_, fun y q hp hb he => hv ?_⟩
    all_goals
      rw [hp] at h
      exact he.trans h.2
  · refine ⟨fun y q hp => ?_, fun y q hp => ?_⟩
    all_goals
      rw [h] at hp
      cases hp

/-- A call that was not made is not in the queue. -/
theorem Out.of_idle (hs : system.Reachable s) (hw : s.pc w = .idle) : Out b w s := by
  have K := known hs
  have hb : (s.shape w).built = false := by rw [State.shape, hw]; rfl
  refine ⟨fun hm => ?_, fun hcomp => ?_, fun d hd => ?_⟩
  · have := K.memBuilt w (.inl ⟨b, hm⟩)
    rw [hb] at this
    cases this
  · rw [hw] at hcomp
    exact hcomp
  · obtain ⟨x, q, hp, hq⟩ := hd
    obtain ⟨base, hsh⟩ := hp.shape (c := d)
    have href : (s.shape d).Refers w := by
      rw [State.shape, hsh]
      cases q with
      | drain bt pt ex | reappend bt pt ex =>
        obtain rfl : ex = some w := hq
        exact .inr (.inl List.mem_cons_self)
      | remove bt pt ex v =>
        obtain rfl | rfl : ex = some w ∨ v = w := hq
        · exact .inr (.inl List.mem_cons_self)
        · exact .inr (.inr (.inr ⟨b, rfl⟩))
      | clear bt pt ex v =>
        obtain rfl | rfl : ex = some w ∨ v = w := hq
        · exact .inr (.inl (List.mem_cons_of_mem _ List.mem_cons_self))
        · exact .inr (.inl List.mem_cons_self)
      | _ => exact hq.elim
    have := K.callBuilt d w href
    rw [hb] at this
    cases this

/-! ## Waking the joiners -/

/-- `butex_wake_except` has not seen the queue empty. -/
def WakeExceptPc.Undrained : WakeExceptPc → Prop
  | .lock | .drain _ _ _ | .remove _ _ _ _ | .clear _ _ _ _ => True
  | _ => False

/-- The end of `task_runner` has advanced the version and has not seen the queue of the joiners
empty. -/
def EndPc.Undrained : EndPc → Prop
  | .bumpAgain | .unlock => True
  | .wakeExcept q => q.Undrained
  | _ => False

/-- The bthread `tid` ends and has not seen the queue of its joiners empty. -/
def Unwoken (s : State) (tid : Tid) : Prop :=
  ∃ c q, s.pc c = .endTask (getSlot tid) q ∧ q.Undrained ∧ s.mem.metaTid (getSlot tid) = tid

/-- The queue is drained before anything else. -/
theorem butexWakeExcept_undrained {x : Tid} {j : Bool} {q : WakeExceptPc}
    {r : WakeExceptPc ⊕ ℕ} (h : butexWakeExcept b x j q m = some (a, r)) (hq : q.Undrained) :
    ∃ q', r = .inl q' ∧ (q'.Undrained ∨ q'.Drained) := by
  have : Ensures (butexWakeExcept b x j q m) fun _ r => q.Undrained →
      ∃ q', r = .inl q' ∧ (q'.Undrained ∨ q'.Drained) := by
    fun_cases butexWakeExcept b x j q m
    case case17 u =>
      rw [Conc.ensures_inside]
      exact fun a r _ hq => hq.elim
    all_goals simp [WakeExceptPc.Undrained, WakeExceptPc.Drained]
  exact this a r h hq

/-- The end of `task_runner` empties the queue of the joiners. -/
theorem control_undrained {q : EndPc} (h : control c (.endTask t q) k m = some (a, p'))
    (hq : q.Undrained) :
    (∃ q', p' = .endTask t q' ∧ q'.Undrained) ∨ p'.Drained (.version t) 0 := by
  cases k with
  | call f => simp [control] at h
  | next o =>
    cases q with
    | bumpAgain =>
      simp only [control, endTask, within, Conc.goto, Sum.elim_inl, Option.some.injEq,
        Prod.mk.injEq] at h
      exact .inl ⟨_, h.2.symm, trivial⟩
    | unlock =>
      simp only [control, endTask, within, Conc.goto, Sum.elim_inl, Option.some.injEq,
        Prod.mk.injEq] at h
      exact .inl ⟨_, h.2.symm, trivial⟩
    | wakeExcept q =>
      have : Ensures (control c (.endTask t (.wakeExcept q)) (.next o) m) fun _ p' =>
          (∃ q', p' = .endTask t q' ∧ q'.Undrained) ∨ p'.Drained (.version t) 0 := by
        rw [control, ensures_within, endTask, Conc.ensures_inside]
        intro a r hr
        obtain ⟨q', rfl, hu | hd⟩ := butexWakeExcept_undrained hr hq
        · exact .inl ⟨_, rfl, hu⟩
        · exact .inr (.inr ⟨q', ⟨rfl, rfl, rfl⟩, hd⟩)
      exact this a p' h
    | _ => exact hq.elim

/-- A waiter for a bthread that has advanced its version stays where it is, or is taken out of the
queue. -/
theorem out_or_unwoken_step (hs : system.Reachable s)
    (hc : control c (s.pc c) k s.mem = some (a, p)) (hw : (s.pc w).AwaitsOrDone tid)
    (hv : s.mem.value (.version (getSlot tid)) ≠ getVersion tid)
    (hi : Out (.version (getSlot tid)) w s ∨ Unwoken s tid) :
    Out (.version (getSlot tid)) w (s.after c a p) ∨ Unwoken (s.after c a p) tid := by
  have h := step_shape hs hc
  have O := owned hs
  obtain hi | ⟨d, q, hd, hq, hm⟩ := hi
  · exact .inl (hi.step hs hc (hw.differs hv))
  have hm' : (s.after c a p).mem.metaTid (getSlot tid) = tid := by
    refine (h.metaTid_keep fun hx => ?_).trans hm
    obtain ⟨φ, hφ, hn, -⟩ := phase_of_endTask hd
    obtain rfl := O.unique d c _ φ _ hφ hx
    rw [hφ] at hx
    simp only [Option.some.injEq, Prod.mk.injEq] at hx
    exact hn hx.2
  by_cases hdc : d = c
  · subst hdc
    have hc₀ := hc
    rw [hd] at hc
    obtain ⟨q', rfl, hq'⟩ | hdr := control_undrained hc hq
    · exact .inr ⟨d, q', by simp, hq', hm'⟩
    · obtain hp | ⟨ha, hl, he, hp, hx⟩ := control_drained (x := 0) _ _ hc₀ hdr
      · rw [hd] at hp
        obtain ⟨j, bt, pt, hp, -⟩ | ⟨q', hp, hdq⟩ := hp
        · cases hp
        · cases q with
          | wakeExcept q =>
            obtain ⟨-, -, rfl⟩ := hp
            cases q <;> first | exact hq.elim | exact hdq.elim
          | _ => exact hp.elim
      · obtain ho | ⟨-, -, hn⟩ := out_of_drained (w := w) hs hc₀ ha hl he hp hx
        · exact .inl ho
        · exact absurd rfl hn
  · exact .inr ⟨d, q, by simpa [hdc] using hd, hq, hm'⟩

/-! ## Joiners -/

/-- The state of the system is reachable, and joiners are where the joins have put them. -/
structure Joined (x : Joins) : Prop where
  state : system.Reachable x.state
  inside : ∀ j tid who q, x.joining j = .inside tid who q → x.state.mem.handedOut tid = true
  done : ∀ j tid, x.joining j = .done tid .ok → x.state.mem.handedOut tid = true ∧
    (x.state.mem.terminations (getSlot tid) < 2 ^ 32 - 1 →
      (getVersion tid).toNat < 1 + x.state.mem.terminations (getSlot tid))
  made : ∀ w tid, x.made w = some tid → (x.state.pc w).AwaitsOrDone tid
  woken : ∀ w tid, x.made w = some tid → x.state.mem.handedOut tid = true →
    x.state.mem.terminations (getSlot tid) < 2 ^ 32 - 1 →
      x.state.mem.value (.version (getSlot tid)) ≠ getVersion tid →
        Out (.version (getSlot tid)) w x.state ∨ Unwoken x.state tid

/-- Identifiers stay handed out. -/
theorem handedOut_mono (h : m.handedOut tid = true) : (a.apply c m).handedOut tid = true := by
  cases a with
  | setTid t =>
    by_cases ht : tid = makeTid (m.value (.version t)) t
    · simp [Access.apply, ht]
    · simpa [Access.apply, ht] using h
  | _ => exact h

/-- The version of an identifier is behind when it is not the one of the slot. -/
theorem lt_of_version_ne (hs : system.Reachable s) (ht : s.mem.handedOut tid = true)
    (hb : s.mem.terminations (getSlot tid) < 2 ^ 32 - 1) :
    s.mem.value (.version (getSlot tid)) ≠ getVersion tid ↔
      (getVersion tid).toNat < 1 + s.mem.terminations (getSlot tid) := by
  have h₁ := (numbered hs).value _ hb
  have h₂ := (numbered hs).past tid ht hb
  rw [ne_eq, ← UInt32.toNat_inj, h₁]
  omega

/-- Every access keeps where joiners are. -/
theorem Joined.access {x : Joins} (hx : Joined x)
    (hc : control c (x.state.pc c) k x.state.mem = some (a, p)) :
    Joined { x with state := x.state.after c a p } := by
  have hs := hx.state
  have h := step_shape hs hc
  have le {t : SlotId} : x.state.mem.terminations t ≤ (x.state.after c a p).mem.terminations t :=
    terminations_mono
  refine ⟨reachable_after hs hc, fun j tid who q hj => handedOut_mono (hx.inside j tid who q hj),
    fun j tid hj => ?_, fun w tid hw => ?_, fun w tid hw ht hb hv => ?_⟩
  · obtain ⟨ht, hlt⟩ := hx.done j tid hj
    refine ⟨handedOut_mono ht, fun hb => ?_⟩
    have h₀ := le (t := getSlot tid)
    have h₁ := hlt (lt_of_le_of_lt h₀ hb)
    change _ < 1 + (x.state.after c a p).mem.terminations (getSlot tid)
    omega
  · by_cases hwc : w = c
    · subst hwc
      simpa using control_awaits hc (hx.made w tid hw)
    · simpa [hwc] using hx.made w tid hw
  · have hb₀ := lt_of_le_of_lt (le (t := getSlot tid)) hb
    obtain ht₀ | ⟨t, rfl, rfl⟩ := handedOut_apply ht
    · by_cases hv₀ : x.state.mem.value (.version (getSlot tid)) = getVersion tid
      · -- the bthread advances its version
        obtain he | rfl | rfl := version_apply (c := c) (m := x.state.mem) (a := a)
          (t := getSlot tid)
        · exact absurd (he.trans hv₀) hv
        · obtain ⟨-, hp⟩ := (control_task _ _ hc).bumpVersion _ rfl
          have hm := ((numbered hs).live tid ht₀ hb₀
            (by rw [← hv₀]; exact (numbered hs).value _ hb₀)).2
          obtain rfl | rfl := hp
          · exact .inr ⟨c, .bumpAgain, by simp, trivial, hm⟩
          · exact .inr ⟨c, .unlock, by simp, trivial, hm⟩
        · have h₀ := ((owned hs).task c _ _ h.phase.1).2
          have h₁ := (numbered hs).value _ hb₀
          rw [h₀, UInt32.toNat_zero] at h₁
          omega
      · exact out_or_unwoken_step hs hc (hx.made w tid hw) hv₀ (hx.woken w tid hw ht₀ hb₀ hv₀)
    · simp [Access.apply] at hv

/-- A step of the system is an access. -/
theorem Joined.system_step {x : Joins} (hx : Joined x) {y : CallId × Move} {s : State}
    (h : system.next x.state y = some s) : Joined { x with state := s } := by
  obtain ⟨a, p, hc, rfl⟩ := system_next h
  exact hx.access hc

/-- A joiner goes on in `join`. -/
theorem Joined.next {x : Joins} (hx : Joined x) {j : ℕ} {tid : Tid} {who : Joiner} {q : JoinPc}
    {r : Joining} (hj : x.joining j = .inside tid who q) (hr : join tid who x.state q = some r) :
    Joined { x with joining := update x.joining j r } := by
  have ht := hx.inside j tid who q hj
  have of : r = .inside tid who .addressMeta ∨ r = .inside tid who .self ∨
      r = .inside tid who .load ∨ r = .inside tid who .wait ∨ r = .done tid .einval ∨
        (∃ e, r = .done tid (.errno e)) ∨
          r = .done tid .ok ∧ x.state.mem.value (.version (getSlot tid)) ≠ getVersion tid := by
    fun_cases join tid who x.state q <;> grind [join]
  refine ⟨hx.state, fun i tid' who' q' hi => ?_, fun i tid' hi => ?_, hx.made, hx.woken⟩
  · by_cases hij : i = j
    · subst hij
      obtain rfl : r = .inside tid' who' q' := by simpa using hi
      obtain rfl : tid' = tid := by
        simp only [Joining.inside.injEq, reduceCtorEq, false_and, exists_false, or_false] at of
        tauto
      exact ht
    · exact hx.inside i tid' who' q' (by simpa [hij] using hi)
  · by_cases hij : i = j
    · subst hij
      obtain rfl : r = .done tid' .ok := by simpa using hi
      obtain ⟨rfl, hv⟩ : tid' = tid ∧
          x.state.mem.value (.version (getSlot tid)) ≠ getVersion tid := by simpa using of
      exact ⟨ht, fun hb => (lt_of_version_ne hx.state ht hb).mp hv⟩
    · exact hx.done i tid' (by simpa [hij] using hi)

/-- **Joiners are where the joins have put them.** -/
theorem Joined.step {x x' : Joins} {y : JoinMove} (hx : Joined x) (h : joins.next x y = some x') :
    Joined x' := by
  cases y with
  | system y =>
    obtain ⟨s, hs, rfl⟩ := Option.map_eq_some_iff.mp h
    exact hx.system_step hs
  | join j tid who =>
    simp only [joins, Option.ite_none_right_eq_some, Option.some.injEq] at h
    obtain ⟨⟨-, ht⟩, rfl⟩ := h
    refine ⟨hx.state, fun i tid' who' q' hi => ?_, fun i tid' hi => ?_, hx.made, hx.woken⟩
    · by_cases hij : i = j
      · subst hij
        obtain ⟨rfl, -⟩ : tid = tid' ∧ who = who' ∧ JoinPc.start = q' := by simpa using hi
        exact ht
      · exact hx.inside i tid' who' q' (by simpa [hij] using hi)
    · by_cases hij : i = j
      · subst hij
        simp at hi
      · exact hx.done i tid' (by simpa [hij] using hi)
  | next j =>
    simp only [joins] at h
    split at h
    next tid who q hj =>
      obtain ⟨r, hr, rfl⟩ := Option.map_eq_some_iff.mp h
      exact hx.next hj hr
    next => cases h
  | wait j c =>
    simp only [joins] at h
    split at h
    next tid who hj =>
      obtain ⟨s, hs, rfl⟩ := Option.map_eq_some_iff.mp h
      obtain ⟨a, p, hc, rfl⟩ := system_next hs
      obtain ⟨hidle, hp⟩ := control_joinerWait hc
      have hx' := hx.access hc
      refine ⟨hx'.state, fun i tid' who' q' hi => ?_, fun i tid' hi => ?_, fun w tid' hw => ?_,
        fun w tid' hw ht hb hv => ?_⟩
      · by_cases hij : i = j
        · subst hij
          obtain ⟨rfl, -⟩ : tid = tid' ∧ who = who' ∧ JoinPc.waiting c = q' := by simpa using hi
          exact handedOut_mono (hx.inside i tid who _ hj)
        · exact hx'.inside i tid' who' q' (by simpa [hij] using hi)
      · by_cases hij : i = j
        · subst hij
          simp at hi
        · exact hx'.done i tid' (by simpa [hij] using hi)
      · by_cases hwc : w = c
        · subst hwc
          obtain rfl : tid = tid' := by simpa using hw
          exact .inl (by simpa using hp)
        · exact hx'.made w tid' (by simpa [hwc] using hw)
      · by_cases hwc : w = c
        · -- a wait that is just made is not in the queue
          subst hwc
          have hdiff : Differs (.version (getSlot tid')) w x.state :=
            ⟨fun y q hq => (by rw [hidle] at hq; cases hq),
              fun y q hq => (by rw [hidle] at hq; cases hq)⟩
          exact .inl ((Out.of_idle hx.state hidle).step hx.state hc hdiff)
        · exact hx'.woken w tid' (by simpa [hwc] using hw) ht hb hv
    next => cases h

/-- **Joiners are where the joins have put them**, in every run. -/
theorem joined {x : Joins} (hx : joins.Reachable x) : Joined x := by
  refine hx.invariant (fun x hi => ?_) fun x y x' _ ih _ h => ih.step h
  obtain ⟨hi, hj, hm⟩ := hi
  refine ⟨.of_init hi, fun j tid who q h => ?_, fun j tid h => ?_, fun w tid h => ?_,
    fun w tid h => ?_⟩
  · simp [hj] at h
  · simp [hj] at h
  · simp [hm] at h
  · simp [hm] at h

/-! ## The law -/

/-- Whoever waits for the end of the bthread `tid` is out of the queue for good. -/
structure Settled (tid : Tid) (x : Joins) : Prop where
  handedOut : x.state.mem.handedOut tid = true
  version : x.state.mem.terminations (getSlot tid) < 2 ^ 32 - 1 →
    x.state.mem.value (.version (getSlot tid)) ≠ getVersion tid
  out : x.state.mem.terminations (getSlot tid) < 2 ^ 32 - 1 →
    ∀ w, x.made w = some tid → Out (.version (getSlot tid)) w x.state

/-- Every access keeps it. -/
theorem Settled.access {x : Joins} (h : Settled tid x) (hx : Joined x)
    (hc : control c (x.state.pc c) k x.state.mem = some (a, p)) :
    Settled tid { x with state := x.state.after c a p } := by
  have hle : x.state.mem.terminations (getSlot tid) ≤
      (x.state.after c a p).mem.terminations (getSlot tid) := terminations_mono
  refine ⟨handedOut_mono h.handedOut, fun hb => ?_, fun hb w hw => ?_⟩
  · have hb₀ := lt_of_le_of_lt hle hb
    have h₁ := (lt_of_version_ne hx.state h.handedOut hb₀).mp (h.version hb₀)
    refine (lt_of_version_ne (reachable_after hx.state hc) (handedOut_mono h.handedOut) hb).mpr ?_
    omega
  · have hb₀ := lt_of_le_of_lt hle hb
    exact (h.out hb₀ w hw).step hx.state hc ((hx.made w tid hw).differs (h.version hb₀))

/-- Every step keeps it: a joiner that waits again finds the version advanced. -/
theorem Settled.step {x x' : Joins} {y : JoinMove} (h : Settled tid x) (hx : Joined x)
    (hn : joins.next x y = some x') : Settled tid x' := by
  cases y with
  | system y =>
    obtain ⟨s, hs, rfl⟩ := Option.map_eq_some_iff.mp hn
    obtain ⟨a, p, hc, rfl⟩ := system_next hs
    exact h.access hx hc
  | join j tid' who =>
    simp only [joins, Option.ite_none_right_eq_some, Option.some.injEq] at hn
    obtain ⟨-, rfl⟩ := hn
    exact ⟨h.handedOut, h.version, h.out⟩
  | next j =>
    simp only [joins] at hn
    split at hn
    next tid' who q hj =>
      obtain ⟨r, -, rfl⟩ := Option.map_eq_some_iff.mp hn
      exact ⟨h.handedOut, h.version, h.out⟩
    next => cases hn
  | wait j c =>
    simp only [joins] at hn
    split at hn
    next tid' who hj =>
      obtain ⟨s, hs, rfl⟩ := Option.map_eq_some_iff.mp hn
      obtain ⟨a, p, hc, rfl⟩ := system_next hs
      obtain ⟨hidle, -⟩ := control_joinerWait hc
      have h' := h.access hx hc
      refine ⟨h'.handedOut, h'.version, fun hb w hw => ?_⟩
      by_cases hwc : w = c
      · subst hwc
        have hdiff : Differs (.version (getSlot tid)) w x.state :=
          ⟨fun y q hq => (by rw [hidle] at hq; cases hq),
            fun y q hq => (by rw [hidle] at hq; cases hq)⟩
        exact (Out.of_idle hx.state hidle).step hx.state hc hdiff
      · exact h'.out hb w (by simpa [hwc] using hw)
    next => cases hn

end Bthread
