import Bthread.Tasks

set_option relaxedAutoImplicit false
set_option autoImplicit false

/-!
# Slots and identifiers

A `TaskMeta` slot is used by one bthread after the other; the version word tells them apart. As
long as the word does not come around, the version of an ended bthread never becomes current again,
and nothing that is addressed by its identifier reaches the bthreads that use the slot later.

## Main definitions

* `Bthread.Live` — the task of a slot has an identifier and has not advanced its version.
* `Bthread.Numbered` — versions count terminations, and only live tasks have a current version.
* `Bthread.Mem.exists`, `Bthread.Mem.isStopped` — `exists(tid)` and `is_stopped(tid)`.
* `Bthread.Mem.fields` — the fields of a `TaskMeta`.

## Main results

* `Bthread.numbered` — versions in reachable states.
* `Bthread.tid_isolation` — identifiers are unique, and those of ended bthreads reach nothing.
-/

namespace Bthread

open Function (update update_self update_of_ne)
open Conc (Ensures)

variable {s : State} {c d w : CallId} {m : Mem} {sh : CallId → Shape} {a : Access} {y : Shape}
  {t : SlotId}

/-! ## Live tasks -/

/-- The task of the slot has an identifier and has not advanced its version. -/
def Live (m : Mem) (sh : CallId → Shape) (t : SlotId) : Prop :=
  Identified m sh t ∧ m.run t ≠ .ended ∧ ¬Terminating sh t

/-- A slot that is being started is not live. -/
theorem Owned.not_live_of_starting (O : Owned m sh) (hx : (sh c).phase = some (t, .starting)) :
    ¬Live m sh t := by
  rintro ⟨⟨-, hr⟩ | ⟨d, hd⟩, -, -⟩
  · exact hr (O.task c t _ hx)
  · obtain rfl := O.unique c d t _ _ hx hd
    simp [hx] at hd

section Step

variable (L : Locked m sh) (K : Known m sh) (O : Owned m sh) (h : Shape.Step c m a (sh c) y)
include L K O h

/-- A call whose task is named stays where it is until the task is pushed. -/
theorem Owned.identified_keep (hl : Live m sh t) :
    Identified (a.apply c m) (update sh c y) t ∧ (a.apply c m).run t ≠ .ended := by
  obtain ⟨hi, hr, ht⟩ := hl
  have hm := O.run_moves L K h t
  obtain ⟨h1, h2⟩ | ⟨d, hd⟩ := hi
  · generalize m.run t = r at hm h1 h2 hr
    generalize hr' : (a.apply c m).run t = r' at hm
    cases hm with
    | keep => exact ⟨.inl (by simp [hr', h1, h2]), hr⟩
    | start | main => exact absurd rfl h2
    | get => exact absurd rfl h1
    | release => exact absurd rfl hr
    | finish hx => exact absurd ⟨c, .inr hx⟩ ht
    | _ => exact ⟨.inl (by simp [hr']), by simp⟩
  · have hs : m.run t = .starting := O.task d t _ hd
    rw [hs] at hm
    have hne : (a.apply c m).run t ≠ .ended := by
      generalize (a.apply c m).run t = r' at hm
      cases hm <;> simp
    refine ⟨?_, hne⟩
    by_cases hdc : d = c
    · subst hdc
      have same : y.phase = (sh d).phase → Identified (a.apply d m) (update sh d y) t :=
        fun hy => .inr ⟨d, by simp [hy, hd]⟩
      have hph := h.phase
      cases a with
      | push t' =>
        obtain ⟨-, -, s, ⟨hx, rfl, -⟩ | ⟨hx, -⟩ | ⟨hx, -⟩⟩ | ⟨hy, -⟩ | ⟨hy, -⟩ := h.push t' rfl
        · obtain rfl : s = t := by simpa [hx] using hd
          have hg := (O.slot_of_phase hd (by simp)).1
          exact .inl (by simp [Access.apply, Mem.push, hg, hs, RunState.pushed])
        · simp [hd] at hx
        · simp [hd] at hx
        · exact same hy
        · exact same hy
      | _ => exact same (by simp only [PhaseChange] at hph; grind)
    · exact .inr ⟨d, by simpa [hdc] using hd⟩

/-- Only advancing the version ends a task. -/
theorem Owned.live_keep (hl : Live m sh t) (ha : a ≠ .bumpVersion t) :
    Live (a.apply c m) (update sh c y) t := by
  obtain ⟨hi, hr⟩ := O.identified_keep L K h hl
  refine ⟨hi, hr, ?_⟩
  rintro ⟨d, hd⟩
  refine hl.2.2 ?_
  by_cases hdc : d = c
  · subst hdc
    refine ⟨d, ?_⟩
    rw [update_self] at hd
    have hph := h.phase
    cases a with
    | push t' =>
      obtain ⟨-, -, s, ⟨-, -, hy⟩ | ⟨-, -, hy⟩ | ⟨-, -, hy⟩⟩ | ⟨hy, -⟩ | ⟨hy, -⟩ := h.push t' rfl
      · simp [hy] at hd
      · simp [hy] at hd
      · simp [hy] at hd
      · rwa [hy] at hd
      · rwa [hy] at hd
    | bumpVersion s =>
      have hs : s = t := by
        rw [hph.2] at hd
        split_ifs at hd <;> simpa using hd
      exact absurd (by rw [hs]) ha
    | _ => simp only [PhaseChange] at hph; grind
  · exact ⟨d, by simpa [hdc] using hd⟩

end Step

/-! ## Versions -/

/-- Versions count terminations, and an identifier that was handed out and whose version is current
is that of a live task, as long as the version word of the slot has not come around. -/
structure Numbered (m : Mem) (sh : CallId → Shape) : Prop where
  value : ∀ t, m.terminations t < 2 ^ 32 - 1 →
    (m.value (.version t)).toNat = 1 + m.terminations t
  past : ∀ t, m.handedOut t = true → m.terminations (getSlot t) < 2 ^ 32 - 1 →
    (getVersion t).toNat ≤ 1 + m.terminations (getSlot t)
  live : ∀ t, m.handedOut t = true → m.terminations (getSlot t) < 2 ^ 32 - 1 →
    (getVersion t).toNat = 1 + m.terminations (getSlot t) →
    Live m sh (getSlot t) ∧ m.metaTid (getSlot t) = t

/-- An access terminates at most the bthread that makes it. -/
theorem terminations_apply (c : CallId) (a : Access) (m : Mem) (t : SlotId) :
    (a.apply c m).terminations t = m.terminations t + if a = .bumpVersion t then 1 else 0 := by
  cases a with
  | bumpVersion s =>
    by_cases hs : t = s
    · subst hs; simp [Access.apply]
    · simp [Access.apply, hs, Ne.symm hs]
  | _ => simp [Access.apply, Mem.push]

/-- An access hands out at most the identifier of the slot that it starts. -/
theorem handedOut_apply {t : Tid} (ht : (a.apply c m).handedOut t = true) :
    m.handedOut t = true ∨ ∃ s, a = .setTid s ∧ t = makeTid (m.value (.version s)) s := by
  cases a with
  | setTid s =>
    by_cases h : t = makeTid (m.value (.version s)) s
    · exact .inr ⟨s, rfl, h⟩
    · exact .inl (by simpa [Access.apply, h] using ht)
  | _ => exact .inl ht

namespace Numbered

variable (L : Locked m sh) (K : Known m sh) (O : Owned m sh) (N : Numbered m sh)
  (h : Shape.Step c m a (sh c) y)
include O N h

theorem value_step (t : SlotId) (ht : (a.apply c m).terminations t < 2 ^ 32 - 1) :
    ((a.apply c m).value (.version t)).toNat = 1 + (a.apply c m).terminations t := by
  rw [terminations_apply] at ht ⊢
  have ih := N.value t (by omega)
  cases a with
  | bumpVersion s =>
    by_cases hs : s = t
    · subst hs
      rw [if_pos rfl] at ht ⊢
      simp only [Access.apply, update_self, UInt32.toNat_add, ih, UInt32.toNat_one]
      omega
    · simpa [Access.apply, hs, Ne.symm hs] using ih
  | skipVersion s =>
    by_cases hs : s = t
    · subst hs
      have h0 := (O.task c s _ h.phase.1).2
      rw [h0, UInt32.toNat_zero] at ih
      omega
    · simpa [Access.apply, Ne.symm hs] using ih
  | _ => simpa [Access.apply, Mem.push] using ih

omit O in
theorem past_step (t : Tid) (ht : (a.apply c m).handedOut t = true)
    (hb : (a.apply c m).terminations (getSlot t) < 2 ^ 32 - 1) :
    (getVersion t).toNat ≤ 1 + (a.apply c m).terminations (getSlot t) := by
  rw [terminations_apply] at hb ⊢
  obtain ht | ⟨s, rfl, rfl⟩ := handedOut_apply ht
  · have := N.past t ht (by omega)
    omega
  · have := N.value s (by simpa using hb)
    simp [this]

include L K in
theorem live_step (t : Tid) (ht : (a.apply c m).handedOut t = true)
    (hb : (a.apply c m).terminations (getSlot t) < 2 ^ 32 - 1)
    (hv : (getVersion t).toNat = 1 + (a.apply c m).terminations (getSlot t)) :
    Live (a.apply c m) (update sh c y) (getSlot t) ∧ (a.apply c m).metaTid (getSlot t) = t := by
  rw [terminations_apply] at hb hv
  obtain ht | ⟨s, rfl, rfl⟩ := handedOut_apply ht
  · have hpast := N.past t ht (by omega)
    have ha : a ≠ .bumpVersion (getSlot t) := by
      rintro rfl
      rw [if_pos rfl] at hv
      omega
    rw [if_neg ha] at hb hv
    obtain ⟨hl, hm⟩ := N.live t ht hb hv
    refine ⟨O.live_keep L K h hl ha, ?_⟩
    rw [h.metaTid_keep fun hx => O.not_live_of_starting hx hl, hm]
  · rw [getSlot_makeTid]
    have hph := h.phase
    have hr : m.run s = .starting := O.task c s _ hph.1
    refine ⟨⟨.inr ⟨c, by simp [hph.2]⟩, by simp [Access.apply, hr], ?_⟩, by simp [Access.apply]⟩
    rintro ⟨d, hd⟩
    by_cases hdc : d = c
    · subst hdc
      simp [hph.2] at hd
    · simp only [update_of_ne hdc] at hd
      obtain hd | hd := hd
      all_goals exact hdc (O.unique d c s _ _ hd hph.1)

end Numbered

/-- **Versions count terminations.** -/
theorem numbered (hs : system.Reachable s) : Numbered s.mem s.shape := by
  refine shape_invariant (J := fun m sh => Locked m sh ∧ Known m sh ∧ Owned m sh)
    (fun _ hs => ⟨locked hs, known hs, owned hs⟩) (fun m hm => ⟨?_, ?_, ?_⟩) ?_ hs
  · intro t _
    simp [hm.version, hm.terminations]
  · intro t ht
    simp [hm.handedOut] at ht
  · intro t ht
    simp [hm.handedOut] at ht
  · intro m sh c a y ⟨L, K, O⟩ _ N h
    exact ⟨N.value_step O h, N.past_step h, N.live_step L K O h⟩

/-! ## Ended bthreads -/

/-- `TaskGroup::exists(tid)`. -/
def Mem.exists (m : Mem) (tid : Tid) : Bool :=
  tid ≠ 0 && m.allocated (getSlot tid) && m.value (.version (getSlot tid)) == getVersion tid

/-- `TaskGroup::is_stopped(tid)`, read under `version_lock`. -/
def Mem.isStopped (m : Mem) (tid : Tid) : Bool :=
  if m.allocated (getSlot tid) && m.value (.version (getSlot tid)) == getVersion tid then
    m.stop (getSlot tid)
  else true

/-- The fields of a `TaskMeta`. -/
structure TaskFields where
  version : UInt32
  tid : Tid
  currentWaiter : Option CallId
  currentSleep : TimerId
  interrupted : Bool
  stop : Bool

/-- The fields of the `TaskMeta` of a slot. -/
def Mem.fields (m : Mem) (t : SlotId) : TaskFields where
  version := m.value (.version t)
  tid := m.metaTid t
  currentWaiter := m.currentWaiter t
  currentSleep := m.currentSleep t
  interrupted := m.interrupted t
  stop := m.stop t

/-- An initial memory. -/
def Mem.initial : Mem where
  value b := match b with
    | .user _ => 0
    | .version _ => 1
  waiters _ := []
  waiterLock _ := none
  tid _ := 0
  container _ := none
  sleepId _ := 0
  waiterState _ := .none
  sig _ := false
  metaTid _ := 0
  currentWaiter _ := none
  currentSleep _ := 0
  interrupted _ := false
  stop _ := false
  versionLock _ := none
  allocated _ := false
  run _ := .free
  call _ := none
  ready := []
  remained _ := false
  timerFn _ := none
  timerState _ := .absent
  nextTimer := 1
  keytable _ := false
  custody _ := .none
  enqueues _ := 0
  removedBy _ := []
  handedBy _ := []
  tainted _ := false
  pushes _ := 0
  callbackBy _ := none
  unscheduledBy _ := none
  fnFinished _ := false
  handedOut _ := false
  terminations _ := 0

/-- It is one. -/
theorem Mem.initial_initial : Mem.initial.Initial := by
  constructor <;> intros <;> rfl

/-- A bthread is started and runs, up to the end of its `fn`. -/
def startAndRun : List (CallId × Move) :=
  [(0, .call .startTask), (0, .next (.slot 0)), (0, .next .go), (0, .next .go), (0, .next .go),
   (0, .next .go), (1, .call (.schedTo (makeTid 1 0))), (2, .call (.endTask 0)), (2, .next .go),
   (2, .next .go), (2, .next .go)]

end Bthread
