import Bthread.Queues

set_option relaxedAutoImplicit false
set_option autoImplicit false

/-!
# Tasks

The part of the ownership invariant that is about tasks: where a bthread is agrees with the call it
is inside, and its identifier is in a run queue exactly when it is runnable.

## Main definitions

* `Bthread.RunMoves` — how a task goes on.

## Main results

* `Bthread.Owned.task_step`, `Bthread.Owned.run_moves` — tasks after an access.
* `Bthread.owned` — the ownership invariant holds in reachable states.
-/

namespace Bthread

open Function (update update_self update_of_ne)

variable {s : State} {c d w : CallId} {m : Mem} {sh : CallId → Shape} {a : Access} {y : Shape}
  {u v : Custody} {t : SlotId} {φ : Phase}

/-- A call gets a slot by entering or by `get_resource`. -/
theorem Shape.Step.phase_of {x : Shape} (h : Shape.Step c m a x y) (hy : y.phase = some (t, φ)) :
    (∃ ψ, x.phase = some (t, ψ)) ∨ a = .enter t ∨ a = .getResource t := by
  have hp := h.phase
  cases a with
  | push t' =>
    obtain ⟨-, -, s, ⟨-, -, hy'⟩ | ⟨hx, -, hy'⟩ | ⟨hx, -, hy'⟩⟩ | ⟨hy', -⟩ | ⟨hy', -⟩ :=
      h.push t' rfl
    all_goals simp_all
  | bumpVersion t' =>
    obtain ⟨hx, hy'⟩ := hp
    split_ifs at hy' <;> simp_all
  | _ =>
    simp only [PhaseChange] at hp
    grind

/-- A call that is switched out is not exempt. -/
theorem Owned.untainted_of_away (L : Locked m sh) (K : Known m sh) (O : Owned m sh)
    (hp : (sh d).phase = some (t, .switched) ∨ (sh d).phase = some (t, .callback) ∨
      (sh d).phase = some (t, .suspended)) : m.tainted d = false := by
  have self : (sh d).self = some t → m.tainted d = false :=
    fun hs => K.untainted (O.tid_of_self L hs).2.2.1
  obtain hp | hp | hp := hp
  · exact (K.unbuilt d ((L.wf d).switched t hp)).2
  · exact self ((L.wf d).callback t hp).1
  · obtain hb | hs := (L.wf d).suspended t hp
    · exact (K.unbuilt d hb).2
    · exact self hs

section Step

variable (L : Locked m sh) (K : Known m sh) (R : Running m sh) (O : Owned m sh)
  (h : Shape.Step c m a (sh c) y)
include L K O h

omit L K O in
/-- An identifier that is pushed is that of the task of its call. -/
theorem Shape.Step.run_of_pushed (he : a.entrust c m = some (w, .pushed)) :
    ∃ s, m.call s = some w ∧ (a.apply c m).run s = (m.run s).pushed := by
  cases a with
  | push t =>
    have hc : m.call (getSlot t) = some w := by
      cases hc : m.call (getSlot t) <;> simp_all [Access.entrust]
    exact ⟨_, hc, by simp [Access.apply, Mem.push]⟩
  | handOff w' =>
    have hc : m.call (getSlot (m.tid w')) = some w := by
      cases hc : m.call (getSlot (m.tid w')) <;> simp_all [Access.entrust]
    exact ⟨_, hc, by simp [Access.apply, Mem.push]⟩
  | schedule fn => cases fn <;> simp [Access.entrust] at he
  | _ => simp_all [Access.entrust]

/-- The state of a task whose call is not changed: it only becomes runnable or is switched to. -/
theorem Owned.run_keep (hp : (sh d).phase = some (t, φ))
    (hd : d = c → y.phase = (sh c).phase) :
    (a.apply c m).run t = m.run t ∨
      φ = .suspended ∧ m.run t = .ready ∧ (a.apply c m).run t = .running ∨
      φ = .suspended ∧ m.run t = .blocked ∧ (a.apply c m).run t = .ready ∧
        a.entrust c m = some (d, .pushed) := by
  have hT := O.task d t φ hp
  have hc : ∀ ψ, (sh c).phase = some (t, ψ) → y.phase = some (t, ψ) := by
    intro ψ hx
    rw [hd (O.unique d c t φ ψ hp hx), hx]
  -- a bthread that is woken is inside the call `d`
  have woken : ∀ e, m.call t = some e → m.run t = .blocked → m.custody e ≠ .callback →
      e = d ∧ φ = .suspended := by
    intro e he hr hu
    obtain ⟨ψ, hψ, -⟩ := Shape.phase_of_owner ((L.call t e).mp he)
    obtain rfl := O.unique d e t φ ψ hp hψ
    refine ⟨rfl, ?_⟩
    cases φ <;> simp_all [TaskOk]
  have hph := h.phase
  cases a with
  | push t' =>
    obtain ⟨s, -, rfl, hP⟩ := O.pushes_of L K (h.push t' rfl)
    by_cases hs : t = getSlot t'
    · subst hs
      cases hP with
      | start hx _ _ hy => simp [hc _ hx] at hy
      | requeue hx _ _ _ hy =>
        obtain hx | hx := hx <;> simp [hc _ hx] at hy
      | wake e hr hce hu _ _ _ _ =>
        obtain ⟨rfl, rfl⟩ := woken e hce hr (by simp [hu])
        exact .inr (.inr ⟨rfl, hr, by simp [Access.apply, Mem.push, hr, RunState.pushed],
          by simp [Access.entrust, hce]⟩)
    · exact .inl (by simp [Access.apply, Mem.push, hs])
  | handOff w =>
    obtain ⟨s, -, hr, hu, -, hg, hce⟩ := O.handOff_of L K
      (h.queue.2.2.2.1.symm.subset List.mem_cons_self) h.queue.2.2.2.2
    by_cases hs : t = s
    · subst hs
      obtain ⟨rfl, rfl⟩ := woken w hce hr (by simp [hu])
      exact .inr (.inr ⟨rfl, hr, by simp [Access.apply, Mem.push, hg, hr, RunState.pushed],
        by simp [Access.entrust, hg, hce]⟩)
    · exact .inl (by simp [Access.apply, Mem.push, hg, hs])
  | suspendWait s | suspendSleep s | suspendYield s | suspendEnd s | setMainTid s =>
    by_cases hs : t = s
    · subst hs
      have := hc _ hph.1
      simp [hph.2] at this
    · exact .inl (by simp [Access.apply, hs])
  | returnResource s =>
    by_cases hs : t = s
    · subst hs
      have := hc _ hph.1
      simp [hph.2] at this
    · exact .inl (by simp [Access.apply, hs])
  | getResource s =>
    by_cases hs : t = s
    · subst hs
      have := hph.2.1
      cases φ <;> simp_all [TaskOk]
    · exact .inl (by simp [Access.apply, hs])
  | schedTo t' =>
    by_cases hs : t = getSlot t'
    · subst hs
      have hr : m.run (getSlot t') = .ready := by
        have hct := O.ready t'
        have := List.count_pos_iff.mpr hph.1
        by_contra hn
        simp [hn] at hct
        omega
      have : φ = .suspended := by cases φ <;> simp_all [TaskOk]
      exact .inr (.inl ⟨this, hr, by simp [Access.apply]⟩)
    · exact .inl (by simp [Access.apply, hs])
  | _ => exact .inl rfl

omit L K in
/-- The version of a task whose call is not changed. -/
theorem Owned.version_keep (hp : (sh d).phase = some (t, φ))
    (hd : d = c → y.phase = (sh c).phase) :
    (a.apply c m).value (.version t) = m.value (.version t) := by
  have hc : ∀ ψ, (sh c).phase = some (t, ψ) → y.phase = some (t, ψ) := by
    intro ψ hx
    rw [hd (O.unique d c t φ ψ hp hx), hx]
  have hph := h.phase
  cases a with
  | bumpVersion s =>
    have : t ≠ s := by
      rintro rfl
      have := hc _ hph.1
      rw [hph.2] at this
      split_ifs at this <;> simp at this
    simp [Access.apply, this]
  | skipVersion s =>
    have : t ≠ s := by
      rintro rfl
      have := hc _ hph.1
      simp [hph.2] at this
    simp [Access.apply, this]
  | store n v => simp [Access.apply]
  | _ => rfl

/-- A call that waits for its own callback and is not changed keeps waiting for it. -/
theorem Owned.callback_keep
    (hp : (sh d).phase = some (t, .switched) ∨ (sh d).phase = some (t, .callback))
    (hd : d = c → y.phase = (sh c).phase) (hu : m.custody d = .callback) :
    (a.apply c m).custody d = .callback := by
  have hw := O.untainted_of_away L K (hp.imp_right .inl)
  by_cases hn : ∃ v, a.entrust c m = some (d, v)
  · obtain ⟨v, he⟩ := hn
    obtain ⟨rfl, ⟨b, rfl⟩ | ⟨t', -, -, s, -, -, -, hy⟩⟩ := h.entrust_of_callback L K O hw hu he
    · obtain ⟨-, -, -, -, -, ⟨-, -, -, -, -, -, -, ⟨hf, -⟩ | ⟨s, hx⟩⟩ | ⟨hx, -⟩⟩ := h.queue
      · simp [(O.fresh d hw hf).1] at hu
      · obtain ⟨-, s', -, hy⟩ | ⟨hn, -⟩ := h.phase
        · rw [hd rfl, hx] at hy
          simp at hy
        · exact absurd hx (hn s)
      · simp [O.sound d _ hw (.unlinked (d := d) (by simp [hx]))] at hu
    · rw [hd rfl] at hy
      simp [hy] at hp
  · rw [custody_of_not_entrust fun v hv => hn ⟨v, hv⟩, hu]

/-- A pushed call is not handed over any more. -/
theorem Owned.pushed_keep (hw : m.tainted w = false) (hu : m.custody w = .pushed) :
    (a.apply c m).custody w = .pushed := by
  by_cases hn : ∃ v, a.entrust c m = some (w, v)
  · obtain ⟨v, he⟩ := hn
    have hm := (O.handover L K h hw he).1
    rw [hu] at hm
    cases hm
  · rw [custody_of_not_entrust fun v hv => hn ⟨v, hv⟩, hu]

omit L in
/-- The identifier of a suspended call. -/
theorem Owned.tid_keep (hp : (sh d).phase = some (t, .suspended)) (hu : m.custody d ≠ .none)
    (h0 : m.tid d ≠ 0) : (a.apply c m).tid d ≠ 0 := by
  have hne : ∀ s, (sh c).phase = some (s, .active) → d ≠ c := by
    rintro s hx rfl
    simp [hp] at hx
  cases a with
  | initBthreadWaiter s | initSleepArgs s => simpa [Access.apply, hne s h.phase.1] using h0
  | initPthreadWaiter o =>
    have hd : d ≠ c := by
      rintro rfl
      exact hu (O.fresh d (K.untainted h0) (h.ages.initPthread o rfl).2.2.2).1
    simpa [Access.apply, hd] using h0
  | _ => exact h0

/-- A suspended call is handed over to somebody else, or pushed. -/
theorem Owned.suspended_keep (hp : (sh d).phase = some (t, .suspended)) (h0 : m.tid d ≠ 0)
    (hr : m.run t = .blocked) (hr' : (a.apply c m).run t = m.run t)
    (hu : (m.custody d).Waits ∧ m.custody d ≠ .callback ∨ m.custody d = .lost) :
    ((a.apply c m).custody d).Waits ∧ (a.apply c m).custody d ≠ .callback ∨
      (a.apply c m).custody d = .lost := by
  by_cases hn : ∃ v, a.entrust c m = some (d, v)
  · obtain ⟨v, he⟩ := hn
    have hm := (O.handover L K h (K.untainted h0) he).1
    have hv : v ≠ .pushed := by
      rintro rfl
      obtain ⟨s, hc, hs⟩ := h.run_of_pushed he
      have ho := (L.call s d).mp hc
      obtain rfl : t = s := by simpa [Shape.owner, hp] using ho
      simp [hs, hr, RunState.pushed] at hr'
    have hv' : v ≠ .signalled := by
      rintro rfl
      cases a with
      | wakeupPthread w =>
        obtain rfl : w = d := by simpa [Access.entrust] using he
        exact h0 (h.queue.2.2.2.2.elim id (K.pts c w))
      | schedule fn => cases fn <;> simp [Access.entrust] at he
      | _ => simp_all [Access.entrust]
    rw [custody_of_entrust he]
    generalize m.custody d = u₀ at hm hu
    cases hm <;> simp_all [Custody.Waits]
  · rwa [custody_of_not_entrust fun v hv => hn ⟨v, hv⟩]

/-- The state of a task whose call is not changed. -/
theorem Owned.task_keep (hp : (sh d).phase = some (t, φ))
    (hd : d = c → y.phase = (sh c).phase) : TaskOk (a.apply c m) d t φ := by
  have hT := O.task d t φ hp
  have hrun := O.run_keep L K h hp hd
  by_cases hφ : φ = .suspended
  · subst hφ
    have hw := O.untainted_of_away L K (.inr (.inr hp))
    obtain hr | ⟨-, hr, hr'⟩ | ⟨-, -, hr', he⟩ := hrun
    · obtain ⟨hr₀, h0, hu⟩ | ⟨hr₀, hu⟩ := hT
      · have hne : m.custody d ≠ .none := by
          intro hu'
          simp [hu', Custody.Waits] at hu
        exact .inl ⟨hr.trans hr₀, O.tid_keep K h hp hne h0,
          O.suspended_keep L K h hp h0 hr₀ hr hu⟩
      · exact .inr ⟨by rwa [hr], O.pushed_keep L K h hw hu⟩
    · obtain ⟨hr₀, -⟩ | ⟨-, hu⟩ := hT
      · simp [hr] at hr₀
      · exact .inr ⟨.inr hr', O.pushed_keep L K h hw hu⟩
    · exact .inr ⟨.inl hr', custody_of_entrust he⟩
  · have hr : (a.apply c m).run t = m.run t := by simpa [hφ] using hrun
    have hv := O.version_keep h hp hd
    cases φ with
    | switched => exact ⟨hr.trans hT.1, O.callback_keep L K h (.inl hp) hd hT.2⟩
    | callback => exact ⟨hr.trans hT.1, O.callback_keep L K h (.inr hp) hd hT.2⟩
    | suspended => exact absurd rfl hφ
    | _ => simp only [TaskOk] at hT ⊢; simpa [hr, hv] using hT

theorem Owned.task_step (d : CallId) (t : SlotId) (φ : Phase)
    (hp : (update sh c y d).phase = some (t, φ)) : TaskOk (a.apply c m) d t φ := by
  by_cases hd : d = c
  · subst hd
    rw [update_self] at hp
    by_cases hsame : y.phase = (sh d).phase
    · exact O.task_keep L K h (hsame ▸ hp) fun _ => hsame
    · have hph := h.phase
      have old : ∀ s ψ, (sh d).phase = some (s, ψ) → TaskOk m d s ψ := O.task d
      cases a with
      | nop =>
        obtain hy | ⟨s, hx, hr, hy⟩ := hph
        · exact absurd hy hsame
        · obtain ⟨rfl, rfl⟩ : s = t ∧ .active = φ := by simpa [hy] using hp
          exact hr
      | enter s =>
        obtain ⟨-, -, ⟨hr, hy⟩ | ⟨hr, hy⟩⟩ := hph
        · obtain ⟨rfl, rfl⟩ : s = t ∧ .active = φ := by simpa [hy] using hp
          exact hr
        · obtain ⟨rfl, rfl⟩ : s = t ∧ .pthread = φ := by simpa [hy] using hp
          exact hr
      | leave s =>
        obtain ⟨-, hy⟩ | ⟨hx, hy⟩ := hph
        · simp [hy] at hp
        · obtain ⟨rfl, rfl⟩ : s = t ∧ .released = φ := by simpa [hy] using hp
          exact old s _ hx
      | append b w =>
        obtain ⟨rfl, s, hx, hy⟩ | ⟨-, hy⟩ := hph
        · obtain ⟨rfl, rfl⟩ : s = t ∧ .suspended = φ := by simpa [hy] using hp
          refine .inl ⟨(old s _ hx).1, ?_, .inl ?_⟩
          · exact (O.tid_of_self L ((L.wf w).callback s hx).1).2.2.1
          · rw [custody_of_entrust (w := w) (u := .linked b) rfl]
            simp [Custody.Waits]
        · exact absurd hy hsame
      | suspendWait s =>
        obtain ⟨rfl, rfl⟩ : s = t ∧ .callback = φ := by simpa [hph.2] using hp
        exact ⟨by simp [Access.apply], by simp [Access.apply]⟩
      | suspendYield s =>
        obtain ⟨rfl, rfl⟩ : s = t ∧ .switched = φ := by simpa [hph.2] using hp
        exact ⟨by simp [Access.apply], by simp [Access.apply]⟩
      | suspendSleep s =>
        obtain ⟨rfl, rfl⟩ : s = t ∧ .suspended = φ := by simpa [hph.2] using hp
        have hs := (h.ages.waits s (.inr rfl)).2.2.2.1
        refine .inl ⟨by simp [Access.apply], (O.tid_of_self L hs).2.2.1, .inl ?_⟩
        simp [Access.apply, Custody.Waits]
      | suspendEnd s =>
        obtain ⟨rfl, rfl⟩ : s = t ∧ .ended = φ := by simpa [hph.2] using hp
        simp [TaskOk, Access.apply]
      | getResource s =>
        obtain ⟨rfl, rfl⟩ : s = t ∧ .starting = φ := by simpa [hph.2.2] using hp
        simp [TaskOk, Access.apply]
      | setTid s =>
        obtain ⟨rfl, rfl⟩ : s = t ∧ .named = φ := by simpa [hph.2] using hp
        exact old s _ hph.1
      | setMainTid s => simp [hph.2] at hp
      | returnResource s => simp [hph.2] at hp
      | bumpVersion s =>
        obtain ⟨hx, hy⟩ := hph
        have hr : m.run s = .running := old s _ hx
        rw [hy] at hp
        split_ifs at hp with hv
        · obtain ⟨rfl, rfl⟩ : s = t ∧ .wrapping = φ := by simpa using hp
          exact ⟨hr, by simpa [Access.apply] using hv⟩
        · obtain ⟨rfl, rfl⟩ : s = t ∧ .ending = φ := by simpa using hp
          exact hr
      | skipVersion s =>
        obtain ⟨rfl, rfl⟩ : s = t ∧ .ending = φ := by simpa [hph.2] using hp
        exact (old s _ hph.1).1
      | push t' =>
        obtain ⟨s, -, hg, hP⟩ := O.pushes_of L K (h.push t' rfl)
        cases hP with
        | start _ _ _ hy => simp [hy] at hp
        | requeue hx hr hc hu hy =>
          obtain ⟨rfl, rfl⟩ : s = t ∧ .suspended = φ := by simpa [hy] using hp
          refine .inr ⟨.inl ?_, custody_of_entrust ?_⟩
          · obtain hr | hr := hr <;> simp [Access.apply, Mem.push, hg, hr, RunState.pushed]
          · simp [Access.entrust, hg, hc]
        | wake e _ _ _ _ hy _ _ => exact absurd hy hsame
      | initBthreadWaiter s | initSleepArgs s | initTask s => exact absurd hph.2 hsame
      | schedTo t' => exact absurd hph.2 hsame
      | _ => exact absurd hph hsame
  · exact O.task_keep L K h (by simpa [hd] using hp) fun hc => absurd hc hd

omit K in
theorem Owned.unique_step (d e : CallId) (t : SlotId) (φ ψ : Phase)
    (hd : (update sh c y d).phase = some (t, φ)) (he : (update sh c y e).phase = some (t, ψ)) :
    d = e := by
  -- nobody is in a slot that a call gets
  have new : ∀ e ψ, a = .enter t ∨ a = .getResource t → (sh e).phase = some (t, ψ) → False := by
    rintro e ψ (rfl | rfl) hx
    · obtain ⟨-, hc, hr⟩ := h.phase
      have hT := O.task e t ψ hx
      have ho : (sh e).owner ≠ some t := fun ho => by simp [(L.call t e).mpr ho] at hc
      cases ψ <;> simp_all [Shape.owner, TaskOk]
    · have hT := O.task e t ψ hx
      have hr := h.phase.2.1
      cases ψ <;> simp_all [TaskOk]
  have other : ∀ e φ ψ, y.phase = some (t, φ) → (sh e).phase = some (t, ψ) → e = c := by
    intro e φ ψ hy hx
    obtain ⟨χ, hx'⟩ | ha := h.phase_of hy
    · exact O.unique e c t ψ χ hx hx'
    · exact (new e ψ ha hx).elim
  by_cases hdc : d = c
  · by_cases hec : e = c
    · rw [hdc, hec]
    · subst hdc
      exact (other e φ ψ (by simpa using hd) (by simpa [hec] using he)).symm
  · by_cases hec : e = c
    · subst hec
      exact other d ψ φ (by simpa using he) (by simpa [hdc] using hd)
    · exact O.unique d e t φ ψ (by simpa [hdc] using hd) (by simpa [hec] using he)

end Step

/-- `RunMoves c m x a t r r'`: an access of a call of shape `x` turns the state `r` of the task of
slot `t` into `r'`. -/
inductive RunMoves (m : Mem) (x : Shape) (a : Access) (t : SlotId) : RunState → RunState → Prop
  | keep {r : RunState} : RunMoves m x a t r r
  | start (hx : x.phase = some (t, .named)) : RunMoves m x a t .starting .ready
  | requeue : RunMoves m x a t .switched .ready
  | wake : RunMoves m x a t .blocked .ready
  | schedTo (hr : m.metaTid t ∈ m.ready) (ha : a = .schedTo (m.metaTid t)) :
    RunMoves m x a t .ready .running
  | block (hx : x.phase = some (t, .active)) : RunMoves m x a t .running .blocked
  | yield (hx : x.phase = some (t, .active)) : RunMoves m x a t .running .switched
  | finish (hx : x.phase = some (t, .ending)) : RunMoves m x a t .running .ended
  | get (ha : a = .getResource t) : RunMoves m x a t .free .starting
  | main (hx : x.phase = some (t, .starting)) (ha : a = .setMainTid t) :
    RunMoves m x a t .starting .main
  | release (hx : x.phase = some (t, .released)) (ha : a = .returnResource t) :
    RunMoves m x a t .ended .free

/-- An identifier in a run queue is that of a runnable task. -/
theorem Owned.run_of_ready (O : Owned m sh) {t : Tid} (ht : t ∈ m.ready) :
    m.run (getSlot t) = .ready ∧ m.metaTid (getSlot t) = t := by
  have hct := O.ready t
  have := List.count_pos_iff.mpr ht
  by_contra hn
  rw [if_neg hn] at hct
  omega

section Step

variable (L : Locked m sh) (K : Known m sh) (R : Running m sh) (O : Owned m sh)
  (h : Shape.Step c m a (sh c) y)
include L K O h

/-- **How a task goes on.** -/
theorem Owned.run_moves (t : SlotId) :
    RunMoves m (sh c) a t (m.run t) ((a.apply c m).run t) := by
  have hph := h.phase
  have keep : ∀ s r, t ≠ s → RunMoves m (sh c) a t (m.run t) (update m.run s r t) := by
    intro s r hs
    rw [update_of_ne hs]
    exact .keep
  have old : ∀ ψ, (sh c).phase = some (t, ψ) → TaskOk m c t ψ := O.task c t
  cases a with
  | push t' =>
    obtain ⟨s, -, rfl, hP⟩ := O.pushes_of L K (h.push t' rfl)
    by_cases hs : t = getSlot t'
    · subst hs
      simp only [Access.apply, Mem.push, update_self]
      cases hP with
      | start hx hr _ _ => rw [hr]; exact .start hx
      | requeue _ hr _ _ _ => obtain hr | hr := hr <;> rw [hr] <;> constructor
      | wake e hr _ _ _ _ _ _ => rw [hr]; exact .wake
    · exact keep _ _ hs
  | handOff w =>
    obtain ⟨s, -, hr, -, -, hg, -⟩ := O.handOff_of L K
      (h.queue.2.2.2.1.symm.subset List.mem_cons_self) h.queue.2.2.2.2
    by_cases hs : t = s
    · subst hs
      simp only [Access.apply, Mem.push, hg, update_self, hr]
      exact .wake
    · exact keep _ _ (hg ▸ hs)
  | suspendWait s =>
    by_cases hs : t = s
    · subst hs
      simp only [Access.apply, update_self, show m.run t = .running from old _ hph.1]
      exact .block hph.1
    · exact keep _ _ hs
  | suspendSleep s =>
    by_cases hs : t = s
    · subst hs
      simp only [Access.apply, update_self, show m.run t = .running from old _ hph.1]
      exact .block hph.1
    · exact keep _ _ hs
  | suspendYield s =>
    by_cases hs : t = s
    · subst hs
      simp only [Access.apply, update_self, show m.run t = .running from old _ hph.1]
      exact .yield hph.1
    · exact keep _ _ hs
  | suspendEnd s =>
    by_cases hs : t = s
    · subst hs
      simp only [Access.apply, update_self, show m.run t = .running from old _ hph.1]
      exact .finish hph.1
    · exact keep _ _ hs
  | getResource s =>
    by_cases hs : t = s
    · subst hs
      simp only [Access.apply, update_self, hph.2.1]
      exact .get rfl
    · exact keep _ _ hs
  | setMainTid s =>
    by_cases hs : t = s
    · subst hs
      simp only [Access.apply, update_self, show m.run t = .starting from old _ hph.1]
      exact .main hph.1 rfl
    · exact keep _ _ hs
  | returnResource s =>
    by_cases hs : t = s
    · subst hs
      simp only [Access.apply, update_self, show m.run t = .ended from old _ hph.1]
      exact .release hph.1 rfl
    · exact keep _ _ hs
  | schedTo t' =>
    by_cases hs : t = getSlot t'
    · subst hs
      obtain ⟨hr, ht⟩ := O.run_of_ready hph.1
      simp only [Access.apply, update_self, hr]
      exact .schedTo (by rw [ht]; exact hph.1) (by rw [ht])
    · exact keep _ _ hs
  | _ => exact .keep

omit L K O in
/-- The identifier of a task is only set while the task is started. -/
theorem Shape.Step.metaTid_keep (hx : (sh c).phase ≠ some (t, .starting)) :
    (a.apply c m).metaTid t = m.metaTid t := by
  cases a with
  | setTid s | setMainTid s =>
    have : t ≠ s := by rintro rfl; exact hx h.phase.1
    simp [Access.apply, this]
  | _ => rfl

omit L K O in
/-- The identifier in an object on the stack is only set by the construction of the object. -/
theorem Shape.Step.tid_apply (w : CallId) :
    (a.apply c m).tid w = m.tid w ∨
      w = c ∧ (sh c).built = false ∧ (sh c).fresh = true ∧ a.entrust c m = none := by
  cases a with
  | initBthreadWaiter s =>
    obtain ⟨hb, -, -, hf⟩ := h.ages.init s (.inl rfl)
    by_cases hw : w = c
    · exact .inr ⟨hw, hb, hf, rfl⟩
    · exact .inl (by simp [Access.apply, hw])
  | initSleepArgs s =>
    obtain ⟨hb, -, -, hf⟩ := h.ages.init s (.inr rfl)
    by_cases hw : w = c
    · exact .inr ⟨hw, hb, hf, rfl⟩
    · exact .inl (by simp [Access.apply, hw])
  | initPthreadWaiter o =>
    obtain ⟨hb, -, -, hf⟩ := h.ages.initPthread o rfl
    by_cases hw : w = c
    · exact .inr ⟨hw, hb, hf, rfl⟩
    · exact .inl (by simp [Access.apply, hw])
  | _ => exact .inl rfl

omit K in
theorem Owned.self_step (d : CallId) (t : SlotId) (hd : (update sh c y d).self = some t) :
    (a.apply c m).tid d = (a.apply c m).metaTid t := by
  have hself : (sh d).self = some t ∨
      d = c ∧ (a = .initBthreadWaiter t ∨ a = .initSleepArgs t) := by
    by_cases hdc : d = c
    · subst hdc
      exact (h.learns.self t (by simpa using hd)).imp_right fun ha => ⟨rfl, ha⟩
    · exact .inl (by simpa [hdc] using hd)
  obtain hs | ⟨rfl, rfl | rfl⟩ := hself
  · obtain ⟨hb, hp⟩ := (L.wf d).self t hs
    have hx : (sh c).phase ≠ some (t, .starting) := by
      intro hx
      obtain hp | hp | hp := hp
      all_goals
        obtain rfl := O.unique d c t _ _ hp hx
        simp [hp] at hx
    rw [h.tid_eq hb, h.metaTid_keep hx, O.self d t hs]
  · simp [Access.apply]
  · simp [Access.apply]

/-- What has an identifier had one before, or is given one. -/
theorem Owned.identified_of (hi : Identified (a.apply c m) (update sh c y) t) :
    Identified m sh t ∨
      (sh c).phase = some (t, .starting) ∧ (a = .setTid t ∨ a = .setMainTid t) := by
  obtain ⟨h1, h2⟩ | ⟨d, hd⟩ := hi
  · have hm := O.run_moves L K h t
    generalize hr : m.run t = r at hm
    generalize (a.apply c m).run t = r' at hm h1 h2
    cases hm with
    | keep => exact .inl (.inl (by simp [hr, h1, h2]))
    | start hx => exact .inl (.inr ⟨c, hx⟩)
    | get => exact absurd rfl h2
    | release => exact absurd rfl h1
    | main hx ha => exact .inr ⟨hx, .inr ha⟩
    | _ => exact .inl (.inl (by simp [hr]))
  · by_cases hdc : d = c
    · subst hdc
      rw [update_self] at hd
      have hph := h.phase
      cases a with
      | push t' =>
        obtain ⟨-, -, s, ⟨-, -, hy'⟩ | ⟨hx, -, hy'⟩ | ⟨hx, -, hy'⟩⟩ | ⟨hy', -⟩ | ⟨hy', -⟩ :=
          h.push t' rfl
        · simp [hy'] at hd
        · simp [hy'] at hd
        · simp [hy'] at hd
        · exact .inl (.inr ⟨d, hy' ▸ hd⟩)
        · exact .inl (.inr ⟨d, hy' ▸ hd⟩)
      | setTid s =>
        obtain ⟨hx, hy⟩ := hph
        obtain rfl : s = t := by simpa [hy] using hd
        exact .inr ⟨hx, .inl rfl⟩
      | bumpVersion s =>
        obtain ⟨-, hy⟩ := hph
        rw [hy] at hd
        split_ifs at hd <;> simp at hd
      | _ =>
        refine .inl (.inr ⟨d, ?_⟩)
        simp only [PhaseChange] at hph
        grind
    · exact .inl (.inr ⟨d, by simpa [hdc] using hd⟩)

omit L K h in
/-- The version of a slot is not `0` while the slot is handed out. -/
theorem Owned.value_ne_zero (hx : (sh c).phase = some (t, .starting)) :
    m.value (.version t) ≠ 0 := by
  obtain hv | ⟨d, hd⟩ := O.versionNe t
  · exact hv
  · obtain rfl := O.unique c d t _ _ hx hd
    simp [hx] at hd

theorem Owned.identified_step (t : SlotId)
    (hi : Identified (a.apply c m) (update sh c y) t) :
    getSlot ((a.apply c m).metaTid t) = t ∧ (a.apply c m).metaTid t ≠ 0 := by
  by_cases hx : (sh c).phase = some (t, .starting) ∧ (a = .setTid t ∨ a = .setMainTid t)
  · have hm : (a.apply c m).metaTid t = makeTid (m.value (.version t)) t := by
      obtain ⟨-, rfl | rfl⟩ := hx <;> simp [Access.apply]
    rw [hm]
    exact ⟨getSlot_makeTid _ _, makeTid_ne_zero (O.value_ne_zero hx.1) t⟩
  · have hi' : Identified m sh t := (O.identified_of L K h hi).resolve_right hx
    have hm : (a.apply c m).metaTid t = m.metaTid t := by
      cases a with
      | setTid s =>
        have : t ≠ s := by rintro rfl; exact hx ⟨h.phase.1, .inl rfl⟩
        simp [Access.apply, this]
      | setMainTid s =>
        have : t ≠ s := by rintro rfl; exact hx ⟨h.phase.1, .inr rfl⟩
        simp [Access.apply, this]
      | _ => rfl
    rw [hm]
    exact O.identified t hi'

end Step

section Step

variable (L : Locked m sh) (K : Known m sh) (R : Running m sh) (O : Owned m sh)
  (h : Shape.Step c m a (sh c) y)
include L K O h

omit K in
/-- A bthread that is waiting stays suspended. -/
theorem Owned.waits_keep (h0 : m.tid w ≠ 0) (hu : (m.custody w).Waits)
    (hne : m.custody w ≠ .callback) :
    ∃ t, (update sh c y w).phase = some (t, .suspended) ∧ (update sh c y w).self = some t := by
  obtain ⟨t, hp, hs, hr, -⟩ := O.blocked_of_waits L h0 hu hne
  refine ⟨t, ?_⟩
  by_cases hw : w = c
  · subst hw
    rw [update_self]
    have hy : y.phase = some (t, .suspended) := by
      have hph := h.phase
      cases a with
      | nop =>
        obtain hy | ⟨s, hx, hr', -⟩ := hph
        · rw [hy, hp]
        · obtain rfl : t = s := by simpa [hp] using hx
          simp [hr] at hr'
      | push t' =>
        obtain ⟨-, -, s, ⟨hx, -⟩ | ⟨hx, -⟩ | ⟨hx, -⟩⟩ | ⟨hy, -⟩ | ⟨hy, -⟩ := h.push t' rfl
        · simp [hp] at hx
        · simp [hp] at hx
        · simp [hp] at hx
        · rw [hy, hp]
        · rw [hy, hp]
      | _ => simp only [PhaseChange] at hph; grind
    exact ⟨hy, by rw [h.ages.suspended t hy, hs]⟩
  · simpa [hw] using ⟨hp, hs⟩

theorem Owned.waits_step (w : CallId) (h0 : (a.apply c m).tid w ≠ 0)
    (hu : ((a.apply c m).custody w).Waits) (hne : (a.apply c m).custody w ≠ .callback) :
    ∃ t, (update sh c y w).phase = some (t, .suspended) ∧ (update sh c y w).self = some t := by
  obtain ht | ⟨rfl, hb, hf, he⟩ := h.tid_apply w
  · rw [ht] at h0
    have hw := K.untainted h0
    by_cases hold : (m.custody w).Waits ∧ m.custody w ≠ .callback
    · exact O.waits_keep L h h0 hold.1 hold.2
    · have hn : ∃ v, a.entrust c m = some (w, v) := by
        by_contra hn
        rw [custody_of_not_entrust fun v hv => hn ⟨v, hv⟩] at hu hne
        exact hold ⟨hu, hne⟩
      obtain ⟨v, he⟩ := hn
      rw [custody_of_entrust he] at hu hne
      by_cases hcb : m.custody w = .callback
      · obtain ⟨rfl, ⟨b, rfl⟩ | ⟨t', -, rfl, -⟩⟩ := h.entrust_of_callback L K O hw hcb he
        · obtain ⟨-, -, -, -, -, ⟨-, -, -, -, -, -, -, ⟨hf, -⟩ | ⟨s, hx⟩⟩ | ⟨hx, -⟩⟩ := h.queue
          · simp [(O.fresh w hw hf).1] at hcb
          · obtain ⟨-, s', hx', hy⟩ | ⟨hn, -⟩ := h.phase
            · have hs := ((L.wf w).callback s' hx').1
              exact ⟨s', by simp [hy], by simp [h.ages.suspended s' hy, hs]⟩
            · exact absurd hx (hn s)
          · simp [O.sound w _ hw (.unlinked (d := w) (by simp [hx]))] at hcb
        · exact hu.elim
      · have hnone : m.custody w = .none := by
          have hm := (O.handover L K h hw he).1
          generalize m.custody w = u₀ at hm hold hcb
          cases hm <;> simp_all [Custody.Waits]
        obtain ⟨rfl, hf, -⟩ := h.entrust_of_none L K O hw hnone he
        have hm := (O.handover L K h hw he).1
        rw [hnone] at hm
        cases hm with
        | callback => exact absurd rfl hne
        | remained =>
          cases a with
          | suspendSleep s =>
            exact ⟨s, by simp [h.phase.2], by simp [(h.ages.waits s (.inr rfl)).2.2.2.2]⟩
          | schedule fn => cases fn <;> simp [Access.entrust] at he
          | _ => simp_all [Access.entrust]
        | enqueue =>
          obtain rfl := eq_append he
          obtain ⟨-, -, -, -, -, ⟨-, -, hb, -, -, -, -, ⟨-, hs⟩ | ⟨s, hx⟩⟩ | ⟨hx, -⟩⟩ := h.queue
          · exact absurd (K.pthread w hf hb hs) h0
          · simp [(O.task w s _ hx).2] at hnone
          · simp [O.sound w _ hw (.unlinked (d := w) (by simp [hx]))] at hnone
  · have hw := (K.unbuilt w hb).2
    have hnone := (O.fresh w hw hf).1
    rw [custody_of_not_entrust fun v hv => by simp [he] at hv, hnone] at hu
    exact hu.elim

theorem Owned.version_step (t : SlotId) (hi : Identified (a.apply c m) (update sh c y) t)
    (hr : (a.apply c m).run t ≠ .ended) :
    (a.apply c m).value (.version t) = getVersion ((a.apply c m).metaTid t) ∨
      Terminating (update sh c y) t := by
  have hph := h.phase
  by_cases hx : (sh c).phase = some (t, .starting) ∧ (a = .setTid t ∨ a = .setMainTid t)
  · left
    obtain ⟨-, rfl | rfl⟩ := hx <;> simp [Access.apply]
  · have hi' : Identified m sh t := (O.identified_of L K h hi).resolve_right hx
    have hr' : m.run t ≠ .ended := by
      intro hr'
      have hm := O.run_moves L K h t
      rw [hr'] at hm
      generalize hr₁ : (a.apply c m).run t = r at hm hr
      cases hm with
      | keep => exact hr rfl
      | release hx' ha =>
        obtain ⟨h1, -⟩ | ⟨d, hd⟩ := hi
        · exact h1 hr₁
        · by_cases hdc : d = c
          · subst hdc ha
            simp [hph.2] at hd
          · have hd' : (sh d).phase = some (t, .named) := by simpa [hdc] using hd
            exact hdc (O.unique d c t _ _ hd' hx')
    by_cases hb : a = .bumpVersion t ∨ a = .skipVersion t
    · right
      refine ⟨c, ?_⟩
      rw [update_self]
      obtain rfl | rfl := hb
      · rw [hph.2]
        split_ifs <;> simp
      · exact .inr hph.2
    · have hv : (a.apply c m).value (.version t) = m.value (.version t) := by
        cases a with
        | bumpVersion s | skipVersion s =>
          have : t ≠ s := by rintro rfl; simp at hb
          simp [Access.apply, this]
        | store n v => simp [Access.apply]
        | _ => rfl
      have hm : (a.apply c m).metaTid t = m.metaTid t := by
        cases a with
        | setTid s =>
          have : t ≠ s := by rintro rfl; exact hx ⟨h.phase.1, .inl rfl⟩
          simp [Access.apply, this]
        | setMainTid s =>
          have : t ≠ s := by rintro rfl; exact hx ⟨h.phase.1, .inr rfl⟩
          simp [Access.apply, this]
        | _ => rfl
      rw [hv, hm]
      refine (O.version t hi' hr').imp_right ?_
      rintro ⟨d, hd⟩
      refine ⟨d, ?_⟩
      by_cases hdc : d = c
      · subst hdc
        rw [update_self]
        have hsame : y.phase = (sh d).phase := by
          cases a with
          | push t' =>
            obtain ⟨-, -, s, ⟨hx, -⟩ | ⟨hx, -⟩ | ⟨hx, -⟩⟩ | ⟨hy, -⟩ | ⟨hy, -⟩ := h.push t' rfl
            · simp [hx] at hd
            · simp [hx] at hd
            · simp [hx] at hd
            · exact hy
            · exact hy
          | suspendEnd s =>
            obtain rfl : t = s := by
              obtain hd | hd := hd <;> simp [hph.1] at hd
              exact hd.symm
            simp [Access.apply] at hr
          | bumpVersion s => simp [hph.1] at hd
          | skipVersion s =>
            obtain rfl : s = t := by simpa [hph.1] using hd
            simp at hb
          | _ => simp only [PhaseChange] at hph; grind
        rw [hsame]
        exact hd
      · simpa [hdc] using hd

omit L K in
theorem Owned.versionNe_step (t : SlotId) :
    (a.apply c m).value (.version t) ≠ 0 ∨
      ∃ d, (update sh c y d).phase = some (t, .wrapping) := by
  have hph := h.phase
  by_cases hb : a = .bumpVersion t ∨ a = .skipVersion t
  · obtain rfl | rfl := hb
    · by_cases hv : m.value (.version t) + 1 = 0
      · exact .inr ⟨c, by simp [hph.2, hv]⟩
      · exact .inl (by simpa [Access.apply] using hv)
    · have hv : m.value (.version t) = 0 := (O.task c t _ hph.1).2
      exact .inl (by simp [Access.apply, hv])
  · have hv : (a.apply c m).value (.version t) = m.value (.version t) := by
      cases a with
      | bumpVersion s | skipVersion s =>
        have : t ≠ s := by rintro rfl; simp at hb
        simp [Access.apply, this]
      | store n v => simp [Access.apply]
      | _ => rfl
    rw [hv]
    refine (O.versionNe t).imp_right ?_
    rintro ⟨d, hd⟩
    refine ⟨d, ?_⟩
    by_cases hdc : d = c
    · subst hdc
      rw [update_self]
      cases a with
      | push t' =>
        obtain ⟨-, -, s, ⟨hx, -⟩ | ⟨hx, -⟩ | ⟨hx, -⟩⟩ | ⟨hy, -⟩ | ⟨hy, -⟩ := h.push t' rfl
        · simp [hx] at hd
        · simp [hx] at hd
        · simp [hx] at hd
        · rw [hy, hd]
        · rw [hy, hd]
      | skipVersion s =>
        obtain rfl : t = s := by simpa [hph.1] using hd.symm
        simp at hb
      | _ => simp only [PhaseChange] at hph; grind
    · simpa [hdc] using hd

omit L K h in
/-- A runnable task is in a run queue once. -/
theorem Owned.ready_push {s : SlotId} {t₀ t : Tid} {m' : Mem} (hs : m.metaTid s = t₀)
    (hg : getSlot t₀ = s) (hr : m.run s ≠ .ready) (hm : m'.metaTid = m.metaTid)
    (hq : m'.ready = t₀ :: m.ready) (hr' : m'.run = update m.run s .ready) :
    m'.ready.count t =
      if m'.run (getSlot t) = .ready ∧ m'.metaTid (getSlot t) = t then 1 else 0 := by
  have ih := O.ready t
  rw [hq, hm, hr', List.count_cons]
  by_cases ht : t₀ = t
  · subst ht
    simp_all
  · by_cases hgt : getSlot t = s
    · simp_all
    · simp_all

theorem Owned.ready_step (t : Tid) : (a.apply c m).ready.count t =
    if (a.apply c m).run (getSlot t) = .ready ∧ (a.apply c m).metaTid (getSlot t) = t
      then 1 else 0 := by
  have ih := O.ready t
  have hph := h.phase
  have old : ∀ s ψ, (sh c).phase = some (s, ψ) → TaskOk m c s ψ := O.task c
  -- a task that is not runnable stays so
  have other : ∀ {m' : Mem} (s : SlotId), m.run s ≠ .ready → m'.run s ≠ .ready →
      m'.ready = m.ready → (∀ s', s' ≠ s → m'.run s' = m.run s') →
      (∀ s', s' ≠ s → m'.metaTid s' = m.metaTid s') → m'.ready.count t =
        if m'.run (getSlot t) = .ready ∧ m'.metaTid (getSlot t) = t then 1 else 0 := by
    intro m' s h1 h2 h3 h4 h5
    by_cases hs : getSlot t = s
    · rw [h3, ih, hs]
      simp [h1, h2]
    · rw [h3, ih, h4 _ hs, h5 _ hs]
  cases a with
  | push t' =>
    obtain ⟨s, hs, hg, hP⟩ := O.pushes_of L K (h.push t' rfl)
    have hr : m.run s = .starting ∨ m.run s = .switched ∨ m.run s = .blocked := by
      cases hP with
      | start _ hr _ _ => exact .inl hr
      | requeue _ hr _ _ _ => exact .inr hr
      | wake _ hr _ _ _ _ _ _ => exact .inr (.inr hr)
    refine O.ready_push hs hg ?_ rfl rfl ?_
    · obtain hr | hr | hr := hr <;> simp [hr]
    · obtain hr | hr | hr := hr <;> simp [Access.apply, Mem.push, hg, hr, RunState.pushed]
  | handOff w =>
    obtain ⟨s, -, hr, -, hs, hg, -⟩ := O.handOff_of L K
      (h.queue.2.2.2.1.symm.subset List.mem_cons_self) h.queue.2.2.2.2
    refine O.ready_push hs hg (by simp [hr]) rfl rfl ?_
    simp [Access.apply, Mem.push, hg, hr, RunState.pushed]
  | schedTo t' =>
    obtain ⟨hr, ht⟩ := O.run_of_ready hph.1
    have hc := O.ready t'
    rw [if_pos ⟨hr, ht⟩] at hc
    by_cases htt : t = t'
    · subst htt
      simp [Access.apply, hc]
    · have hct : (m.ready.erase t').count t = m.ready.count t :=
        List.count_erase_of_ne htt
      by_cases hg : getSlot t = getSlot t'
      · have hne : m.metaTid (getSlot t) ≠ t := by
          rw [hg, ht]
          exact fun he => htt he.symm
        simpa [Access.apply, hct, hne] using ih
      · simpa [Access.apply, hct, hg] using ih
  | suspendWait s | suspendSleep s | suspendYield s | suspendEnd s =>
    have hr : m.run s = .running := old s _ hph.1
    exact other s (by simp [hr]) (by simp [Access.apply]) rfl
      (fun s' hs => by simp [Access.apply, hs]) fun _ _ => rfl
  | getResource s =>
    exact other s (by simp [hph.2.1]) (by simp [Access.apply]) rfl
      (fun s' hs => by simp [Access.apply, hs]) fun _ _ => rfl
  | returnResource s =>
    have hr : m.run s = .ended := old s _ hph.1
    exact other s (by simp [hr]) (by simp [Access.apply]) rfl
      (fun s' hs => by simp [Access.apply, hs]) fun _ _ => rfl
  | setTid s =>
    have hr : m.run s = .starting := old s _ hph.1
    exact other s (by simp [hr]) (by simp [Access.apply, hr]) rfl
      (fun s' hs => by simp [Access.apply]) fun s' hs => by simp [Access.apply, hs]
  | setMainTid s =>
    have hr : m.run s = .starting := old s _ hph.1
    exact other s (by simp [hr]) (by simp [Access.apply]) rfl
      (fun s' hs => by simp [Access.apply, hs]) fun s' hs => by simp [Access.apply, hs]
  | _ => exact ih

theorem Owned.sleeper_step (e : CallId)
    (he : (a.apply c m).remained e = true ∨ (a.apply c m).callbackBy e ≠ none) :
    (a.apply c m).tid e ≠ 0 := by
  have hold : (m.remained e = true ∨ m.callbackBy e ≠ none) ∨
      e = c ∧ ∃ s, a = .suspendSleep s := by
    cases a with
    | suspendSleep s =>
      by_cases hc : e = c
      · exact .inr ⟨hc, s, rfl⟩
      · exact .inl (by simpa [Access.apply, hc] using he)
    | runRemained e' =>
      by_cases hc : e = e'
      · subst hc; exact .inl (.inl h.sleep.1)
      · exact .inl (by simpa [Access.apply, hc] using he)
    | _ => exact .inl he
  obtain hold | ⟨rfl, s, rfl⟩ := hold
  · obtain ht | ⟨rfl, -, hf, -⟩ := h.tid_apply e
    · rw [ht]; exact O.sleeper e hold
    · obtain ⟨h1, h2⟩ := K.freshSleep e hf
      simp [h1, h2] at hold
  · exact (O.tid_of_self L (h.ages.waits s (.inr rfl)).2.2.2.1).2.2.1

omit h in
/-- The task of a sleep that waits for its timer, or to be pushed. -/
theorem Owned.sleep_blocked {e : CallId} {i : TimerId}
    (he : m.timerFn i = some (.readyToRunFromTimerThread e)) (hu : (m.custody e).Waits) :
    ∃ t, m.run t = .blocked ∧ m.tid e = m.metaTid t ∧ getSlot (m.tid e) = t ∧
      ¬Terminating sh t := by
  have h0 := O.sleeper e (.inr (K.sleepCalled i e he))
  have hb : (sh e).built = true := K.memBuilt e (.inr (.inr (.inl ⟨i, _, he, rfl⟩)))
  have of : ∀ t φ, (sh e).self = some t → (sh e).phase = some (t, φ) →
      φ = .callback ∨ φ = .suspended → m.run t = .blocked → ∃ t, m.run t = .blocked ∧
        m.tid e = m.metaTid t ∧ getSlot (m.tid e) = t ∧ ¬Terminating sh t := by
    intro t φ hs hp hφ hr
    obtain ⟨h1, h2, -⟩ := O.tid_of_self L hs
    refine ⟨t, hr, h1, h2, ?_⟩
    rintro ⟨d, hd | hd⟩
    all_goals
      obtain rfl := O.unique e d t _ _ hp hd
      rw [hp] at hd
      simp_all
  by_cases hne : m.custody e = .callback
  · have hcl := O.complete e (K.untainted h0) hu (by simp [hne])
    rw [hne] at hcl
    cases hcl with
    | @callback t hp => exact of t _ ((L.wf e).callback t hp).1 hp (.inl rfl) (O.task e t _ hp).1
    | @switched t hp => simp [(L.wf e).switched t hp] at hb
  · obtain ⟨t, hp, hs, hr, -⟩ := O.blocked_of_waits L h0 hu hne
    exact of t _ hs hp (.inr rfl) hr

theorem Owned.rescued_step (d : CallId) (t : Tid) (i : TimerId) (e : CallId)
    (hd : (update sh c y d).sleepId = some (t, i))
    (he : (a.apply c m).timerFn i = some (.readyToRunFromTimerThread e))
    (hu : ((a.apply c m).custody e).Waits) (hne : (a.apply c m).custody e ≠ .remained) :
    (a.apply c m).tid e = t := by
  have hold : (sh d).sleepId = some (t, i) ∨
      (sh c).matched = some t ∧ i = m.currentSleep (getSlot t) := by
    by_cases hdc : d = c
    · subst hdc; exact h.learns.sleepId (t, i) (by simpa using hd)
    · exact .inl (by simpa [hdc] using hd)
  -- the timer was there before
  have hf : m.timerFn i = some (.readyToRunFromTimerThread e) := by
    have hi0 : i ≠ 0 := by
      have := K.nextTimer
      cases a with
      | schedule fn =>
        rintro rfl
        have h0 : m.timerFn 0 = some (.readyToRunFromTimerThread e) := by
          simpa [Access.apply, this.ne] using he
        exact (K.timerFn 0 _ h0).1 rfl
      | _ => exact (K.timerFn i _ he).1
    have : ∃ e', m.timerFn i = some (.readyToRunFromTimerThread e') := by
      obtain hs | ⟨-, hs⟩ := hold
      · obtain ⟨e', he', -⟩ := K.sleepTimer d t i hs hi0
        exact ⟨e', he'⟩
      · obtain ⟨e', he', -⟩ := K.currentSleep (getSlot t) (hs ▸ hi0)
        exact ⟨e', hs ▸ he'⟩
    obtain ⟨e', he'⟩ := this
    have := K.timerFn_mono c a he'
    rw [he, Option.some.injEq, TimerFn.readyToRunFromTimerThread.injEq] at this
    rw [he', this]
  have hcb := K.sleepCalled i e hf
  have h0 := O.sleeper e (.inr hcb)
  have hw := K.untainted h0
  have htid : (a.apply c m).tid e = m.tid e :=
    h.tid_eq (K.memBuilt e (.inr (.inr (.inl ⟨i, _, hf, rfl⟩))))
  have hu' : (m.custody e).Waits ∧ m.custody e ≠ .remained := by
    have hnr : m.custody e ≠ .remained := by
      intro hr
      have hcl := O.complete e hw (by simp [hr, Custody.Waits]) (by simp [hr])
      rw [hr] at hcl
      cases hcl with
      | remained hr' => exact hcb (K.remained e hr')
    refine ⟨?_, hnr⟩
    by_cases hn : ∃ v, a.entrust c m = some (e, v)
    · obtain ⟨v, hev⟩ := hn
      have hm := (O.handover L K h hw hev).1
      have hnn : m.custody e ≠ .none := by
        intro hnone
        obtain ⟨rfl, hfr, -⟩ := h.entrust_of_none L K O hw hnone hev
        exact hcb (K.freshSleep e hfr).2
      generalize m.custody e = u₀ at hm hnn
      cases hm <;> simp_all [Custody.Waits]
    · rwa [custody_of_not_entrust fun v hv => hn ⟨v, hv⟩] at hu
  rw [htid]
  obtain hs | ⟨hmt, rfl⟩ := hold
  · exact O.rescued d t i e hs hf hu'.1 hu'.2
  · obtain ⟨s, hr, hts, hg, hnt⟩ := O.sleep_blocked L K hf hu'.1
    obtain ⟨e', he', hge⟩ := K.currentSleep (getSlot t) (K.timerFn _ _ hf).1
    obtain rfl : e = e' := by simpa [hf] using he'
    have hv : m.value (.version s) = getVersion (m.metaTid s) :=
      (O.version s (.inl (by simp [hr])) (by simp [hr])).resolve_right hnt
    have hvt := K.matched c t hmt
    rw [← makeTid_getVersion_getSlot t, ← makeTid_getVersion_getSlot (m.tid e), hge, ← hvt,
      ← hge, hg, hv, hts]

end Step

/-! ## The invariant -/

/-- Initially nobody waits. -/
theorem Owned.initial (hm : m.Initial) : Owned m fun _ => {} where
  sound := by
    intro w u _ hc
    cases hc <;> simp_all [hm.waiters, hm.remained, hm.timerFn]
  waiters := by simp [hm.waiters]
  unl := by simp
  hand := by simp
  complete := by simp [hm.custody, Custody.Waits]
  sel := by simp
  queueing := by simp
  linked := by simp [hm.custody]
  unlinked := by simp [hm.custody]
  container := by simp [hm.enqueues]
  fresh := by simp [hm.custody, hm.pushes, hm.enqueues]
  pushes := by simp [hm.custody, hm.pushes]
  task := by simp
  unique := by simp
  waits := by simp [hm.custody, Custody.Waits]
  self := by simp
  identified := by simp [Identified, hm.run]
  version := by simp [Identified, hm.run]
  versionNe := by simp [hm.version]
  ready := by simp [hm.ready, hm.run]
  sleeper := by simp [hm.remained, hm.callbackBy]
  rescued := by simp

/-- Every access keeps the invariant. -/
theorem Owned.step (L : Locked m sh) (K : Known m sh) (R : Running m sh) (O : Owned m sh)
    (h : Shape.Step c m a (sh c) y) : Owned (a.apply c m) (update sh c y) where
  sound := O.sound_step L K h
  waiters := O.waiters_step L K h
  unl := O.unl_step L K h
  hand := O.hand_step L K h
  complete := O.complete_step L K R h
  sel := O.sel_step L K h
  queueing := O.queueing_step L K h
  linked := O.linked_step h
  unlinked := O.unlinked_step L h
  container := O.container_step L K h
  fresh := O.fresh_step L K h
  pushes := O.pushes_step L K h
  task := O.task_step L K h
  unique := O.unique_step L h
  waits := O.waits_step L K h
  self := O.self_step L h
  identified := O.identified_step L K h
  version := O.version_step L K h
  versionNe := O.versionNe_step h
  ready := O.ready_step L K h
  sleeper := O.sleeper_step L K h
  rescued := O.rescued_step L K h

/-- **Ownership.** -/
theorem owned (hs : system.Reachable s) : Owned s.mem s.shape :=
  shape_invariant (J := fun m sh => Locked m sh ∧ Known m sh ∧ Running m sh)
    (fun _ hs => ⟨locked hs, known hs, running hs⟩) (fun _ => Owned.initial)
    (fun _ _ _ _ _ ⟨L, K, R⟩ _ O h => O.step L K R h) hs

end Bthread
