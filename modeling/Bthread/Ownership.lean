import Bthread.Custody

set_option relaxedAutoImplicit false
set_option autoImplicit false

/-!
# Ownership

The invariant behind the scheduling of bthreads and the queues of butexes: there is at most one
claim to each call, it agrees with the custody of the call, and a bthread is in the state its
blocking call tells. A waiter that `erase_from_butex` took for queued before it was (its `tainted`
flag is set) is exempt; it always belongs to a pthread.

## Main definitions

* `Bthread.TaskOk` — the state of a task, by the phase of the call it is inside.
* `Bthread.Owned` — the invariant.

## Main results

* `Bthread.Owned.handover` — what is handed over was in the custody of the call that does it.
-/

namespace Bthread

open Function (update update_self update_of_ne)

variable {s : State} {c d w : CallId} {m : Mem} {sh : CallId → Shape} {a : Access} {y : Shape}
  {u v : Custody}

/-- What the phase `φ` of a call `c` inside the task of slot `t` tells about the task. -/
def TaskOk (m : Mem) (c : CallId) (t : SlotId) : Phase → Prop
  | .starting | .named => m.run t = .starting
  | .active | .ending => m.run t = .running
  | .wrapping => m.run t = .running ∧ m.value (.version t) = 0
  | .pthread => m.run t = .running ∨ m.run t = .main
  | .switched => m.run t = .switched ∧ m.custody c = .callback
  | .callback => m.run t = .blocked ∧ m.custody c = .callback
  | .suspended =>
    m.run t = .blocked ∧ m.tid c ≠ 0 ∧
        ((m.custody c).Waits ∧ m.custody c ≠ .callback ∨ m.custody c = .lost) ∨
      (m.run t = .ready ∨ m.run t = .running) ∧ m.custody c = .pushed
  | .ended | .released => m.run t = .ended

/-- The task of the slot has an identifier. -/
def Identified (m : Mem) (sh : CallId → Shape) (t : SlotId) : Prop :=
  m.run t ≠ .free ∧ m.run t ≠ .starting ∨ ∃ c, (sh c).phase = some (t, .named)

/-- The version of the slot is being advanced for good. -/
def Terminating (sh : CallId → Shape) (t : SlotId) : Prop :=
  ∃ c, (sh c).phase = some (t, .wrapping) ∨ (sh c).phase = some (t, .ending)

/-- **Ownership.** -/
structure Owned (m : Mem) (sh : CallId → Shape) : Prop where
  sound : ∀ w u, m.tainted w = false → Claim m sh w u → m.custody w = u
  waiters : ∀ w b, m.tainted w = false → (m.waiters b).count w ≤ 1
  unl : ∀ w c, m.tainted w = false → (sh c).unl.count w ≤ 1
  hand : ∀ w c, m.tainted w = false → (sh c).hand.count w ≤ 1
  complete : ∀ w, m.tainted w = false → (m.custody w).Waits → m.custody w ≠ .held w →
    Claim m sh w (m.custody w)
  sel : ∀ c b w, m.tainted w = false → (sh c).sel = some (b, w) → m.custody w = .linked b
  queueing : ∀ w b, m.tainted w = false → (sh w).queueing = some b → m.custody w = .linked b
  linked : ∀ w b, m.tainted w = false → m.custody w = .linked b →
    m.container w = some b ∨ (sh w).queueing = some b
  unlinked : ∀ w c, m.tainted w = false → m.custody w = .unlinked c →
    ∃ b, (sh c).lock = some b ∧ m.container w = some b
  container : ∀ w b, m.tainted w = false → m.container w = some b → m.enqueues w ≠ 0 →
    m.custody w = .linked b ∨ ∃ c, m.custody w = .unlinked c ∧ (sh c).lock = some b
  fresh : ∀ c, m.tainted c = false → (sh c).fresh = true →
    m.custody c = .none ∧ m.pushes c = 0 ∧ m.enqueues c = 0
  pushes : ∀ c, m.tainted c = false → m.pushes c = if m.custody c = .pushed then 1 else 0
  task : ∀ c t φ, (sh c).phase = some (t, φ) → TaskOk m c t φ
  unique : ∀ c d t φ ψ, (sh c).phase = some (t, φ) → (sh d).phase = some (t, ψ) → c = d
  waits : ∀ w, m.tid w ≠ 0 → (m.custody w).Waits → m.custody w ≠ .callback →
    ∃ t, (sh w).phase = some (t, .suspended) ∧ (sh w).self = some t
  self : ∀ c t, (sh c).self = some t → m.tid c = m.metaTid t
  identified : ∀ t, Identified m sh t → getSlot (m.metaTid t) = t ∧ m.metaTid t ≠ 0
  version : ∀ t, Identified m sh t → m.run t ≠ .ended →
    m.value (.version t) = getVersion (m.metaTid t) ∨ Terminating sh t
  versionNe : ∀ t, m.value (.version t) ≠ 0 ∨ ∃ c, (sh c).phase = some (t, .wrapping)
  ready : ∀ t, m.ready.count t =
    if m.run (getSlot t) = .ready ∧ m.metaTid (getSlot t) = t then 1 else 0
  sleeper : ∀ e, m.remained e = true ∨ m.callbackBy e ≠ none → m.tid e ≠ 0
  rescued : ∀ c t i e, (sh c).sleepId = some (t, i) →
    m.timerFn i = some (.readyToRunFromTimerThread e) →
    (m.custody e).Waits → m.custody e ≠ .remained → m.tid e = t

/-! ## Consequences -/

/-- A call with an identifier is not exempt. -/
theorem Known.untainted (K : Known m sh) (hw : m.tid w ≠ 0) : m.tainted w = false := by
  by_contra h
  exact hw (K.tainted w (by simpa using h))

namespace Owned

variable (L : Locked m sh) (K : Known m sh) (O : Owned m sh)
include O

/-- The task of a call has an identifier, from `make_tid` on. -/
theorem identified_of_phase {t : SlotId} {φ : Phase} (hc : (sh c).phase = some (t, φ))
    (hφ : φ ≠ .starting) : Identified m sh t := by
  have ht := O.task c t φ hc
  cases φ with
  | starting => exact absurd rfl hφ
  | named => exact .inr ⟨c, hc⟩
  | _ => refine .inl ?_; simp only [TaskOk] at ht; grind

/-- The slot of the identifier of a task. -/
theorem slot_of_phase {t : SlotId} {φ : Phase} (hc : (sh c).phase = some (t, φ))
    (hφ : φ ≠ .starting) : getSlot (m.metaTid t) = t ∧ m.metaTid t ≠ 0 :=
  O.identified t (O.identified_of_phase hc hφ)

include L in
/-- The identifier in the object of a call is that of its task. -/
theorem tid_of_self {t : SlotId} (hc : (sh c).self = some t) :
    m.tid c = m.metaTid t ∧ getSlot (m.tid c) = t ∧ m.tid c ≠ 0 ∧ m.call t = some c := by
  obtain ⟨-, hp⟩ := (L.wf c).self t hc
  have ht := O.self c t hc
  obtain ⟨φ, hφ, hne, ho⟩ : ∃ φ, (sh c).phase = some (t, φ) ∧ φ ≠ .starting ∧
      (sh c).owner = some t := by
    obtain hp | hp | hp := hp
    all_goals exact ⟨_, hp, by simp, by simp [Shape.owner, hp]⟩
  obtain ⟨h1, h2⟩ := O.slot_of_phase hφ hne
  exact ⟨ht, ht ▸ h1, ht ▸ h2, (L.call t c).mpr ho⟩

include L in
/-- **A waiting bthread**: its task is switched out, inside the call that waits. -/
theorem blocked_of_waits (ht : m.tid w ≠ 0) (hw : (m.custody w).Waits)
    (hne : m.custody w ≠ .callback) :
    ∃ t, (sh w).phase = some (t, .suspended) ∧ (sh w).self = some t ∧ m.run t = .blocked ∧
      m.tid w = m.metaTid t ∧ getSlot (m.tid w) = t ∧ m.call t = some w := by
  obtain ⟨t, hp, hs⟩ := O.waits w ht hw hne
  obtain ⟨h1, h2, -, h4⟩ := O.tid_of_self L hs
  refine ⟨t, hp, hs, ?_, h1, h2, h4⟩
  obtain ⟨hr, -⟩ | ⟨-, hc⟩ := O.task w t _ hp
  · exact hr
  · simp [hc, Custody.Waits] at hw

end Owned

/-- Pushing the identifier `t` of slot `s` is right: a new bthread, or one that was switched out
by the call `e`, which now passes from one custody to the run queue. -/
inductive Pushes (c : CallId) (m : Mem) (x y : Shape) (t : Tid) (s : SlotId) : Prop
  | start (hx : x.phase = some (s, .named)) (hr : m.run s = .starting) (hc : m.call s = none)
      (hy : y.phase = none)
  | requeue (hx : x.phase = some (s, .switched) ∨ x.phase = some (s, .callback))
      (hr : m.run s = .switched ∨ m.run s = .blocked) (hc : m.call s = some c)
      (hu : m.custody c = .callback) (hy : y.phase = some (s, .suspended))
  | wake (e : CallId) (hr : m.run s = .blocked) (hc : m.call s = some e)
      (hu : m.custody e = .waking c) (ht : m.tid e = t) (hy : y.phase = x.phase)
      (hw : y.wake = none) (hr' : y.rescue = none)

/-- The phases of a call whose task is inside it. -/
theorem Shape.phase_of_owner {x : Shape} {t : SlotId} (h : x.owner = some t) :
    ∃ φ, x.phase = some (t, φ) ∧ φ ≠ .starting ∧ φ ≠ .named ∧ φ ≠ .released := by
  unfold Shape.owner at h
  split at h
  all_goals simp_all

/-- **Every push of `TaskGroup` is right.**

**Proof sketch.** A new bthread is inside no call. A bthread that requeues itself is the one inside
the call. For a sleep, the caller has a claim to it, so it is suspended. -/
theorem Owned.pushes_of (L : Locked m sh) (K : Known m sh) (O : Owned m sh) {t : Tid}
    (h : PushChange c m (sh c) y t) :
    ∃ s, m.metaTid s = t ∧ getSlot t = s ∧ Pushes c m (sh c) y t s := by
  obtain ⟨hw, hr, s, ⟨hx, rfl, hy⟩ | ⟨hx, rfl, hy⟩ | ⟨hx, rfl, hy⟩⟩ | ⟨hy, hr, e, hx, hw, ht⟩ |
    ⟨hy, hw, i, hx, hr, ht⟩ := h
  · refine ⟨s, rfl, (O.slot_of_phase hx (by simp)).1, .start hx (O.task c s _ hx) ?_ hy⟩
    by_contra hc
    obtain ⟨d, hd⟩ := Option.ne_none_iff_exists'.mp hc
    obtain ⟨φ, hφ, -, hn, -⟩ := Shape.phase_of_owner ((L.call s d).mp hd)
    obtain rfl := O.unique c d s _ _ hx hφ
    rw [hx] at hφ
    simp_all
  · obtain ⟨hr, hu⟩ := O.task c s _ hx
    exact ⟨s, rfl, (O.slot_of_phase hx (by simp)).1, .requeue (.inl hx) (.inl hr)
      ((L.call s c).mpr (by simp [Shape.owner, hx])) hu hy⟩
  · obtain ⟨hr, hu⟩ := O.task c s _ hx
    obtain ⟨h1, h2, -, h4⟩ := O.tid_of_self L ((L.wf c).callback s hx).1
    exact ⟨s, h1.symm, h2, .requeue (.inr hx) (.inr hr) h4 hu hy⟩
  · have h0 : m.tid e ≠ 0 := O.sleeper e (.inr (K.wakeCalled c e hx))
    have hu : m.custody e = .waking c := O.sound e _ (K.untainted h0) (.wake hx)
    obtain rfl : t = m.tid e := ht.elim id (K.copied c e t)
    obtain ⟨s, -, -, hb, h1, h2, h4⟩ := O.blocked_of_waits L h0 (by simp [hu, Custody.Waits])
      (by simp [hu])
    exact ⟨s, h1.symm, h2, .wake e hb h4 hu rfl hy hw (hr.trans ((L.wf c).wake e hx).2.1)⟩
  · obtain ⟨e, he⟩ := K.rescue c i hx
    have h0 : m.tid e ≠ 0 := O.sleeper e (.inr (K.sleepCalled i e he))
    have hu : m.custody e = .waking c := O.sound e _ (K.untainted h0) (.rescue hx he)
    obtain rfl : m.tid e = t := O.rescued c t i e ht he (by simp [hu, Custody.Waits])
      (by simp [hu])
    obtain ⟨s, -, -, hb, h1, h2, h4⟩ := O.blocked_of_waits L h0 (by simp [hu, Custody.Waits])
      (by simp [hu])
    exact ⟨s, h1.symm, h2,
      .wake e hb h4 hu rfl hy (hw.trans ((L.wf c).rescue i hx).2.1) hr⟩

/-- **Every hand-off of a bthread is right.** -/
theorem Owned.handOff_of (L : Locked m sh) (K : Known m sh) (O : Owned m sh)
    (hw : w ∈ (sh c).hand) (ht : m.tid w ≠ 0 ∨ w ∈ (sh c).bts) :
    ∃ s, (sh w).phase = some (s, .suspended) ∧ m.run s = .blocked ∧ m.custody w = .held c ∧
      m.metaTid s = m.tid w ∧ getSlot (m.tid w) = s ∧ m.call s = some w := by
  have h0 : m.tid w ≠ 0 := ht.elim id (K.bts c w)
  have hu : m.custody w = .held c := O.sound w _ (K.untainted h0) (.held hw)
  obtain ⟨s, hp, -, hb, h1, h2, h4⟩ := O.blocked_of_waits L h0 (by simp [hu, Custody.Waits])
    (by simp [hu])
  exact ⟨s, hp, hb, hu, h1.symm, h2, h4⟩

/-! ## Handing over -/

/-- The last entry of a list is not in the rest. -/
theorem not_mem_of_count {l l' : List CallId} (hp : l.Perm (w :: l')) (hl : l.count w ≤ 1) :
    w ∉ l' := by
  rw [hp.count_eq, List.count_cons_self] at hl
  exact List.count_eq_zero.mp (by omega)

/-- **Handing over**: the call an access hands over was in the custody it says, and no claim to it
that was there before is left.

**Proof sketch.** The shape of the calling call shows a claim, which tells the custody; the access
ends that claim, and by soundness there is no other. -/
theorem Owned.handover (L : Locked m sh) (K : Known m sh) (O : Owned m sh)
    (h : Shape.Step c m a (sh c) y) (hw : m.tainted w = false)
    (he : a.entrust c m = some (w, u)) :
    (m.custody w).Moves c u ∧ ¬Claim (a.apply c m) (update sh c y) w (m.custody w) := by
  have hq := h.queue
  have hs := h.sleep
  have hnone : ¬Claim (a.apply c m) (update sh c y) w .none := by
    intro hcl
    cases hcl
  cases a with
  | append b w' =>
    obtain ⟨rfl, rfl⟩ : w' = w ∧ .linked b = u := by simpa [Access.entrust] using he
    obtain ⟨-, -, -, hu, -, ⟨rfl, -, -, -, -, -, -, ⟨hf, -⟩ | ⟨t, hp⟩⟩ | ⟨hx, -⟩⟩ := hq
    · rw [(O.fresh w' hw hf).1]
      exact ⟨.enqueue, hnone⟩
    · rw [O.sound w' _ hw (.callback hp)]
      refine ⟨.append, fun hcl => ?_⟩
      have hy : ∃ t', y.phase = some (t', .suspended) := by
        obtain ⟨-, t', -, hy⟩ | ⟨hn, -⟩ := h.phase
        · exact ⟨t', hy⟩
        · exact absurd hp (hn t)
      obtain ⟨t', hy⟩ := hy
      cases hcl <;> simp_all
    · rw [O.sound w' _ hw (.unlinked (d := c) (by simp [hx]))]
      refine ⟨.reappend, fun hcl => ?_⟩
      cases hcl with
      | unlinked hm => simp [hu] at hm
  | removeFromList w' =>
    obtain ⟨rfl, rfl⟩ : w' = w ∧ .unlinked c = u := by simpa [Access.entrust] using he
    obtain ⟨-, -, -, -, b, hx⟩ := hq
    rw [O.sel c b w' hw hx]
    refine ⟨.remove, fun hcl => ?_⟩
    cases hcl with
    | linked hm =>
      have hc := O.waiters w' b hw
      have : w' ∉ (m.waiters b).erase w' := by
        rw [← List.count_eq_zero, List.count_erase_self]
        omega
      exact this hm
  | clearContainer w' =>
    obtain ⟨rfl, rfl⟩ : w' = w ∧ .held c = u := by simpa [Access.entrust] using he
    obtain ⟨-, -, hx, -⟩ := hq
    have hm : w' ∈ (sh c).unl := by simp [hx]
    rw [O.sound w' _ hw (.unlinked hm)]
    refine ⟨.clear, fun hcl => ?_⟩
    cases hcl with
    | unlinked hm' =>
      rw [update_self] at hm'
      exact not_mem_of_count (hx ▸ List.Perm.refl _) (O.unl w' c hw) hm'
  | schedule fn =>
    cases fn with
    | eraseFromButexAndWakeup _ => simp [Access.entrust] at he
    | readyToRunFromTimerThread e =>
      obtain ⟨rfl, rfl⟩ : e = w ∧ .timer m.nextTimer = u := by simpa [Access.entrust] using he
      obtain ⟨-, hr, ⟨hf, -⟩ | ⟨e', hf, hx, hy⟩⟩ := hs
      · simp at hf
      · cases hf
        rw [O.sound e _ hw (.wake hx)]
        refine ⟨.schedule, fun hcl => ?_⟩
        cases hcl with
        | wake hd => simp [hy] at hd
        | rescue hd => simp [hr, ((L.wf c).wake e hx).2.1] at hd
  | unschedule i =>
    by_cases hp : m.timerState i = .pending
    · have hsl : m.sleeper i = some w ∧ .waking c = u := by
        cases hsl : m.sleeper i <;> simp_all [Access.entrust]
      obtain ⟨hsl, rfl⟩ := hsl
      rw [O.sound w _ hw (.timer (sleeper_eq_some.mp hsl) hp)]
      refine ⟨.takeTimer, fun hcl => ?_⟩
      cases hcl with
      | timer _ hp' => simp [Access.apply, hp] at hp'
    · simp [Access.entrust, hp] at he
  | fire i =>
    obtain ⟨hp, -⟩ := hs
    have hsl : m.sleeper i = some w ∧ .waking c = u := by
      cases hsl : m.sleeper i <;> simp_all [Access.entrust]
    obtain ⟨hsl, rfl⟩ := hsl
    rw [O.sound w _ hw (.timer (sleeper_eq_some.mp hsl) hp)]
    refine ⟨.takeTimer, fun hcl => ?_⟩
    cases hcl with
    | timer _ hp' => simp [Access.apply] at hp'
  | push t =>
    obtain ⟨s, -, rfl, hP⟩ := O.pushes_of L K (h.push t rfl)
    cases hP with
    | start _ _ hc _ => simp [Access.entrust, hc] at he
    | requeue hx _ hc hu hy =>
      obtain ⟨rfl, rfl⟩ : c = w ∧ .pushed = u := by simpa [Access.entrust, hc] using he
      rw [hu]
      refine ⟨.requeue, fun hcl => ?_⟩
      cases hcl <;> simp_all
    | wake e _ hc hu _ _ hyw hyr =>
      obtain ⟨rfl, rfl⟩ : e = w ∧ .pushed = u := by simpa [Access.entrust, hc] using he
      rw [hu]
      refine ⟨.wake, fun hcl => ?_⟩
      cases hcl <;> simp_all
  | handOff w' =>
    obtain ⟨-, -, -, hp, ht⟩ := hq
    have hm : w' ∈ (sh c).hand := hp.symm.subset List.mem_cons_self
    obtain ⟨s, -, -, hu, -, hg, hc⟩ := O.handOff_of L K hm ht
    obtain ⟨rfl, rfl⟩ : w' = w ∧ .pushed = u := by simpa [Access.entrust, hg, hc] using he
    rw [hu]
    refine ⟨.handOff, fun hcl => ?_⟩
    cases hcl with
    | held hm' => exact not_mem_of_count hp (O.hand w' c hw) (by simpa using hm')
  | handOffLost w' =>
    obtain ⟨rfl, rfl⟩ : w' = w ∧ .lost = u := by simpa [Access.entrust] using he
    obtain ⟨-, -, -, hp, -⟩ := hq
    rw [O.sound w' _ hw (.held (d := c) (hp.symm.subset List.mem_cons_self))]
    refine ⟨.handOffLost, fun hcl => ?_⟩
    cases hcl with
    | held hm' => exact not_mem_of_count hp (O.hand w' c hw) (by simpa using hm')
  | wakeupPthread w' =>
    obtain ⟨rfl, rfl⟩ : w' = w ∧ .signalled = u := by simpa [Access.entrust] using he
    obtain ⟨-, -, -, hp, -⟩ := hq
    rw [O.sound w' _ hw (.held (d := c) (hp.symm.subset List.mem_cons_self))]
    refine ⟨.wakeup, fun hcl => ?_⟩
    cases hcl with
    | held hm' => exact not_mem_of_count hp (O.hand w' c hw) (by simpa using hm')
  | suspendWait t =>
    obtain ⟨rfl, rfl⟩ : c = w ∧ .callback = u := by simpa [Access.entrust] using he
    rw [(O.fresh c hw (h.ages.waits t (.inl rfl)).2.1).1]
    exact ⟨.callback, hnone⟩
  | suspendYield t =>
    obtain ⟨rfl, rfl⟩ : c = w ∧ .callback = u := by simpa [Access.entrust] using he
    rw [(O.fresh c hw (h.ages.yields t rfl).1).1]
    exact ⟨.callback, hnone⟩
  | suspendSleep t =>
    obtain ⟨rfl, rfl⟩ : c = w ∧ .remained = u := by simpa [Access.entrust] using he
    rw [(O.fresh c hw (h.ages.waits t (.inr rfl)).2.1).1]
    exact ⟨.remained, hnone⟩
  | runRemained e =>
    obtain ⟨rfl, rfl⟩ : e = w ∧ .waking c = u := by simpa [Access.entrust] using he
    rw [O.sound e _ hw (.remained hs.1)]
    refine ⟨.runRemained, fun hcl => ?_⟩
    cases hcl with
    | remained hr => simp [Access.apply] at hr
  | _ => simp [Access.entrust] at he

end Bthread
