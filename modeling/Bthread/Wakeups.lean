import Bthread.Sleeps

set_option relaxedAutoImplicit false
set_option autoImplicit false

/-!
# Waking waiters

A waiter is taken out of its queue once, and whoever takes it out hands it off. This needs that
`erase_from_butex` does not take what an unfinished `ButexPthreadWaiter` has in its `container` for
a queue the waiter is in, and that no waiter is given to `ready_to_run_general` off the workers,
which pushes nothing.

## Main definitions

* `Bthread.Handed` — who has removed a waiter and who has handed it off, by its custody.
* `Bthread.ErasesQueued` — a step of `erase_from_butex` is about a waiter that was queued.
* `Bthread.OnWorker` — a step is no hand-over to `ready_to_run_general` off the workers.
* `Bthread.DequeuedOnce` — waiters are in their queues once and are woken once, by who removes them.

## Main results

* `Bthread.dequeuedOnce` — they are, if all steps are `Bthread.ErasesQueued` and `Bthread.OnWorker`.
* `Bthread.not_dequeuedOnce` — they are not, if `erase_from_butex` is about others too.
-/

namespace Bthread

open Function (update update_self update_of_ne)

variable {s : State} {c d w : CallId} {m : Mem} {sh : CallId → Shape} {a : Access} {y : Shape}

/-! ## Who has removed a waiter and who has handed it off -/

/-- The calls that have removed a waiter and those that have handed it off, by its custody. -/
def Handed (m : Mem) (w : CallId) : Prop :=
  m.handedBy w = [] ∧ m.removedBy w = [] ∧
      (∀ c, m.custody w ≠ .held c) ∧ m.custody w ≠ .signalled ∧ m.custody w ≠ .lost ∨
    (∃ c, m.handedBy w = [] ∧ m.removedBy w = [c] ∧ m.custody w = .held c) ∨
    ∃ c, m.handedBy w = [c] ∧ m.removedBy w = [c] ∧ c ≠ w ∧
      (m.custody w = .pushed ∨ m.custody w = .signalled ∨ m.custody w = .lost)

/-- A waiter is removed by the access that clears its `container`. -/
theorem removedBy_apply : (a.apply c m).removedBy w =
    if a = .clearContainer w then c :: m.removedBy w else m.removedBy w := by
  cases a with
  | clearContainer w' =>
    by_cases h : w' = w
    · subst h; simp [Access.apply]
    · simp [Access.apply, h, Ne.symm h]
  | _ => simp [Access.apply, Mem.push]

/-- Handing waiter `w` off. -/
def Access.HandsOff (w : CallId) : Access → Prop
  | .handOff w' | .handOffLost w' | .wakeupPthread w' => w' = w
  | _ => False

/-- Which waiter is handed off is decidable. -/
instance (w : CallId) (a : Access) : Decidable (a.HandsOff w) := by
  cases a <;> simp only [Access.HandsOff] <;> infer_instance

/-- A waiter is handed off once more by an access that hands it off. -/
theorem handedBy_apply : (a.apply c m).handedBy w =
    if a.HandsOff w then c :: m.handedBy w else m.handedBy w := by
  cases a with
  | handOff w' | handOffLost w' | wakeupPthread w' =>
    by_cases h : w' = w
    · subst h; simp [Access.apply, Mem.push, Access.HandsOff]
    · simp [Access.apply, Mem.push, Access.HandsOff, h, Ne.symm h]
  | _ => simp [Access.apply, Mem.push, Access.HandsOff]

section Step

variable (L : Locked m sh) (K : Known m sh) (O : Owned m sh) (h : Shape.Step c m a (sh c) y)
include L K O h

/-- Whoever hands a waiter off holds it, and is not the waiter itself. -/
theorem Owned.held_of_handsOff (hw : m.tainted w = false) (ha : a.HandsOff w) :
    m.custody w = .held c ∧ c ≠ w ∧ ∃ u, a.entrust c m = some (w, u) ∧
      (u = .pushed ∨ u = .signalled ∨ u = .lost) := by
  have main : w ∈ (sh c).hand → m.custody w = .held c ∧ c ≠ w := by
    intro hm
    refine ⟨O.sound w _ hw (.held hm), ?_⟩
    rintro rfl
    have hb := K.callBuilt c c (.inr (.inr (.inl hm)))
    have := (L.wf c).hand (List.ne_nil_of_mem hm)
    simp [hb] at this
  have hq := h.queue
  cases a with
  | handOff w' =>
    obtain rfl : w' = w := ha
    have hm : w' ∈ (sh c).hand := hq.2.2.2.1.symm.subset List.mem_cons_self
    obtain ⟨t, -, -, -, -, hg, hc⟩ := O.handOff_of L K hm hq.2.2.2.2
    obtain ⟨h1, h2⟩ := main hm
    exact ⟨h1, h2, .pushed, by simp [Access.entrust, hg, hc], .inl rfl⟩
  | handOffLost w' =>
    obtain rfl : w' = w := ha
    obtain ⟨h1, h2⟩ := main (hq.2.2.2.1.symm.subset List.mem_cons_self)
    exact ⟨h1, h2, .lost, rfl, .inr (.inr rfl)⟩
  | wakeupPthread w' =>
    obtain rfl : w' = w := ha
    obtain ⟨h1, h2⟩ := main (hq.2.2.2.1.symm.subset List.mem_cons_self)
    exact ⟨h1, h2, .signalled, rfl, .inr (.inl rfl)⟩
  | _ => exact ha.elim

/-- A waiter that somebody holds is handed over by being handed off. -/
theorem Owned.handsOff_of_held {u : Custody} (hw : m.tainted w = false)
    (hu : m.custody w = .held d) (he : a.entrust c m = some (w, u)) : a.HandsOff w := by
  have hm := (O.handover L K h hw he).1
  rw [hu] at hm
  have hq := h.queue
  cases hm with
  | handOff =>
    cases a with
    | push t =>
      obtain ⟨s, -, rfl, hP⟩ := O.pushes_of L K (h.push t rfl)
      cases hP with
      | start _ _ hc _ => simp [Access.entrust, hc] at he
      | requeue _ _ hc hu' _ =>
        obtain rfl : c = w := by simpa [Access.entrust, hc] using he
        simp [hu] at hu'
      | wake e _ hc hu' _ _ _ _ =>
        obtain rfl : e = w := by simpa [Access.entrust, hc] using he
        simp [hu] at hu'
    | handOff w' =>
      have hm : w' ∈ (sh c).hand := hq.2.2.2.1.symm.subset List.mem_cons_self
      obtain ⟨t, -, -, -, -, hg, hc⟩ := O.handOff_of L K hm hq.2.2.2.2
      simpa [Access.entrust, hg, hc, Access.HandsOff] using he
    | schedule fn => cases fn <;> simp [Access.entrust] at he
    | _ => simp_all [Access.entrust]
  | handOffLost =>
    cases a with
    | handOffLost w' => simpa [Access.entrust, Access.HandsOff] using he
    | schedule fn => cases fn <;> simp [Access.entrust] at he
    | _ => simp_all [Access.entrust]
  | wakeup =>
    cases a with
    | wakeupPthread w' => simpa [Access.entrust, Access.HandsOff] using he
    | schedule fn => cases fn <;> simp [Access.entrust] at he
    | _ => simp_all [Access.entrust]

/-- **Removal and hand-off go with custody.** -/
theorem Handed.step (hw : m.tainted w = false) (hh : Handed m w) : Handed (a.apply c m) w := by
  by_cases hn : ∃ v, a.entrust c m = some (w, v)
  · obtain ⟨v, he⟩ := hn
    have hm := (O.handover L K h hw he).1
    have hv := custody_of_entrust he
    by_cases hc : a = .clearContainer w
    · subst hc
      obtain rfl : .held c = v := by simpa [Access.entrust] using he
      have hu : m.custody w = .unlinked c := by
        generalize m.custody w = u at hm
        cases hm
        rfl
      obtain ⟨h1, h2, -⟩ | ⟨d, -, -, hd⟩ | ⟨d, -, -, -, hd⟩ := hh
      · refine .inr (.inl ⟨c, ?_, ?_, hv⟩)
        · simpa [handedBy_apply, Access.HandsOff] using h1
        · simpa [removedBy_apply] using h2
      · simp [hu] at hd
      · simp [hu] at hd
    · by_cases ha : a.HandsOff w
      · obtain ⟨hu, hne, v', he', hv'⟩ := O.held_of_handsOff L K h hw ha
        obtain rfl : v' = v := by simpa [he'] using he
        obtain ⟨-, -, hd, -⟩ | ⟨d, h1, h2, hd⟩ | ⟨d, -, -, -, hd⟩ := hh
        · exact absurd hu (hd c)
        · obtain rfl : d = c := by simpa [hu] using hd.symm
          refine .inr (.inr ⟨d, ?_, ?_, hne, hv ▸ hv'⟩)
          · simp [handedBy_apply, ha, h1]
          · simpa [removedBy_apply, hc] using h2
        · simp [hu] at hd
      · have hnh : ∀ d, m.custody w ≠ .held d := fun d hd =>
          ha (O.handsOff_of_held L K h hw hd he)
        obtain ⟨h1, h2, -, -⟩ | ⟨d, -, -, hd⟩ | ⟨d, -, -, -, hd⟩ := hh
        · refine .inl ⟨by simpa [handedBy_apply, ha] using h1,
            by simpa [removedBy_apply, hc] using h2, ?_⟩
          rw [hv]
          generalize m.custody w = u at hm hnh
          cases hm with
          | clear =>
            cases a with
            | clearContainer w' => simp [Access.entrust] at he; simp [he] at hc
            | schedule fn => cases fn <;> simp [Access.entrust] at he
            | _ => simp_all [Access.entrust]
          | handOff | handOffLost | wakeup => exact absurd rfl (hnh c)
          | _ => simp
        · exact absurd hd (hnh d)
        · generalize m.custody w = u at hm hd
          cases hm <;> simp at hd
  · have hn' : ∀ v, a.entrust c m ≠ some (w, v) := fun v hv => hn ⟨v, hv⟩
    have hc : a ≠ .clearContainer w := by
      rintro rfl
      exact hn' _ rfl
    have ha : ¬a.HandsOff w := by
      intro ha
      obtain ⟨-, -, v, he, -⟩ := O.held_of_handsOff L K h hw ha
      exact hn' v he
    simpa [Handed, handedBy_apply, removedBy_apply, ha, hc, custody_of_not_entrust hn'] using hh

end Step

/-! ## Queues and `container` -/

/-- `erase_from_butex` that finds the `container` of a waiter to be the butex it has locked is about
a waiter that was queued. -/
def ErasesQueued (s : State) (x : CallId × Move) : Prop :=
  ∀ w p, control x.1 (s.pc x.1) x.2 s.mem = some (.matchContainer w, p) → s.mem.enqueues w ≠ 0

/-- A step is no hand-over with `ready_to_run_general` off the workers. -/
def OnWorker (s : State) (x : CallId × Move) : Prop :=
  ∀ w p, control x.1 (s.pc x.1) x.2 s.mem ≠ some (.handOffLost w, p)

/-- `erase_from_butex` is about waiters that were queued, and waiters are given to
`ready_to_run_general` on workers only. -/
def WakesOnce (s : State) (x : CallId × Move) : Prop := ErasesQueued s x ∧ OnWorker s x

/-- A call has returned. -/
def Pc.Returned : Pc → Prop
  | .done _ => True
  | _ => False

/-- A call is done with the butexes: it has returned, or its timer callback is completed, or it goes
on with giving a waiter back to its task, or with the end of its own task. -/
def Pc.Over : Pc → Prop
  | .done _ | .timer _ .finish => True
  | .interrupt _ _ (.lockAgain _) | .interrupt _ _ (.versionAgain _) => True
  | .interrupt _ _ (.setWaiter _) | .interrupt _ _ .unlockSet | .interrupt _ _ .unlockUnset => True
  | .endTask _ .sched | .endTask _ .leave | .endTask _ .release => True
  | _ => False

/-- A call that is done with the butexes has no waiter to hand off. -/
theorem Pc.Over.hand {p : Pc} (hp : p.Over) (c : CallId) : (p.shape c).hand = [] := by
  unfold Pc.Over at hp
  split at hp
  all_goals first | rfl | exact hp.elim

/-- While no `waiter_lock` is held, a waiter that was enqueued is in the queue of its `container`
exactly once and in no other queue; if it has none it is in no queue, and one call has removed it.
A waiter is enqueued at most once, removed at most once for that, and handed off at most once, by
the call that has removed it; a waiter that has removed itself is not handed off. Any other call
that has removed it has handed it off when it is done with the butexes. A bthread was pushed to a
run queue as often as its waiter was handed off; a pthread whose waiter was handed off was
signalled; and a waiter is handed off as what it is. -/
structure DequeuedOnce (s : State) : Prop where
  queue : ∀ w, s.mem.enqueues w ≠ 0 → (∀ b, s.mem.waiterLock b = none) →
    (∀ b, s.mem.container w = some b →
      (s.mem.waiters b).count w = 1 ∧ ∀ b', b' ≠ b → w ∉ s.mem.waiters b') ∧
    (s.mem.container w = none → (∀ b, w ∉ s.mem.waiters b) ∧ ∃ c, s.mem.removedBy w = [c])
  once : ∀ w, s.mem.enqueues w ≤ 1 ∧ (s.mem.removedBy w).length ≤ s.mem.enqueues w ∧
    (s.mem.handedBy w ≠ [] → s.mem.handedBy w = s.mem.removedBy w) ∧
    (s.mem.removedBy w = [w] → s.mem.handedBy w = [])
  handed : ∀ w c, c ∈ s.mem.removedBy w → c ≠ w → (s.pc c).Over → s.mem.handedBy w = [c]
  pushed : ∀ w, s.mem.tid w ≠ 0 → s.mem.enqueues w ≠ 0 →
    s.mem.pushes w = (s.mem.handedBy w).length
  signalled : ∀ w, s.mem.tid w = 0 → s.mem.handedBy w ≠ [] → s.mem.sig w = true
  kind : ∀ c k a p w, control c (s.pc c) k s.mem = some (a, p) →
    (a = .wakeupPthread w → s.mem.tid w = 0) ∧
    (a = .handOff w ∨ a = .handOffLost w → s.mem.tid w ≠ 0)

/-- A waiter that was enqueued is linked, is being moved, or was removed. -/
def Removed (m : Mem) (w : CallId) : Prop :=
  m.enqueues w ≠ 0 → (∃ b, m.custody w = .linked b) ∨ (∃ d, m.custody w = .unlinked d) ∨
    ∃ c, m.removedBy w = [c]

/-- A waiter that was enqueued is removed or stays in its queue. -/
theorem Removed.step (L : Locked m sh) (K : Known m sh) (O : Owned m sh)
    (h : Shape.Step c m a (sh c) y) (hw : m.tainted w = false) (hh : Handed m w)
    (hr : Removed m w) : Removed (a.apply c m) w := by
  intro he
  have hold : m.enqueues w ≠ 0 ∨ ∃ b, m.custody w = .linked b := by
    cases a with
    | setContainer b =>
      by_cases hc : w = c
      · subst hc; exact .inr ⟨b, O.queueing w b hw h.queue.1⟩
      · exact .inl (by simpa [Access.apply, hc] using he)
    | _ => exact .inl he
  have hold : (∃ b, m.custody w = .linked b) ∨ (∃ d, m.custody w = .unlinked d) ∨
      ∃ c, m.removedBy w = [c] := hold.elim hr .inl
  by_cases hn : ∃ v, a.entrust c m = some (w, v)
  · obtain ⟨v, hv⟩ := hn
    have hm := (O.handover L K h hw hv).1
    rw [custody_of_entrust hv]
    obtain ⟨b, hu⟩ | ⟨d, hu⟩ | ⟨d, hd⟩ := hold
    · obtain ⟨-, rfl, -⟩ := O.entrust_of_linked L K h hw hu hv
      exact .inr (.inl ⟨c, rfl⟩)
    · rw [hu] at hm
      cases hm with
      | reappend => exact .inl ⟨_, rfl⟩
      | clear =>
        refine .inr (.inr ⟨c, ?_⟩)
        have ha : a = .clearContainer w := by
          cases a with
          | clearContainer w' => simpa [Access.entrust] using hv
          | schedule fn => cases fn <;> simp [Access.entrust] at hv
          | _ => simp_all [Access.entrust]
        rw [removedBy_apply, if_pos ha]
        obtain ⟨-, h2, -⟩ | ⟨d, -, -, hd⟩ | ⟨d, -, -, -, hd⟩ := hh
        · rw [h2]
        · simp [hu] at hd
        · simp [hu] at hd
    · refine .inr (.inr ⟨d, ?_⟩)
      have ha : a ≠ .clearContainer w := by
        rintro rfl
        obtain rfl : .held c = v := by simpa [Access.entrust] using hv
        obtain ⟨-, h2, -⟩ | ⟨d', -, -, hd'⟩ | ⟨d', -, -, -, hd'⟩ := hh
        · simp [h2] at hd
        · rw [hd'] at hm
          cases hm
        · generalize m.custody w = u at hm hd'
          cases hm
          simp at hd'
      rw [removedBy_apply, if_neg ha, hd]
  · have hn' : ∀ v, a.entrust c m ≠ some (w, v) := fun v hv => hn ⟨v, hv⟩
    have ha : a ≠ .clearContainer w := by
      rintro rfl
      exact hn' _ rfl
    rwa [custody_of_not_entrust hn', removedBy_apply, if_neg ha]

/-- Nobody is taken for queued before it was. -/
theorem untainted (hs : system.ReachableIf ErasesQueued s) (w : CallId) :
    s.mem.tainted w = false := by
  refine system_invariant (I := fun s => ∀ w, s.mem.tainted w = false) (fun m hm => hm.tainted)
    ?_ hs w
  intro s c k a p _ ih hC hc _ w
  cases a with
  | matchContainer w' =>
    by_cases hw : w = w'
    · subst hw
      have := hC w p hc
      simp [Access.apply, ih w, this]
    · simpa [Access.apply, hw] using ih w
  | _ => exact ih w

/-- Removal and hand-off in reachable states. -/
theorem handed (hs : system.ReachableIf ErasesQueued s) (w : CallId) :
    Handed s.mem w ∧ Removed s.mem w := by
  refine system_invariant (C := ErasesQueued)
    (I := fun s => ∀ w, Handed s.mem w ∧ Removed s.mem w) (fun m hm w => ?_) ?_ hs w
  · exact ⟨.inl ⟨hm.handedBy w, hm.removedBy w, by simp [hm.custody]⟩, by
      simp [Removed, hm.enqueues]⟩
  · intro s c k a p hr ih _ _ h w
    have hs := hr.reachable
    obtain ⟨h1, h2⟩ := ih w
    exact ⟨h1.step (locked hs) (known hs) (owned hs) h (untainted hr w),
      h2.step (locked hs) (known hs) (owned hs) h (untainted hr w) h1⟩

/-- Removal and hand-off of waiters that are not exempt. -/
theorem handed_of_untainted (hs : system.Reachable s) (w : CallId)
    (hw : s.mem.tainted w = false) : Handed s.mem w := by
  refine system_invariant (C := fun _ _ => True)
    (I := fun s => ∀ w, s.mem.tainted w = false → Handed s.mem w) (fun m hm w _ => ?_) ?_ hs w hw
  · exact .inl ⟨hm.handedBy w, hm.removedBy w, by simp [hm.custody]⟩
  · intro s c k a p hs ih _ _ h w hw
    have hw' := tainted_of_apply hw
    exact (ih w hw').step (locked hs) (known hs) (owned hs) h hw'

/-! ## What becomes of a waiter that was handed off -/

/-- On the workers no waiter is lost. -/
theorem not_lost (hs : system.ReachableIf OnWorker s) (w : CallId) :
    s.mem.custody w ≠ .lost := by
  refine system_invariant (C := OnWorker) (I := fun s => ∀ w, s.mem.custody w ≠ .lost)
    (fun m hm w => by simp [hm.custody]) ?_ hs w
  intro s c k a p _ ih hC hc h w
  by_cases hn : ∃ v, a.entrust c s.mem = some (w, v)
  · obtain ⟨v, he⟩ := hn
    rintro hl
    rw [custody_of_entrust he] at hl
    subst hl
    cases a with
    | handOffLost w' => exact hC w' p hc
    | schedule fn => cases fn <;> simp [Access.entrust] at he
    | _ => simp_all [Access.entrust]
  · rw [custody_of_not_entrust fun v hv => hn ⟨v, hv⟩]
    exact ih w

/-- A waiter is signalled by `wakeup_pthread`. -/
theorem eq_wakeupPthread (he : a.entrust c m = some (w, .signalled)) : a = .wakeupPthread w := by
  cases a with
  | wakeupPthread w' =>
    obtain rfl : w' = w := by simpa [Access.entrust] using he
    rfl
  | schedule fn => cases fn <;> simp [Access.entrust] at he
  | _ => simp_all [Access.entrust]

/-- A waiter that was signalled belongs to a pthread. -/
theorem tid_of_signalled (hs : system.Reachable s) (w : CallId)
    (hw : s.mem.tainted w = false) (hu : s.mem.custody w = .signalled) : s.mem.tid w = 0 := by
  refine system_invariant (C := fun _ _ => True)
    (I := fun s => ∀ w, s.mem.tainted w = false → s.mem.custody w = .signalled → s.mem.tid w = 0)
    (fun m hm w _ hu => by simp [hm.custody] at hu) ?_ hs w hw hu
  intro s c k a p hs ih _ hc h w hw hu
  have hw' := tainted_of_apply hw
  by_cases hn : ∃ v, a.entrust c s.mem = some (w, v)
  · obtain ⟨v, he⟩ := hn
    rw [custody_of_entrust he] at hu
    subst hu
    obtain rfl := eq_wakeupPthread he
    exact h.queue.2.2.2.2.elim id ((known hs).pts c w)
  · rw [custody_of_not_entrust fun v hv => hn ⟨v, hv⟩] at hu
    obtain ht | ⟨rfl, -, hf, -⟩ := h.tid_apply w
    · rw [ht]
      exact ih w hw' hu
    · -- a waiter that is being built was not signalled
      rw [((owned hs).fresh w hw' hf).1] at hu
      cases hu

/-- The `sig` of a waiter that was signalled stays `PTHREAD_SIGNALLED`. -/
theorem sig_of_signalled (hs : system.Reachable s) (w : CallId)
    (hw : s.mem.tainted w = false) (hu : s.mem.custody w = .signalled) : s.mem.sig w = true := by
  refine system_invariant (C := fun _ _ => True)
    (I := fun s => ∀ w, s.mem.tainted w = false → s.mem.custody w = .signalled →
      s.mem.sig w = true)
    (fun m hm w _ hu => by simp [hm.custody] at hu) ?_ hs w hw hu
  intro s c k a p hs ih _ hc h w hw hu
  have hw' := tainted_of_apply hw
  by_cases hn : ∃ v, a.entrust c s.mem = some (w, v)
  · obtain ⟨v, he⟩ := hn
    rw [custody_of_entrust he] at hu
    subst hu
    obtain rfl := eq_wakeupPthread he
    simp [Access.apply]
  · rw [custody_of_not_entrust fun v hv => hn ⟨v, hv⟩] at hu
    have hold := ih w hw' hu
    cases a with
    | initPthreadWaiter g =>
      -- only a waiter that is being built gets a new `sig`
      have hne : w ≠ c := by
        rintro rfl
        rw [((owned hs).fresh w hw' (h.ages.initPthread g rfl).2.2.2).1] at hu
        cases hu
      simpa [Access.apply, hne] using hold
    | wakeupPthread w' =>
      by_cases hww : w = w' <;> simp_all [Access.apply]
    | _ => exact hold

/-- A waiter that was handed off by a push belongs to a bthread. -/
theorem tid_of_pushed (hs : system.Reachable s) (w : CallId) (hw : s.mem.tainted w = false)
    (hu : s.mem.custody w = .pushed) (hh : s.mem.handedBy w ≠ []) : s.mem.tid w ≠ 0 := by
  refine system_invariant (C := fun _ _ => True)
    (I := fun s => ∀ w, s.mem.tainted w = false → s.mem.custody w = .pushed →
      s.mem.handedBy w ≠ [] → s.mem.tid w ≠ 0)
    (fun m hm w _ hu => by simp [hm.custody] at hu) ?_ hs w hw hu hh
  intro s c k a p hs ih _ _ h w hw hu hh
  have hw' := tainted_of_apply hw
  have L := locked hs
  have K := known hs
  have O := owned hs
  by_cases hn : ∃ v, a.entrust c s.mem = some (w, v)
  · obtain ⟨v, he⟩ := hn
    have hm := (O.handover L K h hw' he).1
    obtain rfl : v = .pushed := (custody_of_entrust he).symm.trans hu
    by_cases ha : a.HandsOff w
    · cases a with
      | handOff w' =>
        obtain rfl : w' = w := ha
        exact h.queue.2.2.2.2.elim id (K.bts c w')
      | handOffLost w' | wakeupPthread w' => simp [Access.entrust] at he
      | _ => exact ha.elim
    · -- what nobody has removed was not handed off
      have hh' : s.mem.handedBy w ≠ [] := by simpa [handedBy_apply, ha] using hh
      obtain ⟨h1, -⟩ | ⟨d, h1, -⟩ | ⟨d, -, -, -, hd⟩ := handed_of_untainted hs w hw'
      · exact absurd h1 hh'
      · exact absurd h1 hh'
      · generalize s.mem.custody w = u at hm hd
        cases hm <;> simp at hd
  · have hn' : ∀ v, a.entrust c s.mem ≠ some (w, v) := fun v hv => hn ⟨v, hv⟩
    have ha : ¬a.HandsOff w := fun ha => by
      obtain ⟨-, -, v, he, -⟩ := O.held_of_handsOff L K h hw' ha
      exact hn' v he
    have hu' : s.mem.custody w = .pushed := by rwa [← custody_of_not_entrust hn']
    obtain ht | ⟨rfl, -, hf, -⟩ := h.tid_apply w
    · change (a.apply c s.mem).tid w ≠ 0
      rw [ht]
      exact ih w hw' hu' (by simpa [handedBy_apply, ha] using hh)
    · simp [(O.fresh w hw' hf).1] at hu'

/-- The bthread of a waiter is pushed as often as the waiter is handed off. -/
theorem pushes_of_handed (hs : system.ReachableIf WakesOnce s) (w : CallId)
    (ht : s.mem.tid w ≠ 0) (he : s.mem.enqueues w ≠ 0) :
    s.mem.pushes w = (s.mem.handedBy w).length := by
  have hr := hs.reachable
  have hw := (known hr).untainted ht
  obtain ⟨hh, hm⟩ := handed (hs.mono fun _ _ h => h.1) w
  rw [(owned hr).pushes w hw]
  obtain ⟨h1, h2, -⟩ | ⟨c, h1, -, hu⟩ | ⟨c, h1, -, -, hu⟩ := hh
  · obtain ⟨b, hu⟩ | ⟨d, hu⟩ | ⟨d, hd⟩ := hm he
    · simp [h1, hu]
    · simp [h1, hu]
    · simp [h2] at hd
  · simp [h1, hu]
  · obtain hu | hu | hu := hu
    · simp [h1, hu]
    · exact absurd (tid_of_signalled hr w hw hu) ht
    · exact absurd hu (not_lost (hs.mono fun _ _ h => h.2) w)

/-! ## Removing what was enqueued -/

/-- A waiter that is linked has stored its `container` or is about to; one that is being moved or
was removed had stored it. -/
structure Stored (m : Mem) (sh : CallId → Shape) (w : CallId) : Prop where
  linked : ∀ b, m.custody w = .linked b → (sh w).queueing = some b ∨ m.enqueues w ≠ 0
  unlinked : ∀ d, m.custody w = .unlinked d → m.enqueues w ≠ 0
  removed : m.removedBy w ≠ [] → m.enqueues w ≠ 0

/-- Waiters stay enqueued. -/
theorem enqueues_mono (he : m.enqueues w ≠ 0) : (a.apply c m).enqueues w ≠ 0 := by
  cases a with
  | setContainer b =>
    by_cases hc : w = c
    · subst hc; simp [Access.apply]
    · simpa [Access.apply, hc] using he
  | _ => exact he

/-- Whoever has appended its own waiter stores the `container` next. -/
theorem QueueChange.queueing {x : Shape} {b : ButexId} (h : QueueChange c m x y a)
    (hx : x.queueing = some b) : y.queueing = some b ∨ a = .setContainer b := by
  cases a with
  | setContainer b' =>
    obtain rfl : b' = b := by simpa [hx] using h.1.symm
    exact .inr rfl
  | append b' w' =>
    obtain ⟨-, -, -, -, -, ⟨-, -, -, -, hq, -⟩ | ⟨-, hq, -⟩⟩ := h
    · simp [hx] at hq
    · simp [hx] at hq
  | unlockButex b' => simp [h.1] at hx
  | moveContainer w' b' => exact h.elim
  | _ => exact .inl (by simp only [QueueChange] at h; rw [h.1, hx])

/-- **What is removed was enqueued.** -/
theorem Stored.step (L : Locked m sh) (O : Owned m sh) (h : Shape.Step c m a (sh c) y)
    (hw : m.tainted w = false) (hi : Stored m sh w) :
    Stored (a.apply c m) (update sh c y) w := by
  have hmoved : w ∈ (sh c).unl → m.enqueues w ≠ 0 := fun hm =>
    hi.unlinked c (O.sound w _ hw (.unlinked hm))
  refine ⟨fun b hu => ?_, fun d hu => ?_, fun hr => ?_⟩
  · by_cases he : a.entrust c m = some (w, .linked b)
    · obtain rfl := eq_append he
      obtain ⟨-, -, -, -, -, ⟨rfl, -, -, -, -, hq, -⟩ | ⟨hx, -⟩⟩ := h.queue
      · exact .inl (by simp [hq])
      · exact .inr (enqueues_mono (hmoved (by simp [hx])))
    · have hold : m.custody w = .linked b := by
        rw [← hu]
        refine (custody_of_not_entrust fun v hv => he ?_).symm
        rw [hv, ← custody_of_entrust hv, hu]
      obtain hq | hn := hi.linked b hold
      · by_cases hc : w = c
        · subst hc
          obtain hq | rfl := h.queue.queueing hq
          · exact .inl (by simp [hq])
          · exact .inr (by simp [Access.apply])
        · exact .inl (by simpa [hc] using hq)
      · exact .inr (enqueues_mono hn)
  · refine enqueues_mono ?_
    by_cases he : a.entrust c m = some (w, .unlinked d)
    · obtain ⟨rfl, rfl⟩ := eq_removeFromList he
      obtain ⟨-, -, -, -, b, hb⟩ := h.queue
      refine (hi.linked b (O.sel d b w hw hb)).resolve_left fun hq => ?_
      -- a call that queues its own waiter has selected none
      obtain ⟨hlw, -, -, hsel⟩ := (L.wf w).queueing b hq
      have h₁ := (L.waiterLock b d).mpr ((L.wf d).sel b w hb)
      have h₂ := (L.waiterLock b w).mpr hlw
      obtain rfl : d = w := by simpa [h₁] using h₂
      simp [hsel] at hb
    · refine hi.unlinked d ?_
      rw [← hu]
      refine (custody_of_not_entrust fun v hv => he ?_).symm
      rw [hv, ← custody_of_entrust hv, hu]
  · refine enqueues_mono ?_
    rw [removedBy_apply] at hr
    split_ifs at hr with ha
    · subst ha
      exact hmoved (by simp [h.queue.2.2.1])
    · exact hi.removed hr

/-- In reachable states what is removed was enqueued. -/
theorem stored (hs : system.Reachable s) (hw : s.mem.tainted w = false) :
    Stored s.mem s.shape w := by
  refine system_invariant (C := fun _ _ => True)
    (I := fun s => ∀ w, s.mem.tainted w = false → Stored s.mem s.shape w) (fun m hm w _ => ?_) ?_
    hs w hw
  · constructor <;> simp [hm.custody, hm.removedBy]
  · intro s c k a p hs ih _ _ h w hw
    have hw' := tainted_of_apply hw
    rw [shape_after]
    exact (ih w hw').step (locked hs) (owned hs) h hw'

/-- **Who has removed a waiter hands it off**: a call that has removed the waiter of another one and
is done with the butexes has handed it off. -/
theorem handedBy_of_over (hs : system.Reachable s) (hw : s.mem.tainted w = false)
    (hc : c ∈ s.mem.removedBy w) (hne : c ≠ w) (hp : (s.pc c).Over) :
    s.mem.handedBy w = [c] := by
  obtain ⟨-, hd, -⟩ | ⟨d, -, hd, hu⟩ | ⟨d, hh, hd, -⟩ := handed_of_untainted hs w hw
  · simp [hd] at hc
  · -- it still has the waiter in its hands
    obtain rfl : c = d := by simpa [hd] using hc
    have hcl := (owned hs).complete w hw (by simp [hu, Custody.Waits])
      (by rw [hu]; exact fun e => hne (Custody.held.inj e))
    rw [hu] at hcl
    cases hcl with
    | held hm => simp [State.shape, hp.hand] at hm
  · obtain rfl : c = d := by simpa [hd] using hc
    exact hh

/-- **Waiters are dequeued once**: in every run in which `erase_from_butex` is only about waiters
that were queued and waiters are given to `ready_to_run_general` on workers only.

**Proof sketch.** Without a held `waiter_lock` nobody is moving waiters, so a `container` tells the
queue, and there is one claim to each waiter. The removal of a waiter puts it in the hands of the
remover, only who holds it hands it off, and nobody is done while it holds one. What was handed off
is in a run queue or signalled, as it is not lost. -/
theorem dequeuedOnce (hs : system.ReachableIf WakesOnce s) : DequeuedOnce s where
  queue := by
    intro w hw hl
    have hq : system.ReachableIf ErasesQueued s := hs.mono fun _ _ h => h.1
    have O := owned hs.reachable
    have L := locked hs.reachable
    have ht := untainted hq w
    have nolock : ∀ c b, (s.shape c).lock ≠ some b := by
      intro c b hlk
      have := (L.waiterLock b c).mpr hlk
      rw [hl b] at this
      simp at this
    have nounl : ∀ d, s.mem.custody w ≠ .unlinked d := by
      intro d hd
      obtain ⟨b, hlk, -⟩ := O.unlinked w d ht hd
      exact nolock d b hlk
    have linked : ∀ b, s.mem.custody w = .linked b → s.mem.container w = some b := by
      intro b hb
      refine (O.linked w b ht hb).resolve_right fun hq => ?_
      exact nolock w b ((L.wf w).queueing b hq).1
    refine ⟨fun b hb => ?_, fun hc => ⟨fun b hm => ?_, ?_⟩⟩
    · have hu : s.mem.custody w = .linked b := by
        obtain hu | ⟨d, hu, -⟩ := O.container w b ht hb hw
        · exact hu
        · exact absurd hu (nounl d)
      have hcl := O.complete w ht (by simp [hu, Custody.Waits]) (by simp [hu])
      rw [hu] at hcl
      refine ⟨?_, fun b' hne hm => ?_⟩
      · cases hcl with
        | linked hm =>
          have := O.waiters w b ht
          have := List.count_pos_iff.mpr hm
          omega
      · have := O.sound w _ ht (.linked hm)
        rw [hu, Custody.linked.injEq] at this
        exact hne this.symm
    · have hu := O.sound w _ ht (.linked hm)
      simp [linked b hu] at hc
    · obtain ⟨b, hu⟩ | ⟨d, hu⟩ | hr := (handed hq w).2 hw
      · simp [linked b hu] at hc
      · exact absurd hu (nounl d)
      · exact hr
  once := by
    intro w
    have ht := untainted (hs.mono fun _ _ h => h.1) w
    have hen := (known hs.reachable).enqueues w
    have hst := (stored hs.reachable ht).removed
    have hr := hs.reachable
    obtain ⟨h1, h2, -⟩ | ⟨c, h1, h2, -⟩ | ⟨c, h1, h2, hne, -⟩ := handed_of_untainted hr w ht
    · simp [h1, h2, hen]
    · have := hst (by simp [h2])
      simp only [h1, h2, List.length_singleton]
      exact ⟨hen, by omega, by simp, by simp⟩
    · have := hst (by simp [h2])
      refine ⟨hen, by simp only [h2, List.length_singleton]; omega, fun _ => by rw [h1, h2],
        fun hw => ?_⟩
      obtain rfl : c = w := by simpa [h2] using hw
      exact absurd rfl hne
  handed := fun w _ => handedBy_of_over hs.reachable (untainted (hs.mono fun _ _ h => h.1) w)
  pushed := fun w => pushes_of_handed hs w
  signalled := by
    intro w h0 hh
    have ht := untainted (hs.mono fun _ _ h => h.1) w
    obtain ⟨h1, -⟩ | ⟨c, h1, -⟩ | ⟨c, -, -, -, hu⟩ := handed_of_untainted hs.reachable w ht
    · exact absurd h1 hh
    · exact absurd h1 hh
    · obtain hu | hu | hu := hu
      · exact absurd h0 (tid_of_pushed hs.reachable w ht hu hh)
      · exact sig_of_signalled hs.reachable w ht hu
      · exact absurd hu (not_lost (hs.mono fun _ _ h => h.2) w)
  kind := by
    intro c k a p w hc
    have h := step_shape hs.reachable hc
    have K := known hs.reachable
    refine ⟨?_, ?_⟩
    · rintro rfl
      exact h.queue.2.2.2.2.elim id (K.pts c w)
    · rintro (rfl | rfl)
      · exact h.queue.2.2.2.2.elim id (K.bts c w)
      · exact h.queue.2.2.2.2.elim id (K.bts c w)

/-- An interrupter finds the `container` of an unfinished pthread waiter to be the butex `1` it once
was in; the waiter is queued in butex `0` while it is being erased. -/
def earlyErase : List (CallId × Move) :=
  startAndRun.take 7 ++
  [(2, .call (.butexWaitFromPthread ⟨.user 0, 0, some 0, false⟩)), (2, .next .go),
   (2, .next (.garbage (some (.user 1)))), (2, .next .go), (2, .next .go), (2, .next .go),
   (3, .call (.interrupt (makeTid 1 0) true)), (3, .next .go), (3, .next .go), (3, .next .go),
   (3, .next .go), (3, .next .go), (3, .next .go), (2, .next .go), (3, .next .go), (3, .next .go),
   (3, .next .go), (3, .next .go), (3, .next .go), (3, .next .go), (3, .next .go),
   (2, .next .go), (2, .next .go), (2, .next .go), (3, .next .go), (3, .next .go), (3, .next .go),
   (3, .next .go)]

/-- **Waiters are not always dequeued once**: after that run the waiter is in the queue of butex `0`
and has no `container`, and whoever wakes that butex wakes it again. -/
theorem not_dequeuedOnce : ∃ s, system.Reachable s ∧ ¬DequeuedOnce s := by
  obtain ⟨s, h, hl, hm, hc, he⟩ : ∃ s,
      system.exec ⟨.initial, fun _ => .idle⟩ earlyErase = some s ∧
        s.mem.waiterLock = update (update (update (update (fun _ => none) (.user 0) (some 2))
          (.user 1) (some 3)) (.user 0) none) (.user 1) none ∧
        2 ∈ s.mem.waiters (.user 0) ∧ s.mem.container 2 = none ∧ s.mem.enqueues 2 = 1 :=
    ⟨_, rfl, rfl, .head _, rfl, rfl⟩
  refine ⟨s, Conc.Machine.Reachable.exec (.of_init ⟨Mem.initial_initial, rfl⟩) h, fun hd => ?_⟩
  have hlock : ∀ b, s.mem.waiterLock b = none := by
    intro b
    rw [hl]
    simp only [Function.update_apply]
    split_ifs <;> rfl
  exact ((hd.queue 2 (by simp [he]) hlock).2 hc).1 (.user 0) hm

/-- A bthread waits on a butex and is woken; the waker returns. -/
def waitAndWake : List (CallId × Move) :=
  startAndRun.take 7 ++ (2, .call (.butexWait ⟨.user 0, 0, 0, false⟩)) ::
    List.replicate 11 (2, .next .go) ++ (3, .call (.butexWake (.user 0))) ::
    List.replicate 8 (3, .next .go)

/-- The accesses of a list of actions. -/
def accesses : State → List (CallId × Move) → List Access
  | _, [] => []
  | s, (c, k) :: as =>
    match control c (s.pc c) k s.mem with
    | some (a, p) => a :: accesses (s.after c a p) as
    | none => []

/-- A run whose accesses all satisfy a condition. -/
theorem reachableIf_exec {C : State → CallId × Move → Prop} {P : Access → Prop}
    (hC : ∀ s c k, (∀ a p, control c (s.pc c) k s.mem = some (a, p) → P a) → C s (c, k))
    {s s' : State} {as : List (CallId × Move)} (hs : system.ReachableIf C s)
    (h : system.exec s as = some s') (hP : ∀ a ∈ accesses s as, P a) :
    system.ReachableIf C s' := by
  induction as generalizing s with
  | nil =>
    obtain rfl : s = s' := by simpa [Conc.Machine.exec] using h
    exact hs
  | cons m as ih =>
    obtain ⟨c, k⟩ := m
    obtain ⟨s₁, h₁, h₂⟩ := Option.bind_eq_some_iff.mp h
    obtain ⟨a, p, ha, rfl⟩ := system_next h₁
    simp only [accesses, ha, List.mem_cons, forall_eq_or_imp] at hP
    refine ih (hs.step (hC s c k fun a' p' ha' => ?_) h₁) h₂ hP.2
    obtain ⟨rfl, -⟩ : a = a' ∧ p = p' := by simpa [ha] using ha'
    exact hP.1

/-- An access is neither about a waiter that may not be queued, nor a hand-over with
`ready_to_run_general` off the workers. -/
def Access.wakesOnce : Access → Bool
  | .matchContainer _ | .handOffLost _ => false
  | _ => true

/-- The waker has removed the waiter and has pushed its bthread, once. -/
theorem dequeuedOnce_waitAndWake : ∃ s : State, s.pc 3 = .done (.wake 1) ∧
    s.mem.removedBy 2 = [3] ∧ s.mem.handedBy 2 = [3] ∧ s.mem.pushes 2 = 1 := by
  obtain ⟨s, h, hp, ht, he, hr⟩ : ∃ s, system.exec ⟨.initial, fun _ => .idle⟩ waitAndWake = some s ∧
      s.pc 3 = .done (.wake 1) ∧ s.mem.tid 2 = makeTid 1 0 ∧ s.mem.enqueues 2 = 1 ∧
        s.mem.removedBy 2 = [3] :=
    ⟨_, rfl, rfl, rfl, rfl, rfl⟩
  have hs : system.ReachableIf WakesOnce s := by
    have ha : (accesses ⟨.initial, fun _ => .idle⟩ waitAndWake).all Access.wakesOnce = true := rfl
    refine reachableIf_exec (P := fun a => a.wakesOnce = true) (fun s c k hP => ⟨fun w p hc => ?_,
      fun w p hc => ?_⟩) (.of_init ⟨Mem.initial_initial, rfl⟩) h (List.all_eq_true.mp ha)
    · cases hP _ p hc
    · cases hP _ p hc
  have hd := dequeuedOnce hs
  have hh := hd.handed 2 3 (by simp [hr]) (by decide) (by rw [hp]; trivial)
  have hn := hd.pushed 2 (by rw [ht]; decide) (by simp [he])
  exact ⟨s, hp, hr, hh, by simpa [hh] using hn⟩

end Bthread
