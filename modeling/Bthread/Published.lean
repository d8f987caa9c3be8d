import Bthread.Pthreads

set_option relaxedAutoImplicit false
set_option autoImplicit false

/-!
# Published waiters

A waiter is published in `current_waiter` before it is queued, so its `container` must be `NULL`
from then on until it is queued. A `ButexPthreadWaiter` leaves its `container` as it finds it on the
stack.

## Main definitions

* `Bthread.Exposed` — a call other than the wait itself can get at a waiter.
* `Bthread.PublishesNull` — a step publishes its waiter with a `container` that is `NULL`.
* `Bthread.SafeToErase` — published waiters can be erased at any moment.

## Main results

* `Bthread.erasesQueued_of_publishesNull` — then `erase_from_butex` is only about waiters that were
  queued.
* `Bthread.safeToErase` — then published waiters are safe to erase.
* `Bthread.not_safeToErase` — they are not, otherwise.
-/

namespace Bthread

open Function (update update_self update_of_ne)

variable {s : State} {c d w : CallId} {m : Mem} {sh : CallId → Shape} {a : Access} {y : Shape}
  {p : Pc}

/-! ## Getting at a waiter -/

/-- A call can get at the object of call `w` by its address: from `current_waiter`, a timer or a
sleep, or because it has got it already. -/
def Exposed (m : Mem) (sh : CallId → Shape) (w : CallId) : Prop :=
  (∃ t, m.currentWaiter t = some w) ∨ (∃ i f, m.timerFn i = some f ∧ f.arg = w) ∨
    m.remained w = true ∨ ∃ d, (sh d).target = some w

/-- An object that can be got at is referred to. -/
theorem Exposed.refers (h : Exposed m sh w) : m.Refers w ∨ ∃ d, (sh d).Refers w := by
  obtain h | h | h | ⟨d, h⟩ := h
  · exact .inl (.inr (.inl h))
  · exact .inl (.inr (.inr (.inl h)))
  · exact .inl (.inr (.inr (.inr h)))
  · exact .inr ⟨d, .inl h⟩

/-- A call that owns a waiter and refers to one is `wait_pthread` erasing its own. -/
theorem Pc.of_target (hb : (p.shape c).built = true) (ht : (p.shape c).target ≠ none) :
    ∃ b e, p = .butexWaitFromPthread b (.erase e) := by
  cases p with
  | butexWait b q =>
    cases q with
    | callback q =>
      cases q with
      | unsleep u => cases u <;> exact absurd rfl ht
      | _ => exact absurd rfl ht
    | unsleep u => cases u <;> exact absurd rfl ht
    | _ => exact absurd rfl ht
  | butexWaitFromPthread b q =>
    cases q with
    | erase e => exact ⟨b, e, rfl⟩
    | _ => exact absurd rfl ht
  | butexWake b q =>
    cases q with
    | front w f =>
      cases f with
      | unsleep u => cases u <;> cases hb
      | _ => cases hb
    | _ => cases hb
  | butexWakeAll b w q =>
    cases q with
    | unsleepNext next bt n u => cases u <;> cases hb
    | unsleep next bt w n saved u => cases u <;> cases hb
    | _ => cases hb
  | butexWakeExcept b t w q =>
    cases q with
    | unsleep bt w n saved u => cases u <;> cases hb
    | _ => cases hb
  | endTask t q =>
    cases q with
    | wakeExcept q =>
      cases q with
      | unsleep bt w n saved u => cases u <;> cases hb
      | _ => cases hb
    | _ => cases hb
  | interrupt t w q =>
    cases q with
    | erase w e => cases e <;> cases hb
    | _ => cases hb
  | timer i q =>
    cases q with
    | erase w e => cases e <;> cases hb
    | _ => cases hb
  | butexRequeue b d q => cases q <;> cases hb
  | setStopped t q => cases q <;> cases hb
  | usleep t q => cases q <;> exact absurd rfl ht
  | addSleepEvent e t q => cases q <;> cases hb
  | startTask q => cases q <;> cases hb
  | initGroup q => cases q <;> cases hb
  | yield t q => cases q <;> cases hb
  | idle | done r => exact absurd rfl ht

/-- A `container` is set by its wait, or holds what the stack held. -/
theorem container_of_apply (h : (a.apply c m).container w ≠ none) :
    m.container w ≠ none ∨ (w = c ∧ ((∃ b, a = .setContainer b) ∨ ∃ g, a = .initPthreadWaiter g)) ∨
      ∃ b, a = .moveContainer w b := by
  cases a with
  | setContainer b =>
    by_cases hw : w = c
    · exact .inr (.inl ⟨hw, .inl ⟨b, rfl⟩⟩)
    · exact .inl (by simpa [Access.apply, hw] using h)
  | initPthreadWaiter g =>
    by_cases hw : w = c
    · exact .inr (.inl ⟨hw, .inr ⟨g, rfl⟩⟩)
    · exact .inl (by simpa [Access.apply, hw] using h)
  | moveContainer w' b =>
    by_cases hw : w = w'
    · exact .inr (.inr ⟨b, by rw [hw]⟩)
    · exact .inl (by simpa [Access.apply, hw] using h)
  | clearContainer w' =>
    by_cases hw : w = w'
    · simp [Access.apply, hw] at h
    · exact .inl (by simpa [Access.apply, hw] using h)
  | initBthreadWaiter t =>
    by_cases hw : w = c
    · simp [Access.apply, hw] at h
    · exact .inl (by simpa [Access.apply, hw] using h)
  | _ => exact .inl h

/-! ## The invariant -/

/-- A step that publishes the waiter of its own call publishes one whose `container` is `NULL`. -/
def PublishesNull (s : State) (x : CallId × Move) : Prop :=
  ∀ t p, control x.1 (s.pc x.1) x.2 s.mem = some (.setCurrentWaiter t (some x.1), p) →
    s.mem.container x.1 = none

/-- Nobody can get at a waiter whose `container` holds what the stack held. -/
def GarbageHidden (m : Mem) (sh : CallId → Shape) : Prop :=
  ∀ w, m.container w ≠ none → m.enqueues w = 0 → ¬Exposed m sh w

/-- A waiter that is taken for queued was queued. -/
theorem GarbageHidden.erasesQueued (hs : system.Reachable s) (H : GarbageHidden s.mem s.shape)
    (x : CallId × Move) : ErasesQueued s x := by
  intro w p hc he
  obtain ⟨-, -, -, -, ht, b, -, hb, -⟩ := (step_shape hs hc).queue
  exact H w (by simp [hb]) he (.inr (.inr (.inr ⟨x.1, ht⟩)))

section Step

variable (L : Locked m sh) (K : Known m sh) (O : Owned m sh) (h : Shape.Step c m a (sh c) y)
include K h

/-- Nobody can get at a waiter that has just been constructed. -/
theorem not_exposed_of_init {g : Option ButexId} (ha : a = .initPthreadWaiter g) :
    ¬Exposed (a.apply c m) (update sh c y) c := by
  subst ha
  have hb := (h.ages.initPthread g rfl).1
  have hm : ¬m.Refers c := fun hm => by simp [K.memBuilt c hm] at hb
  have hd : ∀ d, ¬(sh d).Refers c := fun d hd => by simp [K.callBuilt d c hd] at hb
  rintro (hx | hx | hx | ⟨d, hx⟩)
  · exact hm (.inr (.inl hx))
  · exact hm (.inr (.inr (.inl hx)))
  · exact hm (.inr (.inr (.inr hx)))
  · by_cases hdc : d = c
    · subst hdc
      rw [update_self] at hx
      obtain hx | hx | ⟨-, hx⟩ := h.refers (w := d) (.inl hx)
      · exact hd d hx
      · exact hm hx
      · simp [hx] at hb
    · rw [update_of_ne hdc] at hx
      exact hd d (.inl hx)

omit K
include L O

/-- A waiter of a pthread that nobody could get at is exposed by being published, or by its own
call. -/
theorem exposed_of (h0 : m.tid w = 0) (hw : ¬Exposed m sh w)
    (hx : Exposed (a.apply c m) (update sh c y) w) :
    w = c ∧ ((∃ t, a = .setCurrentWaiter t (some w)) ∨ y.target = some w ∧ y.built = true) := by
  have hself : (sh w).self = none := by
    by_contra hself
    obtain ⟨t, ht⟩ := Option.ne_none_iff_exists'.mp hself
    exact (O.tid_of_self L ht).2.2.1 h0
  have htarget : (sh c).target ≠ some w := fun ht => hw (.inr (.inr (.inr ⟨c, ht⟩)))
  obtain ⟨t, hx⟩ | ⟨i, f, hx, hf⟩ | hx | ⟨d, hx⟩ := hx
  · cases a with
    | setCurrentWaiter t' o =>
      by_cases ht : t = t'
      · subst ht
        obtain rfl : o = some w := by simpa [Access.apply] using hx
        obtain ⟨hwc, -⟩ | hx := h.ages.publishes t w rfl
        · exact ⟨hwc, .inl ⟨t, rfl⟩⟩
        · exact absurd hx htarget
      · exact absurd (.inl ⟨t, by simpa [Access.apply, ht] using hx⟩) hw
    | _ => exact absurd (.inl ⟨t, hx⟩) hw
  · obtain hold | ⟨rfl, -⟩ := timerFn_of_apply hx
    · exact absurd (.inr (.inl ⟨i, f, hold, hf⟩)) hw
    · obtain ⟨-, -, ⟨rfl, ⟨-, hs⟩, -⟩ | ⟨e, rfl, hwake, -⟩⟩ := h.sleep
      · obtain rfl : c = w := hf
        exact absurd hself hs
      · obtain rfl : e = w := hf
        exact absurd ((L.wf c).wake e hwake).2.2 htarget
  · cases a with
    | suspendSleep t =>
      by_cases hwc : w = c
      · subst hwc
        have := (h.ages.waits t (.inr rfl)).2.2.2.1
        simp [hself] at this
      · exact absurd (.inr (.inr (.inl (by simpa [Access.apply, hwc] using hx)))) hw
    | runRemained e =>
      by_cases hwe : w = e
      · simp [Access.apply, hwe] at hx
      · exact absurd (.inr (.inr (.inl (by simpa [Access.apply, hwe] using hx)))) hw
    | _ => exact absurd (.inr (.inr (.inl hx))) hw
  · by_cases hdc : d = c
    · subst hdc
      rw [update_self] at hx
      obtain hold | ⟨rfl, hb⟩ | hold | ⟨i, hold⟩ | ⟨i, hold⟩ | hold := h.learns.target w hx
      · exact absurd hold htarget
      · exact ⟨rfl, .inr ⟨hx, h.ages.built hb⟩⟩
      · exact absurd (.inl hold) hw
      · exact absurd (.inr (.inl ⟨i, _, hold, rfl⟩)) hw
      · exact absurd (.inr (.inl ⟨i, _, hold, rfl⟩)) hw
      · exact absurd (.inr (.inr (.inl hold))) hw
    · rw [update_of_ne hdc] at hx
      exact absurd (.inr (.inr (.inr ⟨d, hx⟩))) hw

end Step

/-- **Where only waiters without a `container` are published**, `erase_from_butex` is only about
waiters that were queued, and nobody gets at a waiter whose `container` is not its own.

**Proof sketch.** Such a waiter is a pthread's. Another call could only get at it after it was
published; its own call erases it only after it was queued. -/
theorem erasesQueued_of_publishesNull (hs : system.ReachableIf PublishesNull s) :
    system.ReachableIf ErasesQueued s ∧ GarbageHidden s.mem s.shape := by
  refine hs.invariant (I := fun s => system.ReachableIf ErasesQueued s ∧
    GarbageHidden s.mem s.shape) (fun s hi => ⟨.of_init hi, fun w hw => ?_⟩) ?_
  · exact absurd (hi.1.container w) hw
  rintro s ⟨c, k⟩ s' _ ⟨hr, H⟩ hC hn
  have hr' := hr.step (H.erasesQueued hr.reachable (c, k)) hn
  refine ⟨hr', ?_⟩
  obtain ⟨a, p, hc, rfl⟩ := system_next hn
  have L := locked hr.reachable
  have K := known hr.reachable
  have h := step_shape hr.reachable hc
  change GarbageHidden (a.apply c s.mem) (s.after c a p).shape
  rw [shape_after]
  intro w hw he
  obtain hold | ⟨rfl, ⟨b, rfl⟩ | ⟨g, rfl⟩⟩ | ⟨b, rfl⟩ := container_of_apply hw
  · have he₀ : s.mem.enqueues w = 0 := by
      obtain h | ⟨rfl, b, rfl⟩ := enqueues_apply c a s.mem w
      · exact h.symm.trans he
      · simp [Access.apply] at he
    intro hx
    obtain ⟨rfl, ⟨t, rfl⟩ | ⟨ht, hb⟩⟩ :=
      exposed_of L (owned hr.reachable) h (K.garbage w he₀ hold) (H w hold he₀) hx
    · exact hold (hC t p hc)
    · obtain ⟨b, e, rfl⟩ := Pc.of_target hb (by simp [ht])
      exact ((pthreadOk hr' w).queued b (.erase e) (by simp) trivial).1 he
  · simp [Access.apply] at he
  · exact not_exposed_of_init K h rfl
  · exact h.queue.elim

/-! ## Safe to erase -/

/-- A published waiter has no `container`, or is linked in the queue of its `container`, unless the
call that holds the `waiter_lock` of that butex has just unlinked it; and whoever is about to unlink
a waiter from a queue holds its `waiter_lock` and finds the waiter there. -/
structure SafeToErase (s : State) : Prop where
  container : ∀ t w b, s.mem.currentWaiter t = some w → s.mem.container w = some b →
    w ∈ s.mem.waiters b ∨ ∃ d, s.mem.waiterLock b = some d ∧ w ∈ (s.shape d).unl
  queue : ∀ d b w, (s.shape d).sel = some (b, w) →
    s.mem.waiterLock b = some d ∧ w ∈ s.mem.waiters b

/-- **Published waiters are safe to erase** in every run in which a waiter is only published while
its `container` is `NULL`. -/
theorem safeToErase (hs : system.ReachableIf PublishesNull s) : SafeToErase s := by
  obtain ⟨hr, H⟩ := erasesQueued_of_publishesNull hs
  have L := locked hr.reachable
  have O := owned hr.reachable
  constructor
  · intro t w b ht hb
    have hw := untainted hr w
    have he : s.mem.enqueues w ≠ 0 := fun he => H w (by simp [hb]) he (.inl ⟨t, ht⟩)
    obtain hu | ⟨d, hu, hl⟩ := O.container w b hw hb he
    · have hcl := O.complete w hw (by simp [hu, Custody.Waits]) (by simp [hu])
      rw [hu] at hcl
      cases hcl with
      | linked hm => exact .inl hm
    · have hcl := O.complete w hw (by simp [hu, Custody.Waits]) (by simp [hu])
      rw [hu] at hcl
      cases hcl with
      | unlinked hm => exact .inr ⟨d, (L.waiterLock b d).mpr hl, hm⟩
  · intro d b w hsel
    have hw := untainted hr w
    have hu := O.sel d b w hw hsel
    have hcl := O.complete w hw (by simp [hu, Custody.Waits]) (by simp [hu])
    rw [hu] at hcl
    cases hcl with
    | linked hm => exact ⟨(L.waiterLock b d).mpr ((L.wf d).sel b w hsel), hm⟩

/-- A check that a step publishes its waiter with a `container` that is `NULL`. -/
def publishesNull (s : State) (x : CallId × Move) : Bool :=
  match control x.1 (s.pc x.1) x.2 s.mem with
  | some (.setCurrentWaiter _ (some _), _) => s.mem.container x.1 = none
  | _ => true

/-- The check is about the condition. -/
theorem publishesNull_spec {x : CallId × Move} (h : publishesNull s x = true) :
    PublishesNull s x := by
  intro t p hc
  simpa [publishesNull, hc] using h

/-- A task that waits as a pthread publishes its waiter; `o` is what its `container` holds. -/
def publish (o : Option ButexId) : List (CallId × Move) :=
  startAndRun.take 7 ++
  [(2, .call (.butexWaitFromPthread ⟨.user 0, 0, some 0, false⟩)), (2, .next .go),
   (2, .next (.garbage o)), (2, .next .go)]

/-- The waiter is published, and then queued. -/
theorem safeToErase_publish : ∃ s : State, s.mem.currentWaiter 0 = some 2 ∧
    s.mem.container 2 = some (.user 0) ∧
      (2 ∈ s.mem.waiters (.user 0) ∨
        ∃ d, s.mem.waiterLock (.user 0) = some d ∧ 2 ∈ (s.shape d).unl) := by
  obtain ⟨s, h, hp, hc⟩ : ∃ s, system.exec ⟨.initial, fun _ => .idle⟩ (publish none ++
      [(2, .next .go), (2, .next .go), (2, .next .go), (2, .next .go), (2, .next .go)]) = some s ∧
        s.mem.currentWaiter 0 = some 2 ∧ s.mem.container 2 = some (.user 0) :=
    ⟨_, rfl, rfl, rfl⟩
  have hs : system.ReachableIf PublishesNull s :=
    .of_checked publishesNull (fun _ _ => publishesNull_spec)
      (.of_init ⟨Mem.initial_initial, rfl⟩) h rfl
  exact ⟨s, hp, hc, (safeToErase hs).container 0 2 (.user 0) hp hc⟩

/-- **Published waiters are not always safe to erase**: the `container` of this one is a butex in
whose queue it is not. -/
theorem not_safeToErase : ∃ s, system.Reachable s ∧ ¬SafeToErase s := by
  obtain ⟨s, h, hp, hc, hw, hl⟩ : ∃ s,
      system.exec ⟨.initial, fun _ => .idle⟩ (publish (some (.user 1))) = some s ∧
        s.mem.currentWaiter 0 = some 2 ∧ s.mem.container 2 = some (.user 1) ∧
        s.mem.waiters (.user 1) = [] ∧ s.mem.waiterLock (.user 1) = none :=
    ⟨_, rfl, rfl, rfl, rfl, rfl⟩
  refine ⟨s, Conc.Machine.Reachable.exec (.of_init ⟨Mem.initial_initial, rfl⟩) h, fun hn => ?_⟩
  obtain hm | ⟨d, hd, -⟩ := hn.container 0 2 (.user 1) hp hc
  · simp [hw] at hm
  · simp [hl] at hd

end Bthread
