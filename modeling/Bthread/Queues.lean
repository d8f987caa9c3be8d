import Bthread.Handover

set_option relaxedAutoImplicit false
set_option autoImplicit false

/-!
# Queues

The part of the ownership invariant that is about butex queues: a waiter whose `container` is a
butex is linked in the queue of it, or being moved by the call that holds its lock.

## Main results

* `Bthread.Owned.linked_step`, `Bthread.Owned.unlinked_step`, `Bthread.Owned.container_step` —
  queues and `container` agree after an access.
* `Bthread.Owned.pushes_step` — a call is pushed when its custody says so.
-/

namespace Bthread

open Function (update update_self update_of_ne)

variable {s : State} {c d w : CallId} {m : Mem} {sh : CallId → Shape} {a : Access} {y : Shape}
  {u v : Custody} {t : SlotId} {φ : Phase}

section Step

variable (L : Locked m sh) (K : Known m sh) (R : Running m sh) (O : Owned m sh)
  (h : Shape.Step c m a (sh c) y)
include L K O h

/-- A waiter is taken out of a queue by the call that holds the lock of it. -/
theorem Owned.entrust_of_linked {b : ButexId} (hw : m.tainted w = false)
    (hu : m.custody w = .linked b) (he : a.entrust c m = some (w, u)) :
    a = .removeFromList w ∧ u = .unlinked c ∧ (sh c).lock = some b ∧
      (sh c).sel = some (b, w) := by
  have hm := (O.handover L K h hw he).1
  rw [hu] at hm
  cases hm
  obtain ⟨rfl, -⟩ := eq_removeFromList he
  obtain ⟨-, -, -, -, b', hx⟩ := h.queue
  have hu' := O.sel c b' w hw hx
  obtain rfl : b = b' := by simpa [hu] using hu'
  exact ⟨rfl, rfl, (L.wf c).sel b w hx, hx⟩

theorem Owned.sel_step (d : CallId) (b : ButexId) (w : CallId)
    (hw : (a.apply c m).tainted w = false) (hd : (update sh c y d).sel = some (b, w)) :
    (a.apply c m).custody w = .linked b := by
  have hq := h.queue
  have hw' := tainted_of_apply hw
  -- as long as the same call has it selected, nobody else holds the lock
  have keep : (sh d).sel = some (b, w) → (a.apply c m).custody w = .linked b := by
    intro hx
    have hu := O.sel d b w hw' hx
    by_cases hn : ∃ v, a.entrust c m = some (w, v)
    · obtain ⟨v, he⟩ := hn
      obtain ⟨rfl, -, hl, -⟩ := O.entrust_of_linked L K h hw' hu he
      obtain rfl := L.lock_unique hl ((L.wf d).sel b w hx)
      rw [update_self, hq.2.1] at hd
      simp at hd
    · rw [custody_of_not_entrust fun v hv => hn ⟨v, hv⟩, hu]
  by_cases hdc : d = c
  · subst hdc
    rw [update_self] at hd
    cases a with
    | nop =>
      obtain ⟨-, -, -, hs | ⟨b', w', -, hm, hs⟩⟩ := hq
      · exact keep (hs ▸ hd)
      · obtain ⟨rfl, rfl⟩ : b' = b ∧ w' = w := by simpa [hs] using hd
        exact O.sound w' _ hw' (.linked hm)
    | matchContainer w' =>
      obtain ⟨-, hx, -, -, -, b', hl, hc, hs⟩ := hq
      obtain ⟨rfl, rfl⟩ : b' = b ∧ w' = w := by simpa [hs] using hd
      have hen : m.enqueues w' ≠ 0 := by
        intro h0
        simp [Access.apply, h0] at hw
      obtain hu | ⟨e, hu, hl'⟩ := O.container w' b' hw' hc hen
      · exact hu
      · obtain rfl := L.lock_unique hl hl'
        have := O.complete w' hw' (by simp [hu, Custody.Waits]) (by simp [hu])
        rw [hu] at this
        cases this with
        | unlinked hm => simp [hx] at hm
    | moveContainer w' b => exact hq.elim
    | _ => exact keep (by simp only [QueueChange] at hq; grind)
  · exact keep (by simpa [hdc] using hd)

theorem Owned.queueing_step (w : CallId) (b : ButexId) (hw : (a.apply c m).tainted w = false)
    (hd : (update sh c y w).queueing = some b) : (a.apply c m).custody w = .linked b := by
  have hq := h.queue
  have hw' := tainted_of_apply hw
  have keep : (sh w).queueing = some b → (a.apply c m).custody w = .linked b := by
    intro hx
    have hu := O.queueing w b hw' hx
    obtain ⟨hl, -, -, hs⟩ := (L.wf w).queueing b hx
    by_cases hn : ∃ v, a.entrust c m = some (w, v)
    · obtain ⟨v, he⟩ := hn
      obtain ⟨rfl, -, hl', hs'⟩ := O.entrust_of_linked L K h hw' hu he
      obtain rfl := L.lock_unique hl' hl
      simp [hs] at hs'
    · rw [custody_of_not_entrust fun v hv => hn ⟨v, hv⟩, hu]
  by_cases hwc : w = c
  · subst hwc
    rw [update_self] at hd
    cases a with
    | append b' w' =>
      obtain ⟨-, -, -, -, -, ⟨rfl, -, -, -, -, hy, -⟩ | ⟨-, -, hy⟩⟩ := hq
      · obtain rfl : b' = b := by simpa [hy] using hd
        exact custody_of_entrust rfl
      · simp [hy] at hd
    | moveContainer w' b => exact hq.elim
    | _ => exact keep (by simp only [QueueChange] at hq; grind)
  · exact keep (by simpa [hwc] using hd)

end Step

/-- What an access does to the `container` of a waiter. -/
theorem Shape.Step.container_apply {x : Shape} (h : Shape.Step c m a x y) (w : CallId) :
    (a.apply c m).container w = m.container w ∧ (∀ b, w = c → a ≠ .setContainer b) ∨
      w = c ∧ x.fresh = true ∧ (a.apply c m).enqueues w = m.enqueues w ∨
      (∃ b, w = c ∧ a = .setContainer b ∧ x.queueing = some b ∧
        (a.apply c m).container w = some b) ∨
      a = .clearContainer w ∧ (a.apply c m).container w = none := by
  cases a with
  | setContainer b =>
    by_cases hw : w = c
    · subst hw; exact .inr (.inr (.inl ⟨b, rfl, rfl, h.queue.1, by simp [Access.apply]⟩))
    · exact .inl ⟨by simp [Access.apply, hw], by simp [hw]⟩
  | moveContainer w' b => exact h.queue.elim
  | clearContainer w' =>
    by_cases hw : w = w'
    · subst hw; exact .inr (.inr (.inr ⟨rfl, by simp [Access.apply]⟩))
    · exact .inl ⟨by simp [Access.apply, hw], by simp⟩
  | initBthreadWaiter t =>
    obtain ⟨-, -, -, hf⟩ := h.ages.init t (.inl rfl)
    by_cases hw : w = c
    · exact .inr (.inl ⟨hw, hf, rfl⟩)
    · exact .inl ⟨by simp [Access.apply, hw], by simp [hw]⟩
  | initPthreadWaiter o =>
    obtain ⟨-, -, -, hf⟩ := h.ages.initPthread o rfl
    by_cases hw : w = c
    · exact .inr (.inl ⟨hw, hf, rfl⟩)
    · exact .inl ⟨by simp [Access.apply, hw], by simp [hw]⟩
  | _ => exact .inl ⟨rfl, by simp⟩

section Step

variable (L : Locked m sh) (K : Known m sh) (R : Running m sh) (O : Owned m sh)
  (h : Shape.Step c m a (sh c) y)
include L K O h

omit L K in
/-- The call that has unlinked a waiter keeps the lock until it has cleared its `container`. -/
theorem Owned.lock_keep {b : ButexId} (hw : m.tainted w = false) (hu : m.custody w = .unlinked d)
    (hl : (sh d).lock = some b) : (update sh c y d).lock = some b := by
  by_cases hd : d = c
  · subst hd
    rw [update_self]
    have hlk := h.lock
    cases a with
    | lockButex b' => simp [hlk.2.1] at hl
    | unlockButex b' =>
      have hcl := O.complete w hw (by simp [hu, Custody.Waits]) (by simp [hu])
      rw [hu] at hcl
      cases hcl with
      | unlinked hm => simp [h.queue.2.2.1] at hm
    | _ => exact (show y.lock = (sh d).lock from hlk).trans hl
  · simpa [hd] using hl

omit L K in
theorem Owned.linked_step (w : CallId) (b : ButexId) (hw : (a.apply c m).tainted w = false)
    (hu : (a.apply c m).custody w = .linked b) :
    (a.apply c m).container w = some b ∨ (update sh c y w).queueing = some b := by
  have hw' := tainted_of_apply hw
  have hq := h.queue
  by_cases hn : ∃ v, a.entrust c m = some (w, v)
  · obtain ⟨v, he⟩ := hn
    rw [custody_of_entrust he] at hu
    subst hu
    obtain rfl := eq_append he
    obtain ⟨hl, -, -, -, -, ⟨rfl, -, -, -, -, hy, -⟩ | ⟨hx, -⟩⟩ := hq
    · exact .inr (by simp [hy])
    · have hu := O.sound w _ hw' (.unlinked (d := c) (by simp [hx]))
      obtain ⟨b', hl', hc⟩ := O.unlinked w c hw' hu
      obtain rfl : b = b' := Option.some.inj (hl.symm.trans hl')
      exact .inl hc
  · have hn' : ∀ v, a.entrust c m ≠ some (w, v) := fun v hv => hn ⟨v, hv⟩
    rw [custody_of_not_entrust hn'] at hu
    have ih := O.linked w b hw' hu
    obtain ⟨hc, hns⟩ | ⟨rfl, hf, -⟩ | ⟨b', rfl, rfl, hx, hc⟩ | ⟨rfl, -⟩ := h.container_apply w
    · rw [hc]
      refine ih.imp_right fun hx => ?_
      by_cases hwc : w = c
      · subst hwc
        rw [update_self]
        cases a with
        | append b' w' =>
          obtain ⟨-, -, -, -, -, ⟨rfl, -⟩ | ⟨-, hx', -⟩⟩ := hq
          · simp [Access.entrust] at hn'
          · simp [hx] at hx'
        | setContainer b' => exact absurd rfl (hns b' rfl)
        | moveContainer w' b => exact hq.elim
        | _ => simp only [QueueChange] at hq; grind
      · simpa [hwc] using hx
    · simp [(O.fresh w hw' hf).1] at hu
    · have := O.queueing w b' hw' hx
      obtain rfl : b = b' := by simpa [hu] using this
      exact .inl hc
    · simp [Access.entrust] at hn'

omit K in
theorem Owned.unlinked_step (w d : CallId) (hw : (a.apply c m).tainted w = false)
    (hu : (a.apply c m).custody w = .unlinked d) :
    ∃ b, (update sh c y d).lock = some b ∧ (a.apply c m).container w = some b := by
  have hw' := tainted_of_apply hw
  have hq := h.queue
  by_cases hn : ∃ v, a.entrust c m = some (w, v)
  · obtain ⟨v, he⟩ := hn
    rw [custody_of_entrust he] at hu
    subst hu
    obtain ⟨rfl, rfl⟩ := eq_removeFromList he
    obtain ⟨-, -, -, -, b, hx⟩ := hq
    have hu := O.sel d b w hw' hx
    have hl := (L.wf d).sel b w hx
    refine ⟨b, by simpa [show y.lock = (sh d).lock from h.lock] using hl, ?_⟩
    obtain hc | hc := O.linked w b hw' hu
    · exact hc
    · obtain ⟨hl', -, -, hs⟩ := (L.wf w).queueing b hc
      obtain rfl := L.lock_unique hl hl'
      simp [hs] at hx
  · have hn' : ∀ v, a.entrust c m ≠ some (w, v) := fun v hv => hn ⟨v, hv⟩
    rw [custody_of_not_entrust hn'] at hu
    obtain ⟨b, hl, hc⟩ := O.unlinked w d hw' hu
    refine ⟨b, O.lock_keep h hw' hu hl, ?_⟩
    obtain ⟨hc', -⟩ | ⟨rfl, hf, -⟩ | ⟨b', rfl, rfl, hx, -⟩ | ⟨rfl, -⟩ := h.container_apply w
    · rw [hc', hc]
    · simp [(O.fresh w hw' hf).1] at hu
    · simp [O.queueing w b' hw' hx] at hu
    · simp [Access.entrust] at hn'

theorem Owned.container_step (w : CallId) (b : ButexId) (hw : (a.apply c m).tainted w = false)
    (hc : (a.apply c m).container w = some b) (he : (a.apply c m).enqueues w ≠ 0) :
    (a.apply c m).custody w = .linked b ∨
      ∃ d, (a.apply c m).custody w = .unlinked d ∧ (update sh c y d).lock = some b := by
  have hw' := tainted_of_apply hw
  have hq := h.queue
  obtain ⟨hc', hns⟩ | ⟨rfl, hf, he'⟩ | ⟨b', rfl, rfl, hx, hc'⟩ | ⟨rfl, hc'⟩ := h.container_apply w
  · have hen : m.enqueues w ≠ 0 := by
      cases a with
      | setContainer b' =>
        have hwc : w ≠ c := fun hwc => hns b' hwc rfl
        simpa [Access.apply, hwc] using he
      | _ => exact he
    have ih := O.container w b hw' (hc' ▸ hc) hen
    by_cases hn : ∃ v, a.entrust c m = some (w, v)
    · obtain ⟨v, hev⟩ := hn
      rw [custody_of_entrust hev]
      obtain hu | ⟨d, hu, hl⟩ := ih
      · obtain ⟨rfl, rfl, hl, -⟩ := O.entrust_of_linked L K h hw' hu hev
        exact .inr ⟨c, rfl, by simpa [show y.lock = (sh c).lock from h.lock] using hl⟩
      · have hm := (O.handover L K h hw' hev).1
        rw [hu] at hm
        cases hm with
        | @reappend b' =>
          obtain rfl := eq_append hev
          obtain rfl : b' = b := Option.some.inj (hq.1.symm.trans hl)
          exact .inl rfl
        | clear =>
          cases a with
          | clearContainer w' =>
            obtain rfl : w' = w := by simpa [Access.entrust] using hev
            simp [Access.apply] at hc
          | schedule fn => cases fn <;> simp [Access.entrust] at hev
          | _ => simp_all [Access.entrust]
    · have hn' : ∀ v, a.entrust c m ≠ some (w, v) := fun v hv => hn ⟨v, hv⟩
      rw [custody_of_not_entrust hn']
      refine ih.imp_right ?_
      rintro ⟨d, hu, hl⟩
      exact ⟨d, hu, O.lock_keep h hw' hu hl⟩
  · exact absurd (O.fresh w hw' hf).2.2 (he' ▸ he)
  · obtain rfl : b' = b := Option.some.inj (hc'.symm.trans hc)
    left
    rw [custody_of_not_entrust (by simp [Access.entrust])]
    exact O.queueing w b' hw' hx
  · simp [hc'] at hc

theorem Owned.fresh_step (d : CallId) (hw : (a.apply c m).tainted d = false)
    (hf : (update sh c y d).fresh = true) :
    (a.apply c m).custody d = .none ∧ (a.apply c m).pushes d = 0 ∧
      (a.apply c m).enqueues d = 0 := by
  have hw' := tainted_of_apply hw
  have hf' : (sh d).fresh = true := by
    by_cases hd : d = c
    · subst hd; exact h.ages.fresh (by simpa using hf)
    · simpa [hd] using hf
  obtain ⟨hu, hp, he⟩ := O.fresh d hw' hf'
  have hn : ∀ v, a.entrust c m ≠ some (d, v) := by
    intro v he
    obtain ⟨rfl, -, hy⟩ := h.entrust_of_none L K O hw' hu he
    simp [hy] at hf
  rw [custody_of_not_entrust hn, pushes_apply, if_neg (hn _)]
  refine ⟨hu, hp, ?_⟩
  cases a with
  | setContainer b =>
    have : d ≠ c := by
      rintro rfl
      simp [O.queueing d b hw' h.queue.1] at hu
    simpa [Access.apply, this] using he
  | _ => exact he

theorem Owned.pushes_step (w : CallId) (hw : (a.apply c m).tainted w = false) :
    (a.apply c m).pushes w = if (a.apply c m).custody w = .pushed then 1 else 0 := by
  have hw' := tainted_of_apply hw
  have ih := O.pushes w hw'
  rw [pushes_apply, ih]
  by_cases hn : ∃ v, a.entrust c m = some (w, v)
  · obtain ⟨v, he⟩ := hn
    have hm := (O.handover L K h hw' he).1
    have hne : m.custody w ≠ .pushed := by
      intro hu
      rw [hu] at hm
      cases hm
    simp [custody_of_entrust he, he, hne]
  · have hn' : ∀ v, a.entrust c m ≠ some (w, v) := fun v hv => hn ⟨v, hv⟩
    rw [custody_of_not_entrust hn', if_neg (hn' _), Nat.add_zero]

end Step

end Bthread
