import Mathlib.Data.Fintype.Card
import Bthread.Wakefulness

set_option relaxedAutoImplicit false
set_option autoImplicit false

/-!
# Stopping the parking lots

`ParkingLot::stop` sets the lowest bit of the word of a lot and wakes its sleepers. A worker that
has remembered a stopped word leaves; one that has remembered another finds the word changed.
Nothing is assumed here about the scans of `steal_task`, which read no group once `_ngroup` is 0, or
about words that wrap around.

## Main definitions

* `Bthread.Parking.Halting` — what `ParkingLot::stop` leaves behind.

## Main results

* `Bthread.Parking.stops` — nobody sleeps in a lot that was stopped, and nobody leaves before.
-/

namespace Bthread.Parking

open Conc (Config Program)
open Signals (Queue Side Thread)

variable {G : Type*} [DecidableEq G] {lay : Layout G} {m m' : Mem G} {g : G} {op : Op G}
  {e : Env G} {t : Thread G} {p p' : Pc G} {k : Move G} {s : Config (Thread G) (Mem G) (Pc G)}

/-- What `ParkingLot::stop` leaves behind. -/
structure Halting (s : Config (Thread G) (Mem G) (Pc G)) : Prop where
  /-- Between its two steps the word is stopped. -/
  waking : ∀ t l lots, (s.pc t).op = .wakeAll l lots → State.stopped (s.mem.pendingSignal l) = true
  /-- After it the word is stopped and nobody sleeps. -/
  stopped : ∀ l, s.mem.stopped l = true →
    State.stopped (s.mem.pendingSignal l) = true ∧ s.mem.sleepers l = []
  /-- A worker has left for a stopped word. -/
  exited : ∀ g, s.pc (.worker g) = .exited → State.stopped (s.mem.lastPlState g) = true

/-- A stopped word stays stopped. -/
theorem opCode_stays {l : Lot} (h : State.stopped (m.pendingSignal l) = true) :
    State.stopped ((opCode lay op e m).1.pendingSignal l) = true :=
  (opCode_word l).stopped h

/-- A worker that acts outside of calls does not start to stop a lot. -/
theorem workerCode_wakeAll (hc : workerCode lay g p k m = some (m', p')) {l : Lot}
    {lots : List Lot} : p'.op ≠ .wakeAll l lots := by
  have hcb : ∀ cb, (callback g cb : Op G) ≠ .wakeAll l lots := by
    rintro (_ | tid) h <;> cases h
  have hfound : ∀ c : Caller, (c.found g : Pc G).op ≠ .wakeAll l lots := by
    rintro (_ | cb)
    · exact fun h => (by cases h)
    · exact hcb cb
  unfold workerCode at hc
  split at hc
  · cases hc
    exact fun h => (by cases h)
  · cases hc; exact fun h => (by cases h)
  · split at hc
    · cases hc; exact fun h => (by cases h)
    · split at hc <;> · cases hc; exact fun h => (by cases h)
  · split at hc
    · cases hc
    · cases hc; exact fun h => (by cases h)
  · cases hc; exact fun h => (by cases h)
  · split at hc
    · cases hc; exact fun h => (by cases h)
    · cases hc; exact hfound _
  · split at hc
    · cases hc; exact fun h => (by cases h)
    · cases hc; exact hfound _
  · cases hc; exact fun h => (by cases h)
  · next c _ =>
    cases hc
    cases c with
    | waitTask => exact fun h => (by cases h)
    | sched cb => exact hcb cb
  · split at hc
    · cases hc; exact fun h => (by cases h)
    · cases hc; exact hfound _
  · cases hc

/-- A worker does not fall asleep in a lot whose word is stopped. -/
theorem workerCode_halting (hc : workerCode lay g p k m = some (m', p')) :
    m'.stopped = m.stopped ∧
      (∀ l, State.stopped (m.pendingSignal l) = true → m.sleepers l = [] → m'.sleepers l = []) ∧
      (p' = .exited → State.stopped (m'.lastPlState g) = true) := by
  have hfound : ∀ c : Caller, (c.found g : Pc G) ≠ .exited := by
    rintro (_ | cb) <;> simp [Caller.found]
  have hmissed : ∀ c : Caller, (c.missed g : Pc G) ≠ .exited := by
    rintro (_ | cb) <;> simp [Caller.missed]
  unfold workerCode at hc
  split at hc
  · cases hc; exact ⟨rfl, fun _ _ => id, fun h => (by cases h)⟩
  · cases hc; exact ⟨rfl, fun _ _ => id, fun h => (by cases h)⟩
  · split at hc
    · next hlast => cases hc; exact ⟨rfl, fun _ _ => id, fun _ => hlast⟩
    · next hlast =>
      split at hc
      · next hw =>
        cases hc
        refine ⟨rfl, fun l hl hs => ?_, fun h => (by cases h)⟩
        rcases eq_or_ne l (lay.lot g) with rfl | hne
        · rw [hw] at hl
          exact absurd hl hlast
        · simpa [Mem.setSleepers, hne] using hs
      · cases hc; exact ⟨rfl, fun _ _ => id, fun h => (by cases h)⟩
  · split at hc
    · cases hc
    · cases hc; exact ⟨rfl, fun _ _ => id, fun h => (by cases h)⟩
  · cases hc
    refine ⟨rfl, fun l _ hs => ?_, fun h => (by cases h)⟩
    rcases eq_or_ne l (lay.lot g) with rfl | hne
    · simp [Mem.setSleepers, hs]
    · simpa [Mem.setSleepers, hne] using hs
  · split at hc
    · cases hc; exact ⟨rfl, fun _ _ => id, fun h => (by cases h)⟩
    · cases hc; exact ⟨rfl, fun _ _ => id, fun h => absurd h (hfound _)⟩
  · split at hc
    · cases hc; exact ⟨rfl, fun _ _ => id, fun h => (by cases h)⟩
    · cases hc; exact ⟨rfl, fun _ _ => id, fun h => absurd h (hfound _)⟩
  · cases hc; exact ⟨rfl, fun _ _ => id, fun h => (by cases h)⟩
  · cases hc; exact ⟨rfl, fun _ _ => id, fun h => absurd h (hmissed _)⟩
  · split at hc
    · cases hc; exact ⟨rfl, fun _ _ => id, fun h => (by cases h)⟩
    · cases hc; exact ⟨rfl, fun _ _ => id, fun h => absurd h (hfound _)⟩
  · cases hc

/-- A call is about to wake a lot only after it has made its word odd. -/
theorem opCode_wakeAll {l : Lot} {lots : List Lot}
    (h : (opCode lay op e m).2 = .wakeAll l lots) :
    State.stopped ((opCode lay op e m).1.pendingSignal l) = true := by
  have hres : ∀ k : After G, k.resume ≠ .wakeAll l lots := by
    rintro (_ | ⟨b, tid, nosignal⟩) h <;> cases h
  have hsig : ∀ start num (k : After G), signalTask start num k ≠ .wakeAll l lots := by
    intro start num k
    unfold signalTask
    split
    · exact hres k
    · simp
  have hnext : ∀ num ls (k : After G), Op.next num ls k ≠ .wakeAll l lots := by
    intro num ls k
    unfold Op.next
    split
    · exact hres k
    · simp
  unfold opCode at h ⊢
  split at h
  · cases h
  · split at h <;> cases h
  · split at h
    · split at h
      · cases h
      · exact absurd h (hsig _ _ _)
    · cases h
  · split at h
    · cases h
    · exact absurd h (hsig _ _ _)
  · exact absurd h (hsig _ _ _)
  · exact absurd h (hnext _ _ _)
  · cases h
  · split at h <;> exact absurd h (hnext _ _ _)
  · cases h
  · cases h
    simp only [Mem.setWord, Function.update_self]
    exact State.stopped_or_one _
  · cases h

/-- Only `ParkingLot::stop` stops a lot. -/
theorem opCode_stopped_eq {l : Lot} (h : ∀ lots, op ≠ .wakeAll l lots) :
    (opCode lay op e m).1.stopped l = m.stopped l := by
  cases op with
  | push b tid nosignal =>
    obtain ⟨g, _ | _⟩ := b
    · simp only [opCode]
      split <;> rfl
    · simp only [opCode]
      split
      · split <;> rfl
      · rfl
  | count g nosignal => simp only [opCode]; split <;> rfl
  | signal num lots k => cases lots <;> rfl
  | wake num l' lots k => simp only [opCode]; split <;> rfl
  | stop lots => cases lots <;> rfl
  | wakeAll l' lots =>
    have hl : l ≠ l' := fun he => h lots (by rw [he])
    simp [opCode, hl, Mem.setSleepers]
  | idle | flush b k => rfl

/-- The next access of a call keeps stopped lots empty. -/
theorem opCode_stopped [Fintype G] (hN : Fintype.card G ≤ 10000)
    (hn : ∀ l, (m.sleepers l).Nodup)
    (hs : ∀ l, m.stopped l = true →
      State.stopped (m.pendingSignal l) = true ∧ m.sleepers l = [])
    (hop : ∀ l lots, op = .wakeAll l lots → State.stopped (m.pendingSignal l) = true) {l : Lot}
    (h : (opCode lay op e m).1.stopped l = true) :
    State.stopped ((opCode lay op e m).1.pendingSignal l) = true ∧
      (opCode lay op e m).1.sleepers l = [] := by
  by_cases hw : ∃ lots, op = .wakeAll l lots
  · obtain ⟨lots, rfl⟩ := hw
    refine ⟨hop l lots rfl, ?_⟩
    have := (hn l).length_le_card
    simp [opCode, Mem.setSleepers]
    omega
  · rw [opCode_stopped_eq fun lots he => hw ⟨lots, he⟩] at h
    refine ⟨opCode_stays (hs l h).1, List.eq_nil_iff_forall_not_mem.mpr fun g hg => ?_⟩
    have := opCode_leaves.sleepers l hg
    rw [(hs l h).2] at this
    cases this

/-- One access of a call keeps what `ParkingLot::stop` leaves behind. -/
theorem Halting.call [Fintype G] (hN : Fintype.card G ≤ 10000) (hi : Seated lay s)
    (hh : Halting s) (hcall : Called lay e s.mem (s.pc t) m' p') :
    Halting ⟨m', Function.update s.pc t p'⟩ := by
  obtain ⟨rfl, hop, hpc⟩ := hcall
  have hne : p' ≠ .exited := by
    rcases hpc with ⟨-, hp⟩ | ⟨-, hp⟩ <;> rw [hp] <;> simp
  refine ⟨fun u l lots hu => ?_, fun l hl => ?_, fun g hg => ?_⟩
  · by_cases hut : u = t
    · subst hut
      simp only [Function.update_self, hop] at hu
      exact opCode_wakeAll hu
    · simp only [Function.update_of_ne hut] at hu
      exact opCode_stays (hh.waking u l lots hu)
  · exact opCode_stopped hN hi.nodup hh.stopped (fun l lots ho => hh.waking t l lots ho) hl
  · show State.stopped ((opCode lay (s.pc t).op e s.mem).1.lastPlState g) = true
    rw [opCode_leaves.last]
    by_cases hgt : t = .worker g
    · subst hgt
      simp only [Function.update_self] at hg
      exact absurd hg hne
    · simp only [Function.update_of_ne (Ne.symm hgt)] at hg
      exact hh.exited g hg

/-- A step that leaves the memory alone keeps what `ParkingLot::stop` leaves behind. -/
theorem Halting.quiet (hh : Halting s) (hp : ∀ l lots, p'.op ≠ .wakeAll l lots)
    (hne : p' ≠ .exited) : Halting ⟨s.mem, Function.update s.pc t p'⟩ := by
  refine ⟨fun u l lots hu => ?_, hh.stopped, fun g hg => ?_⟩
  · by_cases hut : u = t
    · subst hut
      simp only [Function.update_self] at hu
      exact absurd hu (hp l lots)
    · simp only [Function.update_of_ne hut] at hu
      exact hh.waking u l lots hu
  · by_cases hgt : t = .worker g
    · subst hgt
      simp only [Function.update_self] at hg
      exact absurd hg hne
    · simp only [Function.update_of_ne (Ne.symm hgt)] at hg
      exact hh.exited g hg

/-- A worker keeps what `ParkingLot::stop` leaves behind. -/
theorem Halting.worker (hh : Halting s)
    (hc : workerCode lay g (s.pc (.worker g)) k s.mem = some (m', p')) :
    Halting ⟨m', Function.update s.pc (.worker g) p'⟩ := by
  obtain ⟨hs, hsl, hex⟩ := workerCode_halting hc
  have hw := workerCode_word hc
  refine ⟨fun u l lots hu => ?_, fun l hl => ?_, fun h hg => ?_⟩
  · rw [hw]
    by_cases hut : u = .worker g
    · subst hut
      simp only [Function.update_self] at hu
      exact absurd hu (workerCode_wakeAll hc)
    · simp only [Function.update_of_ne hut] at hu
      exact hh.waking u l lots hu
  · rw [hs] at hl
    obtain ⟨h₁, h₂⟩ := hh.stopped l hl
    exact ⟨by rw [hw]; exact h₁, hsl l h₁ h₂⟩
  · rcases eq_or_ne h g with rfl | hne
    · simp only [Function.update_self] at hg
      exact hex hg
    · have ht : (Thread.worker h : Thread G) ≠ .worker g := fun he => hne (by cases he; rfl)
      simp only [Function.update_of_ne ht] at hg
      show State.stopped (m'.lastPlState h) = true
      rw [(workerCode_leaves hc hne).last]
      exact hh.exited h hg

variable [Fintype G]

/-- Every step keeps what `ParkingLot::stop` leaves behind. -/
theorem Halting.step (hN : Fintype.card G ≤ 10000) (hi : Seated lay s) (hh : Halting s)
    (hc : code lay t (s.pc t) k s.mem = some (m', p')) :
    Halting ⟨m', Function.update s.pc t p'⟩ := by
  cases stepped hc with
  | enter op hp ho hm hp' =>
    subst hm hp'
    refine hh.quiet (fun l lots he => ?_) (by simp)
    have he : op = .wakeAll l lots := he
    subst he
    cases ho
  | task op e hp hm hp' =>
    refine hh.call (e := e) hN hi ⟨?_, ?_, .inl ⟨?_, ?_⟩⟩
    all_goals simp [hp, hm, hp', Pc.op]
  | main op e hp hm hp' =>
    refine hh.call (e := e) hN hi ⟨?_, ?_, .inr ⟨?_, ?_⟩⟩
    all_goals simp [hp, hm, hp', Pc.op]
  | back hp hm hp' =>
    subst hm hp'
    exact hh.quiet (fun _ _ h => (by cases h)) (by simp)
  | worker g ht hc' =>
    subst ht
    exact hh.worker hc'

/-- What `ParkingLot::stop` leaves behind, in every reachable state. -/
theorem halting (hN : Fintype.card G ≤ 10000) (hs : (machine lay).Reachable s) : Halting s :=
  Program.invariant
    (fun m hm => by
      subst hm
      exact ⟨fun _ _ _ h => (by cases h), fun _ h => (by cases h), fun _ h => (by cases h)⟩)
    (fun _ _ _ _ _ hr hi _ hc => hi.step hN (seated hr.reachable) hc) hs

/-- **Stopping wakes everybody for good**: with at most 10000 workers, nobody sleeps in a lot whose
`stop` has returned, now or later; and a worker leaves `run_main_task` only when `stop` of its lot
has at least begun. -/
theorem stops (hN : Fintype.card G ≤ 10000) (hs : (machine lay).Reachable s) :
    (∀ l, s.mem.stopped l = true → s.mem.sleepers l = []) ∧
      ∀ g, s.pc (.worker g) = .exited →
        State.stopped (s.mem.pendingSignal (lay.lot g)) = true := by
  have hh := halting hN hs
  exact ⟨fun l hl => (hh.stopped l hl).2, fun g hg => (seated hs).last g (hh.exited g hg)⟩

/-- The next access; a scan finds `_ngroup` to be 0. -/
def goEmpty : Move Bool := .step ⟨secondLot, 0, []⟩

/-- The first worker goes to sleep and the lots are stopped; it scans no group any more and
leaves. -/
def sleepAndStop : List (Thread Bool × Move Bool) :=
  List.replicate 19 (.worker false, go) ++
    (.other 0, .call (.stop (List.finRange parkingLotNum))) :: List.replicate 8 (.other 0, go) ++
    List.replicate 5 (.worker false, goEmpty)

/-- Then nobody sleeps in its lot, and the word is stopped. -/
theorem stops_sleepAndStop : ∃ s : Config (Thread Bool) (Mem Bool) (Pc Bool),
    (machine twoGroups).exec ⟨.initial, fun _ => .idle⟩ sleepAndStop = some s ∧
      s.mem.sleepers (twoGroups.lot false) = [] ∧
      State.stopped (s.mem.pendingSignal (twoGroups.lot false)) = true := by
  obtain ⟨s, h, hl, hp⟩ : ∃ s, (machine twoGroups).exec ⟨.initial, fun _ => .idle⟩ sleepAndStop =
      some s ∧ s.mem.stopped (twoGroups.lot false) = true ∧ s.pc (.worker false) = .exited :=
    ⟨_, rfl, rfl, rfl⟩
  have hs := stops (by decide) (.exec (.of_init ⟨rfl, rfl⟩) h)
  exact ⟨s, h, hs.1 _ hl, hs.2 false hp⟩

end Bthread.Parking
